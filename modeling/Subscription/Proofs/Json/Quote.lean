import Subscription.Json.Printer
import Subscription.Json.Reader

/-!
Texts in quotation marks, read back. A text is written part by part and read unit by unit; every part
gives back its own units, escaped or not, so that any text comes back as it was, surrogates without a
partner included.
-/

namespace Subscription.Json

theorem hexValue?_digitChar : ∀ d < 16, hexValue? (Nat.digitChar d) = some d := by
  decide

theorem codeUnit?_hexFigures {n : Nat} (h : n < 0x10000) :
    codeUnit? (Nat.digitChar (n / 0x1000)) (Nat.digitChar (n / 0x100 % 16))
      (Nat.digitChar (n / 16 % 16)) (Nat.digitChar (n % 16)) = some (.ofNat n) := by
  have h₁ := hexValue?_digitChar (n / 0x1000) (by omega)
  have h₂ := hexValue?_digitChar (n / 0x100 % 16) (by omega)
  have h₃ := hexValue?_digitChar (n / 16 % 16) (by omega)
  have h₄ := hexValue?_digitChar (n % 16) (by omega)
  have hsum : ((n / 0x1000 * 16 + n / 0x100 % 16) * 16 + n / 16 % 16) * 16 + n % 16 = n := by omega
  rw [codeUnit?, h₁, h₂, h₃, h₄]
  show some (UInt16.ofNat (((n / 0x1000 * 16 + n / 0x100 % 16) * 16 + n / 16 % 16) * 16 + n % 16)) = _
  rw [hsum]

theorem readUnits_escapeUnit {n : Nat} (h : n < 0x10000) (cs : List Char) :
    readUnits (escapeUnit n ++ cs) = prepend (some [.ofNat n]) (readUnits cs) := by
  simp only [escapeUnit, hexFigures, List.cons_append, List.nil_append, readUnits,
    codeUnit?_hexFigures h, Option.map_some]

theorem readUnits_escape (c : Char) (cs : List Char) :
    readUnits (escape c ++ cs) = prepend (some (Text.charUnits c)) (readUnits cs) := by
  by_cases h₁ : c = '"'
  · subst h₁
    rfl
  by_cases h₂ : c = '\\'
  · subst h₂
    rfl
  by_cases h₃ : c = '\x08'
  · subst h₃
    rfl
  by_cases h₄ : c = '\t'
  · subst h₄
    rfl
  by_cases h₅ : c = '\n'
  · subst h₅
    rfl
  by_cases h₆ : c = '\x0c'
  · subst h₆
    rfl
  by_cases h₇ : c = '\r'
  · subst h₇
    rfl
  simp only [escape, h₁, h₂, h₃, h₄, h₅, h₆, h₇, if_false]
  split
  · next h =>
    rw [readUnits_escapeUnit (by omega), Text.charUnits, if_pos (by omega)]
  · next h =>
    show readUnits (c :: cs) = _
    rw [readUnits]
    · simp [h, h₂]
    · exact h₁
    · exact fun _ _ _ _ _ e _ => h₂ e
    · exact fun _ _ e _ => h₂ e

theorem readUnits_escapePart (p : Text.Part) (cs : List Char) :
    readUnits (escapePart p ++ cs) = prepend (some p.units) (readUnits cs) := by
  cases p with
  | char c => exact readUnits_escape c cs
  | lone u =>
    rw [escapePart, readUnits_escapeUnit u.toNat_lt]
    simp [Text.Part.units]

theorem readUnits_escapeParts (ps : List Text.Part) (cs : List Char) :
    readUnits (ps.flatMap escapePart ++ '"' :: cs) = some (ps.flatMap Text.Part.units, cs) := by
  induction ps with
  | nil => rfl
  | cons p ps ih =>
    rw [List.flatMap_cons, List.append_assoc, readUnits_escapePart, ih]
    rfl

theorem readText_quote (t : Text) (cs : List Char) :
    ∃ body, quote t = '"' :: body ∧ readText (body ++ cs) = some (t, cs) := by
  refine ⟨t.parts.flatMap escapePart ++ ['"'], rfl, ?_⟩
  rw [List.append_assoc, readText]
  show (readUnits (t.parts.flatMap escapePart ++ '"' :: cs)).map _ = _
  rw [readUnits_escapeParts, Text.parts, Text.flatMap_units_partsOf]
  rfl

end Subscription.Json
