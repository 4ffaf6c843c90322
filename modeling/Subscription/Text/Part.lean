import Subscription.Text.Basic

/-!
The characters of a text. Where a high surrogate stands before a low one, the two are a character; a
surrogate without a partner is a part of its own. Outside the program, where there are characters
only, the replacement character stands for it. Main statements: a text is made of the units of its
parts, and the parts of a string are its characters, so that two strings make the same text only if
they are the same.
-/

namespace Subscription.Text

inductive Part where
  | char (c : Char)
  | lone (unit : UInt16)
deriving DecidableEq

def Part.units : Part → List UInt16
  | .char c => charUnits c
  | .lone u => [u]

def Part.shown : Part → Char
  | .char c => c
  | .lone _ => '\ufffd'

def pair? (u v : UInt16) : Option Char :=
  if 0xD800 ≤ u.toNat ∧ u.toNat < 0xDC00 ∧ 0xDC00 ≤ v.toNat ∧ v.toNat < 0xE000 then
    some (Char.ofNat (0x10000 + (u.toNat - 0xD800) * 0x400 + (v.toNat - 0xDC00)))
  else none

def single (u : UInt16) : Part :=
  if 0xD800 ≤ u.toNat ∧ u.toNat < 0xE000 then .lone u else .char (Char.ofNat u.toNat)

def partsOf : List UInt16 → List Part
  | [] => []
  | [u] => [single u]
  | u :: v :: us =>
    match pair? u v with
    | some c => .char c :: partsOf us
    | none => single u :: partsOf (v :: us)

def parts (t : Text) : List Part :=
  partsOf t.units

def toString (t : Text) : String :=
  String.ofList (t.parts.map Part.shown)

theorem toNat_char (c : Char) : c.toNat < 0xD800 ∨ 0xDFFF < c.toNat ∧ c.toNat < 0x110000 :=
  c.valid

theorem toNat_ofNat_char {n : Nat} (h : n < 0xD800 ∨ 0xDFFF < n ∧ n < 0x110000) :
    (Char.ofNat n).toNat = n := by
  have h : n.isValidChar := h
  rw [Char.ofNat, dif_pos h]
  rfl

theorem ofNat_toNat_char (c : Char) : Char.ofNat c.toNat = c := by
  apply Char.toNat_inj.1
  exact toNat_ofNat_char (toNat_char c)

theorem toNat_unit {n : Nat} (h : n < 0x10000) : (UInt16.ofNat n).toNat = n :=
  UInt16.toNat_ofNat_of_lt' h

theorem units_single (u : UInt16) : (single u).units = [u] := by
  have hu := u.toNat_lt
  unfold single
  split
  · rfl
  · have h : (Char.ofNat u.toNat).toNat = u.toNat := toNat_ofNat_char (by omega)
    simp only [Part.units, charUnits, h]
    rw [if_pos (by omega)]
    simp

theorem charUnits_of_pair? {u v : UInt16} {c : Char} (h : pair? u v = some c) :
    charUnits c = [u, v] := by
  unfold pair? at h
  split at h
  · next hs =>
    obtain rfl := Option.some.inj h
    have hc := toNat_ofNat_char
      (n := 0x10000 + (u.toNat - 0xD800) * 0x400 + (v.toNat - 0xDC00)) (by omega)
    simp only [charUnits, hc]
    rw [if_neg (by omega)]
    have hu : 0xD800 + (0x10000 + (u.toNat - 0xD800) * 0x400 + (v.toNat - 0xDC00) - 0x10000) / 0x400
      = u.toNat := by omega
    have hv : 0xDC00 + (0x10000 + (u.toNat - 0xD800) * 0x400 + (v.toNat - 0xDC00) - 0x10000) % 0x400
      = v.toNat := by omega
    rw [hu, hv]
    simp
  · simp at h

theorem flatMap_units_partsOf (us : List UInt16) : (partsOf us).flatMap Part.units = us := by
  fun_induction partsOf us with
  | case1 => rfl
  | case2 u => simp [units_single]
  | case3 u v us c h ih => simp [Part.units, charUnits_of_pair? h, ih]
  | case4 u v us _ ih => simp [units_single, ih]

/-- The parts that follow a character are not affected by it. -/
theorem partsOf_charUnits_append (c : Char) (us : List UInt16) :
    partsOf (charUnits c ++ us) = .char c :: partsOf us := by
  have hc := toNat_char c
  simp only [charUnits]
  split
  · next h =>
    have hu := toNat_unit h
    have hs : single (.ofNat c.toNat) = .char c := by
      simp only [single, hu]
      rw [if_neg (by omega), ofNat_toNat_char]
    cases us with
    | nil => simp [partsOf, hs]
    | cons v us =>
      have hp : pair? (.ofNat c.toNat) v = none := by
        simp only [pair?, hu]
        rw [if_neg (by omega)]
      simp [partsOf, hp, hs]
  · next h =>
    have hu := toNat_unit (n := 0xD800 + (c.toNat - 0x10000) / 0x400) (by omega)
    have hv := toNat_unit (n := 0xDC00 + (c.toNat - 0x10000) % 0x400) (by omega)
    have hp : pair? (.ofNat (0xD800 + (c.toNat - 0x10000) / 0x400))
        (.ofNat (0xDC00 + (c.toNat - 0x10000) % 0x400)) = some c := by
      simp only [pair?, hu, hv]
      rw [if_pos (by omega)]
      have hn : 0x10000 + (0xD800 + (c.toNat - 0x10000) / 0x400 - 0xD800) * 0x400 +
        (0xDC00 + (c.toNat - 0x10000) % 0x400 - 0xDC00) = c.toNat := by omega
      rw [hn, ofNat_toNat_char]
    simp only [List.cons_append, List.nil_append, partsOf, hp]

theorem parts_ofString (s : String) : (ofString s).parts = s.toList.map Part.char := by
  simp only [parts, ofString]
  induction s.toList with
  | nil => rfl
  | cons c cs ih => rw [List.flatMap_cons, partsOf_charUnits_append, ih, List.map_cons]

@[simp] theorem toString_ofString (s : String) : (ofString s).toString = s := by
  simp [toString, parts_ofString, Function.comp_def, Part.shown]

@[simp] theorem ofString_inj {s t : String} : ofString s = ofString t ↔ s = t :=
  ⟨fun h => by rw [← toString_ofString s, h, toString_ofString], fun h => h ▸ rfl⟩

end Subscription.Text
