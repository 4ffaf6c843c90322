import Subscription.Proofs.Json.Numerals

/-!
Values on one line. Whatever a value holds, none of the characters below the space is left in its compact
form: those in its texts and keys are escaped, and nothing else of it has any. So a log can keep one value
to a line.
-/

namespace Subscription.Json

variable {cs ds : List Char} {c : Char}

def Unbroken (cs : List Char) : Prop :=
  ∀ c ∈ cs, 0x20 ≤ c.toNat

instance (cs : List Char) : Decidable (Unbroken cs) :=
  List.decidableBAll (0x20 ≤ Char.toNat ·) cs

theorem Unbroken.newline_not_mem (h : Unbroken cs) : '\n' ∉ cs :=
  fun hmem => absurd (h '\n' hmem) (by decide)

@[simp] theorem unbroken_nil : Unbroken [] := by
  decide

@[simp] theorem unbroken_cons : Unbroken (c :: cs) ↔ 0x20 ≤ c.toNat ∧ Unbroken cs :=
  List.forall_mem_cons

@[simp] theorem unbroken_append : Unbroken (cs ++ ds) ↔ Unbroken cs ∧ Unbroken ds :=
  List.forall_mem_append

theorem unbroken_flatMap {α : Type} {f : α → List Char} {as : List α} (h : ∀ a ∈ as, Unbroken (f a)) :
    Unbroken (as.flatMap f) := by
  intro c hc
  obtain ⟨a, ha, hmem⟩ := List.mem_flatMap.mp hc
  exact h a ha c hmem

theorem Unbroken.sublist (h : Unbroken ds) (hsub : cs.Sublist ds) : Unbroken cs :=
  fun c hc => h c (hsub.subset hc)

theorem unbroken_replicate (n : Nat) (h : 0x20 ≤ c.toNat) : Unbroken (List.replicate n c) := by
  intro d hd
  rw [List.eq_of_mem_replicate hd]
  exact h

/-! ### Texts -/

theorem unbroken_escapeUnit {n : Nat} (h : n < 0x10000) : Unbroken (escapeUnit n) := by
  have hdigit : ∀ d < 16, 0x20 ≤ (Nat.digitChar d).toNat := by decide
  have h₁ := hdigit (n / 0x1000) (by omega)
  have h₂ := hdigit (n / 0x100 % 16) (by omega)
  have h₃ := hdigit (n / 16 % 16) (by omega)
  have h₄ := hdigit (n % 16) (by omega)
  simp [escapeUnit, hexFigures, h₁, h₂, h₃, h₄]

theorem unbroken_escape (c : Char) : Unbroken (escape c) := by
  unfold escape
  split_ifs with _ _ _ _ _ _ _ hcontrol
  any_goals decide
  -- Of the characters that have no escape of their own, those below the space are given by number.
  · exact unbroken_escapeUnit (by omega)
  · exact List.forall_mem_singleton.mpr (Nat.not_lt.mp hcontrol)

theorem unbroken_quote (t : Text) : Unbroken (quote t) := by
  have hparts : Unbroken (t.parts.flatMap escapePart) := by
    refine unbroken_flatMap fun p _ => ?_
    cases p with
    | char c => exact unbroken_escape c
    | lone u => exact unbroken_escapeUnit u.toNat_lt
  rw [quote, unbroken_append, unbroken_cons]
  exact ⟨⟨by decide, hparts⟩, by decide⟩

/-! ### Numbers -/

theorem unbroken_figures (n : Nat) : Unbroken (Decimal.figures n) := by
  intro c hc
  have hdigit := Decimal.isDigit_of_mem_figures hc
  rw [Char.isDigit, Bool.and_eq_true, decide_eq_true_eq, decide_eq_true_eq] at hdigit
  exact Nat.le_trans (by decide) (UInt32.le_iff_toNat_le.mp hdigit.1)

theorem LaidOut.unbroken {s laid : List Char} {exponent : Int} (h : LaidOut s exponent laid)
    (hs : Unbroken s) : Unbroken laid := by
  have hzeros (k : Nat) : Unbroken (List.replicate k '0') := unbroken_replicate k (by decide)
  have htake (k : Nat) : Unbroken (s.take k) := hs.sublist (List.take_sublist k s)
  have hdrop (k : Nat) : Unbroken (s.drop k) := hs.sublist (List.drop_sublist k s)
  have hpoint (k : Nat) : Unbroken ('.' :: s.drop k) := unbroken_cons.mpr ⟨by decide, hdrop k⟩
  cases h with
  | whole k => exact unbroken_append.mpr ⟨hs, hzeros k⟩
  | inside k => exact unbroken_append.mpr ⟨htake k, hpoint k⟩
  | below k =>
    rw [unbroken_cons, unbroken_cons, unbroken_append]
    exact ⟨by decide, by decide, hzeros k, hs⟩
  | power m =>
    have hfraction : Unbroken (if s.length = 1 then [] else '.' :: s.drop 1) := by
      split
      · exact unbroken_nil
      · exact hpoint 1
    have hsign : 0x20 ≤ (if m < 0 then '-' else '+' : Char).toNat := by
      split
      all_goals decide
    rw [unbroken_append, unbroken_append, unbroken_cons, unbroken_cons]
    exact ⟨htake 1, hfraction, by decide, hsign, unbroken_figures m.natAbs⟩

theorem unbroken_writeNumber (n : Number) : Unbroken (writeNumber n) := by
  cases n with
  | infinite => exact show Unbroken ['n', 'u', 'l', 'l'] by decide
  | finite d =>
    have hlayout : Unbroken (Number.layout d) := (laidOut_layout d).unbroken (unbroken_figures d.digits)
    rw [writeNumber, Number.finiteText]
    split_ifs
    · decide
    · exact unbroken_cons.mpr ⟨by decide, hlayout⟩
    · exact hlayout

/-! ### Values -/

theorem unbroken_writeItems {vs : List Json} {depth : Nat}
    (h : ∀ v ∈ vs, Unbroken (write .compact depth v)) : Unbroken (writeItems .compact depth vs) := by
  induction vs with
  | nil => simp [writeItems]
  | cons v vs ih =>
    obtain ⟨hv, hvs⟩ := List.forall_mem_cons.mp h
    simp [writeItems, Style.separator, hv, ih hvs]

theorem unbroken_writeFields {fs : List (Text × Json)} {depth : Nat}
    (h : ∀ f ∈ fs, Unbroken (write .compact depth f.2)) :
    Unbroken (writeFields .compact depth fs) := by
  induction fs with
  | nil => simp [writeFields]
  | cons f fs ih =>
    obtain ⟨hf, hfs⟩ := List.forall_mem_cons.mp h
    simp [writeFields, Style.separator, Style.colon, unbroken_quote, hf, ih hfs]

theorem unbroken_write (v : Json) : ∀ depth, Unbroken (write .compact depth v) := by
  induction v using parts_induction with
  | null => simp [write]
  | bool b => cases b <;> simp [write]
  | number n => simp [write, unbroken_writeNumber]
  | string t => simp [write, unbroken_quote]
  | array vs ih =>
    intro depth
    cases vs with
    | nil => simp [write]
    | cons v vs =>
      obtain ⟨hv, hvs⟩ := List.forall_mem_cons.mp ih
      have hitems := unbroken_writeItems fun w hw => hvs w hw (depth + 1)
      simp [write, Style.separator, hv, hitems]
  | object fs ih =>
    intro depth
    cases fs with
    | nil => simp [write]
    | cons f fs =>
      obtain ⟨hf, hfs⟩ := List.forall_mem_cons.mp ih
      have hfields := unbroken_writeFields fun g hg => hfs g hg (depth + 1)
      simp [write, Style.separator, Style.colon, unbroken_quote, hf, hfields]

theorem newline_not_mem_compact (v : Json) : '\n' ∉ v.compact.toList := by
  rw [compact, String.toList_ofList]
  exact (unbroken_write v 0).newline_not_mem

end Subscription.Json
