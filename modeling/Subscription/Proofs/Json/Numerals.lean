import Subscription.Json.Printer
import Subscription.Json.Reader
import Subscription.Proofs.Decimal.Integers
import Subscription.Proofs.Json.Settled

/-!
Numbers, read back. A number is read as far as it goes, so what stands behind it must not go on with it.
The figures of a number are laid out in one of four ways; each of them is read as a decimal with the same
reduced form, which is why the number that stands for it is the one that was written. Negative zero is
written without its sign, and is the only finite number that does not come back.
-/

namespace Subscription.Json

variable {d : Decimal} {negative : Bool} {cs : List Char}

/-! ### The parts of a number -/

def continues (c : Char) : Bool :=
  c.isDigit || c = '.' || c = 'e' || c = 'E'

def Follows (cs : List Char) : Prop :=
  ∀ c ∈ cs.head?, continues c = false

theorem follows_nil : Follows [] := by
  simp [Follows]

theorem follows_cons {c : Char} (h : continues c = false) (cs : List Char) : Follows (c :: cs) := by
  simpa [Follows] using h

theorem readFigures_append {s : List Char} (hs : s ≠ []) (hdigits : ∀ c ∈ s, c.isDigit = true)
    (hcs : ∀ c ∈ cs.head?, c.isDigit = false) : readFigures (s ++ cs) = some (s, cs) := by
  have hnone : cs.takeWhile Char.isDigit = [] ∧ cs.dropWhile Char.isDigit = cs := by
    cases cs with
    | nil => exact ⟨rfl, rfl⟩
    | cons c cs =>
      have hc : c.isDigit = false := hcs c rfl
      simp [hc]
  rw [readFigures, List.takeWhile_append_of_pos hdigits, List.dropWhile_append_of_pos hdigits,
    hnone.1, hnone.2, List.append_nil]
  cases s with
  | nil => exact absurd rfl hs
  | cons => rfl

theorem Follows.not_isDigit (h : Follows cs) : ∀ c ∈ cs.head?, c.isDigit = false := by
  intro c hc
  have hnot := h c hc
  rw [continues, Bool.or_eq_false_iff, Bool.or_eq_false_iff, Bool.or_eq_false_iff] at hnot
  exact hnot.1.1.1

theorem readFraction_of_head_ne (h : ∀ c ∈ cs.head?, c ≠ '.') : readFraction cs = some ([], cs) := by
  cases cs with
  | nil => rfl
  | cons c cs =>
    rw [readFraction]
    exact fun _ e => absurd (List.head_eq_of_cons_eq e) (h c rfl)

theorem Follows.ne_point (h : Follows cs) : ∀ c ∈ cs.head?, c ≠ '.' := by
  rintro c hc rfl
  exact absurd (h '.' hc) (by decide)

theorem readExponent_of_follows (h : Follows cs) : readExponent cs = some (0, cs) := by
  cases cs with
  | nil => rfl
  | cons c cs =>
    have hc : ¬(c = 'e' ∨ c = 'E') := by
      rintro (rfl | rfl) <;> exact absurd (h _ rfl) (by decide)
    unfold readExponent
    exact if_neg hc

theorem readWhole_append {s : List Char} (hs : ∃ c cs, s = c :: cs ∧ c ≠ '0')
    (hdigits : ∀ c ∈ s, c.isDigit = true) (hcs : ∀ c ∈ cs.head?, c.isDigit = false) :
    readWhole (s ++ cs) = some (s, cs) := by
  obtain ⟨c, rest, rfl, hc⟩ := hs
  rw [← readFigures_append (List.cons_ne_nil c rest) hdigits hcs, List.cons_append, readWhole]
  exact fun _ e => absurd (List.head_eq_of_cons_eq e) hc

theorem readUnsigned_of_parts {whole fraction cs₁ cs₂ cs₃ cs₄ : List Char} {exponent : Int}
    (hwhole : readWhole cs₁ = some (whole, cs₂)) (hfraction : readFraction cs₂ = some (fraction, cs₃))
    (hexponent : readExponent cs₃ = some (exponent, cs₄)) :
    readUnsigned negative cs₁ =
      some (⟨negative, Decimal.ofFigures (whole ++ fraction), exponent - fraction.length⟩, cs₄) := by
  simp [readUnsigned, hwhole, hfraction, hexponent]

theorem readFraction_point {f : List Char} (hf : f ≠ []) (hdigits : ∀ c ∈ f, c.isDigit = true)
    (hcs : ∀ c ∈ cs.head?, c.isDigit = false) : readFraction ('.' :: (f ++ cs)) = some (f, cs) :=
  readFigures_append hf hdigits hcs

theorem readFraction_optional {f : List Char} (hdigits : ∀ c ∈ f, c.isDigit = true)
    (hdigit : ∀ c ∈ cs.head?, c.isDigit = false) (hpoint : ∀ c ∈ cs.head?, c ≠ '.') :
    readFraction ((if f = [] then [] else '.' :: f) ++ cs) = some (f, cs) := by
  split
  · next hf =>
    rw [hf]
    exact readFraction_of_head_ne hpoint
  · next hf => exact readFraction_point hf hdigits hdigit

/-- The exponent, which is always written with its sign. -/
theorem readExponent_signed (m : Int) (h : Follows cs) :
    readExponent ('e' :: (if m < 0 then '-' else '+') :: (Decimal.figures m.natAbs ++ cs)) =
      some (m, cs) := by
  have hread := readFigures_append (Decimal.figures_ne_nil m.natAbs)
    (fun c => Decimal.isDigit_of_mem_figures) h.not_isDigit
  unfold readExponent
  dsimp only
  rw [if_pos (Or.inl rfl)]
  by_cases hm : m < 0
  · simp only [hm, if_true, hread, Option.map_some, Decimal.ofFigures_figures]
    rw [show -(m.natAbs : Int) = m by omega]
  · simp only [hm, if_false, hread, Option.map_some, Decimal.ofFigures_figures]
    rw [show (m.natAbs : Int) = m by omega]

/-! ### The layout of a number -/

/-- The four ways in which some figures are laid out: in front of the point, on both sides of it, behind
it, and with an exponent. -/
inductive LaidOut (s : List Char) (exponent : Int) : List Char → Prop
  | whole (k : Nat) (h : exponent = k) : LaidOut s exponent (s ++ List.replicate k '0')
  | inside (k : Nat) (hpos : 0 < k) (hlt : k < s.length) (h : s.length + exponent = k) :
      LaidOut s exponent (s.take k ++ '.' :: s.drop k)
  | below (k : Nat) (h : s.length + exponent = -k) :
      LaidOut s exponent ('0' :: '.' :: (List.replicate k '0' ++ s))
  | power (m : Int) (h : s.length + exponent = m + 1) :
      LaidOut s exponent (s.take 1 ++ ((if s.length = 1 then [] else '.' :: s.drop 1) ++
        'e' :: (if m < 0 then '-' else '+') :: Decimal.figures m.natAbs))

theorem laidOut_layout (d : Decimal) :
    LaidOut (Decimal.figures d.digits) d.exponent (Number.layout d) := by
  have hne := Decimal.figures_ne_nil d.digits
  rw [Number.layout]
  generalize Decimal.figures d.digits = s at hne ⊢
  have hlength := List.length_pos_of_ne_nil hne
  have hpower : LaidOut s d.exponent _ := .power (s.length + d.exponent - 1) (by omega)
  rw [← List.append_assoc] at hpower
  dsimp only
  split
  · exact .whole _ (by omega)
  split
  · exact .inside _ (by omega) (by omega) (by omega)
  split
  · exact .below (-(s.length + d.exponent)).toNat (by omega)
  · exact hpower

/-- Figures that are laid out are read as a decimal with the same reduced form. -/
theorem LaidOut.readUnsigned {s laid : List Char} {exponent : Int} (hlaid : LaidOut s exponent laid)
    (hfirst : ∃ c cs, s = c :: cs ∧ c ≠ '0') (hs : ∀ c ∈ s, c.isDigit = true) (h : Follows cs)
    (negative : Bool) :
    ∃ read : Decimal, Json.readUnsigned negative (laid ++ cs) = some (read, cs) ∧
      read.reduce = (⟨negative, Decimal.ofFigures s, exponent⟩ : Decimal).reduce := by
  have hzeros : ∀ k, ∀ c ∈ List.replicate k '0', c.isDigit = true := by
    intro k c hc
    rw [List.eq_of_mem_replicate hc]
    rfl
  have hne : s ≠ [] := by
    obtain ⟨c, rest, rfl, -⟩ := hfirst
    exact List.cons_ne_nil c rest
  cases hlaid with
  | whole k hk =>
    have hwhole : readWhole (s ++ List.replicate k '0' ++ cs) = some (s ++ List.replicate k '0', cs) := by
      refine readWhole_append ?_ (fun c hc => ?_) h.not_isDigit
      · obtain ⟨c, rest, rfl, hc⟩ := hfirst
        exact ⟨c, rest ++ List.replicate k '0', rfl, hc⟩
      · exact (List.mem_append.mp hc).elim (hs c) (hzeros k c)
    have hfraction := readFraction_of_head_ne h.ne_point
    refine ⟨_, readUnsigned_of_parts hwhole hfraction (readExponent_of_follows h), ?_⟩
    rw [List.append_nil, Decimal.ofFigures_append_zeros, Decimal.reduce_mul_pow]
    simp [hk]
  | inside k hpos hlt hk =>
    have hwhole : readWhole (s.take k ++ '.' :: s.drop k ++ cs) =
        some (s.take k, '.' :: (s.drop k ++ cs)) := by
      rw [List.append_assoc, List.cons_append]
      refine readWhole_append ?_ (fun c hc => hs c (List.mem_of_mem_take hc)) (by simp)
      obtain ⟨c, rest, rfl, hc⟩ := hfirst
      obtain ⟨k, rfl⟩ := Nat.exists_eq_succ_of_ne_zero (Nat.ne_of_gt hpos)
      exact ⟨c, rest.take k, rfl, hc⟩
    have hfraction : readFraction ('.' :: (s.drop k ++ cs)) = some (s.drop k, cs) := by
      refine readFraction_point ?_ (fun c hc => hs c (List.mem_of_mem_drop hc)) h.not_isDigit
      exact List.drop_eq_nil_iff.not.mpr (Nat.not_le.mpr hlt)
    refine ⟨_, readUnsigned_of_parts hwhole hfraction (readExponent_of_follows h), ?_⟩
    rw [List.take_append_drop, List.length_drop]
    congr 2
    omega
  | below k hk =>
    have hfraction : readFraction ('.' :: (List.replicate k '0' ++ s ++ cs)) =
        some (List.replicate k '0' ++ s, cs) := by
      refine readFraction_point ?_ (fun c hc => ?_) h.not_isDigit
      · exact List.append_ne_nil_of_right_ne_nil _ hne
      · exact (List.mem_append.mp hc).elim (hzeros k c) (hs c)
    refine ⟨_, readUnsigned_of_parts rfl hfraction (readExponent_of_follows h), ?_⟩
    have hvalue : Decimal.ofFigures (['0'] ++ (List.replicate k '0' ++ s)) = Decimal.ofFigures s := by
      rw [← List.append_assoc]
      exact Decimal.ofFigures_zeros_append (k + 1) s
    rw [hvalue, List.length_append, List.length_replicate]
    congr 2
    omega
  | power m hm =>
    obtain ⟨c, rest, rfl, hc⟩ := hfirst
    obtain ⟨hdigit, hrest⟩ := List.forall_mem_cons.mp hs
    generalize htail : 'e' :: (if m < 0 then '-' else '+') :: (Decimal.figures m.natAbs ++ cs) = tail
    have hexponent : readExponent tail = some (m, cs) := htail ▸ readExponent_signed m h
    have hfraction : readFraction ((if rest = [] then [] else '.' :: rest) ++ tail) =
        some (rest, tail) := by
      subst htail
      exact readFraction_optional hrest (by simp) (by simp)
    have hwhole : readWhole (c :: ((if rest = [] then [] else '.' :: rest) ++ tail)) =
        some ([c], (if rest = [] then [] else '.' :: rest) ++ tail) := by
      subst htail
      refine readWhole_append ⟨c, [], rfl, hc⟩ (List.forall_mem_singleton.mpr hdigit) ?_
      split <;> simp
    simp only [List.length_cons, Nat.add_eq_right, List.length_eq_zero_iff, List.take_succ_cons,
      List.take_zero, List.drop_succ_cons, List.drop_zero, List.cons_append, List.nil_append,
      List.append_assoc, htail] at hm ⊢
    refine ⟨_, readUnsigned_of_parts hwhole hfraction hexponent, ?_⟩
    congr 2
    push_cast at hm
    omega

theorem readUnsigned_layout (hd : d.digits ≠ 0) (h : Follows cs) (negative : Bool) :
    ∃ read : Decimal, readUnsigned negative (Number.layout d ++ cs) = some (read, cs) ∧
      read.reduce = (⟨negative, d.digits, d.exponent⟩ : Decimal).reduce := by
  have hread := (laidOut_layout d).readUnsigned (Decimal.head_figures_ne_zero hd)
    (fun c => Decimal.isDigit_of_mem_figures) h negative
  rwa [Decimal.ofFigures_figures] at hread

/-- A layout begins with a figure. -/
theorem layout_cons (d : Decimal) : ∃ c cs, Number.layout d = c :: cs ∧ c.isDigit = true := by
  have hlaid := laidOut_layout d
  have hdigits : ∀ c ∈ Decimal.figures d.digits, c.isDigit = true :=
    fun c => Decimal.isDigit_of_mem_figures
  obtain ⟨c, rest, hs⟩ := List.exists_cons_of_ne_nil (Decimal.figures_ne_nil d.digits)
  rw [hs] at hlaid hdigits
  have hc := hdigits c List.mem_cons_self
  generalize Number.layout d = laid at hlaid ⊢
  cases hlaid with
  | whole | power => exact ⟨c, _, rfl, hc⟩
  | inside k hpos =>
    obtain ⟨k, rfl⟩ := Nat.exists_eq_succ_of_ne_zero (Nat.ne_of_gt hpos)
    exact ⟨c, _, rfl, hc⟩
  | below => exact ⟨'0', _, rfl, rfl⟩

/-! ### Numbers -/

/-- Whether a number is read back from its written form: it is finite, and not negative zero. -/
def IsNumeral : Number → Prop
  | .finite d _ => d.digits = 0 → d.negative = false
  | .infinite _ => False

theorem isNumeral_ofInt {n : Int} (h : n.natAbs < 2 ^ 52) : IsNumeral (.ofInt n) := by
  obtain ⟨d, shortest, hd, hnegative, k, -, hvalue⟩ := Number.ofInt_eq h
  rw [hd]
  intro hzero
  rw [hzero, Nat.zero_mul] at hvalue
  rw [hnegative]
  exact decide_eq_false (by omega)

theorem finiteText_cons (d : Decimal) :
    ∃ c cs, Number.finiteText d = c :: cs ∧ (c = '-' ∨ c.isDigit = true) := by
  obtain ⟨c, rest, hlayout, hc⟩ := layout_cons d
  rw [Number.finiteText]
  split_ifs
  · exact ⟨'0', [], rfl, Or.inr rfl⟩
  · exact ⟨'-', _, rfl, Or.inl rfl⟩
  · exact ⟨c, rest, hlayout, Or.inr hc⟩

theorem readNumber_of_ne_minus {c : Char} (hc : c ≠ '-') :
    readNumber (c :: cs) =
      (readUnsigned false (c :: cs)).map fun r => (.number (.ofDecimal r.1), r.2) := by
  rw [readNumber]
  exact fun _ e => absurd (List.head_eq_of_cons_eq e) hc

theorem readNumber_zero (h : Follows cs) : readNumber ('0' :: cs) = some (.number 0, cs) := by
  have hread : readUnsigned false ('0' :: cs) = some (⟨false, 0, 0⟩, cs) :=
    readUnsigned_of_parts (show readWhole ('0' :: cs) = some (['0'], cs) from rfl)
      (readFraction_of_head_ne h.ne_point) (readExponent_of_follows h)
  rw [readNumber_of_ne_minus (by decide), hread]
  rfl

/-- What is read is what is left of a number. -/
theorem readNumber_finiteText (shortest : d.nearest = some d) (h : Follows cs) :
    readNumber (Number.finiteText d ++ cs) = some (settledNumber (.finite d shortest), cs) := by
  -- It is enough that some decimal is read that has the same reduced form.
  have hreduced : ∀ read : Decimal, read.reduce = d.reduce →
      Json.number (.ofDecimal read) = .number (.finite d shortest) := by
    intro read hreduce
    rw [Number.ofDecimal_eq_finite ((Decimal.nearest_congr hreduce).trans shortest)]
  have hparts : d = ⟨d.negative, d.digits, d.exponent⟩ := rfl
  rw [Number.finiteText, settledNumber]
  by_cases hzero : d.digits = 0
  · rw [if_pos hzero, List.singleton_append, readNumber_zero h]
    by_cases hnegative : d.negative
    · rw [if_pos ⟨hzero, hnegative⟩]
    · have hnone : (⟨false, 0, 0⟩ : Decimal).reduce = d.reduce := by
        rw [Decimal.reduce, Decimal.reduce, if_pos rfl, if_pos hzero, hzero,
          Bool.eq_false_of_not_eq_true hnegative]
      have hpositive : ¬(d.digits = 0 ∧ d.negative = true) := fun hboth => hnegative hboth.2
      rw [if_neg hpositive, ← hreduced _ hnone]
      rfl
  · have hfigures : ¬(d.digits = 0 ∧ d.negative = true) := fun hboth => hzero hboth.1
    rw [if_neg hzero, if_neg hfigures]
    split_ifs with hnegative
    · obtain ⟨read, hread, hreduce⟩ := readUnsigned_layout hzero h true
      rw [List.cons_append, readNumber]
      simp only [hread, Option.map_some]
      rw [hreduced read (by rw [hreduce, hparts, hnegative])]
    · obtain ⟨read, hread, hreduce⟩ := readUnsigned_layout hzero h false
      obtain ⟨c, rest, hlayout, hc⟩ := layout_cons d
      rw [hlayout, List.cons_append] at hread ⊢
      rw [readNumber_of_ne_minus (by rintro rfl; exact absurd hc (by decide)), hread, Option.map_some,
        hreduced read (by rw [hreduce, hparts, Bool.eq_false_of_not_eq_true hnegative])]

end Subscription.Json
