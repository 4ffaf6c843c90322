import Mathlib.Tactic.Positivity
import Subscription.Decimal.Binary

/-!
Decimals and their figures. The figures of a number give it back, zeros before them do not count, and
zeros behind them count as powers of ten. Two decimals with the same reduced form have the same place on
the binary grid.
-/

namespace Subscription.Decimal

variable {n place : Nat} {e : Int}

/-! ### Figures -/

theorem figures_ne_nil (n : Nat) : figures n ≠ [] :=
  Nat.toDigits_ne_nil

theorem isDigit_of_mem_figures {c : Char} (h : c ∈ figures n) : c.isDigit = true :=
  Nat.isDigit_of_mem_toDigits (by decide) (by decide) h

theorem length_figures_le_iff {k : Nat} (h : 0 < k) : (figures n).length ≤ k ↔ n < 10 ^ k :=
  Nat.length_toDigits_le_iff (by decide) h

theorem pow_length_figures_le (h : n ≠ 0) : 10 ^ ((figures n).length - 1) ≤ n := by
  rcases Nat.eq_zero_or_pos ((figures n).length - 1) with hzero | hpos
  · rw [hzero]
    exact Nat.one_le_iff_ne_zero.mpr h
  · by_contra hlt
    have hle := (length_figures_le_iff hpos).mpr (Nat.lt_of_not_le hlt)
    omega

theorem head_figures_ne_zero (h : n ≠ 0) : ∃ c cs, figures n = c :: cs ∧ c ≠ '0' := by
  have hone : ∀ m < 10, m ≠ 0 → Nat.digitChar m ≠ '0' := by decide
  induction n using Nat.strong_induction_on with
  | _ n ih =>
    rw [figures, Nat.toDigits_eq_if (by decide)]
    split
    · next hlt => exact ⟨_, [], rfl, hone n hlt h⟩
    · obtain ⟨c, cs, hfirst, hc⟩ := ih (n / 10) (by omega) (by omega)
      rw [show Nat.toDigits 10 (n / 10) = c :: cs from hfirst]
      exact ⟨c, cs ++ [_], rfl, hc⟩

theorem ofFigures_figures (n : Nat) : ofFigures (figures n) = n :=
  Nat.ofDigitChars_ten_toDigits

theorem ofFigures_append_zeros (cs : List Char) (n : Nat) :
    ofFigures (cs ++ List.replicate n '0') = ofFigures cs * 10 ^ n := by
  show Nat.ofDigitChars 10 (cs ++ List.replicate n '0') 0 = _
  rw [Nat.ofDigitChars_append, Nat.ofDigitChars_replicate_zero, Nat.mul_comm]
  rfl

theorem ofFigures_zeros_append (n : Nat) (cs : List Char) :
    ofFigures (List.replicate n '0' ++ cs) = ofFigures cs := by
  show Nat.ofDigitChars 10 (List.replicate n '0' ++ cs) 0 = _
  rw [Nat.ofDigitChars_append, Nat.ofDigitChars_replicate_zero, Nat.mul_zero]
  rfl

/-! ### Reduced forms -/

/-- Zeros at the end are moved into the exponent, and nothing else happens. -/
theorem dropZeros_mul_pow (h : n ≠ 0) (k : Nat) (e : Int) :
    dropZeros (n * 10 ^ k) e = dropZeros n (e + k) := by
  induction k generalizing e with
  | zero => simp
  | succ k ih =>
    have hne : n * 10 ^ (k + 1) ≠ 0 := Nat.mul_ne_zero h (by positivity)
    have hsplit : n * 10 ^ (k + 1) = n * 10 ^ k * 10 := by
      rw [pow_succ, Nat.mul_assoc]
    rw [dropZeros, if_pos ⟨hne, by omega⟩, hsplit, Nat.mul_div_cancel _ (by decide), ih]
    congr 1
    push_cast
    omega

theorem reduce_mul_pow (negative : Bool) (n k : Nat) (e : Int) :
    (⟨negative, n * 10 ^ k, e⟩ : Decimal).reduce = (⟨negative, n, e + k⟩ : Decimal).reduce := by
  by_cases h : n = 0
  · simp [reduce, h]
  · have hne : n * 10 ^ k ≠ 0 := Nat.mul_ne_zero h (by positivity)
    simp only [reduce, h, hne, if_false, dropZeros_mul_pow h]

theorem mul_pow_dropZeros (n : Nat) (e : Int) :
    ∃ k : Nat, (dropZeros n e).2 = e + k ∧ (dropZeros n e).1 * 10 ^ k = n := by
  fun_induction dropZeros n e with
  | case1 n e h ih =>
    obtain ⟨k, hexponent, hdigits⟩ := ih
    refine ⟨k + 1, by rw [hexponent]; push_cast; omega, ?_⟩
    rw [pow_succ, ← Nat.mul_assoc, hdigits]
    omega
  | case2 n e h => exact ⟨0, by simp, by simp⟩

theorem nearest_congr {d d' : Decimal} (h : d.reduce = d'.reduce) : d.nearest = d'.nearest := by
  have hnegative : d.negative = d'.negative := by
    rw [← reduce_negative d, h, reduce_negative]
  rw [nearest, nearest, h, hnegative]

end Subscription.Decimal
