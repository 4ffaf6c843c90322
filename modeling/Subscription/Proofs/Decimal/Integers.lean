import Subscription.Number
import Subscription.Proofs.Decimal.Figures

/-!
Whole numbers on the binary grid. A natural number of at most 53 bits is a grid point of its own, and one
of at most 52 bits is the decimal that stands for it: the search among the decimals around it, those with
fewer figures first, comes to the number itself at the last of its own places, and until then it has seen
whole numbers only.
-/

namespace Subscription.Decimal

variable {n m k : Nat} {d c : Decimal} {negative : Bool}

theorem scaled_natCast (num den base k : Nat) : scaled num den base k = (num * base ^ k, den) := by
  rw [scaled, if_pos (Int.natCast_nonneg k)]
  rfl

theorem scaled_neg_natCast (num den base k : Nat) :
    scaled num den base (-k) = (num, den * base ^ k) := by
  rcases Nat.eq_zero_or_pos k with rfl | hk
  · simp [scaled]
  · rw [scaled, if_neg (by omega), Int.neg_neg]
    rfl

theorem scaled_zero (num den base : Nat) : scaled num den base 0 = (num, den) := by
  simp [scaled]

/-! ### Grid points -/

def whole (n : Nat) : GridPoint :=
  ⟨n * 2 ^ (52 - n.log2), -(52 - n.log2 : Nat)⟩

theorem whole_injective (h : whole m = whole n) : m = n := by
  obtain ⟨hsignificand, hexponent⟩ := GridPoint.mk.inj h
  rw [Nat.cast_inj.mp (Int.neg_inj.mp hexponent)] at hsignificand
  exact Nat.eq_of_mul_eq_mul_right (by positivity) hsignificand

theorem roundEven_one (n : Nat) : roundEven n 1 = n := by
  simp [roundEven, Nat.mod_one]

theorem log2_le (h : n < 2 ^ 53) : n.log2 ≤ 52 := by
  rcases Nat.eq_zero_or_pos n with rfl | hn
  · decide
  · exact Nat.le_of_lt_succ ((Nat.log2_lt hn.ne').mpr h)

/-- A number of at most 53 bits, moved so that it has just as many. -/
theorem mul_pow_log2 (hn : n ≠ 0) (h : n < 2 ^ 53) :
    2 ^ 52 ≤ n * 2 ^ (52 - n.log2) ∧ n * 2 ^ (52 - n.log2) < 2 ^ 53 := by
  have hlog := log2_le h
  constructor
  · calc 2 ^ 52 = 2 ^ n.log2 * 2 ^ (52 - n.log2) := by
          rw [← pow_add, Nat.add_sub_cancel' hlog]
      _ ≤ n * 2 ^ (52 - n.log2) := Nat.mul_le_mul_right _ (Nat.log2_self_le hn)
  · calc n * 2 ^ (52 - n.log2) < 2 ^ (n.log2 + 1) * 2 ^ (52 - n.log2) :=
          Nat.mul_lt_mul_of_pos_right Nat.lt_log2_self (by positivity)
      _ = 2 ^ 53 := by
          rw [← pow_add]
          congr 1
          omega

theorem gridExponent_whole (hn : n ≠ 0) (h : n < 2 ^ 53) :
    gridExponent n 1 = -(52 - n.log2 : Nat) := by
  have hlog := log2_le h
  have hlow : max (-1074) ((n.log2 : Int) - Nat.log2 1 - 53) = -(53 - n.log2 : Nat) := by
    rw [show Nat.log2 1 = 0 by decide]
    omega
  have hdouble : n * 2 ^ (53 - n.log2) = n * 2 ^ (52 - n.log2) * 2 := by
    rw [show 53 - n.log2 = 52 - n.log2 + 1 by omega, pow_succ, Nat.mul_assoc]
  unfold gridExponent
  dsimp only
  rw [hlow, Int.neg_neg, scaled_natCast, if_pos]
  · omega
  · have hbits := (mul_pow_log2 hn h).1
    show 2 ^ 53 ≤ n * 2 ^ (53 - n.log2) / 1
    omega

theorem gridPoint?_whole (hn : n ≠ 0) (h : n < 2 ^ 53) : gridPoint? n 1 = some (whole n) := by
  have hbits := (mul_pow_log2 hn h).2
  unfold gridPoint?
  dsimp only
  rw [gridExponent_whole hn h, Int.neg_neg, scaled_natCast, roundEven_one,
    if_neg (show n * 2 ^ (52 - n.log2) ≠ Nat.pow 2 53 from Nat.ne_of_lt hbits), if_neg]
  · rfl
  · dsimp only
    omega

def IsWhole (d : Decimal) (n : Nat) : Prop :=
  ∃ k : Nat, d.exponent = k ∧ d.digits * 10 ^ k = n

theorem isWhole_reduce (negative : Bool) (m k : Nat) :
    (⟨negative, m, k⟩ : Decimal).reduce.IsWhole (m * 10 ^ k) := by
  by_cases hm : m = 0
  · exact ⟨0, by simp [reduce, hm], by simp [reduce, hm]⟩
  · obtain ⟨j, hexponent, hdigits⟩ := mul_pow_dropZeros m k
    refine ⟨k + j, ?_, ?_⟩
    · simp only [reduce, hm, if_false, hexponent]
      rfl
    · simp only [reduce, hm, if_false]
      rw [Nat.add_comm, pow_add, ← Nat.mul_assoc, hdigits]

/-- The grid point of a decimal that is a whole number. -/
theorem IsWhole.point? (hd : d.IsWhole n) (hn : n ≠ 0) (h : n < 2 ^ 53) :
    d.point? = some (whole n) := by
  obtain ⟨k, hk, rfl⟩ := hd
  have hdigits : d.digits ≠ 0 := left_ne_zero_of_mul hn
  have hfigures : (figures d.digits).length ≤ 16 := by
    refine (length_figures_le_iff (by decide)).mpr ?_
    calc d.digits ≤ d.digits * 10 ^ k := Nat.le_mul_of_pos_right _ (by positivity)
      _ < 10 ^ 16 := h.trans (by decide)
  have hplace : k < 16 := by
    refine (Nat.pow_lt_pow_iff_right (show 1 < 10 by decide)).mp ?_
    calc 10 ^ k ≤ d.digits * 10 ^ k := Nat.le_mul_of_pos_left _ (Nat.pos_of_ne_zero hdigits)
      _ < 10 ^ 16 := h.trans (by decide)
  unfold Decimal.point?
  dsimp only
  rw [if_neg (by simp only [hdigits]; simp; omega), if_neg (by omega), hk, scaled_natCast,
    gridPoint?_whole hn h]

theorem point?_self (negative : Bool) (hn : n ≠ 0) (h : n < 2 ^ 53) :
    (⟨negative, n, 0⟩ : Decimal).reduce.point? = some (whole n) := by
  have hwhole := isWhole_reduce negative n 0
  rw [pow_zero, Nat.mul_one] at hwhole
  exact hwhole.point? hn h

/-! ### The decimals around a grid point -/

/-- A whole number stands between two multiples of a power of ten. -/
theorem mem_neighbours_whole (hc : c ∈ neighbours negative (whole n) k) :
    ∃ m ≤ n / 10 ^ k + 1, c = (⟨negative, m, k⟩ : Decimal).reduce := by
  have hround : ∀ num den, roundEven num den ≤ num / den + 1 := by
    intro num den
    unfold roundEven
    dsimp only
    split_ifs <;> omega
  have hquotient : n * 2 ^ (52 - n.log2) / (2 ^ (52 - n.log2) * 10 ^ k) = n / 10 ^ k := by
    rw [Nat.mul_comm n, Nat.mul_div_mul_left _ _ (by positivity)]
  unfold neighbours at hc
  simp only [whole, scaled_neg_natCast, Nat.one_mul, hquotient, List.map_cons, List.map_nil,
    List.mem_cons, List.not_mem_nil, or_false] at hc
  rcases hc with rfl | rfl
  · exact ⟨_, hquotient ▸ hround _ _, rfl⟩
  · refine ⟨_, ?_, rfl⟩
    split_ifs <;> omega

theorem self_mem_neighbours (negative : Bool) (n : Nat) :
    (⟨negative, n, 0⟩ : Decimal).reduce ∈ neighbours negative (whole n) 0 := by
  have hround : roundEven (n * 2 ^ (52 - n.log2)) (2 ^ (52 - n.log2)) = n := by
    rw [roundEven, Nat.mul_div_cancel _ (by positivity), Nat.mul_mod_left]
    simp
  unfold neighbours
  simp only [whole, scaled_neg_natCast, Int.neg_zero, scaled_zero, Nat.one_mul, hround]
  exact List.mem_cons_self

theorem candidates_whole (negative : Bool) (hn : n ≠ 0) :
    candidates negative (whole n) = (List.range 17).flatMap fun i =>
      neighbours negative (whole n) ((figures n).length - (i + 1 : Nat)) := by
  have hplace : leadingPlace (n * 2 ^ (52 - n.log2)) (2 ^ (52 - n.log2)) = (figures n).length := by
    have hle : 2 ^ (52 - n.log2) ≤ n * 2 ^ (52 - n.log2) :=
      Nat.le_mul_of_pos_left _ (Nat.pos_of_ne_zero hn)
    rw [leadingPlace, if_pos hle, Nat.mul_div_cancel _ (by positivity)]
  unfold candidates
  simp only [whole, scaled_neg_natCast, Nat.one_mul, hplace]

/-- Of the whole numbers around a number, only itself has its grid point. -/
theorem isWhole_of_mem_neighbours (hn : n ≠ 0) (h : n < 2 ^ 52) (hk : 10 ^ k ≤ n)
    (hc : c ∈ neighbours negative (whole n) k) (hpoint : c.point? = some (whole n)) : c.IsWhole n := by
  obtain ⟨m, hm, rfl⟩ := mem_neighbours_whole hc
  have hwhole := isWhole_reduce negative m k
  have hbound : m * 10 ^ k ≤ n + 10 ^ k := by
    calc m * 10 ^ k ≤ (n / 10 ^ k + 1) * 10 ^ k := Nat.mul_le_mul_right _ hm
      _ = n / 10 ^ k * 10 ^ k + 10 ^ k := Nat.succ_mul ..
      _ ≤ n + 10 ^ k := Nat.add_le_add_right (Nat.div_mul_le_self n _) _
  by_cases hzero : m = 0
  · have hnone : (⟨negative, m, k⟩ : Decimal).reduce.point? = some ⟨0, -1074⟩ := by
      simp [reduce, hzero, Decimal.point?]
    have hbits := (mul_pow_log2 hn (h.trans (by decide))).1
    have heq := congrArg GridPoint.significand (Option.some.inj (hpoint.symm.trans hnone))
    simp only [whole] at heq
    omega
  · have hpoint' := hwhole.point? (Nat.mul_ne_zero hzero (by positivity)) (by omega)
    rwa [whole_injective (Option.some.inj (hpoint'.symm.trans hpoint))] at hwhole

/-- The search ends at the number itself. -/
theorem find?_candidates_whole (negative : Bool) (hn : n ≠ 0) (h : n < 2 ^ 52) :
    ∃ c, (candidates negative (whole n)).find? (fun c => c.point? = some (whole n)) = some c ∧
      c.IsWhole n := by
  have htop : 0 < (figures n).length := List.length_pos_of_ne_nil (figures_ne_nil n)
  have hlarge : (figures n).length ≤ 17 :=
    (length_figures_le_iff (by decide)).mpr (h.trans (by decide))
  have hself := point?_self negative hn (h.trans (by decide))
  -- The places of the number itself come first among those that are searched.
  rw [candidates_whole negative hn, ← Nat.add_sub_cancel' hlarge, List.range_add, List.flatMap_append,
    List.find?_append]
  cases hfind : List.find? (fun c : Decimal => c.point? = some (whole n))
      ((List.range (figures n).length).flatMap fun i =>
        neighbours negative (whole n) ((figures n).length - (i + 1 : Nat))) with
  | none =>
    refine absurd (decide_eq_true hself) (List.find?_eq_none.mp hfind _ ?_)
    refine List.mem_flatMap.mpr ⟨(figures n).length - 1, List.mem_range.mpr (by omega), ?_⟩
    rw [Nat.sub_add_cancel htop, Int.sub_self]
    exact self_mem_neighbours negative n
  | some c =>
    refine ⟨c, rfl, ?_⟩
    obtain ⟨i, hi, hc⟩ := List.mem_flatMap.mp (List.mem_of_find?_eq_some hfind)
    have hi := List.mem_range.mp hi
    rw [← Int.natCast_sub (by omega : i + 1 ≤ (figures n).length)] at hc
    have hpoint := List.find?_some (p := fun c : Decimal => decide (c.point? = some (whole n))) hfind
    refine isWhole_of_mem_neighbours hn h ?_ hc (of_decide_eq_true hpoint)
    exact (Nat.pow_le_pow_right (by decide) (by omega)).trans (pow_length_figures_le hn)

theorem nearest_whole (negative : Bool) (hn : n ≠ 0) (h : n < 2 ^ 52) :
    ∃ c, (⟨negative, n, 0⟩ : Decimal).nearest = some c ∧ c.negative = negative ∧ c.IsWhole n := by
  have hpoint := point?_self negative hn (h.trans (by decide))
  obtain ⟨c, hfind, hc⟩ := find?_candidates_whole negative hn h
  refine ⟨c, ?_, (reduce_of_mem_candidates (List.mem_of_find?_eq_some hfind)).2, hc⟩
  rw [nearest]
  simp only [hpoint, hfind, Option.getD_some]

theorem nearest_zero : (⟨false, 0, 0⟩ : Decimal).nearest = some ⟨false, 0, 0⟩ := by
  decide +kernel

end Subscription.Decimal

namespace Subscription.Number

open Decimal

theorem ofInt_eq {n : Int} (h : n.natAbs < 2 ^ 52) :
    ∃ d shortest, ofInt n = .finite d shortest ∧ d.negative = decide (n < 0) ∧ d.IsWhole n.natAbs := by
  have hnearest : ∃ c, (⟨n < 0, n.natAbs, 0⟩ : Decimal).nearest = some c ∧
      c.negative = decide (n < 0) ∧ c.IsWhole n.natAbs := by
    by_cases hn : n = 0
    · subst hn
      exact ⟨⟨false, 0, 0⟩, nearest_zero, rfl, 0, rfl, rfl⟩
    · exact nearest_whole _ (Int.natAbs_ne_zero.mpr hn) h
  obtain ⟨c, hc, hnegative, hwhole⟩ := hnearest
  exact ⟨c, nearest_eq_some_self hc, ofDecimal_eq_finite hc, hnegative, hwhole⟩

theorem toInt?_ofInt {n : Int} (h : n.natAbs < 2 ^ 52) : (ofInt n).toInt? = some n := by
  obtain ⟨d, shortest, hd, hnegative, k, hk, hvalue⟩ := ofInt_eq h
  have hvalue : d.digits * Nat.pow 10 k = n.natAbs := hvalue
  rw [hd, toInt?, if_neg (by omega), hk, Int.toNat_natCast, hvalue, hnegative]
  refine congrArg some ?_
  by_cases hn : n < 0
  · rw [if_pos (decide_eq_true hn)]
    omega
  · rw [if_neg (by simpa using hn)]
    omega

end Subscription.Number
