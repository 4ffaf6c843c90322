/-!
Decimal numbers: a sign, a natural number of units, and the power of ten that one unit stands for.
The reduced form of a number has no zero at its end, so that equal numbers have equal reduced forms.
-/

namespace Subscription

/-- The number `± digits · 10 ^ exponent`. Zero has a sign too. -/
structure Decimal where
  negative : Bool
  digits : Nat
  exponent : Int
deriving DecidableEq

namespace Decimal

def dropZeros (digits : Nat) (exponent : Int) : Nat × Int :=
  if digits ≠ 0 ∧ digits % 10 = 0 then dropZeros (digits / 10) (exponent + 1)
  else (digits, exponent)
termination_by digits
decreasing_by omega

theorem dropZeros_eq_self {digits : Nat} {exponent : Int} (h : ¬(digits ≠ 0 ∧ digits % 10 = 0)) :
    dropZeros digits exponent = (digits, exponent) := by
  rw [dropZeros, if_neg h]

theorem dropZeros_reduced (digits : Nat) (exponent : Int) :
    ¬((dropZeros digits exponent).1 ≠ 0 ∧ (dropZeros digits exponent).1 % 10 = 0) := by
  fun_induction dropZeros digits exponent with
  | case1 _ _ _ ih => exact ih
  | case2 _ _ h => exact h

theorem dropZeros_ne_zero {digits : Nat} (exponent : Int) (h : digits ≠ 0) :
    (dropZeros digits exponent).1 ≠ 0 := by
  fun_induction dropZeros digits exponent with
  | case1 _ _ hd ih => exact ih (by omega)
  | case2 _ _ _ => exact h

/-- The same number with no zero at the end of its digits; zero itself has exponent zero. -/
def reduce (d : Decimal) : Decimal :=
  if d.digits = 0 then { d with exponent := 0 }
  else { d with digits := (dropZeros d.digits d.exponent).1,
                exponent := (dropZeros d.digits d.exponent).2 }

@[simp] theorem reduce_negative (d : Decimal) : d.reduce.negative = d.negative := by
  unfold reduce
  split <;> rfl

@[simp] theorem reduce_reduce (d : Decimal) : d.reduce.reduce = d.reduce := by
  by_cases h : d.digits = 0
  · simp [reduce, h]
  · have hne := dropZeros_ne_zero d.exponent h
    have hred := dropZeros_reduced d.digits d.exponent
    simp only [reduce, h, hne, if_false]
    rw [dropZeros_eq_self hred]

def ofFigures (figures : List Char) : Nat :=
  figures.foldl (fun n c => 10 * n + (c.toNat - '0'.toNat)) 0

def figures (n : Nat) : List Char :=
  Nat.toDigits 10 n

end Decimal

end Subscription
