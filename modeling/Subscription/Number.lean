import Subscription.Decimal.Binary

/-!
Numbers as the data files hold them: the points of the 64-bit binary grid, each written as the
decimal that stands for it, and the two infinities that overflow leads to.
-/

namespace Subscription

/-- A number of a data file. A finite one is its own shortest decimal. -/
inductive Number where
  | finite (value : Decimal) (shortest : value.nearest = some value)
  | infinite (negative : Bool)
deriving DecidableEq

namespace Number

def ofDecimal (d : Decimal) : Number :=
  match h : d.nearest with
  | some c => .finite c (Decimal.nearest_eq_some_self h)
  | none => .infinite d.negative

theorem ofDecimal_eq_finite {d c : Decimal} (h : d.nearest = some c) :
    ofDecimal d = .finite c (Decimal.nearest_eq_some_self h) := by
  unfold ofDecimal
  split
  · next c' hc =>
    obtain rfl : c' = c := Option.some.inj (hc.symm.trans h)
    rfl
  · next hnone => exact absurd (hnone.symm.trans h) nofun

def ofInt (n : Int) : Number :=
  ofDecimal ⟨n < 0, n.natAbs, 0⟩

instance (n : Nat) : OfNat Number n := ⟨ofInt n⟩

def toInt? : Number → Option Int
  | .infinite _ => none
  | .finite d _ =>
    if d.exponent < 0 then none
    else
      let n : Int := (d.digits * Nat.pow 10 d.exponent.toNat : Nat)
      some (if d.negative then -n else n)

def ceil : Number → Option Nat
  | .infinite negative => if negative then some 0 else none
  | .finite d _ =>
    if d.negative then some 0
    else
      let f := Decimal.scaled d.digits 1 10 d.exponent
      some ((f.1 + f.2 - 1) / f.2)

/-- The figures of a decimal other than zero. The point stands among or next to them while the
number has at most 21 places before it or at most six zeros after it; else an exponent follows. -/
def layout (d : Decimal) : List Char :=
  let s := Decimal.figures d.digits
  let k : Int := s.length
  let n := k + d.exponent
  if k ≤ n ∧ n ≤ 21 then s ++ List.replicate (n - k).toNat '0'
  else if 0 < n ∧ n ≤ 21 then s.take n.toNat ++ '.' :: s.drop n.toNat
  else if -6 < n ∧ n ≤ 0 then '0' :: '.' :: List.replicate (-n).toNat '0' ++ s
  else
    let fraction := if s.length = 1 then [] else '.' :: s.drop 1
    let sign := if n - 1 < 0 then '-' else '+'
    s.take 1 ++ fraction ++ 'e' :: sign :: Decimal.figures (n - 1).natAbs

def finiteText (d : Decimal) : List Char :=
  if d.digits = 0 then ['0']
  else if d.negative then '-' :: layout d
  else layout d

def text : Number → String
  | .finite d _ => String.ofList (finiteText d)
  | .infinite negative => if negative then "-Infinity" else "Infinity"

end Number

end Subscription
