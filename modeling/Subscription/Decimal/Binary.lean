import Subscription.Decimal.Basic

/-!
Decimals against the 64-bit binary grid. A decimal rounds to the nearest number `m · 2 ^ q` with a
53-bit `m`, a tie going to the even `m`; of all decimals that round to one grid point the nearest
with the fewest figures stands for it. Main statement: that choice stands for itself
(`nearest_eq_some_self`).
-/

namespace Subscription.Decimal

/-- A point `significand · 2 ^ exponent` of the binary grid. -/
structure GridPoint where
  significand : Nat
  exponent : Int
deriving DecidableEq

/-- `num / den` rounded to a natural number, a tie going to the even one. -/
def roundEven (num den : Nat) : Nat :=
  let q := num / den
  let r := num % den
  if 2 * r < den then q
  else if 2 * r > den then q + 1
  else if q % 2 = 0 then q
  else q + 1

def scaled (num den base : Nat) (exponent : Int) : Nat × Nat :=
  if exponent ≥ 0 then (num * base.pow exponent.toNat, den)
  else (num, den * base.pow (-exponent).toNat)

/-- The exponent of the grid around `num / den`, which is not zero. -/
def gridExponent (num den : Nat) : Int :=
  let low := max (-1074) ((num.log2 : Int) - den.log2 - 53)
  let f := scaled num den 2 (-low)
  if f.1 / f.2 ≥ Nat.pow 2 53 then low + 1 else low

/-- The grid point nearest to `num / den`; `none` when it lies beyond the largest one. -/
def gridPoint? (num den : Nat) : Option GridPoint :=
  let q := gridExponent num den
  let f := scaled num den 2 (-q)
  let m := roundEven f.1 f.2
  let p : GridPoint := if m = Nat.pow 2 53 then ⟨Nat.pow 2 52, q + 1⟩ else ⟨m, q⟩
  if p.exponent > 971 then none else some p

/-- The grid point nearest to the size of a decimal; `none` when it lies beyond the largest one.
Sizes from `10 ^ 400` on and below `10 ^ -400` are settled without working out their power of
ten. -/
def point? (d : Decimal) : Option GridPoint :=
  let top := ((figures d.digits).length : Int) + d.exponent
  if d.digits = 0 || top < -400 then some ⟨0, -1074⟩
  else if top > 400 then none
  else
    let f := scaled d.digits 1 10 d.exponent
    gridPoint? f.1 f.2

/-- The number of figures before the point of `num / den`; for a fraction below one, minus the
number of zeros right after it. -/
def leadingPlace (num den : Nat) : Int :=
  if num ≥ den then (figures (num / den)).length
  else 1 - ((figures (den / num)).length : Int)

/-- The multiples of `10 ^ place` on both sides of a grid point, the nearer one first; of two
equally near the even one. -/
def neighbours (negative : Bool) (p : GridPoint) (place : Int) : List Decimal :=
  let v := scaled p.significand 1 2 p.exponent
  let f := scaled v.1 v.2 10 (-place)
  let below := f.1 / f.2
  let nearest := roundEven f.1 f.2
  let other := if nearest = below then below + 1 else below
  [⟨negative, nearest, place⟩, ⟨negative, other, place⟩].map reduce

/-- The decimals with one to seventeen figures around a grid point, those with fewer figures
first. -/
def candidates (negative : Bool) (p : GridPoint) : List Decimal :=
  let v := scaled p.significand 1 2 p.exponent
  let top := leadingPlace v.1 v.2
  (List.range 17).flatMap fun n => neighbours negative p (top - (n + 1 : Nat))

/-- The decimal that stands for the grid point of `d`; `none` when `d` lies beyond the grid. -/
def nearest (d : Decimal) : Option Decimal :=
  match d.reduce.point? with
  | none => none
  | some p =>
    some (((candidates d.negative p).find? fun c => c.point? = some p).getD d.reduce)

theorem reduce_of_mem_candidates {negative : Bool} {p : GridPoint} {c : Decimal}
    (h : c ∈ candidates negative p) : c.reduce = c ∧ c.negative = negative := by
  simp only [candidates, neighbours, List.mem_flatMap, List.mem_map] at h
  obtain ⟨_, _, e, he, rfl⟩ := h
  refine ⟨reduce_reduce e, ?_⟩
  rw [reduce_negative]
  simp only [List.mem_cons, List.not_mem_nil, or_false] at he
  rcases he with rfl | rfl <;> rfl

/-- The decimal that stands for a grid point stands for itself. -/
theorem nearest_eq_some_self {d c : Decimal} (h : d.nearest = some c) : c.nearest = some c := by
  unfold nearest at h
  cases hp : d.reduce.point? with
  | none => simp [hp] at h
  | some p =>
    simp only [hp, Option.some.injEq] at h
    cases hf : (candidates d.negative p).find? fun c => c.point? = some p with
    | none =>
      simp only [hf, Option.getD_none] at h
      subst h
      simp [nearest, hp, hf]
    | some e =>
      simp only [hf, Option.getD_some] at h
      subst h
      have hm := reduce_of_mem_candidates (List.mem_of_find?_eq_some hf)
      have hpt : e.point? = some p := by simpa using List.find?_some hf
      simp [nearest, hm.1, hm.2, hpt, hf]

end Subscription.Decimal
