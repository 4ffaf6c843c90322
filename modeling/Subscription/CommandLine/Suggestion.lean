import Subscription.Text.Basic

/-!
Suggestions for words that were mistyped. The distance of two words is the least number of steps
from one to the other, where a step puts in, leaves out or replaces a unit, or swaps two neighbours,
and no unit takes part in two steps. Words that differ much in length are not compared in full.
-/

namespace Subscription.CommandLine

/-- The distances of `a :: as` from `bs` and from each part at the end of `bs`, where `below` holds
those of `as`, `lower` those of `as.tail`, and `a'` is the first unit of `as`. -/
def distanceRow (a : UInt16) (a' : Option UInt16) : List UInt16 → List Nat → List Nat → List Nat
  | [], below, _ => [below.headD 0 + 1]
  | b :: bs, below, lower =>
    let rest := distanceRow a a' bs (below.drop 1) (lower.drop 1)
    let replaced := (below.drop 1).headD 0 + if a = b then 0 else 1
    let changed := min (min (below.headD 0 + 1) (rest.headD 0 + 1)) replaced
    let swapped :=
      if bs.head? = some a ∧ a' = some b then min changed ((lower.drop 2).headD 0 + 1) else changed
    swapped :: rest

/-- The distances of `as` and of `as.tail` from `bs` and from each part at the end of it. -/
def distanceRows (bs : List UInt16) : List UInt16 → List Nat × List Nat
  | [] => ((List.range (bs.length + 1)).reverse, [])
  | a :: as =>
    let (below, lower) := distanceRows bs as
    (distanceRow a as.head? bs below lower, below)

/-- The greatest distance at which a word is suggested, and the greatest difference in length at
which two words are compared in full. -/
def maxDistance : Nat :=
  3

def distance (a b : Text) : Nat :=
  let a := a.units
  let b := b.units
  if a.length + maxDistance < b.length ∨ b.length + maxDistance < a.length then
    max a.length b.length
  else (distanceRows b a).1.headD 0

/-- Whether a word is worth comparing: it is no single character, and more than two fifths of the
longer of the two words are alike. -/
def isSimilar (word candidate : Text) : Bool :=
  let length := max word.width candidate.width
  1 < candidate.width && 2 * length < 5 * (length - distance word candidate)

def nearest (word : Text) (candidates : List Text) : List Text :=
  let near := candidates.filter fun c => isSimilar word c && distance word c ≤ maxDistance
  match (near.map (distance word)).min? with
  | some least => Text.sorted (near.filter fun c => distance word c = least)
  | none => []

def dashes : String :=
  "--"

def hasDashes (word : Text) : Bool :=
  (Text.ofString dashes).units.isPrefixOf word.units

def withoutDashes (word : Text) : Text :=
  ⟨word.units.drop 2⟩

/-- Words to suggest in place of a given one. Long options are compared without their dashes. -/
def suggestions (word : Text) (candidates : List Text) : List Text :=
  let candidates := candidates.eraseDups
  if hasDashes word then
    (nearest (withoutDashes word) (candidates.map withoutDashes)).map (dashes ++ ·)
  else nearest word candidates

/-- The question that follows an error about a word; there is none without a suggestion. -/
def didYouMean (word : Text) (candidates : List Text) : Text :=
  match suggestions word candidates with
  | [] => ""
  | [s] => "\n(Did you mean " ++ s ++ "?)"
  | ss => "\n(Did you mean one of " ++ Text.intercalate ", " ss ++ "?)"

end Subscription.CommandLine
