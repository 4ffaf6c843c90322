import Subscription.Catalog.Basic

/-!
The order in which services are enabled and disabled. A list of names is sorted so that each one
comes after those of the list that have to go before it; apart from that the names stay in the order
in which they were given. Cycles do no harm: a name that is being placed is not placed again.
-/

namespace Subscription.Catalog

/-- The names that have been reached, and those that have been placed. -/
structure Placement where
  visited : List Text
  order : List Text

/-- Places a name after the wanted names that go before it. Each step down reaches a wanted name for
the first time, so their number bounds the depth. -/
def place (before : Text → List Text) (wanted : List Text) :
    Nat → Text → Placement → Placement
  | 0, _, p => p
  | fuel + 1, name, p =>
    if name ∈ p.visited then p
    else
      let p := (before name).foldl
        (fun p prior => if prior ∈ wanted then place before wanted fuel prior p else p)
        { p with visited := name :: p.visited }
      { p with order := p.order ++ [name] }

/-- The names, each once, every one of them after those that go before it. -/
def sortBy (before : Text → List Text) (names : List Text) : List Text :=
  (names.foldl (fun p name => place before names names.length name p) ⟨[], []⟩).order

def enableOrder (c : Catalog) (names : List Text) : List Text :=
  sortBy c.requirementsOf names

def disableOrder (c : Catalog) (names : List Text) : List Text :=
  sortBy c.dependentsOf names

end Subscription.Catalog
