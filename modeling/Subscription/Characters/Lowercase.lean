import Subscription.Characters.Lowercase.Table

/-!
Lower-casing for every script. All but two characters map on their own: the dotted capital I keeps
its dot as a combining mark, and a capital sigma that ends a word takes its final form.
-/

namespace Subscription.Characters

namespace Lowercase

def inRuns (runs : List (Nat × Nat)) (n : Nat) : Bool :=
  runs.any fun r => r.1 ≤ n && n ≤ r.2

def Shift.covers (r : Shift) (n : Nat) : Bool :=
  r.first ≤ n && n ≤ r.last && (n - r.first) % r.step == 0

def single (c : Char) : List Char :=
  if c.toNat = 0x130 then ['i', Char.ofNat 0x307]
  else match shifts.find? (·.covers c.toNat) with
    | some r => [Char.ofNat (c.toNat + r.offset).toNat]
    | none => [c]

def beforeCased : List Char → Bool
  | [] => false
  | c :: cs => if inRuns skipped c.toNat then beforeCased cs else inRuns cased c.toNat

/-- Whether the last character that was not skipped has case, once `c` has been read. -/
def afterCased (before : Bool) (c : Char) : Bool :=
  if inRuns skipped c.toNat then before else inRuns cased c.toNat

/-- The lower-case form of a string; `before` tells whether it follows a cased character. -/
def chars (before : Bool) : List Char → List Char
  | [] => []
  | c :: cs =>
    let form :=
      if c.toNat = 0x3A3 then
        if before && !beforeCased cs then [Char.ofNat 0x3C2] else [Char.ofNat 0x3C3]
      else single c
    form ++ chars (afterCased before c) cs

end Lowercase

def lowercase (s : String) : String :=
  String.ofList (Lowercase.chars false s.toList)

end Subscription.Characters
