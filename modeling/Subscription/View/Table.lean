import Subscription.Text.Basic

/-!
Tables of texts. Every column but the last one is as wide as its widest cell, and two spaces part
the columns.
-/

namespace Subscription.View

def columnWidth (rows : List (List Text)) (column : Nat) : Nat :=
  (rows.map fun row => Text.width (row.getD column "")).foldl max 0

def padCells (rows : List (List Text)) (column : Nat) : List Text → List Text
  | [] => []
  | [cell] => [cell]
  | cell :: cells =>
    Text.padRight (columnWidth rows column) cell :: padCells rows (column + 1) cells

def tableLines (rows : List (List Text)) : List Text :=
  rows.map fun row => Text.intercalate "  " (padCells rows 0 row)

def yesOrNo (answer : Bool) : Text :=
  if answer then "yes" else "no"

end Subscription.View
