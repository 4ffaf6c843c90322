import Subscription.Text.Basic

/-!
Colours on a terminal. A style has a code that begins it and one that ends it. A text that is put in
a style may hold styled parts of its own, after each of which the style has to begin again; and a
style never reaches over the end of a line.
-/

namespace Subscription.CommandLine

inductive Style where
  | ok
  | warn
  | error
  | heading
deriving DecidableEq

namespace Style

def escapeCode (n : String) : List UInt16 :=
  (Text.ofString ("\x1b[" ++ n ++ "m")).units

def opening : Style → List UInt16
  | .ok => escapeCode "37"
  | .warn => escapeCode "33"
  | .error => escapeCode "31"
  | .heading => escapeCode "1"

def closing : Style → List UInt16
  | .ok | .warn | .error => escapeCode "39"
  | .heading => escapeCode "22"

def reopen (opening closing : List UInt16) : List UInt16 → List UInt16
  | [] => []
  | u :: us =>
    if closing.isPrefixOf (u :: us) then
      closing ++ opening ++ reopen opening closing (us.drop (closing.length - 1))
    else u :: reopen opening closing us
termination_by us => us.length
decreasing_by
  · simp only [List.length_drop, List.length_cons]
    omega
  · simp

/-- Ends a style before each line end and begins it again behind. A line ends with a line feed,
which may have a carriage return in front of it. -/
def breakLines (opening closing : List UInt16) : List UInt16 → List UInt16
  | 0x0D :: 0x0A :: us => closing ++ 0x0D :: 0x0A :: opening ++ breakLines opening closing us
  | 0x0A :: us => closing ++ 0x0A :: opening ++ breakLines opening closing us
  | u :: us => u :: breakLines opening closing us
  | [] => []

/-- A text in a style. Without colour, and when there is no text, it stays as it is. -/
def apply (style : Style) (color : Bool) (t : Text) : Text :=
  if !color || t.units.isEmpty then t
  else
    let inner := breakLines style.opening style.closing
      (reopen style.opening style.closing t.units)
    ⟨style.opening ++ inner ++ style.closing⟩

end Style

end Subscription.CommandLine
