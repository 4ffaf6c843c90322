/-!
Texts as the data files hold them: lists of 16-bit code units. A character of the basic plane is one
unit, any other is a high surrogate with a low one behind it. Data files may also hold surrogates
without a partner, so a text is more than a string of characters; every string is a text. What a
data file says, and every message made of it, is a `Text`; what holds characters only (arguments,
paths, the content of a file, a line from the terminal) is a `String`.
-/

namespace Subscription

/-- A text, given by its code units. -/
structure Text where
  units : List UInt16
deriving DecidableEq

namespace Text

def charUnits (c : Char) : List UInt16 :=
  let n := c.toNat
  if n < 0x10000 then [.ofNat n]
  else [.ofNat (0xD800 + (n - 0x10000) / 0x400), .ofNat (0xDC00 + (n - 0x10000) % 0x400)]

def ofString (s : String) : Text :=
  ⟨s.toList.flatMap charUnits⟩

instance : Coe String Text := ⟨ofString⟩

instance : Append Text := ⟨fun s t => ⟨s.units ++ t.units⟩⟩

@[simp] theorem units_append (s t : Text) : (s ++ t).units = s.units ++ t.units := rfl

def intercalate (separator : Text) (ts : List Text) : Text :=
  ⟨separator.units.intercalate (ts.map units)⟩

def width (t : Text) : Nat :=
  t.units.length

def spaces (n : Nat) : Text :=
  ⟨List.replicate n 0x20⟩

/-- A text with spaces after it up to `w` units; a wider text stays as it is. -/
def padRight (w : Nat) (t : Text) : Text :=
  t ++ spaces (w - t.width)

def le (s t : Text) : Bool :=
  decide (s.units ≤ t.units)

/-- Texts in the order of their code units; equal ones keep their places. -/
def sorted (ts : List Text) : List Text :=
  ts.mergeSort le

end Text

end Subscription
