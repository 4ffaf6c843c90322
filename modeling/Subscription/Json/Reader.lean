import Subscription.Json.Basic

/-!
Data values from their written form. The grammar is strict: no mark at the start of a file, no comma
after a last part, no leading zeros, nothing but blanks around the value. Every step reads at least
one character, so the length of a text bounds the depth of its reading.
-/

namespace Subscription.Json

def isGap (c : Char) : Bool :=
  c = ' ' || c = '\t' || c = '\n' || c = '\r'

def skipGaps (cs : List Char) : List Char :=
  cs.dropWhile isGap

def hexValue? (c : Char) : Option Nat :=
  if '0' ≤ c ∧ c ≤ '9' then some (c.toNat - '0'.toNat)
  else if 'a' ≤ c ∧ c ≤ 'f' then some (c.toNat - 'a'.toNat + 10)
  else if 'A' ≤ c ∧ c ≤ 'F' then some (c.toNat - 'A'.toNat + 10)
  else none

def codeUnit? (a b c d : Char) : Option UInt16 := do
  let a ← hexValue? a
  let b ← hexValue? b
  let c ← hexValue? c
  let d ← hexValue? d
  return .ofNat (((a * 16 + b) * 16 + c) * 16 + d)

def escaped? (c : Char) : Option Char :=
  if c = '"' then some '"'
  else if c = '\\' then some '\\'
  else if c = '/' then some '/'
  else if c = 'b' then some '\x08'
  else if c = 'f' then some '\x0c'
  else if c = 'n' then some '\n'
  else if c = 'r' then some '\r'
  else if c = 't' then some '\t'
  else none

def prepend (first : Option (List UInt16)) (rest : Option (List UInt16 × List Char)) :
    Option (List UInt16 × List Char) :=
  match first, rest with
  | some us, some (vs, cs) => some (us ++ vs, cs)
  | _, _ => none

/-- Reads the code units of a text up to its closing quotation mark. Units that are given by their
numbers one after the other may be a pair of surrogates. -/
def readUnits : List Char → Option (List UInt16 × List Char)
  | [] => none
  | '"' :: cs => some ([], cs)
  | '\\' :: 'u' :: a :: b :: c :: d :: cs =>
    prepend ((codeUnit? a b c d).map ([·])) (readUnits cs)
  | '\\' :: c :: cs => prepend ((escaped? c).map Text.charUnits) (readUnits cs)
  | c :: cs =>
    prepend (if c.toNat < 0x20 ∨ c = '\\' then none else some (Text.charUnits c)) (readUnits cs)

def readText (cs : List Char) : Option (Text × List Char) :=
  (readUnits cs).map fun r => (⟨r.1⟩, r.2)

def readFigures (cs : List Char) : Option (List Char × List Char) :=
  match cs.takeWhile Char.isDigit with
  | [] => none
  | ds => some (ds, cs.dropWhile Char.isDigit)

/-- Reads the part of a number before its point: a zero alone, or figures that do not start with
one. -/
def readWhole : List Char → Option (List Char × List Char)
  | '0' :: cs => some (['0'], cs)
  | cs => readFigures cs

def readFraction : List Char → Option (List Char × List Char)
  | '.' :: cs => readFigures cs
  | cs => some ([], cs)

def readExponent : List Char → Option (Int × List Char)
  | c :: cs =>
    if c = 'e' ∨ c = 'E' then
      match cs with
      | '+' :: cs => (readFigures cs).map fun r => ((Decimal.ofFigures r.1 : Int), r.2)
      | '-' :: cs => (readFigures cs).map fun r => (-(Decimal.ofFigures r.1 : Int), r.2)
      | cs => (readFigures cs).map fun r => ((Decimal.ofFigures r.1 : Int), r.2)
    else some (0, c :: cs)
  | [] => some (0, [])

def readUnsigned (negative : Bool) (cs : List Char) : Option (Decimal × List Char) := do
  let (whole, cs) ← readWhole cs
  let (fraction, cs) ← readFraction cs
  let (exponent, cs) ← readExponent cs
  return (⟨negative, Decimal.ofFigures (whole ++ fraction), exponent - fraction.length⟩, cs)

def readNumber (cs : List Char) : Option (Json × List Char) :=
  let d := match cs with
    | '-' :: cs => readUnsigned true cs
    | cs => readUnsigned false cs
  d.map fun r => (.number (.ofDecimal r.1), r.2)

def readAtom : List Char → Option (Json × List Char)
  | 'n' :: 'u' :: 'l' :: 'l' :: cs => some (.null, cs)
  | 't' :: 'r' :: 'u' :: 'e' :: cs => some (.bool true, cs)
  | 'f' :: 'a' :: 'l' :: 's' :: 'e' :: cs => some (.bool false, cs)
  | cs => readNumber cs

def readKey (cs : List Char) : Option (Text × List Char) :=
  match skipGaps cs with
  | '"' :: cs =>
    match readText cs with
    | some (key, cs) =>
      match skipGaps cs with
      | ':' :: cs => some (key, cs)
      | _ => none
    | none => none
  | _ => none

mutual

def readValue : Nat → List Char → Option (Json × List Char)
  | 0, _ => none
  | fuel + 1, cs =>
    match skipGaps cs with
    | '"' :: cs => (readText cs).map fun r => (.string r.1, r.2)
    | '[' :: cs =>
      match skipGaps cs with
      | ']' :: cs => some (.array [], cs)
      | cs => (readItems fuel cs).map fun r => (.array r.1, r.2)
    | '{' :: cs =>
      match skipGaps cs with
      | '}' :: cs => some (.object [], cs)
      | cs => (readMembers fuel cs).map fun r => (ofMembers r.1, r.2)
    | cs => readAtom cs

def readItems : Nat → List Char → Option (List Json × List Char)
  | 0, _ => none
  | fuel + 1, cs =>
    match readValue fuel cs with
    | none => none
    | some (v, cs) =>
      match skipGaps cs with
      | ',' :: cs => (readItems fuel cs).map fun r => (v :: r.1, r.2)
      | ']' :: cs => some ([v], cs)
      | _ => none

def readMembers : Nat → List Char → Option (List (Text × Json) × List Char)
  | 0, _ => none
  | fuel + 1, cs =>
    match readKey cs with
    | none => none
    | some (key, cs) =>
      match readValue fuel cs with
      | none => none
      | some (v, cs) =>
        match skipGaps cs with
        | ',' :: cs => (readMembers fuel cs).map fun r => ((key, v) :: r.1, r.2)
        | '}' :: cs => some ([(key, v)], cs)
        | _ => none

end

def parse (s : String) : Option Json :=
  match readValue (s.toList.length + 1) s.toList with
  | some (v, cs) => if skipGaps cs = [] then some v else none
  | none => none

end Subscription.Json
