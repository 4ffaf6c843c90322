import Subscription.Json.Basic

/-!
The written form of data values: on one line, or over many lines with two spaces for each level.
The quotation mark, the backslash, the control characters below the space and surrogates without a
partner are escaped, and nothing else is.
-/

namespace Subscription.Json

inductive Style where
  | compact
  | indented

def Style.separator : Style → Nat → List Char
  | .compact, _ => []
  | .indented, depth => '\n' :: List.replicate (2 * depth) ' '

def Style.colon : Style → List Char
  | .compact => [':']
  | .indented => [':', ' ']

def hexFigures (n : Nat) : List Char :=
  [Nat.digitChar (n / 0x1000), Nat.digitChar (n / 0x100 % 16), Nat.digitChar (n / 16 % 16),
    Nat.digitChar (n % 16)]

def escapeUnit (n : Nat) : List Char :=
  '\\' :: 'u' :: hexFigures n

def escape (c : Char) : List Char :=
  if c = '"' then ['\\', '"']
  else if c = '\\' then ['\\', '\\']
  else if c = '\x08' then ['\\', 'b']
  else if c = '\t' then ['\\', 't']
  else if c = '\n' then ['\\', 'n']
  else if c = '\x0c' then ['\\', 'f']
  else if c = '\r' then ['\\', 'r']
  else if c.toNat < 0x20 then escapeUnit c.toNat
  else [c]

def escapePart : Text.Part → List Char
  | .char c => escape c
  | .lone u => escapeUnit u.toNat

def quote (t : Text) : List Char :=
  '"' :: t.parts.flatMap escapePart ++ ['"']

def writeNumber : Number → List Char
  | .finite d _ => Number.finiteText d
  | .infinite _ => ['n', 'u', 'l', 'l']

mutual

def write (style : Style) (depth : Nat) : Json → List Char
  | .null => ['n', 'u', 'l', 'l']
  | .bool true => ['t', 'r', 'u', 'e']
  | .bool false => ['f', 'a', 'l', 's', 'e']
  | .number n => writeNumber n
  | .string s => quote s
  | .array [] => ['[', ']']
  | .array (v :: vs) =>
    '[' :: (style.separator (depth + 1) ++ (write style (depth + 1) v ++
      (writeItems style (depth + 1) vs ++ (style.separator depth ++ [']']))))
  | .object [] => ['{', '}']
  | .object ((k, v) :: fs) =>
    '{' :: (style.separator (depth + 1) ++ (quote k ++ (style.colon ++
      (write style (depth + 1) v ++
        (writeFields style (depth + 1) fs ++ (style.separator depth ++ ['}']))))))

def writeItems (style : Style) (depth : Nat) : List Json → List Char
  | [] => []
  | v :: vs =>
    ',' :: (style.separator depth ++ (write style depth v ++ writeItems style depth vs))

def writeFields (style : Style) (depth : Nat) : List (Text × Json) → List Char
  | [] => []
  | (k, v) :: fs =>
    ',' :: (style.separator depth ++ (quote k ++ (style.colon ++
      (write style depth v ++ writeFields style depth fs))))

end

def compact (v : Json) : String :=
  String.ofList (write .compact 0 v)

def indented (v : Json) : String :=
  String.ofList (write .indented 0 v)

end Subscription.Json
