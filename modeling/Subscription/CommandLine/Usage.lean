import Subscription.Characters.Blank
import Subscription.CommandLine.Command

/-!
Help texts. Each lists what can be given on the command line, in two columns: terms, and
descriptions that are broken between words where they would reach the edge of the page.
-/

namespace Subscription.CommandLine

def pageWidth : Nat :=
  80

/-- Fills lines of at most `width` characters with words. A word that is longer has a line of its
own. -/
def fillLines (width : Nat) (line : String) : List String → List String
  | [] => [line]
  | word :: words =>
    if line.length + 1 + word.length ≤ width then fillLines width (s!"{line} {word}") words
    else line :: fillLines width word words

def wrap (width : Nat) (s : String) : List String :=
  match (Characters.pieces ' ' s.toList).map String.ofList with
  | [] => []
  | word :: words => fillLines width word words

def fillUp (width : Nat) (s : String) : String :=
  String.ofList (s.toList.rightpad width ' ')

/-- An item of a list: a term, and its description in a column that begins after `column`
characters. -/
def itemLines (column : Nat) (item : String × String) : List String :=
  match wrap (pageWidth - column - 3) item.2 with
  | [] => [item.1]
  | line :: lines =>
    (fillUp column item.1 ++ line) :: lines.map fun l => fillUp column "" ++ l

def listing (column : Nat) (title : String) : List (String × String) → List String
  | [] => []
  | items => title :: (items.flatMap (itemLines column)).map ("  " ++ ·) ++ [""]

/-- A help text: how the program is called, what it does, and the lists of what can be given. -/
def page (usage : String) (purpose : List String)
    (lists : List (String × List (String × String))) : String :=
  let terms := (lists.flatMap (·.2)).map (·.1)
  let column := (terms.map String.length).foldl max 0 + 2
  Characters.trimEnd <| String.intercalate "\n" <|
    [s!"Usage: {usage}", ""] ++ purpose ++ [""] ++
      lists.flatMap fun l => listing column l.1 l.2

def helpItem : String × String :=
  ("-h, --help", "display help for command")

def Command.usage (c : Command) : String :=
  c.name ++ " [options]" ++ (c.argument?.map fun a => " " ++ a.term).getD ""

def Command.page (c : Command) : String :=
  CommandLine.page s!"{program} {c.usage}" [c.description]
    [("Arguments:", c.argument?.toList.map fun a => (a.name, a.description)),
      ("Options:", (c.flags.map fun f => (f.term, c.flagDescription f ++ f.remark)) ++ [helpItem])]

def mainPage : String :=
  page s!"{program} [options] [command]" purpose
    [("Options:", [("-V, --version", "output the version number"), helpItem]),
      ("Commands:", Command.all.map fun c => (c.usage, c.description))]

end Subscription.CommandLine
