import Subscription.Characters.Blank
import Subscription.Characters.Lowercase
import Subscription.Files.System

/-!
The description of the operating system: lines that give a value to a key, with or without quotes
around it. The release series is read from it.
-/

namespace Subscription.OsRelease

def isLineEnd (c : Char) : Bool :=
  c = '\n' || c = '\r' || c = '\u2028' || c = '\u2029'

def unquote (cs : List Char) : List Char :=
  match cs with
  | [] => []
  | q :: rest =>
    if (q = '"' || q = '\'') && rest.getLast? = some q && !rest.dropLast.any isLineEnd then
      rest.dropLast
    else cs

/-- The key and the value on a line. Blank lines, comments, and lines without a key have none. -/
def entry? (line : List Char) : Option (String × String) :=
  let cs := (Characters.trim (String.ofList line)).toList
  let key := cs.takeWhile (· ≠ '=')
  if cs.head? = some '#' || key = [] || key = cs then none
  else some (String.ofList key, String.ofList (unquote (cs.drop (key.length + 1))))

def reservedKey : String :=
  "__proto__"

/-- The keys with their values. A key that is given several values has the last one. -/
def parse (text : String) : List (String × String) :=
  ((Characters.pieces '\n' text.toList).filterMap entry?).foldl
    (fun fields e =>
      if e.1 = reservedKey then fields else fields.filter (·.1 ≠ e.1) ++ [e]) []

def lookup (fields : List (String × String)) (key : String) : Option String :=
  (fields.find? (·.1 = key)).map (·.2)

def isLetter (c : Char) : Bool :=
  c.isAlpha

def parenthesized? : List Char → Option String
  | [] => none
  | c :: cs =>
    let word := cs.takeWhile isLetter
    if c = '(' && word ≠ [] then some (String.ofList word) else parenthesized? cs

/-- The release series: the code name, or else the word in parentheses that follows the version. -/
def series? (fields : List (String × String)) : Option String :=
  match lookup fields "VERSION_CODENAME" with
  | some name =>
    if name ≠ "" then some (Characters.lowercase name) else version?
  | none => version?
where
  version? : Option String :=
    (parenthesized? ((lookup fields "VERSION").getD "").toList).map Characters.lowercase

def defaultPath : String :=
  "/etc/os-release"

def detectSeries {m : Type → Type} [Monad m] (files : FileSystem m) (path : Text) :
    ExceptT Fault m Text := do
  let text ← ofFileResult (files.read path.toString)
  match series? (parse text) with
  | some series => return series
  | none => throw (.noSeries path)

end Subscription.OsRelease
