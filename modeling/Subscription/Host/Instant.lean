/-!
Moments as texts. A moment is a number of milliseconds since the beginning of 1970, and is written
as a date and a time of day of Greenwich. Years are counted from March, so that the day that a leap
year has more is the last one of its year.
-/

namespace Subscription.Host

structure Date where
  year : Nat
  month : Nat
  day : Nat
deriving DecidableEq

def Date.ofDay (n : Nat) : Date :=
  let n := n + 719468
  let inEra := n % 146097
  let yearOfEra := (inEra - inEra / 1460 + inEra / 36524 - inEra / 146096) / 365
  let inYear := inEra - (365 * yearOfEra + yearOfEra / 4 - yearOfEra / 100)
  let fromMarch := (5 * inYear + 2) / 153
  let month := if fromMarch < 10 then fromMarch + 3 else fromMarch - 9
  let year := yearOfEra + 400 * (n / 146097)
  ⟨if month ≤ 2 then year + 1 else year, month, inYear - (153 * fromMarch + 2) / 5 + 1⟩

def figures (width n : Nat) : String :=
  let cs := Nat.toDigits 10 n
  String.ofList (List.replicate (width - cs.length) '0' ++ cs)

def instantText (milliseconds : Nat) : String :=
  let seconds := milliseconds / 1000
  let date := Date.ofDay (seconds / 86400)
  figures 4 date.year ++ "-" ++ figures 2 date.month ++ "-" ++ figures 2 date.day ++ "T" ++
    figures 2 (seconds / 3600 % 24) ++ ":" ++ figures 2 (seconds / 60 % 60) ++ ":" ++
    figures 2 (seconds % 60) ++ "." ++ figures 3 (milliseconds % 1000) ++ "Z"

def hexFigures (bytes : List Nat) : String :=
  String.ofList (bytes.flatMap fun b => [Nat.digitChar (b / 16 % 16), Nat.digitChar (b % 16)])

def randomName (bytes : List Nat) : String :=
  let b (i : Nat) : Nat := bytes.getD i 0 % 256
  let part (start count : Nat) : String :=
    hexFigures ((List.range count).map fun i => b (start + i))
  part 0 4 ++ "-" ++ part 4 2 ++ "-" ++ hexFigures [b 6 % 16 + 64, b 7] ++ "-" ++
    hexFigures [b 8 % 64 + 128, b 9] ++ "-" ++ part 10 6

end Subscription.Host
