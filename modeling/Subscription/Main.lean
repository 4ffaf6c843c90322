import Std.Time.DateTime.Timestamp
import Subscription.CommandLine.Process
import Subscription.Host.Instant

/-!
The program on a real machine.
-/

namespace Subscription.Main

/-- The code of the system for a path that leads through a file. Some operations give codes with
the sign reversed. -/
def isThroughFile (code : UInt32) : Bool :=
  code = 20 || code + 20 = 0

def fileError? : IO.Error → Option FileError
  | .noFileOrDirectory .. => some .missing
  | .alreadyExists .. => some .taken
  | .inappropriateType _ code _ => some (if isThroughFile code then .notDirectory else .isDirectory)
  | _ => none

def attempt {α : Type} (x : IO α) : IO (Except FileError α) := do
  try
    return .ok (← x)
  catch e =>
    match fileError? e with
    | some known => return .error known
    | none => throw e

/-- The text that some bytes write. If they write none, those outside the basic set stand for a
character that is not known. -/
def decode (bytes : ByteArray) : String :=
  match String.fromUTF8? bytes with
  | some s => s
  | none =>
    String.ofList (bytes.toList.map fun b => if b < 128 then Char.ofNat b.toNat else '\ufffd')

def readText (path : String) : IO String :=
  return decode (← IO.FS.readBinFile path)

def writeText (mode : IO.FS.Mode) (path text : String) : IO Unit :=
  IO.FS.withFile path mode fun h => h.putStr text

def isPresent (path : String) : IO Bool := do
  match ← attempt (IO.FS.withFile path .read fun _ => pure ()) with
  | .ok () => return true
  | .error _ => return false

def remove (path : String) : IO (Except FileError Unit) := do
  match ← attempt (IO.FS.removeFile path) with
  | .error .missing => return .ok ()
  | .error .isDirectory => return .error .notRemovable
  | result => return result

def makeDirs (path : String) : IO (Except FileError Unit) := do
  match ← attempt (IO.FS.createDirAll path) with
  | .error .taken => return .error (if ← isPresent path then .taken else .notDirectory)
  | result => return result

def files : FileSystem IO where
  read path := attempt (readText path)
  write path text := attempt (writeText .write path text)
  append path text := attempt (writeText .append path text)
  create path text := attempt (writeText .writeNew path text)
  remove := remove
  makeDirs := makeDirs
  isPresent := isPresent

def cell {α : Type} (ref : IO.Ref α) : Cell IO α :=
  ⟨ref.get, ref.set⟩

def words (s : String) : List String :=
  (s.toList.splitBy fun a b => Characters.isBlank a == Characters.isBlank b).map String.ofList
    |>.filter fun w => Characters.trim w ≠ ""

def processNumber? (description key : String) (place : Nat) : Option Int := do
  let line ← ((Characters.pieces '\n' description.toList).map String.ofList).find? fun line =>
    (words line).head? = some key
  let word ← (words line)[place]?
  word.toInt?

/-- Whether there is a process with a number. Numbers below one stand for groups of processes, of
which the program's own is one. -/
def isRunning (n : Int) : IO Bool := do
  if n < 1 then return n = 0 || n = -1
  isPresent s!"/proc/{n}/stat"

def now : IO String := do
  let time ← Std.Time.Timestamp.now
  return Host.instantText time.toMillisecondsSinceUnixEpoch.toInt.toNat

def newName : IO String := do
  let bytes ← IO.getRandomBytes 16
  return Host.randomName (bytes.toList.map UInt8.toNat)

def host : IO (Host IO) := do
  let description ← try readText "/proc/self/status" catch _ => pure ""
  let held ← IO.mkRef false
  let calls ← IO.mkRef ([] : List Call)
  let home ← IO.getEnv Host.homeVariable
  let noColor ← IO.getEnv CommandLine.colorVariable
  let onTerminal ← (← IO.getStdout).isTty
  return {
    files := files
    isRunning := isRunning
    pid := .ofInt ((processNumber? description "Pid:" 1).getD 0)
    now := now
    newName := newName
    held := cell held
    calls := cell calls
    setting := fun key =>
      if key = Host.homeVariable then home
      else if key = CommandLine.colorVariable then noColor
      else none
    user := processNumber? description "Uid:" 2
    onTerminal := onTerminal
    out := fun text => do (← IO.getStdout).putStr text
    err := fun text => do (← IO.getStderr).putStr text
    readLine := do (← IO.getStdin).getLine }

def faultText (f : Fault) : String :=
  match f, f.text? with
  | _, some text => text.toString
  | .malformed, none => "a file does not hold valid JSON"
  | .file .missing, none => "no such file or directory"
  | .file .isDirectory, none | .file .notRemovable, none => "illegal operation on a directory"
  | .file .notDirectory, none => "not a directory"
  | .file .taken, none => "file already exists"
  | _, none => "services require each other in a circle"

end Subscription.Main

def main (args : List String) : IO UInt32 := do
  let host ← Subscription.Main.host
  match ← (Subscription.CommandLine.runProcess host args).run with
  | .ok code => return code.toUInt32
  | .error f =>
    (← IO.getStderr).putStr (Subscription.Main.faultText f ++ "\n")
    return 1
