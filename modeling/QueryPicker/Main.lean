import QueryPicker.CommandLine.Report

/-!
# The program

Reads the files that a command names, runs the command, and prints its report.
-/

namespace QueryPicker.CommandLine

/-- Told apart by the numbers that the operating system gives them. -/
def fileError : IO.Error → FileError
  | .inappropriateType _ code _ => if code = 21 then .directory else .behindFile
  | .invalidArgument _ _ _ => .nameTooLong
  | _ => .missing

def readText (file : String) : IO (Except FileError String) := do
  try
    return .ok (← IO.FS.readFile file)
  catch e => return .error (fileError e)

def readFiles (files : List String) : IO (List (String × Except FileError String)) :=
  files.mapM fun file => return (file, ← readText file)

/-- The standard input is read only if a command asks for it. -/
def readStandardInput (files : List String) : IO String := do
  if files.any Surroundings.isStandardInput then (← IO.getStdin).readToEnd else return ""

def surroundingsOf (invocation? : Option Invocation) : IO Surroundings := do
  let files := match invocation? with
    | some (.run command) => command.files
    | _ => []
  let texts ← readFiles files
  return {
    file := fun file => (Entries.get? texts file).getD (.error .missing)
    standardInput := ← readStandardInput files
    chance := UInt64.ofNat (← IO.rand 0 (UInt64.size - 1)) }

end QueryPicker.CommandLine

open QueryPicker.CommandLine

def main (args : List String) : IO UInt32 := do
  let invocation? := Invocation.ofWords? args
  let some report := Report.of? (← surroundingsOf invocation?) invocation? | return 1
  IO.print report.output
  if let some text := report.error? then
    IO.eprintln text
  return UInt32.ofNat report.code
