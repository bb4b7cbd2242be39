/-
MacroAssembler/Main.lean

The command line tool.  It reads the entry file and everything that is included
from it, and leaves the rest to `CommandLine`.
-/
import MacroAssembler.CommandLine.Run

namespace MacroAssembler.CommandLine

/-- The number of a system error, which may come with its sign changed. -/
def errorNumber (code : UInt32) : UInt32 := min code (0 - code)

/-- The fault behind an error of the system. -/
def faultOf : IO.Error → FileFault
  | .noFileOrDirectory _ _ _ => .missing
  | .inappropriateType _ code _ => if errorNumber code = 21 then .isDirectory else .notDirectory
  | .invalidArgument _ code details =>
    if errorNumber code = 36 then .nameTooLong else .other details
  | .permissionDenied _ _ _ => .other "Permission denied (os error 13)"
  | e => .other (toString e)

/-- Do something with a file, unless its name is no good. -/
def withFile {α : Type} (path : String) (act : IO α) : IO (Except FileFault α) := do
  match FileName.fault? path with
  | some fault => return .error fault
  | none =>
    try return .ok (← act)
    catch e => return .error (faultOf e)

/-- Read a file. -/
def readFile (path : String) : IO (Except FileFault Text) := do
  match ← withFile path (IO.FS.readBinFile path) with
  | .error fault => return .error fault
  | .ok bytes =>
    match String.fromUTF8? bytes with
    | some s => return .ok s.toList
    | none => return .error .notText

/-- Write a file, if one is asked for. -/
def writeOutput (path? : Option String) (bytes : List UInt8) : IO (Except String Unit) := do
  match path? with
  | none => return .ok ()
  | some path =>
    match ← withFile path (IO.FS.writeBinFile path ⟨bytes.toArray⟩) with
    | .error fault => return .error (writeFailureText path fault)
    | .ok () => return .ok ()

/-- Read files and all that they include, as seen from a directory. -/
partial def gather (dir : String) (todo : List String)
    (known : List (String × Except FileFault Text)) :
    IO (List (String × Except FileFault Text)) := do
  match todo with
  | [] => return known
  | name :: todo =>
    let path := FileName.join dir name
    if (known.lookup path).isSome then gather dir todo known
    else
      let result ← readFile path
      let more :=
        match result with
        | .ok text => Include.names text
        | .error _ => []
      gather dir (more ++ todo) ((path, result) :: known)

/-- Compile with the given settings. -/
def perform (s : Settings) : IO UInt32 := do
  let dir := FileName.directory s.input
  let known ← gather dir [FileName.entry s.input] []
  let read path := (known.lookup path).getD (.error .missing)
  match compile s (Library.ofReader (FileName.join dir) read known.length) with
  | .error f =>
    IO.eprintln (errorEntry (failureText f))
    return 1
  | .ok (u, p) =>
    IO.eprintln (compiledEntry s p)
    match ← writeOutput s.output? p.bytes with
    | .error text =>
      IO.eprintln (errorEntry text)
      return 1
    | .ok () =>
      IO.print (output s u p)
      return 0

end MacroAssembler.CommandLine

/-- Run the tool. -/
def main (argv : List String) : IO UInt32 := do
  match MacroAssembler.CommandLine.Settings.parse argv with
  | .ok s => MacroAssembler.CommandLine.perform s
  | .error .help =>
    IO.print MacroAssembler.CommandLine.usageText
    return 0
  | .error .invalid =>
    IO.eprint MacroAssembler.CommandLine.usageText
    return 2
