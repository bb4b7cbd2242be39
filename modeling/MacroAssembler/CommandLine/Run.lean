/-
MacroAssembler/CommandLine/Run.lean

A run of the command line on a directory tree.
-/
import MacroAssembler.CommandLine.Report
import MacroAssembler.Disk

namespace MacroAssembler.CommandLine

/-- What a run leaves behind. -/
structure RunResult where
  /-- The exit code: 0, or 1 for an error, or 2 for wrong arguments. -/
  code : Nat
  /-- The text printed. -/
  stdout : String
  /-- The entries logged. -/
  log : List String
  /-- The tree after the run. -/
  disk : Disk

/-- Compile the program that settings name, from the files of a library. -/
def compile (s : Settings) (lib : Library) : Except Failure (CompilationUnit × Program) := do
  let u ← CompilationUnit.load lib (FileName.entry s.input)
  let u := { u with limits := s.limits }
  return (u, ← u.compile ⟨s.entry, s.templateArgs⟩)

/-- Open a file of a tree and compile a macro of it without arguments. -/
def compileFile (d : Disk) (path entry : String) (limits : Limits) :
    Except Failure (CompilationUnit × Program) :=
  compile
    { input := path, entry := entry, templateArgs := [], limits := limits, sourceMap := false,
      labels := false, output? := none }
    (d.library (FileName.directory path))

/-- Run with the given settings. -/
def runWith (s : Settings) (d : Disk) : RunResult :=
  match compile s (d.library (FileName.directory s.input)) with
  | .error f => ⟨1, "", [errorEntry (failureText f)], d⟩
  | .ok (u, p) =>
    let entry := compiledEntry s p
    match s.output? with
    | none => ⟨0, output s u p, [entry], d⟩
    | some path =>
      match d.write path ⟨p.bytes.toArray⟩ with
      | .ok d => ⟨0, output s u p, [entry], d⟩
      | .error fault => ⟨1, "", [entry, errorEntry (writeFailureText path fault)], d⟩

/-- Run with the given arguments. -/
def run (argv : List String) (d : Disk) : RunResult :=
  match Settings.parse argv with
  | .ok s => runWith s d
  | .error .invalid => ⟨2, "", [], d⟩
  | .error .help => ⟨0, usageText, [], d⟩

end MacroAssembler.CommandLine
