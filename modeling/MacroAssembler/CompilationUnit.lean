/-
MacroAssembler/CompilationUnit.lean

Compilation units: a program text, read and ready to be compiled.
-/
import MacroAssembler.Declaration
import MacroAssembler.Library
import MacroAssembler.Program

namespace MacroAssembler

/-- Why source files do not become a program. -/
inductive Failure where
  /-- The files cannot be put together. -/
  | source (e : SourceError)
  /-- The text cannot be read. -/
  | parse (d : Diagnostic)
  /-- The program cannot be compiled. -/
  | compile (e : CompileError Place)
  deriving Repr, DecidableEq

/-- The wording of a failure. -/
def Failure.message : Failure → String
  | source e => e.message
  | parse d => d.summary
  | compile e => e.message

/-- A program text with its declarations. -/
structure CompilationUnit where
  listing : Listing
  registry : Registry
  limits : Limits := .default

namespace CompilationUnit

/-- Read the text of a listing. -/
def ofListing (l : Listing) : Except Failure CompilationUnit :=
  match Declaration.parse l.text with
  | .ok r => .ok { listing := l, registry := r }
  | .error e => .error (.parse (e.diagnostic l))

/-- Read an entry file of a library and everything it includes. -/
def load (lib : Library) (entry : String) : Except Failure CompilationUnit :=
  match lib.flatten entry with
  | .ok l => ofListing l
  | .error e => .error (.source e)

/-- Read a single file. -/
def ofSource (name : String) (text : Text) : Except Failure CompilationUnit :=
  load (Library.ofFiles [(name, text)]) name

/-- Compile an entry macro of the unit. -/
def compile (u : CompilationUnit) (entry : Invocation) : Except Failure Program :=
  match Program.compile u.registry u.limits entry with
  | .ok p => .ok p
  | .error e => .error (.compile (e.map u.listing.place))

end CompilationUnit

end MacroAssembler
