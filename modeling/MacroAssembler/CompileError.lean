/-
MacroAssembler/CompileError.lean

Why a program cannot be compiled.

An error names the operation at fault by a site.  While a program is expanded
a site is a byte offset of the source text; for a reader it is a place in a
file.  `CompileError.map` goes from one to the other.

To replace parameters by values never fails (see `Template.substituteText`), so
no error is about that.
-/
import MacroAssembler.Listing
import MacroAssembler.Push

namespace MacroAssembler

/-- Why a program cannot be compiled, with sites of type `σ`. -/
inductive CompileError (σ : Type) where
  /-- No macro has the name.  The entry macro has no site. -/
  | unknownMacro (name : String) (site? : Option σ)
  /-- A macro is given the wrong number of template arguments. -/
  | arityMismatch (name : String) (expected found : Nat) (site? : Option σ)
  /-- A macro refers to a template parameter that it does not have. -/
  | unknownParam (name param : String) (site : σ)
  /-- A template argument has no value that can be pushed. -/
  | unparseableLiteral (literal : String) (reason : LiteralError) (site : σ)
  /-- No jump table has the name. -/
  | missingTable (name : String)
  /-- A slot to be filled does not hold the mark of an empty slot. -/
  | placeholderCorruption (offset : Nat) (found : UInt8 × UInt8)
  /-- References to labels that are defined nowhere, with their offsets. -/
  | unresolvedLabels (entry : String) (jumps : List (String × Nat))
  /-- A jump table lists a label that is defined nowhere. -/
  | missingTableLabel (table label : String)
  /-- A macro expands into itself. -/
  | cycle (chain : List String)
  /-- Macros are nested too deeply. -/
  | recursionLimit (limit : Nat) (name : String)
  /-- Too many macros are expanded. -/
  | expansionLimit (limit : Nat)
  /-- The code is too long. -/
  | outputLimit (limit size : Nat)
  /-- An offset does not fit into two bytes. -/
  | offsetOverflow (offset : Nat) (what : String)
  deriving Repr, DecidableEq

namespace CompileError

/-- Change the sites of an error. -/
def map {σ τ : Type} (f : σ → τ) : CompileError σ → CompileError τ
  | unknownMacro name site? => unknownMacro name (site?.map f)
  | arityMismatch name expected found site? => arityMismatch name expected found (site?.map f)
  | unknownParam name param site => unknownParam name param (f site)
  | unparseableLiteral literal reason site => unparseableLiteral literal reason (f site)
  | missingTable name => missingTable name
  | placeholderCorruption offset found => placeholderCorruption offset found
  | unresolvedLabels entry jumps => unresolvedLabels entry jumps
  | missingTableLabel table label => missingTableLabel table label
  | cycle chain => cycle chain
  | recursionLimit limit name => recursionLimit limit name
  | expansionLimit limit => expansionLimit limit
  | outputLimit limit size => outputLimit limit size
  | offsetOverflow offset what => offsetOverflow offset what

/-- The site of an error that has one. -/
def site? {σ : Type} : CompileError σ → Option σ
  | unknownMacro _ site? => site?
  | arityMismatch _ _ _ site? => site?
  | unknownParam _ _ site => some site
  | unparseableLiteral _ _ site => some site
  | _ => none

/-- A place after the words of a message, if it is known. -/
def atPlace : Option Place → String
  | none => ""
  | some p => s!" at {p.describe}"

/-- A byte as two hexadecimal digits. -/
def hexByte (b : UInt8) : String := String.ofList (Numeral.hexOfByte b)

/-- The wording of an error. -/
def message : CompileError Place → String
  | unknownMacro name site? => s!"unknown macro '{name}'{atPlace site?}"
  | arityMismatch name expected found site? =>
    s!"macro '{name}' takes {expected} template argument(s), {found} supplied{atPlace site?}"
  | unknownParam name param site =>
    s!"macro '{name}' has no template parameter '{param}' at {site.describe}"
  | unparseableLiteral literal reason site =>
    s!"cannot process literal '{literal}' at {site.describe}: {reason.message}"
  | missingTable name => s!"unknown jump table '{name}'"
  | placeholderCorruption offset (a, b) =>
    s!"placeholder at byte {offset} was already overwritten (found [{hexByte a}, {hexByte b}])"
  | unresolvedLabels entry jumps =>
    let listed := jumps.map fun (label, offset) => s!"'{label}' at byte {offset}"
    s!"macro '{entry}' has unresolved jump labels: " ++ ", ".intercalate listed
  | missingTableLabel table label =>
    s!"jump table '{table}' references undefined label '{label}'"
  | cycle chain => "macro cycle detected: " ++ " -> ".intercalate chain
  | recursionLimit limit name => s!"macro nesting deeper than {limit} while expanding '{name}'"
  | expansionLimit limit => s!"more than {limit} macro expansions"
  | outputLimit limit size => s!"bytecode size {size} exceeds the limit of {limit} bytes"
  | offsetOverflow offset what => s!"offset {offset} of {what} does not fit in 2 bytes"

end CompileError

end MacroAssembler
