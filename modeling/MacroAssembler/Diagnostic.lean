/-
MacroAssembler/Diagnostic.lean

What can be wrong with a program text, and how it is reported.

A `Fault` is a cause.  It has a kind and a wording of its own; together with
the place where it was found it makes a `Diagnostic`, which can be shown on one
line or with the offending source line.
-/
import MacroAssembler.Listing
import MacroAssembler.Push
import MacroAssembler.Registry

namespace MacroAssembler

/-- The kinds of faults of a program text. -/
inductive FaultKind where
  | unparseableToken
  | duplicateJumpLabel
  | unknownMacro
  | missingJumpTable
  | unparseableLiteral
  | invalidDeclaration
  | duplicateDefinition
  deriving Repr, DecidableEq

/-- The name of a kind. -/
def FaultKind.describe : FaultKind → String
  | unparseableToken => "unparseable token"
  | duplicateJumpLabel => "duplicate jump label"
  | unknownMacro => "unknown macro"
  | missingJumpTable => "missing jump table"
  | unparseableLiteral => "unparseable literal"
  | invalidDeclaration => "invalid declaration"
  | duplicateDefinition => "duplicate definition"

/-! ### Reports -/

/-- A fault as it is reported. -/
structure Diagnostic where
  kind : FaultKind
  place : Place
  message : String
  deriving Repr, DecidableEq

namespace Diagnostic

/-- The report on one line. -/
def summary (d : Diagnostic) : String :=
  s!"{d.kind.describe} at {d.place.describe}: {d.message}"

/-- A line number, set flush right in at least three columns. -/
def lineNumber (n : Nat) : String :=
  let digits := toString n
  String.ofList (List.replicate (3 - digits.length) ' ') ++ digits

/-- The report with the source line under it.  An empty message and an empty
line are left out. -/
def render (d : Diagnostic) : String :=
  s!"Error at {d.place.describe}: {d.kind.describe}\n" ++
  (if d.message.isEmpty then "" else s!"  {d.message}\n") ++
  (if d.place.text.isEmpty then ""
   else s!"  |\n{lineNumber d.place.line} | {String.ofList d.place.text}\n")

end Diagnostic

/-! ### Causes -/

/-- What a declaration needs at a place where something else stands. -/
inductive Expected where
  | templateOpen
  | templateClose
  | macroName
  | equals
  /-- `takes` or `returns` with its count. -/
  | count (word : String)
  | parenOpen
  | parenClose
  | bodyOpen
  | tableName
  | tableOpen
  deriving Repr, DecidableEq

/-- What is expected, in words. -/
def Expected.describe : Expected → String
  | templateOpen => "'<' after 'template'"
  | templateClose => "'>' closing the template parameter list"
  | macroName => "a macro name"
  | equals => "'=' after the macro name"
  | count word => s!"'{word}(..)'"
  | parenOpen => "'('"
  | parenClose => "')'"
  | bodyOpen => "'\x7b' opening the macro body"
  | tableName => "a jump table name"
  | tableOpen => "'\x7b' opening the jump table"

/-- A declaration that may not follow a template header. -/
inductive Misplaced where
  | template
  | table
  deriving Repr, DecidableEq

/-- The declaration in words. -/
def Misplaced.describe : Misplaced → String
  | template => "a template header"
  | table => "a jump table"

/-- What is wrong with a program text. -/
inductive Fault where
  /-- No token can be read. -/
  | unrecognized (snippet : Text)
  /-- A label is defined a second time in one macro. -/
  | duplicateLabel (name : String)
  /-- A call of a macro that is not declared before. -/
  | undefinedMacro (name : String)
  /-- The size of a jump table that is not declared before. -/
  | undefinedTable (name : String)
  /-- A literal or table size that cannot be pushed. -/
  | unpushable (lexeme : Text) (reason : LiteralError)
  /-- A literal without a value. -/
  | invalidLiteral (lexeme : Text)
  /-- Something else should stand here. -/
  | expected (what : Expected)
  /-- No declaration starts here. -/
  | notDeclaration
  /-- A template header is followed by something other than a macro. -/
  | misplaced (found : Misplaced)
  /-- The text ends after a template header. -/
  | danglingTemplate
  /-- A template parameter is not an identifier. -/
  | invalidParam (param : String)
  /-- A macro body has no closing brace. -/
  | unclosedBody (name : String)
  /-- A stack count is not a number. -/
  | invalidCount (word : String)
  /-- Something in a jump table is not a label. -/
  | invalidEntry (table : String)
  /-- A name is declared a second time. -/
  | duplicate (reason : RegistrationError)
  deriving Repr, DecidableEq

namespace Fault

/-- The kind under which a fault is reported. -/
def kind : Fault → FaultKind
  | unrecognized _ => .unparseableToken
  | duplicateLabel _ => .duplicateJumpLabel
  | undefinedMacro _ => .unknownMacro
  | undefinedTable _ => .missingJumpTable
  | unpushable _ _ | invalidLiteral _ => .unparseableLiteral
  | duplicate _ => .duplicateDefinition
  | _ => .invalidDeclaration

/-- The wording of a fault. -/
def message : Fault → String
  | unrecognized snippet => s!"cannot parse '{String.ofList snippet}'"
  | duplicateLabel name => s!"jump label '{name}' is defined twice in this macro"
  | undefinedMacro name => s!"call to undefined macro '{name}'"
  | undefinedTable name => s!"__tablesize of undefined jump table '{name}'"
  | unpushable lexeme reason => s!"'{String.ofList lexeme}': {reason.message}"
  | invalidLiteral lexeme => s!"'{String.ofList lexeme}' is not a valid literal"
  | expected what => s!"expected {what.describe}"
  | notDeclaration => "expected a macro, template or jump table definition"
  | misplaced found =>
    s!"found {found.describe} where a macro definition must follow a template header"
  | danglingTemplate => "template header is not followed by a macro definition"
  | invalidParam param => s!"'{param}' is not a valid template parameter name"
  | unclosedBody name => s!"body of macro '{name}' is never closed"
  | invalidCount word => s!"'{word}' needs a decimal count"
  | invalidEntry table => s!"expected a jump label or '\x7d' in jump table '{table}'"
  | duplicate reason => reason.message

end Fault

/-- A fault at a byte offset of the text. -/
structure ParseError where
  fault : Fault
  offset : Nat
  deriving Repr, DecidableEq

/-- The report of a fault in the text of a listing. -/
def ParseError.diagnostic (e : ParseError) (l : Listing) : Diagnostic :=
  ⟨e.fault.kind, l.place e.offset, e.fault.message⟩

end MacroAssembler
