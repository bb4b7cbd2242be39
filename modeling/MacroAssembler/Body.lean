/-
MacroAssembler/Body.lean

Macro bodies: from tokens to operations.

A called macro and a measured table must be declared before the body.  The
macro of `__codesize` and the table of `__tablestart` need not be: they are
looked up when the program is expanded and linked.  The first offending token
decides which fault is reported.
-/
import MacroAssembler.Argument
import MacroAssembler.Diagnostic
import MacroAssembler.Token.Lexer

namespace MacroAssembler.Body

/-- The arguments in an optional bracket. -/
def arguments (args? : Option String) : List String :=
  match args? with
  | none => []
  | some s => Argument.split s

/-- A push of the number that a token denotes. -/
def pushOf (lexeme : Text) (value : Nat) : Except Fault OperationKind :=
  match Push.encode value with
  | .ok p => .ok (.push p)
  | .error reason => .error (.unpushable lexeme reason)

/-- The operation that a token stands for, after the labels already defined in
the same body. -/
def operation (r : Registry) (labels : List String) (t : Token) : Except Fault OperationKind :=
  match t.kind with
  | .call name args? =>
    if r.hasMacro name then .ok (.call name (arguments args?)) else .error (.undefinedMacro name)
  | .templateRef param => .ok (.templateRef param)
  | .codeSize name args? => .ok (.codeSize name (arguments args?))
  | .tableSize name =>
    match r.getTable? name with
    | some table => pushOf t.lexeme table.size
    | none => .error (.undefinedTable name)
  | .tableStart name => .ok (.tableStart name)
  | .label name => if name ∈ labels then .error (.duplicateLabel name) else .ok (.jumpDest name)
  | .decimal digits =>
    match Numeral.decimal? digits.toList with
    | some value => pushOf t.lexeme value
    | none => .error (.invalidLiteral t.lexeme)
  | .hex digits =>
    match Numeral.hex? digits.toList with
    | some value => pushOf t.lexeme value
    | none => .error (.invalidLiteral t.lexeme)
  | .word name =>
    match Opcode.ofMnemonic? name with
    | some byte => .ok (.opcode byte)
    | none => .ok (.jumpRef name)

/-- The labels defined after a token. -/
def labelsAfter (labels : List String) (t : Token) : List String :=
  match t.kind with
  | .label name => name :: labels
  | _ => labels

/-- The operations of a list of tokens, which may end at a place where no token
could be read. -/
def ofTokens (r : Registry) (labels : List String) :
    List Token → Option Unrecognized → Except ParseError (List Operation)
  | [], none => .ok []
  | [], some u => .error ⟨.unrecognized u.snippet, u.offset⟩
  | t :: ts, u =>
    match operation r labels t with
    | .error fault => .error ⟨fault, t.start⟩
    | .ok kind =>
      match ofTokens r (labelsAfter labels t) ts u with
      | .error e => .error e
      | .ok ops => .ok (⟨kind, t.start⟩ :: ops)

/-- Read the body in a window of the text. -/
def parse (r : Registry) (window : Cursor) : Except ParseError (List Operation) :=
  let (tokens, unrecognized?) := Token.lex window
  ofTokens r [] tokens unrecognized?

end MacroAssembler.Body
