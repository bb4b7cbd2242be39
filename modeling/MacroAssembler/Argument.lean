/-
MacroAssembler/Argument.lean

Template argument texts.

Arguments stay raw text until a macro is expanded, so the reader of macro
bodies and the expander share the rules of this file: how a list of arguments
is cut at its commas, which texts are arithmetic, and which have the shape of
a call.
-/
import MacroAssembler.Text.Basic
import MacroAssembler.Text.Blank

namespace MacroAssembler.Argument

/-! ### Argument lists -/

/-- Bracket depth after a character.  A closing bracket with nothing to close
leaves the depth at zero. -/
def depthAfter (depth : Nat) (c : Char) : Nat :=
  if c = '<' then depth + 1 else if c = '>' then depth - 1 else depth

/-- The pieces between commas that stand outside all angle brackets. -/
def pieces (depth : Nat) : Text → List Text
  | [] => [[]]
  | c :: t =>
    if c = ',' ∧ depth = 0 then [] :: pieces 0 t
    else Text.consHead c (pieces (depthAfter depth c) t)

/-- The arguments of a list, each trimmed.  A blank list has none. -/
def splitText (t : Text) : List Text :=
  if (Text.trim t).isEmpty then [] else (pieces 0 t).map Text.trim

/-- The arguments of a list given as a string. -/
def split (s : String) : List String := (splitText s.toList).map String.ofList

/-! ### Classification -/

/-- The arithmetic operators of literal expressions. -/
def isOperator (c : Char) : Bool := c == '-' || c == '+' || c == '*'

/-- Whether an argument is to be evaluated as a literal expression: it holds an
operator, or is a literal on its own. -/
def isLiteral (t : Text) : Bool :=
  let t := Text.trim t
  t.any isOperator ||
    match t with
    | '0' :: 'x' :: digits => !digits.isEmpty && digits.all Text.isHexDigit
    | t => !t.isEmpty && t.all Text.isDigit

/-- A text of the form `NAME` or `NAME<inner>`, taken apart. -/
structure CallTarget where
  /-- The name called. -/
  name : Text
  /-- The text between the brackets, when there are any. -/
  inner? : Option Text
  deriving Repr, DecidableEq

namespace CallTarget

/-- Read a call target.  The name ends at the first opening bracket, and the
last character must then close it. -/
def parse? (t : Text) : Option CallTarget :=
  let t := Text.trim t
  match t.dropWhile (· != '<') with
  | [] => if Text.isIdent t then some ⟨t, none⟩ else none
  | _ :: inner =>
    let name := Text.trimEnd (t.takeWhile (· != '<'))
    if inner.getLast? = some '>' ∧ Text.isIdent name then some ⟨name, some inner.dropLast⟩
    else none

/-- The arguments of a call target; none without brackets. -/
def arguments (target : CallTarget) : List String :=
  match target.inner? with
  | none => []
  | some inner => (splitText inner).map String.ofList

end CallTarget

end MacroAssembler.Argument
