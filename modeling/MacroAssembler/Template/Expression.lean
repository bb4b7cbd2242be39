/-
MacroAssembler/Template/Expression.lean

Arithmetic in template arguments.

An expression that has a `-` is cut at every `-`; otherwise one that has a `+` is
cut at every `+`, and otherwise one that has a `*` at every `*`.  Each part is
looked through in the same way, and the parts are combined from left to right, so
`10-2+3` is ten less five.  An operand is a literal or the name of a macro that
consists of one push.
-/
import MacroAssembler.Registry
import MacroAssembler.Text.Blank

namespace MacroAssembler.Template

/-- The arithmetic operators. -/
inductive Operator where
  | minus
  | plus
  | times
  deriving Repr, DecidableEq

namespace Operator

/-- The sign of an operator. -/
def sign : Operator → Char
  | minus => '-'
  | plus => '+'
  | times => '*'

/-- Combine two numbers.  There are no negative ones. -/
def apply : Operator → Nat → Nat → Except LiteralError Nat
  | minus, a, b => if a < b then .error .negative else .ok (a - b)
  | plus, a, b => .ok (a + b)
  | times, a, b => .ok (a * b)

/-- The operators in the order in which they are looked for. -/
def ranked : List Operator := [minus, plus, times]

/-- The operator at which a text is cut. -/
def first? (t : Text) : Option Operator := ranked.find? fun op => t.contains op.sign

end Operator

/-- The value of an operand. -/
def operand (r : Registry) (t : Text) : Except LiteralError Nat :=
  let t := Text.trim t
  match Numeral.parse? t with
  | some n => .ok n
  | none =>
    match r.getMacro? (String.ofList t) with
    | none => .error .notLiteral
    | some m =>
      match m.constant? with
      | some n => .ok n
      | none => .error (.notConstant (String.ofList t))

/-- Combine the values of parts from left to right.  There is at least one part
wherever a text is cut. -/
def combine {α : Type} (op : Operator) (value : α → Except LiteralError Nat) :
    List α → Except LiteralError Nat
  | [] => .error .notLiteral
  | p :: ps => do
    ps.foldlM (fun acc q => do op.apply acc (← value q)) (← value p)

theorem Operator.sign_mem_of_first? {t : Text} {op : Operator} (h : first? t = some op) :
    op.sign ∈ t := by
  simpa using List.find?_some h

/-- The value of an expression. -/
def evaluate (r : Registry) (t : Text) : Except LiteralError Nat :=
  match h : Operator.first? t with
  | none => operand r t
  | some op =>
    have := Operator.sign_mem_of_first? h
    let parts := Text.splitOn op.sign t
    combine op (fun p : {p // p ∈ parts} =>
      if (Operator.first? p.1).isSome then evaluate r p.1 else operand r p.1) parts.attach
termination_by t.length
decreasing_by exact Text.length_lt_of_mem_splitOn this p.2

end MacroAssembler.Template
