/-
MacroAssembler/Template/Resolution.lean

What a template argument stands for where its parameter is used.

A literal expression is a push, a mnemonic an opcode, the name of a macro (with
or without arguments) an expansion, and any other identifier a reference to a
jump label; they are tried in that order.
-/
import MacroAssembler.Argument
import MacroAssembler.CompileError
import MacroAssembler.Template.Expression

namespace MacroAssembler

/-- A macro with the arguments that it is expanded with. -/
structure Invocation where
  name : String
  args : List String
  deriving Repr, DecidableEq

namespace Template

/-- What a template argument stands for. -/
inductive Resolved where
  | opcode (byte : UInt8)
  | push (p : Push)
  | jumpRef (label : String)
  | expansion (inv : Invocation)
  deriving Repr, DecidableEq

/-- A push of a literal expression. -/
def resolveLiteral (r : Registry) (arg : Text) : Except LiteralError Push := do
  Push.encode (← evaluate r arg)

/-- What an argument that is neither arithmetic nor a mnemonic stands for. -/
def resolveName (r : Registry) (arg : Text) (source : Nat) :
    Except (CompileError Nat) Resolved :=
  let label : Except (CompileError Nat) Resolved :=
    if Text.isIdent arg then .ok (.jumpRef (String.ofList arg))
    else .error (.unparseableLiteral (String.ofList arg) .notLiteral source)
  match Argument.CallTarget.parse? arg with
  | none => label
  | some target =>
    let name := String.ofList target.name
    if r.hasMacro name then .ok (.expansion ⟨name, target.arguments⟩)
    else if target.inner?.isSome then .error (.unknownMacro name (some source))
    else label

/-- What an argument stands for at a parameter used at `source`. -/
def resolve (r : Registry) (arg : String) (source : Nat) :
    Except (CompileError Nat) Resolved :=
  let arg := Text.trim arg.toList
  if Argument.isLiteral arg then
    match resolveLiteral r arg with
    | .ok p => .ok (.push p)
    | .error reason => .error (.unparseableLiteral (String.ofList arg) reason source)
  else
    match Opcode.ofMnemonic? (String.ofList arg) with
    | some byte => .ok (.opcode byte)
    | none => resolveName r arg source

end Template

end MacroAssembler
