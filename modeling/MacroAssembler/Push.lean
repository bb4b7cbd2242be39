/-
MacroAssembler/Push.lean

Pushes of constants: an immediate byte string behind the push opcode of its
width.

A literal is pushed with the fewest bytes that hold it, at least one.  A number
that needs more than 32 bytes cannot be pushed.
-/
import MacroAssembler.Numeral
import MacroAssembler.Opcode

namespace MacroAssembler

/-- Why a text does not give a number that can be pushed. -/
inductive LiteralError where
  /-- The number needs more than 32 bytes. -/
  | tooWide (bytes : Nat)
  /-- A subtraction went below zero. -/
  | negative
  /-- The text is no literal and names no macro. -/
  | notLiteral
  /-- The macro of that name is not a single push. -/
  | notConstant (name : String)
  deriving Repr, DecidableEq

/-- The wording of a literal error. -/
def LiteralError.message : LiteralError → String
  | tooWide bytes => s!"value needs {bytes} bytes, a push carries at most 32"
  | negative => "arithmetic result is negative"
  | notLiteral => "not a literal"
  | notConstant name => s!"macro '{name}' is not a single constant push"

/-- A push of an immediate byte string. -/
structure Push where
  /-- The bytes pushed, most significant first. -/
  immediate : List UInt8
  deriving Repr, DecidableEq

namespace Push

/-- The opcode byte that goes with the width of the immediate. -/
def opcode (p : Push) : UInt8 := Opcode.pushBase + UInt8.ofNat p.immediate.length

/-- The number pushed. -/
def value (p : Push) : Nat := Numeral.ofBytes p.immediate

/-- The opcode and the immediate. -/
def bytes (p : Push) : List UInt8 := p.opcode :: p.immediate

/-- The shortest push of `n`, if one is wide enough. -/
def encode (n : Nat) : Except LiteralError Push :=
  let bytes := Numeral.minimalBytes n
  match Opcode.push? bytes.length with
  | some _ => .ok ⟨bytes⟩
  | none => .error (.tooWide bytes.length)

/-- The shortest push of a size or offset. -/
def ofSize (n : Nat) : Push := ⟨Numeral.minimalBytes n⟩

end Push

end MacroAssembler
