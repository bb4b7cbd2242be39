/-
MacroAssembler/Code/Chunk.lean

Code: bytes that remember where they come from.

A cell is a byte with the source it was emitted for, so code and source map
cannot get out of step.  A reference whose target is not known yet is emitted
as a push of two marked bytes, its *slot*, and the slot is filled later.  A
slot that no longer holds the mark is not filled again.
-/
import MacroAssembler.CompileError
import MacroAssembler.Numeral
import MacroAssembler.Opcode

namespace MacroAssembler

/-- A byte of code. -/
structure Cell where
  byte : UInt8
  /-- Byte offset of the source token that the byte was emitted for. -/
  source : Nat
  deriving Repr, DecidableEq, Inhabited

namespace Cell

/-- Bytes emitted for one source. -/
def ofBytes (source : Nat) (bytes : List UInt8) : List Cell := bytes.map (⟨·, source⟩)

/-- A number as two bytes. -/
def ofWord (source n : Nat) : List Cell :=
  let (hi, lo) := Numeral.twoBytes n
  [⟨hi, source⟩, ⟨lo, source⟩]

/-- The mark of an empty slot. -/
def emptySlot : Nat := 0xffff

/-- A push of an empty slot.  The slot begins after the first byte. -/
def placeholder (source : Nat) : List Cell := ⟨Opcode.push2, source⟩ :: ofWord source emptySlot

end Cell

/-- A stretch of code. -/
abbrev Chunk := Array Cell

namespace Chunk

/-- The byte at an offset. -/
def byte? (chunk : Chunk) (offset : Nat) : Option UInt8 := chunk[offset]?.map Cell.byte

/-- The source of the byte at an offset. -/
def source? (chunk : Chunk) (offset : Nat) : Option Nat := chunk[offset]?.map Cell.source

/-- The two bytes at an offset. -/
def pair? (c : Chunk) (offset : Nat) : Option (UInt8 × UInt8) :=
  match c.byte? offset, c.byte? (offset + 1) with
  | some hi, some lo => some (hi, lo)
  | _, _ => none

/-- The number that the two bytes at an offset make. -/
def word? (c : Chunk) (offset : Nat) : Option Nat :=
  (c.pair? offset).map fun (hi, lo) => hi.toNat * 256 + lo.toNat

/-- Change the byte at an offset and keep its source. -/
def setByte (c : Chunk) (offset : Nat) (b : UInt8) : Chunk :=
  c.modify offset fun cell => { cell with byte := b }

/-- Change the two bytes at an offset and keep their sources. -/
def setWord (c : Chunk) (offset n : Nat) : Chunk :=
  let (hi, lo) := Numeral.twoBytes n
  (c.setByte offset hi).setByte (offset + 1) lo

/-- What stands at a slot; bytes past the end count as zero. -/
def found (c : Chunk) (slot : Nat) : UInt8 × UInt8 :=
  (c.pair? slot).getD ((c.byte? slot).getD 0, 0)

/-- Fill an empty slot.  `what` names the reference in messages. -/
def patch {σ : Type} (c : Chunk) (slot value : Nat) (what : String) :
    Except (CompileError σ) Chunk :=
  if c.word? slot = some Cell.emptySlot then
    if value ≤ 0xffff then .ok (c.setWord slot value) else .error (.offsetOverflow value what)
  else .error (.placeholderCorruption slot (c.found slot))

end Chunk

end MacroAssembler
