/-
MacroAssembler/Code/Segment.lean

Segments: stretches of code with the labels they define and the references
they leave open.

All offsets in a segment are offsets of the whole program, so two segments that
stand one after the other are joined part by part (`Segment.append`).  A
reference to a label is filled by `resolve` as soon as a segment that encloses
it defines the label; a reference to a jump table waits for the linker.
-/
import MacroAssembler.Code.Chunk
import MacroAssembler.Code.Label
import MacroAssembler.Push

namespace MacroAssembler

/-- A reference with the slot that waits for its target. -/
structure Reference where
  /-- The label or jump table referred to. -/
  target : String
  /-- Offset of the slot. -/
  slot : Nat
  deriving Repr, DecidableEq

/-- A stretch of code. -/
structure Segment where
  cells : List Cell := []
  /-- Labels defined in the segment. -/
  labels : LabelTable := .empty
  /-- References to labels that are not filled. -/
  jumps : List Reference := []
  /-- References to jump tables. -/
  tables : List Reference := []
  deriving Repr, DecidableEq

namespace Segment

/-- The segment without code. -/
def empty : Segment := {}

/-- Bytes of code. -/
def size (s : Segment) : Nat := s.cells.length

/-- Two segments one after the other. -/
def append (s t : Segment) : Segment where
  cells := s.cells ++ t.cells
  labels := s.labels.merge t.labels
  jumps := s.jumps ++ t.jumps
  tables := s.tables ++ t.tables

instance : Append Segment := ⟨append⟩

/-! ### Single operations -/

/-- Plain bytes. -/
def ofBytes (source : Nat) (bytes : List UInt8) : Segment := { cells := Cell.ofBytes source bytes }

/-- A push of a constant. -/
def ofPush (source : Nat) (p : Push) : Segment := ofBytes source p.bytes

/-- A jump destination at offset `pos`, of operation number `index`. -/
def jumpDest (source pos index : Nat) (label : String) : Segment :=
  { ofBytes source [Opcode.jumpDest] with labels := .single label ⟨index, pos⟩ }

/-- A reference to a label, at offset `pos`. -/
def jumpRef (source pos : Nat) (label : String) : Segment :=
  { cells := Cell.placeholder source, jumps := [⟨label, pos + 1⟩] }

/-- A reference to a jump table, at offset `pos`. -/
def tableStart (source pos : Nat) (table : String) : Segment :=
  { cells := Cell.placeholder source, tables := [⟨table, pos + 1⟩] }

/-! ### Filling references -/

/-- How messages name a reference to a label. -/
def jumpName (label : String) : String := s!"jump label '{label}'"

/-- Fill the slots of references to known labels in order.  `start` is the
offset of the chunk.  When a slot cannot be filled, the chunk with the slots
filled before it comes back too. -/
def fill {σ : Type} (start : Nat) (labels : LabelTable) :
    List Reference → Chunk → Chunk × Option (CompileError σ)
  | [], c => (c, none)
  | r :: rs, c =>
    match labels.offset? r.target with
    | none => fill start labels rs c
    | some offset =>
      match c.patch (r.slot - start) offset (jumpName r.target) with
      | .error e => (c, some e)
      | .ok c => fill start labels rs c

/-- The references that a table of labels leaves open. -/
def unknown (labels : LabelTable) (refs : List Reference) : List Reference :=
  refs.filter fun r => !labels.has r.target

/-- Fill the references of a segment that its own labels answer.  `start` is
the offset of the segment. -/
def resolve {σ : Type} (start : Nat) (s : Segment) : Except (CompileError σ) Segment :=
  let rest := unknown s.labels s.jumps
  -- without a known label there is nothing to fill
  if rest.length = s.jumps.length then .ok s
  else
    match fill start s.labels s.jumps s.cells.toArray with
    | (_, some e) => .error e
    | (c, none) => .ok { s with cells := c.toList, jumps := rest }

/-- The open references to labels, with slots counted from `start`. -/
def unmatched (start : Nat) (s : Segment) : List Reference :=
  s.jumps.map fun r => { r with slot := r.slot - start }

end Segment

end MacroAssembler
