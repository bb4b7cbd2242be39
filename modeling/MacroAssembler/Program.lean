/-
MacroAssembler/Program.lean

Programs: expanded code with its jump tables behind it.

Linking appends every declared table, referred to or not, in the order of
declaration.  An entry is the offset of a label, in two bytes or in the last
two bytes of a 32-byte word.  Then the references to tables are filled.
-/
import MacroAssembler.CallGraph
import MacroAssembler.Expansion

namespace MacroAssembler

/-- A jump table at its place in a program. -/
structure LinkedTable where
  table : JumpTable
  /-- Offset of its first byte. -/
  offset : Nat
  deriving Repr, DecidableEq

/-- Code with its jump tables. -/
structure Program where
  /-- The code, tables included. -/
  cells : List Cell
  /-- All labels of the code. -/
  labels : LabelTable
  /-- The tables in the order of declaration. -/
  tables : List LinkedTable
  deriving Repr, DecidableEq

namespace Program

/-- The bytes of a program. -/
def bytes (p : Program) : List UInt8 := p.cells.map Cell.byte

/-- Number of bytes. -/
def size (p : Program) : Nat := p.cells.length

/-- Bytes before the first table. -/
def codeSize (p : Program) : Nat :=
  match p.tables with
  | [] => p.size
  | t :: _ => t.offset

/-- The table of a name. -/
def table? (p : Program) (name : String) : Option LinkedTable :=
  p.tables.find? fun t => t.table.name == name

/-- Where each byte comes from, in the text of a listing. -/
def sourceMap (p : Program) (l : Listing) : List Origin := p.cells.map fun c => l.locate c.source

/-- Where the byte at an offset comes from. -/
def origin? (p : Program) (l : Listing) (offset : Nat) : Option Origin :=
  p.cells[offset]?.map fun c => l.locate c.source

/-! ### Linking -/

/-- How messages name an entry of a table. -/
def entryName (table label : String) : String := s!"label '{label}' in jump table '{table}'"

/-- How messages name a reference to a table. -/
def tableName (table : String) : String := s!"jump table '{table}'"

/-- The bytes of an entry with a given offset. -/
def entryCells (t : JumpTable) (offset : Nat) : List Cell :=
  Cell.ofBytes t.source (List.replicate (t.entrySize - 2) 0) ++ Cell.ofWord t.source offset

/-- The bytes of some of a table's entries. -/
def tableCells {σ : Type} (labels : LabelTable) (t : JumpTable) :
    List String → Except (CompileError σ) (List Cell)
  | [] => .ok []
  | label :: rest =>
    match labels.offset? label with
    | none => .error (.missingTableLabel t.name label)
    | some offset =>
      if offset ≤ 0xffff then do return entryCells t offset ++ (← tableCells labels t rest)
      else .error (.offsetOverflow offset (entryName t.name label))

/-- The bytes of tables that start at a given offset, and where each is. -/
def layOut {σ : Type} (labels : LabelTable) (pos : Nat) :
    List JumpTable → Except (CompileError σ) (List Cell × List LinkedTable)
  | [] => .ok ([], [])
  | t :: ts => do
    let cells ← tableCells labels t t.labels
    let (rest, linked) ← layOut labels (pos + cells.length) ts
    return (cells ++ rest, ⟨t, pos⟩ :: linked)

/-- Fill references to tables in order. -/
def fillTables {σ : Type} (tables : List LinkedTable) :
    List Reference → Chunk → Except (CompileError σ) Chunk
  | [], c => .ok c
  | r :: rs, c =>
    match tables.find? fun t => t.table.name == r.target with
    | none => .error (.missingTable r.target)
    | some t => do fillTables tables rs (← c.patch r.slot t.offset (tableName t.table.name))

/-- Append the declared tables to code at offset 0 and fill the references to
them. -/
def link {σ : Type} (r : Registry) (limits : Limits) (s : Segment) :
    Except (CompileError σ) Program := do
  let (tableCells, tables) ← layOut s.labels s.size r.tables
  let cells := s.cells ++ tableCells
  if limits.bytes < cells.length then .error (.outputLimit limits.bytes cells.length)
  else
    let chunk ← fillTables tables s.tables cells.toArray
    return ⟨chunk.toList, s.labels, tables⟩

/-! ### Compiling -/

/-- Compile an entry macro with template arguments. -/
def compile (r : Registry) (limits : Limits) (entry : Invocation) :
    Except (CompileError Nat) Program :=
  if !r.hasMacro entry.name then .error (.unknownMacro entry.name none)
  else
    match (CallGraph.ofRegistry r).findCycle entry.name with
    | some chain => .error (.cycle chain)
    | none => do
      let s ← (Expansion.run (Expansion.expand r limits entry 0) 0).1
      if s.jumps.isEmpty then link r limits s
      -- a reference is reported at its push, one byte before the slot
      else .error (.unresolvedLabels entry.name (s.jumps.map fun j => (j.target, j.slot - 1)))

end Program

end MacroAssembler
