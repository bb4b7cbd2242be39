/-
MacroAssembler/Operation.lean

Operations, macros and jump tables: what a program text declares.
-/
import MacroAssembler.Push

namespace MacroAssembler

/-- What an operation of a macro body does. -/
inductive OperationKind where
  /-- Emit one opcode byte. -/
  | opcode (byte : UInt8)
  /-- Push a constant. -/
  | push (p : Push)
  /-- Mark a jump destination and name it. -/
  | jumpDest (label : String)
  /-- Push the offset of a jump destination. -/
  | jumpRef (label : String)
  /-- Expand a macro in place, with raw template arguments. -/
  | call (name : String) (args : List String)
  /-- Stand for the argument of a template parameter. -/
  | templateRef (param : String)
  /-- Push the length of a macro's expansion. -/
  | codeSize (name : String) (args : List String)
  /-- Push the offset of a jump table. -/
  | tableStart (table : String)
  deriving Repr, DecidableEq

/-- An operation with the byte offset of its token. -/
structure Operation where
  kind : OperationKind
  source : Nat
  deriving Repr, DecidableEq

/-- The number pushed by an operation that pushes a constant. -/
def Operation.pushValue? (op : Operation) : Option Nat :=
  match op.kind with
  | .push p => some p.value
  | _ => none

/-- A named sequence of operations. -/
structure Macro where
  name : String
  /-- Template parameters, in order. -/
  params : List String
  /-- Declared number of stack inputs. -/
  takes : Nat
  /-- Declared number of stack outputs. -/
  returns : Nat
  /-- The text between the braces. -/
  body : Text
  ops : List Operation
  /-- Byte offset of the declaration. -/
  source : Nat
  deriving Repr, DecidableEq

namespace Macro

/-- A macro without parameters and operations. -/
def ofName (name : String) : Macro :=
  { name := name, params := [], takes := 0, returns := 0, body := [], ops := [], source := 0 }

/-- Number of template parameters. -/
def arity (m : Macro) : Nat := m.params.length

/-- The value of a macro that consists of one push. -/
def constant? (m : Macro) : Option Nat :=
  match m.ops with
  | [op] => op.pushValue?
  | _ => none

/-- The macros that a macro expands or measures directly. -/
def callees (m : Macro) : List String :=
  m.ops.filterMap fun op =>
    match op.kind with
    | .call name _ => some name
    | .codeSize name _ => some name
    | _ => none

end Macro

/-- A block of jump destinations, placed behind the code. -/
structure JumpTable where
  name : String
  labels : List String
  /-- Whether entries take two bytes instead of a 32-byte word. -/
  packed : Bool
  /-- Byte offset of the declaration. -/
  source : Nat
  deriving Repr, DecidableEq

namespace JumpTable

/-- Bytes of one entry. -/
def entrySize (t : JumpTable) : Nat := if t.packed then 2 else 32

/-- Bytes of the whole table. -/
def size (t : JumpTable) : Nat := t.labels.length * t.entrySize

end JumpTable

end MacroAssembler
