/-
MacroAssembler/Code/Label.lean

Jump labels with the offsets of their destinations.

A table holds each label once.  When a label is recorded again, or comes from
a table that is merged in later, the later site holds.
-/

namespace MacroAssembler

/-- Where a label is defined. -/
structure LabelSite where
  /-- Number of the operation in its macro. -/
  index : Nat
  /-- Offset of the jump destination in the code. -/
  offset : Nat
  deriving Repr, DecidableEq

/-- Labels with their sites. -/
structure LabelTable where
  entries : List (String × LabelSite) := []
  deriving Repr, DecidableEq

namespace LabelTable

/-- The table without labels. -/
def empty : LabelTable := {}

/-- The site of a label. -/
def get? (t : LabelTable) (label : String) : Option LabelSite := t.entries.lookup label

/-- The offset of a label. -/
def offset? (t : LabelTable) (label : String) : Option Nat := (t.get? label).map LabelSite.offset

/-- Whether a label is defined. -/
def has (t : LabelTable) (label : String) : Bool := (t.get? label).isSome

/-- The sites of `t`, except where `u` has a site for the same label, and the
sites of `u`. -/
def merge (t u : LabelTable) : LabelTable :=
  ⟨t.entries.filter (fun e => !u.has e.1) ++ u.entries⟩

/-- A table of one label. -/
def single (label : String) (site : LabelSite) : LabelTable := ⟨[(label, site)]⟩

/-- Record a label, in place of an earlier site of it. -/
def record (t : LabelTable) (label : String) (site : LabelSite) : LabelTable :=
  t.merge (single label site)

/-- Record labels in order. -/
def ofList (sites : List (String × LabelSite)) : LabelTable :=
  sites.foldl (fun t e => t.record e.1 e.2) empty

/-- Number of labels. -/
def size (t : LabelTable) : Nat := t.entries.length

/-- The order of listings: by offset, then by label. -/
def before (a b : String × LabelSite) : Bool :=
  a.2.offset < b.2.offset || (a.2.offset == b.2.offset && a.1 ≤ b.1)

/-- The labels by offset, then by label. -/
def sorted (t : LabelTable) : List (String × LabelSite) := t.entries.mergeSort before

end LabelTable

end MacroAssembler
