/-
MacroAssembler/Proofs/ExpansionTree.lean

Expansion trees: the first of two passes.

The tree of a macro lists the operations of its expansion in order: an
instruction of its own, an expansion in place, or a measurement, which leaves
only a push of the length of what it measures.  `Expands r inv t` says that
`t` is the tree of an invocation.  The tree depends on the registry and the
arguments alone: no offset, no limit and no label enters into it, and an
invocation has at most one (`Expands.unique`).

`ExpansionTree.layout` lays a tree out from an offset, depth first and from
left to right.  Every instruction is placed at the offset where the bytes
before it end (`Laid`), and keeps the way to the expansion that emits it: the
numbers of the operations to follow from the outermost macro inwards.
-/
import MacroAssembler.Proofs.Steps

namespace MacroAssembler

/-! ### Trees -/

/-- The operations of an expansion, in order. -/
inductive ExpansionTree where
  | done
  /-- An instruction, emitted for a source. -/
  | instr (source : Nat) (i : Instr) (rest : ExpansionTree)
  /-- An expansion in place. -/
  | inlined (child rest : ExpansionTree)
  /-- A measurement, made for a source. -/
  | measured (source : Nat) (child rest : ExpansionTree)
  deriving Repr, DecidableEq

namespace ExpansionTree

/-- Bytes of code. -/
def size : ExpansionTree → Nat
  | done => 0
  | instr _ i rest => i.size + rest.size
  | inlined child rest => child.size + rest.size
  | measured _ child rest => (Instr.push (.ofSize child.size)).size + rest.size

end ExpansionTree

/-- `Unfolds r m values ops t`: the operations `ops` of `m`, expanded with
`values`, have the tree `t`. -/
inductive Unfolds (r : Registry) : Macro → List String → List Operation → ExpansionTree → Prop
  | done {m values} : Unfolds r m values [] .done
  | instr {m values op i ops t} :
      Expansion.action r m values op = .ok (.emit i) → Unfolds r m values ops t →
      Unfolds r m values (op :: ops) (.instr op.source i t)
  | inlined {m values op inv m' child ops t} :
      Expansion.action r m values op = .ok (.inline inv) → r.getMacro? inv.name = some m' →
      inv.args.length = m'.arity → Unfolds r m' inv.args m'.ops child →
      Unfolds r m values ops t → Unfolds r m values (op :: ops) (.inlined child t)
  | measured {m values op inv m' child ops t} :
      Expansion.action r m values op = .ok (.measure inv) → r.getMacro? inv.name = some m' →
      inv.args.length = m'.arity → Unfolds r m' inv.args m'.ops child →
      Unfolds r m values ops t → Unfolds r m values (op :: ops) (.measured op.source child t)

/-- The tree of an invocation. -/
def Expands (r : Registry) (inv : Invocation) (t : ExpansionTree) : Prop :=
  ∃ m, r.getMacro? inv.name = some m ∧ inv.args.length = m.arity ∧ Unfolds r m inv.args m.ops t

theorem Unfolds.unique {r : Registry} {m : Macro} {values : List String} {ops : List Operation}
    {t u : ExpansionTree} (ht : Unfolds r m values ops t) (hu : Unfolds r m values ops u) :
    t = u := by
  induction ht generalizing u with
  | done => cases hu; rfl
  | instr ha _ ih =>
    -- the action decides which rule the other tree was made by
    cases hu with
    | instr hb hu =>
      obtain rfl : _ = _ := by simpa [ha] using hb
      rw [ih hu]
    | inlined hb => simp [ha] at hb
    | measured hb => simp [ha] at hb
  | inlined ha hm _ _ _ ihc ih =>
    cases hu with
    | instr hb => simp [ha] at hb
    | inlined hb hm' _ hc hu =>
      obtain rfl : _ = _ := by simpa [ha] using hb
      obtain rfl : _ = _ := by simpa [hm] using hm'
      rw [ihc hc, ih hu]
    | measured hb => simp [ha] at hb
  | measured ha hm _ _ _ ihc ih =>
    cases hu with
    | instr hb => simp [ha] at hb
    | inlined hb => simp [ha] at hb
    | measured hb hm' _ hc hu =>
      obtain rfl : _ = _ := by simpa [ha] using hb
      obtain rfl : _ = _ := by simpa [hm] using hm'
      rw [ihc hc, ih hu]

/-- An invocation has at most one tree. -/
theorem Expands.unique {r : Registry} {inv : Invocation} {t u : ExpansionTree}
    (ht : Expands r inv t) (hu : Expands r inv u) : t = u := by
  obtain ⟨m, hm, -, ht⟩ := ht
  obtain ⟨m', hm', -, hu⟩ := hu
  obtain rfl : m = m' := by simpa [hm] using hm'
  exact ht.unique hu

/-! ### Layout -/

/-- An instruction at its place in the code. -/
structure Placed where
  /-- The way to the expansion that emits it, from the outermost inwards. -/
  node : List Nat
  /-- Number of the operation in its macro. -/
  index : Nat
  offset : Nat
  source : Nat
  instr : Instr
  deriving Repr, DecidableEq

namespace Placed

/-- Bytes of the instruction. -/
def size (p : Placed) : Nat := p.instr.size

/-- The same place, seen from an expansion whose operation number `k` is the
expansion that it was seen from. -/
def inside (k : Nat) (p : Placed) : Placed := { p with node := k :: p.node }

/-- Where a reference has its slot. -/
def slot (p : Placed) : Nat := p.offset + 1

@[simp] theorem inside_node (k : Nat) (p : Placed) : (p.inside k).node = k :: p.node := rfl
@[simp] theorem inside_index (k : Nat) (p : Placed) : (p.inside k).index = p.index := rfl
@[simp] theorem inside_offset (k : Nat) (p : Placed) : (p.inside k).offset = p.offset := rfl
@[simp] theorem inside_source (k : Nat) (p : Placed) : (p.inside k).source = p.source := rfl
@[simp] theorem inside_instr (k : Nat) (p : Placed) : (p.inside k).instr = p.instr := rfl
@[simp] theorem inside_size (k : Nat) (p : Placed) : (p.inside k).size = p.size := rfl
@[simp] theorem inside_slot (k : Nat) (p : Placed) : (p.inside k).slot = p.slot := rfl

theorem size_pos (p : Placed) : 0 < p.size := p.instr.size_pos

end Placed

/-- The instructions of a tree in the order of the code, from offset `pos` on;
the first operation has number `index`. -/
def ExpansionTree.layout : ExpansionTree → (index pos : Nat) → List Placed
  | .done, _, _ => []
  | .instr source i rest, index, pos =>
    ⟨[], index, pos, source, i⟩ :: rest.layout (index + 1) (pos + i.size)
  | .inlined child rest, index, pos =>
    (child.layout 0 pos).map (Placed.inside index) ++ rest.layout (index + 1) (pos + child.size)
  | .measured source child rest, index, pos =>
    let i := Instr.push (.ofSize child.size)
    ⟨[], index, pos, source, i⟩ :: rest.layout (index + 1) (pos + i.size)

/-- Instructions that stand one after the other, from offset `pos` on. -/
def Laid : (pos : Nat) → List Placed → Prop
  | _, [] => True
  | pos, p :: l => p.offset = pos ∧ Laid (pos + p.size) l

/-- Bytes of some instructions. -/
def totalSize : List Placed → Nat
  | [] => 0
  | p :: l => p.size + totalSize l

@[simp] theorem totalSize_nil : totalSize [] = 0 := rfl

@[simp] theorem totalSize_cons (p : Placed) (l : List Placed) :
    totalSize (p :: l) = p.size + totalSize l := rfl

@[simp] theorem totalSize_append (l l' : List Placed) :
    totalSize (l ++ l') = totalSize l + totalSize l' := by
  induction l with
  | nil => simp
  | cons p l ih => simp [ih, Nat.add_assoc]

@[simp] theorem totalSize_map_inside (k : Nat) (l : List Placed) :
    totalSize (l.map (Placed.inside k)) = totalSize l := by
  induction l with
  | nil => rfl
  | cons p l ih => simp [ih]

@[simp] theorem totalSize_layout (t : ExpansionTree) (index pos : Nat) :
    totalSize (t.layout index pos) = t.size := by
  induction t generalizing index pos with
  | done => rfl
  | instr source i rest ih => simp [ExpansionTree.layout, ExpansionTree.size, ih, Placed.size]
  | inlined child rest ihc ih => simp [ExpansionTree.layout, ExpansionTree.size, ihc, ih]
  | measured source child rest _ ih =>
    simp [ExpansionTree.layout, ExpansionTree.size, ih, Placed.size]

theorem Laid.append {pos : Nat} {l l' : List Placed} (h : Laid pos l)
    (h' : Laid (pos + totalSize l) l') : Laid pos (l ++ l') := by
  induction l generalizing pos with
  | nil => simpa using h'
  | cons p l ih =>
    refine ⟨h.1, ih h.2 ?_⟩
    simpa [Nat.add_assoc] using h'

theorem Laid.map_inside {pos : Nat} {l : List Placed} (h : Laid pos l) (k : Nat) :
    Laid pos (l.map (Placed.inside k)) := by
  induction l generalizing pos with
  | nil => trivial
  | cons p l ih => exact ⟨h.1, ih h.2⟩

/-- A layout has neither gaps nor overlaps. -/
theorem laid_layout (t : ExpansionTree) (index pos : Nat) : Laid pos (t.layout index pos) := by
  induction t generalizing index pos with
  | done => trivial
  | instr source i rest ih => exact ⟨rfl, ih _ _⟩
  | inlined child rest ihc ih =>
    refine ((ihc 0 pos).map_inside index).append ?_
    simpa using ih (index + 1) (pos + child.size)
  | measured source child rest _ ih => exact ⟨rfl, ih _ _⟩

theorem Laid.le_offset {pos : Nat} {l : List Placed} (h : Laid pos l) {p : Placed} (hp : p ∈ l) :
    pos ≤ p.offset := by
  induction l generalizing pos with
  | nil => simp at hp
  | cons q l ih =>
    obtain rfl | hp := List.mem_cons.1 hp
    · exact Nat.le_of_eq h.1.symm
    · exact Nat.le_trans (Nat.le_add_right _ _) (ih h.2 hp)

theorem Laid.end_le {pos : Nat} {l : List Placed} (h : Laid pos l) {p : Placed} (hp : p ∈ l) :
    p.offset + p.size ≤ pos + totalSize l := by
  induction l generalizing pos with
  | nil => simp at hp
  | cons q l ih =>
    obtain rfl | hp := List.mem_cons.1 hp
    · simp [h.1]
    · simpa [Nat.add_assoc] using ih h.2 hp

/-- Later instructions stand behind earlier ones. -/
theorem Laid.pairwise {pos : Nat} {l : List Placed} (h : Laid pos l) :
    l.Pairwise fun p q => p.offset + p.size ≤ q.offset := by
  induction l generalizing pos with
  | nil => exact .nil
  | cons p l ih =>
    refine .cons (fun q hq => ?_) (ih h.2)
    rw [h.1]
    exact h.2.le_offset hq

end MacroAssembler
