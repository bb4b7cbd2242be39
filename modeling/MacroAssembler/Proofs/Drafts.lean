/-
MacroAssembler/Proofs/Drafts.lean

Expansion into drafts.

In a segment every slot is an offset of the program, so segments are joined as
they are.  A draft counts the slots of its open references from its own start.
An expansion writes its operations into a draft one after the other, and where it
splices an inner draft in, it moves the open references of that draft by the
distance between the two starts (`Draft.splice`).  It fills those that its labels
answer, and hands the others on, counted from its start again.

`expandDraft` is the expander that works on drafts.  A segment at a given offset
has a draft (`Segment.draft`), and one operation leads from the draft of a segment
to the draft of the segment with the code of the operation behind it
(`emitDraft_eq`).  For an inner expansion this needs that its slots are not in
front of its start; then they can be counted from there and moved back.

Main result: `Expansion.run_expandDraft`.
-/
import MacroAssembler.Proofs.Relocation

namespace MacroAssembler

open Rendering

/-- Code under construction.  The slots of open references are counted from its
start, and all other offsets from the start of the program. -/
structure Draft where
  /-- Offset of the first byte. -/
  start : Nat
  cells : List Cell := []
  labels : LabelTable := .empty
  /-- Open references to labels. -/
  pending : List Reference := []
  tables : List Reference := []
  deriving Repr, DecidableEq

namespace Draft

/-- Offset of the next byte. -/
def position (d : Draft) : Nat := d.start + d.cells.length

/-- Write an instruction: operation number `index` of the macro, for `source`. -/
def write (source index : Nat) (d : Draft) : Instr → Draft
  | .opcode byte => { d with cells := d.cells ++ Cell.ofBytes source [byte] }
  | .push p => { d with cells := d.cells ++ Cell.ofBytes source p.bytes }
  | .dest label =>
    { d with
      cells := d.cells ++ Cell.ofBytes source [Opcode.jumpDest]
      labels := d.labels.record label ⟨index, d.position⟩ }
  | .jumpRef label =>
    { d with
      cells := d.cells ++ Cell.placeholder source
      pending := d.pending ++ [⟨label, d.cells.length + 1⟩] }
  | .tableRef table =>
    { d with
      cells := d.cells ++ Cell.placeholder source
      tables := d.tables ++ [⟨table, d.start + (d.cells.length + 1)⟩] }

/-- Put an inner draft behind the code so far. -/
def splice (d inner : Draft) : Draft where
  start := d.start
  cells := d.cells ++ inner.cells
  labels := d.labels.merge inner.labels
  pending := d.pending ++ inner.pending.map (Reference.relocate (inner.start - d.start))
  tables := d.tables ++ inner.tables

/-- Fill the open references that the labels of the draft answer. -/
def resolve (d : Draft) : Except (CompileError Nat) Draft :=
  match Segment.fill 0 d.labels d.pending d.cells.toArray with
  | (_, some e) => .error e
  | (c, none) => .ok { d with cells := c.toList, pending := Segment.unknown d.labels d.pending }

end Draft

/-! ### Drafts of segments -/

namespace Segment

/-- The draft of a segment that is at offset `start`. -/
def draft (start : Nat) (s : Segment) : Draft where
  start := start
  cells := s.cells
  labels := s.labels
  pending := s.unmatched start
  tables := s.tables

/-- No open reference has its slot in front of `start`. -/
def Behind (start : Nat) (s : Segment) : Prop := ∀ ref ∈ s.jumps, start ≤ ref.slot

variable {s t : Segment} {start : Nat}

/-- Moved back to where the code is, the open references of a draft are those of
the segment. -/
theorem Behind.relocate_pending (h : s.Behind start) :
    (s.draft start).pending.map (Reference.relocate start) = s.jumps := by
  rw [draft, unmatched, List.map_map]
  refine (List.map_congr_left fun ref href => ?_).trans (List.map_id _)
  have hle := h ref href
  simp [Reference.relocate, Nat.sub_add_cancel hle]

theorem position_draft : (s.draft start).position = start + s.size := rfl

theorem append_empty (s : Segment) : s ++ empty = s := by
  show append s empty = s
  simp [append, empty]

theorem append_assoc (s t u : Segment) : s ++ t ++ u = s ++ (t ++ u) := by
  show append (append s t) u = append s (append t u)
  simp [append, LabelTable.merge_assoc]

theorem draft_append (s t : Segment) :
    (s ++ t).draft start = ⟨start, s.cells ++ t.cells, s.labels.merge t.labels,
      s.unmatched start ++ t.unmatched start, s.tables ++ t.tables⟩ :=
  congrArg (Draft.mk start _ _ · _) List.map_append

/-- To write an instruction into the draft of a segment is to put its code behind
the segment. -/
theorem write_draft (source index : Nat) (i : Instr) :
    (s.draft start).write source index i =
      (s ++ i.segment source (start + s.size) index).draft start := by
  rw [draft_append]
  cases i with
  | opcode byte => simp [Draft.write, draft, Instr.segment, ofBytes, unmatched]
  | push p => simp [Draft.write, draft, Instr.segment, ofPush, ofBytes, unmatched]
  | dest label =>
    simp [Draft.write, draft, Instr.segment, jumpDest, ofBytes, unmatched, LabelTable.record,
      Draft.position, size]
  | jumpRef label =>
    have hslot : start + s.cells.length + 1 - start = s.cells.length + 1 := by omega
    simp [Draft.write, draft, Instr.segment, jumpRef, unmatched, size, hslot]
  | tableRef table =>
    simp [Draft.write, draft, Instr.segment, tableStart, unmatched, size, Nat.add_assoc]

/-- Where an inner draft is spliced in, the draft of the joined segments comes out. -/
theorem Behind.splice_draft (h : t.Behind (start + s.size)) :
    (s.draft start).splice (t.draft (start + s.size)) = (s ++ t).draft start := by
  have hmoved : (t.unmatched (start + s.size)).map (Reference.relocate (start + s.size - start)) =
      t.unmatched start := by
    rw [unmatched, unmatched, List.map_map]
    refine List.map_congr_left fun ref href => ?_
    have hle := h ref href
    have hslot : ref.slot - (start + s.size) + (start + s.size - start) = ref.slot - start := by
      omega
    exact congrArg (Reference.mk ref.target) hslot
  rw [draft_append]
  exact congrArg (fun pending => Draft.mk start _ _ (_ ++ pending) _) hmoved

theorem fill_unmatched (labels : LabelTable) (refs : List Reference) (c : Chunk) :
    fill (σ := Nat) 0 labels (refs.map fun r => { r with slot := r.slot - start }) c =
      fill start labels refs c := by
  induction refs generalizing c with
  | nil => rfl
  | cons ref refs ih => simp only [List.map_cons, fill, Nat.sub_zero, ih]

/-- The draft of a segment is filled as the segment is. -/
theorem resolve_draft : (s.draft start).resolve = (s.resolve start).map (draft start) := by
  have hrest : unknown s.labels (s.unmatched start) =
      (unknown s.labels s.jumps).map fun r => { r with slot := r.slot - start } := by
    rw [unknown, unknown, unmatched, List.filter_map]
    rfl
  rw [resolve_eq_fill, Draft.resolve]
  simp only [draft]
  rw [hrest, unmatched, fill_unmatched]
  rcases fill (σ := Nat) start s.labels s.jumps s.cells.toArray with ⟨c, - | e⟩ <;> rfl

end Segment

/-! ### The expander -/

namespace Expansion

/-- `Expansion.perform`, into a draft. -/
def performDraft (expand : (site : Nat) → Invocation → (pos : Nat) → Step Draft)
    (source index : Nat) (d : Draft) : Action → Step Draft
  | .emit i => pure (d.write source index i)
  | .inline inv => do return d.splice (← expand source inv d.position)
  | .measure inv => do
    let measured ← expand source inv d.position
    return d.write source index (.push (.ofSize measured.cells.length))

/-- `Expansion.emit`, into a draft. -/
def emitDraft (r : Registry) (expand : (site : Nat) → Invocation → (pos : Nat) → Step Draft)
    (m : Macro) (values : List String) (index : Nat) (d : Draft) (op : Operation) : Step Draft := do
  performDraft expand op.source index d (← ofResult (action r m values op))

/-- `Expansion.assemble`, into a draft. -/
def assembleDraft (limits : Limits) (emit : (index : Nat) → Draft → Operation → Step Draft) :
    (index : Nat) → Draft → List Operation → Step Draft
  | _, d, [] => pure d
  | index, d, op :: ops => do
    let d ← emit index d op
    if limits.bytes < d.position then throw (.outputLimit limits.bytes d.position)
    else assembleDraft limits emit (index + 1) d ops

/-- `Expansion.expandAt`, with drafts. -/
def expandDraft (r : Registry) (limits : Limits) :
    (room : Nat) → (active : List Invocation) → (site? : Option Nat) → Invocation → (pos : Nat) →
      Step Draft
  | room, active, site?, inv, pos =>
    match r.getMacro? inv.name with
    | none => throw (.unknownMacro inv.name site?)
    | some m =>
      if inv ∈ active then throw (.cycle (cycleChain active inv))
      else
        match room with
        | 0 => throw (.recursionLimit limits.depth inv.name)
        | room + 1 => do
          count limits
          if inv.args.length ≠ m.arity then
            throw (.arityMismatch inv.name m.arity inv.args.length site?)
          else
            let expand site := expandDraft r limits room (inv :: active) (some site)
            let d ← assembleDraft limits (emitDraft r expand m inv.args) 0 { start := pos } m.ops
            ofResult d.resolve

/-- The slots of an expansion are not in front of its start. -/
theorem expandAt_behind (r : Registry) (limits : Limits) (room : Nat) (active : List Invocation)
    (site? : Option Nat) (inv : Invocation) (pos : Nat) :
    Yields (expandAt r limits room active site? inv pos) (Segment.Behind pos)
      CompileError.SlotsIntact := by
  refine (expandAt_yields r limits room active site? inv pos).mono ?_
  rintro s ⟨log, t, ht⟩ ref href
  obtain rfl : s = render _ _ := ht.settled.segment
  obtain ⟨p, hp, hopen⟩ := List.mem_filterMap.1 href
  have hle := (laid_layout t 0 pos).le_offset hp
  have hslot : ref.slot = p.slot := by
    unfold Placed.openJump? at hopen
    split at hopen
    · rw [← Option.some.inj hopen]
    · cases hopen
  rw [hslot, Placed.slot]
  omega

variable {α β : Type}

/-- What is done with the value of a step matters for the values that it yields. -/
theorem Yields.map_congr {x : Step α} {P : α → Prop} {E : CompileError Nat → Prop}
    (hx : Yields x P E) {f g : α → β} (h : ∀ a, P a → f a = g a) : f <$> x = g <$> x := by
  funext n
  show run (f <$> x) n = run (g <$> x) n
  have hn := hx n
  rw [run_map, run_map]
  rcases hrun : run x n with ⟨e | a, k⟩
  · rfl
  · rw [hrun] at hn
    exact congrArg (fun b => (Except.ok b, k)) (h a hn)

section Drafts

variable {expandD : (site : Nat) → Invocation → (pos : Nat) → Step Draft} {expand : Expander}
  (hexpand : ∀ site inv pos, expandD site inv pos = Segment.draft pos <$> expand site inv pos)
  (hbehind : ∀ site inv pos,
    Yields (expand site inv pos) (Segment.Behind pos) CompileError.SlotsIntact)

include hexpand hbehind

theorem performDraft_eq (source index start : Nat) (s : Segment) (a : Action) :
    performDraft expandD source index (s.draft start) a =
      (fun t => (s ++ t).draft start) <$> perform expand source (start + s.size) index a := by
  cases a with
  | emit i => simp only [performDraft, perform, Segment.write_draft, map_pure]
  | inline inv =>
    rw [performDraft, perform, ← map_eq_pure_bind, hexpand, Functor.map_map,
      Segment.position_draft]
    exact (hbehind _ _ _).map_congr fun t ht => ht.splice_draft
  | measure inv =>
    simp only [performDraft, perform, hexpand, bind_map_left, Segment.write_draft, map_bind,
      map_pure, Segment.position_draft]
    rfl

/-- One operation leads from the draft of a segment to the draft of the segment
with the code of the operation behind it. -/
theorem emitDraft_eq (r : Registry) (m : Macro) (values : List String) (start index : Nat)
    (s : Segment) (op : Operation) :
    emitDraft r expandD m values index (s.draft start) op =
      (fun t => (s ++ t).draft start) <$>
        emit r expand m values (start + s.size) index op := by
  rw [emitDraft, emit_eq_perform, map_bind]
  simp only [performDraft_eq hexpand hbehind]

end Drafts

theorem assembleDraft_eq (limits : Limits) {emitD : (index : Nat) → Draft → Operation → Step Draft}
    {emit : (pos index : Nat) → Operation → Step Segment} {start : Nat}
    (hemit : ∀ index s op, emitD index (Segment.draft start s) op =
      (fun t => (s ++ t).draft start) <$> emit (start + s.size) index op)
    (index : Nat) (s : Segment) (ops : List Operation) :
    assembleDraft limits emitD index (s.draft start) ops =
      (fun t => (s ++ t).draft start) <$> assemble limits emit (start + s.size) index ops := by
  induction ops generalizing index s with
  | nil => rw [assembleDraft, assemble, map_pure, Segment.append_empty]
  | cons op ops ih =>
    rw [assembleDraft, assemble, map_bind, hemit, bind_map_left]
    congr 1
    funext t
    have hnext : start + s.size + t.size = start + (s ++ t).size := by
      rw [Segment.size_append, Nat.add_assoc]
    rw [Segment.position_draft, hnext]
    by_cases hlt : limits.bytes < start + (s ++ t).size
    · simp only [if_pos hlt]
      rfl
    · simp only [if_neg hlt, ih, Segment.append_assoc, map_eq_pure_bind, bind_assoc, pure_bind]

/-- Expanding into drafts gives the drafts of the segments. -/
theorem expandDraft_eq (r : Registry) (limits : Limits) (room : Nat) (active : List Invocation)
    (site? : Option Nat) (inv : Invocation) (pos : Nat) :
    expandDraft r limits room active site? inv pos =
      Segment.draft pos <$> expandAt r limits room active site? inv pos := by
  induction room generalizing active site? inv pos with
  | zero =>
    rw [expandDraft, expandAt]
    rcases r.getMacro? inv.name with - | m
    · rfl
    · by_cases ha : inv ∈ active <;> simp only [ha, if_true, if_false] <;> rfl
  | succ room ih =>
    rw [expandDraft, expandAt]
    rcases r.getMacro? inv.name with - | m
    · rfl
    · by_cases ha : inv ∈ active
      · simp only [ha, if_true]
        rfl
      · simp only [ha, if_false, map_bind]
        congr 1
        funext _
        by_cases harity : inv.args.length ≠ m.arity
        · simp only [if_pos harity]
          rfl
        · have hemit := emitDraft_eq
            (fun site => ih (inv :: active) (some site))
            (fun site => expandAt_behind r limits room (inv :: active) (some site))
            r m inv.args pos
          have hops := assembleDraft_eq limits hemit 0 .empty m.ops
          simp only [if_neg harity, map_bind]
          have hstart : ({ start := pos } : Draft) = Segment.empty.draft pos := rfl
          rw [hstart, hops, bind_map_left]
          congr 1
          funext s
          show ofResult (s.draft pos).resolve = _
          rw [Segment.resolve_draft]
          rcases s.resolve (σ := Nat) pos with e | t <;> rfl

/-- A macro is expanded into the draft of its segment, with the same count and the
same errors, and the open references of the draft are those of the segment when
they are moved back to where the code is. -/
theorem run_expandDraft (r : Registry) (limits : Limits) (inv : Invocation) (pos n : Nat) :
    run (expandDraft r limits limits.depth [] none inv pos) n =
        ((run (expand r limits inv pos) n).1.map (Segment.draft pos),
          (run (expand r limits inv pos) n).2) ∧
      ∀ s, (run (expand r limits inv pos) n).1 = .ok s →
        (s.draft pos).pending.map (Reference.relocate pos) = s.jumps := by
  refine ⟨?_, fun s hs => ?_⟩
  · rw [expandDraft_eq, run_map]
    rfl
  · have hbehind := expandAt_behind r limits limits.depth [] none inv pos
    exact (hbehind.of_run hs).relocate_pending

end Expansion

end MacroAssembler
