/-
MacroAssembler/Proofs/TwoPass.lean

Expansion is a two-pass assembler.

The expander makes one pass: it fills references frame by frame, on the way
back out of each expansion, and a frame never sees the labels of its caller.
The reference here looks at the whole program twice.  The first pass builds the
tree of the expansion and lays it out; the second fills each reference by the
rule of scopes, which is about the whole layout (`Scope.target?`).

Main result: whatever `Expansion.expand` returns, it is what the two passes
make of the one tree that the invocation has
(`Expansion.twoPass_of_run_expand`).
-/
import MacroAssembler.Proofs.Assembly

namespace MacroAssembler

open Scope Rendering

/-- A reference that the second pass leaves open, with its slot counted from
`start`. -/
def Placed.leftOpen? (l : List Placed) (start : Nat) (p : Placed) : Option Reference :=
  match p.instr with
  | .jumpRef label =>
    if target? l p.node label = none then some ⟨label, p.slot - start⟩ else none
  | _ => none

/-- The segment is what the two passes make of a tree, from offset `start` on. -/
structure TwoPass (t : ExpansionTree) (start : Nat) (s : Segment) : Prop where
  /-- The instructions stand one after the other, each reference with its
  offset or with an empty slot. -/
  cells : s.cells =
    (t.layout 0 start).flatMap fun p => p.cells (filled (t.layout 0 start) p)
  /-- An offset is never cut off. -/
  fits : ∀ p ∈ t.layout 0 start, ∀ n ∈ filled (t.layout 0 start) p, n ≤ 0xffff
  /-- A label stands for its definition with the greatest offset. -/
  labels : ∀ label,
    s.labels.get? label = (sites (t.layout 0 start) [] label).argmax LabelSite.offset
  /-- A label is listed once. -/
  distinct : s.labels.Distinct
  unmatched : s.unmatched start =
    (t.layout 0 start).filterMap (Placed.leftOpen? (t.layout 0 start) start)
  increasing : (s.unmatched start).Pairwise fun a b => a.slot < b.slot
  tables : s.tables = (t.layout 0 start).filterMap Placed.tableRef?

/-- What is left open is what is not filled. -/
theorem leftOpen?_eq (l : List Placed) (start : Nat) (p : Placed) :
    p.leftOpen? l start =
      (p.openJump? (filled l p)).map fun r => { r with slot := r.slot - start } := by
  obtain ⟨node, index, offset, source, i⟩ := p
  cases i with
  | jumpRef label =>
    simp only [Placed.leftOpen?, filled, Placed.openJump?]
    rcases target? l node label with - | site <;> rfl
  | _ => simp [Placed.leftOpen?, Placed.openJump?]

theorem slot_of_leftOpen? {l : List Placed} {start : Nat} {p : Placed} {r : Reference}
    (h : p.leftOpen? l start = some r) : r.slot = p.slot - start := by
  rw [leftOpen?_eq] at h
  obtain ⟨r', hr', rfl⟩ := Option.map_eq_some_iff.1 h
  obtain ⟨node, index, offset, source, i⟩ := p
  rcases hv : filled l ⟨node, index, offset, source, i⟩ with - | n
  · cases i <;> simp [Placed.openJump?, hv] at hr'
    rw [← hr']
  · cases i <;> simp [Placed.openJump?, hv] at hr'

/-- Slots grow with the code. -/
theorem pairwise_leftOpen? {l : List Placed} {start : Nat} (hl : Laid start l)
    (m : List Placed) : (l.filterMap (Placed.leftOpen? m start)).Pairwise
      fun a b => a.slot < b.slot := by
  rw [List.pairwise_filterMap]
  refine hl.pairwise.imp_of_mem ?_
  intro p q hp hq hpq a ha b hb
  have hle := hl.le_offset hp
  have hpos := p.size_pos
  rw [slot_of_leftOpen? ha, slot_of_leftOpen? hb, Placed.slot, Placed.slot]
  omega

/-- The segment of a settled layout is the one that the two passes make. -/
theorem twoPass_of_settled {t : ExpansionTree} {start : Nat} {out : Expansion.Logged}
    (h : Settled (t.layout 0 start) out) : TwoPass t start out.1 := by
  have hl := laid_layout t 0 start
  have hopen : out.1.unmatched start =
      (t.layout 0 start).filterMap (Placed.leftOpen? (t.layout 0 start) start) := by
    rw [h.segment, Segment.unmatched]
    show (openJumps (filled (t.layout 0 start)) (t.layout 0 start)).map _ = _
    rw [openJumps, List.map_filterMap]
    exact List.filterMap_congr fun p _ => (leftOpen?_eq _ start p).symm
  refine ⟨?_, h.fits, ?_, ?_, hopen, ?_, ?_⟩
  · rw [h.segment]
    rfl
  · intro label
    rw [h.segment]
    exact get?_labelsOf hl label
  · rw [h.segment]
    exact distinct_labelsOf _
  · rw [hopen]
    exact pairwise_leftOpen? hl _
  · rw [h.segment]
    rfl

namespace Expansion

/-- An expansion that succeeds has one tree, and its segment is what the two
passes make of it, whatever the limits and however many expansions came before. -/
theorem twoPass_of_run_expand (r : Registry) (limits : Limits) (inv : Invocation)
    (start earlier : Nat) (s : Segment)
    (h : (run (expand r limits inv start) earlier).1 = .ok s) :
    (∃! t, Expands r inv t) ∧ ∀ t, Expands r inv t → TwoPass t start s := by
  obtain ⟨log, t, ht⟩ := (expandAt_yields r limits limits.depth [] none inv start).of_run h
  refine ⟨⟨t, ht.expands, fun u hu => hu.unique ht.expands⟩, ?_⟩
  intro u hu
  -- the tree that was found is the only one
  obtain rfl : u = t := hu.unique ht.expands
  exact twoPass_of_settled ht.settled

/-- Three macros that all define `a`: `B` answers its own reference, the last
expansion of `A` answers those of `MAIN`, and nothing answers `b`. -/
def shadowed : Registry where
  macros := [
    { Macro.ofName "A" with ops := [⟨.jumpDest "a", 1⟩] },
    { Macro.ofName "B" with ops := [⟨.jumpRef "a", 2⟩, ⟨.jumpDest "a", 3⟩] },
    { Macro.ofName "MAIN" with ops := [⟨.jumpRef "a", 4⟩, ⟨.call "A" [], 5⟩, ⟨.jumpRef "b", 6⟩,
        ⟨.call "B" [], 7⟩, ⟨.jumpDest "a", 8⟩, ⟨.codeSize "B" [], 9⟩, ⟨.call "A" [], 10⟩] }]

theorem twoPass_shadowed :
    ∃ s, (run (expand shadowed {} ⟨"MAIN", []⟩ 7) 3).1 = .ok s ∧
      s.cells.map Cell.byte =
        [0x61, 0, 21, 0x5b, 0x61, 0xff, 0xff, 0x61, 0, 17, 0x5b, 0x5b, 0x60, 4, 0x5b] ∧
      s.unmatched 7 = [⟨"b", 5⟩] ∧ (∃! t, Expands shadowed ⟨"MAIN", []⟩ t) ∧
      ∀ t, Expands shadowed ⟨"MAIN", []⟩ t → TwoPass t 7 s := by
  have h : (run (expand shadowed {} ⟨"MAIN", []⟩ 7) 3).1 =
      .ok ((run (expand shadowed {} ⟨"MAIN", []⟩ 7) 3).1.toOption.getD .empty) := by
    decide +kernel
  exact ⟨_, h, by decide +kernel, by decide +kernel,
    twoPass_of_run_expand shadowed {} ⟨"MAIN", []⟩ 7 3 _ h⟩

end Expansion

end MacroAssembler
