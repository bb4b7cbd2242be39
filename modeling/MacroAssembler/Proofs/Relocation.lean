/-
MacroAssembler/Proofs/Relocation.lean

Code does not depend on where it is expanded.

The tree of an invocation knows no offsets, so two expansions of one invocation
are two layouts of one tree.  Laying a tree out further behind moves every
instruction by the same distance (`layout_add`), and with the definitions move
the answers to references (`filled_relocate`): a greatest offset stays the
greatest.  Bytes, open references counted from the start, and the numbers of
operations stay what they are.

Everything is compared with the layout at offset 0 (`ExpansionTree.segment_eq`),
so the code at one offset and the code at another are both read off the same
list of instructions.

Main result: `Expansion.relocated_of_run_expand`.
-/
import Mathlib.Control.Monad.Basic
import MacroAssembler.Proofs.ExpansionCost

namespace MacroAssembler

open Rendering Scope

/-! ### Layouts at another offset -/

/-- A label that is defined `n` bytes further behind. -/
def LabelSite.relocate (n : Nat) (site : LabelSite) : LabelSite :=
  { site with offset := site.offset + n }

/-- A table whose labels are all defined `n` bytes further behind. -/
def LabelTable.relocate (n : Nat) (t : LabelTable) : LabelTable :=
  ⟨t.entries.map fun e => (e.1, e.2.relocate n)⟩

/-- A reference whose slot is `n` bytes further behind. -/
def Reference.relocate (n : Nat) (r : Reference) : Reference := { r with slot := r.slot + n }

namespace Placed

/-- An instruction that is placed `n` bytes further behind. -/
def relocate (n : Nat) (p : Placed) : Placed := { p with offset := p.offset + n }

variable (n : Nat) (p : Placed)

@[simp] theorem relocate_node : (p.relocate n).node = p.node := rfl
@[simp] theorem relocate_instr : (p.relocate n).instr = p.instr := rfl

@[simp] theorem cells_relocate (value? : Option Nat) :
    (p.relocate n).cells value? = p.cells value? := rfl

theorem site?_relocate (label : String) :
    (p.relocate n).site? label = (p.site? label).map (LabelSite.relocate n) := by
  obtain ⟨node, index, offset, source, i⟩ := p
  cases i with
  | dest name => by_cases h : name = label <;> simp [site?, relocate, LabelSite.relocate, h]
  | _ => rfl

theorem labels_relocate : (p.relocate n).labels = p.labels.relocate n := by
  obtain ⟨node, index, offset, source, i⟩ := p
  cases i <;> rfl

theorem slot_relocate : (p.relocate n).slot = p.slot + n := Nat.add_right_comm _ _ _

theorem openJump?_relocate (value? : Option Nat) :
    (p.relocate n).openJump? (value?.map (· + n)) =
      (p.openJump? value?).map (Reference.relocate n) := by
  have hslot := p.slot_relocate n
  obtain ⟨node, index, offset, source, i⟩ := p
  cases i with
  | jumpRef label => cases value? <;> simp_all [openJump?, relocate, Reference.relocate]
  | _ => rfl

theorem tableRef?_relocate :
    (p.relocate n).tableRef? = p.tableRef?.map (Reference.relocate n) := by
  have hslot := p.slot_relocate n
  obtain ⟨node, index, offset, source, i⟩ := p
  cases i with
  | tableRef table => simp_all [tableRef?, relocate, Reference.relocate]
  | _ => rfl

end Placed

/-- A tree that is laid out further behind has every instruction further
behind. -/
theorem ExpansionTree.layout_add (t : ExpansionTree) (index pos n : Nat) :
    t.layout index (pos + n) = (t.layout index pos).map (Placed.relocate n) := by
  induction t generalizing index pos with
  | done => rfl
  | instr source i rest ih | measured source _ rest _ ih =>
    rw [layout, layout, Nat.add_right_comm, ih]
    rfl
  | inlined child rest ihc ih =>
    rw [layout, layout, Nat.add_right_comm, ih, ihc, List.map_append, List.map_map, List.map_map]
    rfl

/-! ### Answers at another offset -/

namespace Scope

variable (n : Nat) (l : List Placed)

theorem sites_relocate (a : List Nat) (label : String) :
    sites (l.map (Placed.relocate n)) a label = (sites l a label).map (LabelSite.relocate n) := by
  rw [sites, List.filterMap_map, sites, List.map_filterMap]
  refine List.filterMap_congr fun p _ => ?_
  by_cases h : a <+: p.node <;> simp [h, Placed.site?_relocate]

/-- The site with the greatest offset stays the one with the greatest offset. -/
theorem argmax_relocate (sites : List LabelSite) :
    (sites.map (LabelSite.relocate n)).argmax LabelSite.offset =
      (sites.argmax LabelSite.offset).map (LabelSite.relocate n) := by
  induction sites with
  | nil => rfl
  | cons site sites ih =>
    rw [List.map_cons, List.argmax_cons, List.argmax_cons, ih]
    rcases sites.argmax LabelSite.offset with - | best
    · rfl
    · by_cases h : site.offset < best.offset <;> simp [LabelSite.relocate, h]

theorem target?_relocate (node : List Nat) (label : String) :
    target? (l.map (Placed.relocate n)) node label =
      (target? l node label).map (LabelSite.relocate n) := by
  have hscope : scope? (l.map (Placed.relocate n)) node label = scope? l node label := by
    rw [scope?, first?, scope?, first?]
    congr 1
    funext a
    rw [sites_relocate, List.isEmpty_map]
  rw [target?, hscope, target?]
  rcases scope? l node label with - | a
  · rfl
  · simp only [Option.bind_some, sites_relocate, argmax_relocate]

/-- What a reference is filled with moves with the code. -/
theorem filled_relocate (p : Placed) :
    filled (l.map (Placed.relocate n)) (p.relocate n) = (filled l p).map (· + n) := by
  obtain ⟨node, index, offset, source, i⟩ := p
  cases i with
  | jumpRef label =>
    show (target? _ node label).map LabelSite.offset = ((target? l node label).map _).map _
    rw [target?_relocate, Option.map_map, Option.map_map]
    rfl
  | _ => rfl

end Scope

/-! ### Segments at another offset -/

namespace LabelTable

variable (n : Nat)

theorem has_relocate (t : LabelTable) (label : String) :
    (t.relocate n).has label = t.has label := by
  obtain ⟨entries⟩ := t
  induction entries with
  | nil => rfl
  | cons e entries ih =>
    rw [has, get?, relocate] at ih ⊢
    rw [List.map_cons, List.lookup_cons, has, get?, List.lookup_cons]
    rcases label == e.1 with - | -
    · exact ih
    · rfl

theorem merge_relocate (t u : LabelTable) :
    (t.merge u).relocate n = (t.relocate n).merge (u.relocate n) := by
  simp only [merge, relocate, List.map_append, List.filter_map, LabelTable.mk.injEq]
  congr 2
  refine List.filter_congr fun e _ => ?_
  exact congrArg (!·) (has_relocate n u e.1).symm

end LabelTable

namespace Rendering

theorem labelsOf_relocate (n : Nat) (l : List Placed) :
    labelsOf (l.map (Placed.relocate n)) = (labelsOf l).relocate n := by
  induction l with
  | nil => rfl
  | cons p l ih =>
    rw [List.map_cons, labelsOf, ih, Placed.labels_relocate, labelsOf, LabelTable.merge_relocate]

/-- A reference that holds an offset holds one that is `n` greater. -/
def moved (n : Nat) (v : Placed → Option Nat) (p : Placed) : Option Nat := (v p).map (· + n)

end Rendering

/-- The segment of a tree, in terms of its layout at offset 0. -/
theorem ExpansionTree.segment_eq (t : ExpansionTree) (pos : Nat) :
    t.segment pos =
      { cells := Rendering.code (moved pos (filled (t.layout 0 0))) (t.layout 0 0)
        labels := (labelsOf (t.layout 0 0)).relocate pos
        jumps := (openJumps (filled (t.layout 0 0)) (t.layout 0 0)).map (Reference.relocate pos)
        tables := ((t.layout 0 0).filterMap Placed.tableRef?).map (Reference.relocate pos) } := by
  have hlayout : t.layout 0 pos = (t.layout 0 0).map (Placed.relocate pos) := by
    simpa using t.layout_add 0 0 pos
  rw [segment, hlayout, render, labelsOf_relocate]
  congr 1
  · rw [Rendering.code, Rendering.code, List.flatMap_map]
    refine List.flatMap_congr fun p _ => ?_
    rw [filled_relocate, Placed.cells_relocate]
    rfl
  · rw [openJumps, openJumps, List.filterMap_map, List.map_filterMap]
    refine List.filterMap_congr fun p _ => ?_
    rw [Function.comp_apply, filled_relocate, Placed.openJump?_relocate]
  · rw [List.filterMap_map, List.map_filterMap]
    exact List.filterMap_congr fun p _ => p.tableRef?_relocate pos

/-! ### Two offsets -/

/-- The expansion, or one inside it, answers the reference to a label whose slot
is `k` bytes behind its first byte. -/
def ExpansionTree.Answers (t : ExpansionTree) (k : Nat) : Prop :=
  ∃ p ∈ t.layout 0 0, ∃ label, p.instr = .jumpRef label ∧
    target? (t.layout 0 0) p.node label ≠ none ∧ p.slot = k

/-- The same code at two offsets: `f` at `start` and `g` at `start'`.  The slots
that are answered inside it are those of `answered`, counted from its first
byte. -/
structure Segment.Relocated (answered : Nat → Prop) (start start' : Nat) (f g : Segment) :
    Prop where
  size : g.size = f.size
  sources : g.cells.map Cell.source = f.cells.map Cell.source
  unmatched : g.unmatched start' = f.unmatched start
  labels : List.Forall₂
    (fun a b => b.1 = a.1 ∧ b.2.index = a.2.index ∧ b.2.offset + start = a.2.offset + start')
    f.labels.entries g.labels.entries
  tables : List.Forall₂ (fun a b => b.target = a.target ∧ b.slot + start = a.slot + start')
    f.tables g.tables
  /-- Outside the answered slots, the bytes are the same. -/
  bytes : ∀ i, (∀ k, answered k → i ≠ k ∧ i ≠ k + 1) → g.cells[i]? = f.cells[i]?
  /-- An answered slot holds an offset that differs as the two places do. -/
  slots : ∀ k, answered k → ∃ a b, Chunk.word? f.cells.toArray k = some a ∧
    Chunk.word? g.cells.toArray k = some b ∧ b + start = a + start'

namespace Scope

/-- What is filled is a reference to a label with a definition in scope. -/
theorem filled_ne_none_iff {l : List Placed} {p : Placed} :
    filled l p ≠ none ↔ ∃ label, p.instr = .jumpRef label ∧ target? l p.node label ≠ none := by
  obtain ⟨node, index, offset, source, i⟩ := p
  cases i <;> simp [filled]

end Scope

theorem answers_of_filled {t : ExpansionTree} {p : Placed} (hp : p ∈ t.layout 0 0)
    (h : filled (t.layout 0 0) p ≠ none) : t.Answers p.slot := by
  obtain ⟨label, hi, htarget⟩ := filled_ne_none_iff.1 h
  exact ⟨p, hp, label, hi, htarget, rfl⟩

/-- Open references are counted from the start, so they do not move. -/
theorem unmatched_segment (t : ExpansionTree) (pos : Nat) :
    (t.segment pos).unmatched pos = openJumps (filled (t.layout 0 0)) (t.layout 0 0) := by
  rw [t.segment_eq, Segment.unmatched, List.map_map]
  refine (List.map_congr_left fun r _ => ?_).trans (List.map_id _)
  simp [Reference.relocate]

/-- An answered slot holds the offset in the layout at 0, moved to where the code
is. -/
theorem word?_segment {t : ExpansionTree} {pos : Nat} {p : Placed} (hp : p ∈ t.layout 0 0)
    {n : Nat} (hn : filled (t.layout 0 0) p = some n) (hle : n + pos ≤ 0xffff) :
    Chunk.word? (t.segment pos).cells.toArray p.slot = some (n + pos) := by
  obtain ⟨label, hi, -⟩ := filled_ne_none_iff.1 (by simp [hn] : filled (t.layout 0 0) p ≠ none)
  rw [t.segment_eq]
  have hmoved : moved pos (filled (t.layout 0 0)) p = some (n + pos) := by
    rw [moved, hn, Option.map_some]
  simpa using word?_code (laid_layout t 0 0) hp (Placed.isRef_of_jumpRef hi) hmoved hle []

/-- Two layouts of one tree are the same code at two offsets, if the offsets in
its references fit. -/
theorem ExpansionTree.relocated {t : ExpansionTree} {start start' : Nat}
    (hfits : ∀ p ∈ t.layout 0 0, ∀ n ∈ filled (t.layout 0 0) p, n + start ≤ 0xffff)
    (hfits' : ∀ p ∈ t.layout 0 0, ∀ n ∈ filled (t.layout 0 0) p, n + start' ≤ 0xffff) :
    Segment.Relocated t.Answers start start' (t.segment start) (t.segment start') := by
  refine ⟨?_, ?_, ?_, ?_, ?_, ?_, ?_⟩
  · rw [size_segment, size_segment]
  · rw [t.segment_eq start, t.segment_eq start']
    exact map_source_code _ _ _
  · rw [unmatched_segment, unmatched_segment]
  · rw [t.segment_eq start, t.segment_eq start']
    simp only [LabelTable.relocate, List.forall₂_map_left_iff, List.forall₂_map_right_iff]
    refine List.forall₂_same.2 fun e _ => ⟨rfl, rfl, ?_⟩
    exact Nat.add_right_comm _ _ _
  · rw [t.segment_eq start, t.segment_eq start']
    simp only [List.forall₂_map_left_iff, List.forall₂_map_right_iff]
    exact List.forall₂_same.2 fun r _ => ⟨rfl, Nat.add_right_comm _ _ _⟩
  · intro i hi
    rw [t.segment_eq start, t.segment_eq start']
    refine getElem?_code_congr (laid_layout t 0 0) fun p hp _ hne => ?_
    -- where the values differ, the reference is answered
    rw [Nat.zero_add]
    refine hi _ (answers_of_filled hp fun hnone => hne ?_)
    rw [moved, moved, hnone]
    rfl
  · rintro k ⟨p, hp, label, hi, htarget, rfl⟩
    obtain ⟨n, hn⟩ := Option.ne_none_iff_exists'.1 (filled_ne_none_iff.2 ⟨label, hi, htarget⟩)
    refine ⟨n + start, n + start', word?_segment hp hn (hfits p hp n hn),
      word?_segment hp hn (hfits' p hp n hn), Nat.add_right_comm _ _ _⟩

namespace Expansion

/-- An expansion that succeeds is a layout of the tree, with offsets that fit. -/
theorem segment_of_run_expand {r : Registry} {limits : Limits} {inv : Invocation}
    {start earlier : Nat} {s : Segment} (h : (run (expand r limits inv start) earlier).1 = .ok s)
    {t : ExpansionTree} (ht : Expands r inv t) :
    s = t.segment start ∧
      ∀ p ∈ t.layout 0 0, ∀ n ∈ filled (t.layout 0 0) p, n + start ≤ 0xffff := by
  obtain ⟨log, t', hreal⟩ := (expandAt_yields r limits limits.depth [] none inv start).of_run h
  obtain rfl : t = t' := ht.unique hreal.expands
  refine ⟨hreal.settled.segment, fun p hp n hn => ?_⟩
  have hlayout : t.layout 0 start = (t.layout 0 0).map (Placed.relocate start) := by
    simpa using t.layout_add 0 0 start
  refine hreal.settled.fits (p.relocate start) ?_ (n + start) ?_
  · rw [hlayout]
    exact List.mem_map_of_mem hp
  · rw [hlayout, filled_relocate, hn]
    rfl

/-- **Code does not depend on where it is expanded.**  Two expansions of one
invocation that succeed, at whatever offsets and under whatever limits, give the
same code, with labels and references to tables moved by the difference of the
offsets.  The bytes differ in the slots of references to labels that are answered
inside, and there by that difference. -/
theorem relocated_of_run_expand {r : Registry} {limits limits' : Limits} {inv : Invocation}
    {start start' earlier earlier' : Nat} {f g : Segment}
    (hf : (run (expand r limits inv start) earlier).1 = .ok f)
    (hg : (run (expand r limits' inv start') earlier').1 = .ok g) :
    (∃! t, Expands r inv t) ∧
      ∀ t, Expands r inv t → Segment.Relocated t.Answers start start' f g := by
  obtain ⟨log, t, hreal⟩ := (expandAt_yields r limits limits.depth [] none inv start).of_run hf
  refine ⟨⟨t, hreal.expands, fun u hu => hu.unique hreal.expands⟩, fun u hu => ?_⟩
  obtain ⟨rfl, hfits⟩ := segment_of_run_expand hf hu
  obtain ⟨rfl, hfits'⟩ := segment_of_run_expand hg hu
  exact ExpansionTree.relocated hfits hfits'

/-- `MAIN` refers to its own labels, to one of `A`, to a table and to a label that
it does not have, and measures `A` before it expands it. -/
def travelling : Registry where
  macros := [
    { Macro.ofName "A" with ops := [⟨.jumpDest "a", 1⟩, ⟨.jumpRef "a", 2⟩, ⟨.jumpRef "b", 3⟩] },
    { Macro.ofName "MAIN" with
      ops := [⟨.jumpRef "a", 4⟩, ⟨.tableStart "T", 5⟩, ⟨.codeSize "A" [], 6⟩, ⟨.call "A" [], 7⟩,
        ⟨.jumpRef "away", 8⟩, ⟨.jumpDest "b", 9⟩] }]

theorem relocated_travelling :
    ∃ f g, (run (expand travelling {} ⟨"MAIN", []⟩ 7) 0).1 = .ok f ∧
      (run (expand travelling {} ⟨"MAIN", []⟩ 250) 3).1 = .ok g ∧
      f.cells.map Cell.byte = [0x61, 0, 15, 0x61, 0xff, 0xff, 0x60, 7, 0x5b, 0x61, 0, 15,
        0x61, 0, 25, 0x61, 0xff, 0xff, 0x5b] ∧
      g.cells.map Cell.byte = [0x61, 1, 2, 0x61, 0xff, 0xff, 0x60, 7, 0x5b, 0x61, 1, 2,
        0x61, 1, 12, 0x61, 0xff, 0xff, 0x5b] ∧
      (∃! t, Expands travelling ⟨"MAIN", []⟩ t) ∧
      ∀ t, Expands travelling ⟨"MAIN", []⟩ t → Segment.Relocated t.Answers 7 250 f g := by
  have hf : (run (expand travelling {} ⟨"MAIN", []⟩ 7) 0).1 =
      .ok ((run (expand travelling {} ⟨"MAIN", []⟩ 7) 0).1.toOption.getD .empty) := by
    decide +kernel
  have hg : (run (expand travelling {} ⟨"MAIN", []⟩ 250) 3).1 =
      .ok ((run (expand travelling {} ⟨"MAIN", []⟩ 250) 3).1.toOption.getD .empty) := by
    decide +kernel
  exact ⟨_, _, hf, hg, by decide +kernel, by decide +kernel, relocated_of_run_expand hf hg⟩

end Expansion

end MacroAssembler
