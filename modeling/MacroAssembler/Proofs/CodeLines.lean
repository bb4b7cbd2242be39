/-
MacroAssembler/Proofs/CodeLines.lean

Code as a list of lines.

A placed instruction knows which expansion it belongs to, since that decides
which definition answers a reference.  Once the answers are found, the way they
were found no longer matters: what the code is, which labels it has and what it
leaves open is read off the instructions, their offsets and the values in the
references alone.  `CodeLine` keeps just that, so that two trees of different
shape can have the same lines.

The scope rule of whole layouts becomes a recursion over the tree: an expansion
in place contributes the lines of its tree, settled by its own labels
(`ExpansionTree.lines`), and `ExpansionTree.lines_code` says that these are the
lines of the code.

Main results: `CodeLine.settle_append_settle`, that lines need not be settled
twice by labels that nothing else defines, and `ExpansionTree.sameCode_segment`,
that equal lines are equal code.
-/
import MacroAssembler.Proofs.ExpansionCost

namespace MacroAssembler

open Rendering Scope

/-! ### Lines -/

/-- An instruction of the code, with the offset in it if it is a reference that
is filled. -/
structure CodeLine where
  offset : Nat
  source : Nat
  instr : Instr
  value? : Option Nat
  deriving Repr, DecidableEq

/-- The line of a placed instruction. -/
def Placed.line (p : Placed) (value? : Option Nat) : CodeLine :=
  ⟨p.offset, p.source, p.instr, value?⟩

namespace CodeLine

/-- The lines of a layout whose references are filled as `v` says. -/
def ofLayout (v : Placed → Option Nat) (l : List Placed) : List CodeLine :=
  l.map fun p => p.line (v p)

/-- The offset of the last definition of a label. -/
def definition? (ls : List CodeLine) (label : String) : Option Nat :=
  match ls with
  | [] => none
  | x :: ls =>
    (definition? ls label).or (if x.instr = .dest label then some x.offset else none)

/-- The offset that some lines have for a reference to a label. -/
def known (ls : List CodeLine) (x : CodeLine) : Option Nat :=
  match x.instr with
  | .jumpRef label => definition? ls label
  | _ => none

/-- Fill an empty reference from the definitions of some lines. -/
def fillFrom (ls : List CodeLine) (x : CodeLine) : CodeLine :=
  { x with value? := x.value?.or (known ls x) }

/-- Fill the empty references of some lines from their own definitions. -/
def settle (ls : List CodeLine) : List CodeLine := ls.map (fillFrom ls)

/-- Every offset that settling fills in fits into two bytes. -/
def Fit (ls : List CodeLine) : Prop :=
  ∀ x ∈ ls, x.value? = none → ∀ n, known ls x = some n → n ≤ 0xffff

variable {v : Placed → Option Nat} {l : List Placed}

theorem ofLayout_congr {w : Placed → Option Nat} (h : ∀ p ∈ l, v p = w p) :
    ofLayout v l = ofLayout w l :=
  List.map_congr_left fun p hp => by rw [h p hp]

theorem ofLayout_append (v : Placed → Option Nat) (l l' : List Placed) :
    ofLayout v (l ++ l') = ofLayout v l ++ ofLayout v l' :=
  List.map_append

/-! ### Definitions -/

theorem definition?_append (a b : List CodeLine) (label : String) :
    definition? (a ++ b) label = (definition? b label).or (definition? a label) := by
  induction a with
  | nil => simp [definition?]
  | cons x a ih => simp [definition?, ih, Option.or_assoc]

/-- Filling references leaves the definitions where they are. -/
theorem definition?_map_fillFrom (ds ls : List CodeLine) (label : String) :
    definition? (ls.map (fillFrom ds)) label = definition? ls label := by
  induction ls with
  | nil => rfl
  | cons x ls ih =>
    rw [List.map_cons, definition?, definition?, ih]
    rfl

@[simp] theorem definition?_settle (ls : List CodeLine) (label : String) :
    definition? (settle ls) label = definition? ls label :=
  definition?_map_fillFrom ls ls label

theorem exists_of_definition? {ls : List CodeLine} {label : String} {n : Nat}
    (h : definition? ls label = some n) : ∃ x ∈ ls, x.instr = .dest label := by
  induction ls with
  | nil => simp [definition?] at h
  | cons x ls ih =>
    rw [definition?, Option.or_eq_some_iff] at h
    obtain h | ⟨-, h⟩ := h
    · obtain ⟨y, hy, hlabel⟩ := ih h
      exact ⟨y, List.mem_cons_of_mem _ hy, hlabel⟩
    · refine ⟨x, List.mem_cons_self, ?_⟩
      by_contra hx
      simp [hx] at h

theorem offset?_labels (p : Placed) (label : String) :
    p.labels.offset? label = if p.instr = .dest label then some p.offset else none := by
  obtain ⟨node, index, offset, source, i⟩ := p
  rw [LabelTable.offset?, Placed.get?_labels]
  cases i with
  | dest name => by_cases h : name = label <;> simp [Placed.site?, h]
  | _ => simp [Placed.site?]

/-- The labels of a layout are the definitions of its lines. -/
theorem offset?_labelsOf (v : Placed → Option Nat) (l : List Placed) (label : String) :
    (labelsOf l).offset? label = definition? (ofLayout v l) label := by
  induction l with
  | nil => rfl
  | cons p l ih =>
    have hmerge : (p.labels.merge (labelsOf l)).offset? label =
        ((labelsOf l).offset? label).or (p.labels.offset? label) := by
      rw [LabelTable.offset?, LabelTable.get?_merge, LabelTable.offset?, LabelTable.offset?]
      rcases (labelsOf l).get? label with - | site <;> rfl
    rw [labelsOf, hmerge, ih, offset?_labels]
    rfl

theorem known_ofLayout (v : Placed → Option Nat) (l : List Placed) (p : Placed)
    (value? : Option Nat) :
    known (ofLayout v l) (p.line value?) = Rendering.known (labelsOf l) p := by
  obtain ⟨node, index, offset, source, i⟩ := p
  cases i with
  | jumpRef label => exact (offset?_labelsOf v l label).symm
  | _ => rfl

/-! ### Settling -/

/-- To ask the labels of a layout is to settle its lines. -/
theorem ofLayout_settle (v : Placed → Option Nat) (l : List Placed) :
    ofLayout (Rendering.settle (labelsOf l) v) l = settle (ofLayout v l) := by
  rw [settle, ofLayout, ofLayout, List.map_map]
  refine List.map_congr_left fun p _ => ?_
  show p.line ((v p).or _) = p.line ((v p).or _)
  rw [← known_ofLayout v l p (v p)]
  rfl

theorem ofLayout_filled {pos : Nat} (hl : Laid pos l) :
    ofLayout (filled l) l = settle (ofLayout (filledInside l) l) := by
  rw [← settle_filledInside hl, ofLayout_settle]

theorem fit_ofLayout_iff : Fit (ofLayout v l) ↔ Rendering.Fits (labelsOf l) v l := by
  constructor
  · intro h p hp hv n hn
    refine h _ (List.mem_map_of_mem hp) hv n ?_
    rw [known_ofLayout, hn]
  · intro h x hx hv n hn
    obtain ⟨p, hp, rfl⟩ := List.mem_map.1 hx
    rw [known_ofLayout] at hn
    exact h p hp hv n hn

/-- Labels that are defined in one part of the lines only are found there. -/
theorem known_middle {a b c : List CodeLine}
    (h : ∀ x ∈ b, ∀ y ∈ a ++ c, ∀ label, x.instr = .dest label → y.instr ≠ .dest label)
    {x : CodeLine} {n : Nat} (hn : known b x = some n) : known (a ++ b ++ c) x = some n := by
  obtain ⟨offset, source, i, value?⟩ := x
  cases i with
  | jumpRef label =>
    have hb : definition? b label = some n := hn
    obtain ⟨y, hy, hlabel⟩ := exists_of_definition? hb
    have hnone : ∀ part, part ⊆ a ++ c → definition? part label = none := by
      intro part hsub
      rcases hdef : definition? part label with - | k
      · rfl
      · obtain ⟨z, hz, hlabel'⟩ := exists_of_definition? hdef
        exact absurd hlabel' (h y hy z (hsub hz) label hlabel)
    show definition? (a ++ b ++ c) label = some n
    rw [definition?_append, definition?_append, hnone a (List.subset_append_left a c),
      hnone c (List.subset_append_right a c), hb]
    rfl
  | _ => simp [known] at hn

theorem known_settle (a b c : List CodeLine) (x : CodeLine) :
    known (a ++ settle b ++ c) x = known (a ++ b ++ c) x := by
  obtain ⟨offset, source, i, value?⟩ := x
  cases i with
  | jumpRef label => simp [known, definition?_append]
  | _ => rfl

/-- A reference that a part answers needs no other answer. -/
theorem fillFrom_fillFrom {a b c : List CodeLine}
    (h : ∀ x ∈ b, ∀ y ∈ a ++ c, ∀ label, x.instr = .dest label → y.instr ≠ .dest label)
    (x : CodeLine) :
    fillFrom (a ++ b ++ c) (fillFrom b x) = fillFrom (a ++ b ++ c) x := by
  show { x with value? := (x.value?.or (known b x)).or (known (a ++ b ++ c) x) } =
    fillFrom (a ++ b ++ c) x
  rcases hn : known b x with - | n
  · rw [Option.or_none, fillFrom]
  · rw [fillFrom, known_middle h hn]
    rcases x.value? with - | k <;> rfl

/-- Settling a part first makes no difference, if its labels are defined nowhere
else. -/
theorem settle_append_settle {a b c : List CodeLine}
    (h : ∀ x ∈ b, ∀ y ∈ a ++ c, ∀ label, x.instr = .dest label → y.instr ≠ .dest label) :
    settle (a ++ settle b ++ c) = settle (a ++ b ++ c) := by
  have hfill : fillFrom (a ++ settle b ++ c) = fillFrom (a ++ b ++ c) := by
    funext x
    rw [fillFrom, known_settle, fillFrom]
  rw [settle, hfill, List.map_append, List.map_append, settle, settle, List.map_map,
    List.map_append, List.map_append]
  congr 2
  exact List.map_congr_left fun x _ => fillFrom_fillFrom h x

/-- What fits when a part is settled first fits when it is not. -/
theorem Fit.of_settle {a b c : List CodeLine} (hb : Fit b) (h : Fit (a ++ settle b ++ c))
    (hlabels : ∀ x ∈ b, ∀ y ∈ a ++ c, ∀ label, x.instr = .dest label → y.instr ≠ .dest label) :
    Fit (a ++ b ++ c) := by
  intro x hx hv n hn
  simp only [List.mem_append] at hx
  obtain (hx | hx) | hx := hx
  · refine h x (by simp [hx]) hv n ?_
    rw [known_settle, hn]
  · -- a reference in the part is answered by the part, or by all of the lines
    rcases hk : known b x with - | k
    · refine h x ?_ hv n ?_
      · have hself : fillFrom b x = x := by rw [fillFrom, hk, Option.or_none]
        have hmem : x ∈ settle b := List.mem_map.2 ⟨x, hx, hself⟩
        simp [hmem]
      · rw [known_settle, hn]
    · rw [known_middle hlabels hk] at hn
      obtain rfl := Option.some.inj hn
      exact hb x hx hv k hk
  · refine h x (by simp [hx]) hv n ?_
    rw [known_settle, hn]

end CodeLine

/-! ### Segments with the same code -/

/-- The same bytes from the same sources, with the labels at the same offsets and
the same references left open. -/
structure Segment.SameCode (s s' : Segment) : Prop where
  cells : s.cells = s'.cells
  offsets : ∀ label, s.labels.offset? label = s'.labels.offset? label
  jumps : s.jumps = s'.jumps
  tables : s.tables = s'.tables

/-- A line at a place of its own, outside all expansions. -/
def CodeLine.place (x : CodeLine) : Placed := ⟨[], 0, x.offset, x.source, x.instr⟩

namespace Rendering

-- what an instruction contributes to a segment does not depend on where it was expanded

theorem code_eq_lines (v : Placed → Option Nat) (l : List Placed) :
    code v l = (CodeLine.ofLayout v l).flatMap fun x => x.place.cells x.value? := by
  rw [CodeLine.ofLayout, List.flatMap_map]
  rfl

theorem openJumps_eq_lines (v : Placed → Option Nat) (l : List Placed) :
    openJumps v l = (CodeLine.ofLayout v l).filterMap fun x => x.place.openJump? x.value? := by
  rw [CodeLine.ofLayout, List.filterMap_map]
  rfl

theorem tableRefs_eq_lines (v : Placed → Option Nat) (l : List Placed) :
    l.filterMap Placed.tableRef? =
      (CodeLine.ofLayout v l).filterMap fun x => x.place.tableRef? := by
  rw [CodeLine.ofLayout, List.filterMap_map]
  rfl

/-- Code is read off its lines. -/
theorem sameCode_of_lines {v w : Placed → Option Nat} {l k : List Placed}
    (h : CodeLine.ofLayout v l = CodeLine.ofLayout w k) : (render v l).SameCode (render w k) := by
  constructor
  · show code v l = code w k
    rw [code_eq_lines, code_eq_lines, h]
  · intro label
    show (labelsOf l).offset? label = (labelsOf k).offset? label
    rw [CodeLine.offset?_labelsOf v, CodeLine.offset?_labelsOf w, h]
  · show openJumps v l = openJumps w k
    rw [openJumps_eq_lines, openJumps_eq_lines, h]
  · show l.filterMap Placed.tableRef? = k.filterMap Placed.tableRef?
    rw [tableRefs_eq_lines v, tableRefs_eq_lines w, h]

end Rendering

/-! ### The lines of a tree -/

namespace ExpansionTree

/-- The lines of a tree before the labels of its own macro are asked. -/
def lines : ExpansionTree → (pos : Nat) → List CodeLine
  | .done, _ => []
  | .instr source i rest, pos => ⟨pos, source, i, none⟩ :: rest.lines (pos + i.size)
  | .inlined child rest, pos => CodeLine.settle (child.lines pos) ++ rest.lines (pos + child.size)
  | .measured source child rest, pos =>
    let i := Instr.push (.ofSize child.size)
    ⟨pos, source, i, none⟩ :: rest.lines (pos + i.size)

/-- An instruction of the macro itself comes before the lines of the rest. -/
theorem ofLayout_cons (p : Placed) (hp : p.node = []) (l : List Placed) :
    CodeLine.ofLayout (filledInside (p :: l)) (p :: l) =
      p.line none :: CodeLine.ofLayout (filledInside l) l := by
  have hsep : Separate [p] l := separate_of_node_eq_nil hp l
  have hnone : filledInside (p :: l) p = none := by
    rw [filledInside, replyInside_of_node_eq_nil _ hp, Option.map_none]
  show p.line _ :: CodeLine.ofLayout _ l = _
  rw [hnone]
  congr 1
  exact CodeLine.ofLayout_congr fun q hq => (filledInside_append hsep).2 hq

theorem lines_code (t : ExpansionTree) (index pos : Nat) :
    CodeLine.ofLayout (filledInside (t.layout index pos)) (t.layout index pos) = t.lines pos := by
  induction t generalizing index pos with
  | done => rfl
  | instr source i rest ih =>
    rw [layout, ofLayout_cons _ rfl, ih]
    rfl
  | measured source child rest _ ih =>
    rw [layout, ofLayout_cons _ rfl, ih]
    rfl
  | inlined child rest ihc ih =>
    have hsep := separate_inlined child rest index pos (pos + child.size)
    rw [layout, CodeLine.ofLayout_append, lines, ← ih (index + 1), ← ihc 0,
      ← CodeLine.ofLayout_filled (laid_layout child 0 pos)]
    congr 1
    · rw [CodeLine.ofLayout_congr fun p hp => (filledInside_append hsep).1 hp, CodeLine.ofLayout,
        List.map_map]
      refine List.map_congr_left fun p _ => ?_
      rw [Function.comp_apply, filledInside_map_inside]
      rfl
    · exact CodeLine.ofLayout_congr fun p hp => (filledInside_append hsep).2 hp

theorem fitsOutside_iff {t : ExpansionTree} {pos : Nat} :
    t.FitsOutside pos ↔ CodeLine.Fit (t.lines pos) := by
  rw [← lines_code t 0 pos, CodeLine.fit_ofLayout_iff]
  rfl

/-- Trees with the same settled lines have the same code. -/
theorem sameCode_segment {t u : ExpansionTree} {pos : Nat}
    (h : CodeLine.settle (t.lines pos) = CodeLine.settle (u.lines pos)) :
    (t.segment pos).SameCode (u.segment pos) := by
  rw [← lines_code t 0 pos, ← lines_code u 0 pos, ← CodeLine.ofLayout_filled (laid_layout t 0 pos),
    ← CodeLine.ofLayout_filled (laid_layout u 0 pos)] at h
  exact Rendering.sameCode_of_lines h

end ExpansionTree

end MacroAssembler
