/-
MacroAssembler/Proofs/LabelScope.lean

The scope of labels: the second of two passes.

A layout is a list of placed instructions.  A reference in it is answered by
the innermost expansion around it that has a definition of the label anywhere
inside (`scope?`), and there by the definition with the greatest offset
(`target?`).  The rule is about the whole layout at once and says nothing about
the order in which references are filled.

To compare it with an expander that works from the inside out, the expansions
around a reference are split into the outermost one and the others.  The others
see only the operation that the reference is in (`replyInside_append_left`,
`replyInside_append_right`), and what they see there is what the inner
expansion sees as a whole (`replyInside_map_inside`).  So the answer found
inside stands, and the outermost expansion is asked last (`reply_eq_or`).
-/
import Mathlib.Data.List.Infix
import Mathlib.Data.List.MinMax
import MacroAssembler.Proofs.ExpansionTree

namespace MacroAssembler

/-- The site that an instruction gives to a label. -/
def Placed.site? (p : Placed) (label : String) : Option LabelSite :=
  match p.instr with
  | .dest name => if name = label then some ⟨p.index, p.offset⟩ else none
  | _ => none

@[simp] theorem Placed.site?_inside (k : Nat) (p : Placed) (label : String) :
    (p.inside k).site? label = p.site? label := rfl

namespace Scope

/-! ### The rule -/

/-- The definitions of a label in the expansion `a` and everything inside it. -/
def sites (l : List Placed) (a : List Nat) (label : String) : List LabelSite :=
  l.filterMap fun p => if a <+: p.node then p.site? label else none

/-- An expansion with all the expansions that it is inside of, the innermost
first. -/
def enclosing (node : List Nat) : List (List Nat) := node.inits.reverse

/-- The first of some expansions that has a definition of the label. -/
def first? (l : List Placed) (as : List (List Nat)) (label : String) : Option (List Nat) :=
  as.find? fun a => !(sites l a label).isEmpty

/-- The expansion that answers a reference to a label in `node`. -/
def scope? (l : List Placed) (node : List Nat) (label : String) : Option (List Nat) :=
  first? l (enclosing node) label

/-- The definition that a reference to a label in `node` stands for: of those
that the answering expansion has, the one with the greatest offset. -/
def target? (l : List Placed) (node : List Nat) (label : String) : Option LabelSite :=
  (scope? l node label).bind fun a => (sites l a label).argmax LabelSite.offset

/-- The offset that a reference is filled with. -/
def filled (l : List Placed) (p : Placed) : Option Nat :=
  match p.instr with
  | .jumpRef label => (target? l p.node label).map LabelSite.offset
  | _ => none

/-! ### Replies -/

/-- The first of some expansions that has a definition of the label, with the
definition that holds there. -/
def answer? (l : List Placed) (as : List (List Nat)) (label : String) :
    Option (List Nat × LabelSite) :=
  (first? l as label).bind fun a => ((sites l a label).argmax LabelSite.offset).map (a, ·)

/-- What some expansions reply to a reference. -/
def replyOf (l : List Placed) (as : List (List Nat)) (p : Placed) : Option (List Nat × LabelSite) :=
  match p.instr with
  | .jumpRef label => answer? l as label
  | _ => none

/-- What is replied to a reference. -/
def reply (l : List Placed) (p : Placed) : Option (List Nat × LabelSite) :=
  replyOf l (enclosing p.node) p

/-- What is replied to a reference before the outermost expansion is asked. -/
def replyInside (l : List Placed) (p : Placed) : Option (List Nat × LabelSite) :=
  replyOf l (enclosing p.node).dropLast p

/-- The offset that a reference is filled with before the outermost expansion
is asked. -/
def filledInside (l : List Placed) (p : Placed) : Option Nat :=
  (replyInside l p).map fun x => x.2.offset

/-! ### Enclosing expansions -/

@[simp] theorem enclosing_nil : enclosing [] = [[]] := rfl

@[simp] theorem enclosing_cons (k : Nat) (node : List Nat) :
    enclosing (k :: node) = (enclosing node).map (k :: ·) ++ [[]] := by
  simp [enclosing]

theorem mem_enclosing {a node : List Nat} : a ∈ enclosing node ↔ a <+: node := by
  simp [enclosing]

/-- The outermost expansion comes last. -/
theorem enclosing_eq (node : List Nat) : enclosing node = (enclosing node).dropLast ++ [[]] := by
  cases node with
  | nil => rfl
  | cons k node => simp

/-- The expansions inside the outermost one start with the same operation. -/
theorem exists_cons_of_mem_dropLast {a node : List Nat} (h : a ∈ (enclosing node).dropLast) :
    ∃ k b c, node = k :: b ∧ a = k :: c := by
  cases node with
  | nil => simp at h
  | cons k node =>
    simp only [enclosing_cons, List.dropLast_concat, List.mem_map] at h
    obtain ⟨c, -, rfl⟩ := h
    exact ⟨k, node, c, rfl, rfl⟩

/-! ### Sites of parts of a layout -/

theorem sites_append (l l' : List Placed) (a : List Nat) (label : String) :
    sites (l ++ l') a label = sites l a label ++ sites l' a label := by
  simp [sites]

/-- The outermost expansion has all definitions in it. -/
theorem sites_root (l : List Placed) (label : String) :
    sites l [] label = l.filterMap (·.site? label) := by
  simp [sites]

@[simp] theorem sites_map_inside (k : Nat) (l : List Placed) (a : List Nat) (label : String) :
    sites (l.map (Placed.inside k)) (k :: a) label = sites l a label := by
  simp only [sites, List.filterMap_map]
  congr 1
  funext p
  simp [List.cons_prefix_cons]

theorem sites_eq_nil {l : List Placed} {k : Nat} (h : ∀ p ∈ l, ∀ b, p.node ≠ k :: b)
    (a : List Nat) (label : String) : sites l (k :: a) label = [] := by
  rw [sites, List.filterMap_eq_nil_iff]
  intro p hp
  rw [if_neg]
  rintro ⟨b, hb⟩
  exact h p hp (a ++ b) hb.symm

/-! ### Answers -/

theorem first?_congr {l l' : List Placed} {as : List (List Nat)} {label : String}
    (h : ∀ a ∈ as, sites l a label = sites l' a label) : first? l as label = first? l' as label := by
  induction as with
  | nil => rfl
  | cons a as ih =>
    have ih := ih fun b hb => h b (List.mem_cons_of_mem _ hb)
    simp only [first?] at ih
    simp [first?, List.find?_cons, h a List.mem_cons_self, ih]

/-- An answer depends on the sites alone. -/
theorem answer?_congr {l l' : List Placed} {as : List (List Nat)} {label : String}
    (h : ∀ a ∈ as, sites l a label = sites l' a label) :
    answer? l as label = answer? l' as label := by
  simp only [answer?, first?_congr h]
  rcases hf : first? l' as label with - | a
  · rfl
  · simp [h a (List.mem_of_find?_eq_some hf)]

theorem first?_map_inside (k : Nat) (l : List Placed) (as : List (List Nat)) (label : String) :
    first? (l.map (Placed.inside k)) (as.map (k :: ·)) label = (first? l as label).map (k :: ·) := by
  simp only [first?, List.find?_map]
  congr 2
  funext a
  simp

theorem answer?_map_inside (k : Nat) (l : List Placed) (as : List (List Nat)) (label : String) :
    answer? (l.map (Placed.inside k)) (as.map (k :: ·)) label =
      (answer? l as label).map fun x => (k :: x.1, x.2) := by
  rw [answer?, first?_map_inside, answer?]
  rcases first? l as label with - | a
  · rfl
  · simp only [Option.map_some, Option.bind_some, sites_map_inside, Option.map_map]
    rfl

/-- An expansion that has a definition answers. -/
theorem answer?_eq_none_iff {l : List Placed} {as : List (List Nat)} {label : String} :
    answer? l as label = none ↔ first? l as label = none := by
  constructor
  · intro h
    by_contra hne
    obtain ⟨a, ha⟩ := Option.ne_none_iff_exists'.1 hne
    -- an expansion is found for its definitions, and one of several has the greatest offset
    have hsites : sites l a label ≠ [] := by simpa using List.find?_some ha
    simp [answer?, ha, List.argmax_eq_none, hsites] at h
  · intro h
    simp [answer?, h]

theorem answer?_append (l : List Placed) (as bs : List (List Nat)) (label : String) :
    answer? l (as ++ bs) label = (answer? l as label).or (answer? l bs label) := by
  have happ : first? l (as ++ bs) label = (first? l as label).or (first? l bs label) := by
    simp [first?]
  rcases hf : first? l as label with - | a
  · simp [answer?, happ, hf]
  · -- an expansion that is found has a definition, so the others are not asked
    obtain ⟨x, hx⟩ := Option.ne_none_iff_exists'.1
      (mt answer?_eq_none_iff.1 (by simp [hf] : first? l as label ≠ none))
    rw [hx]
    simpa [answer?, happ, hf] using hx

/-- The outermost expansion answers with the greatest of all definitions. -/
theorem answer?_root (l : List Placed) (label : String) :
    answer? l [[]] label = ((sites l [] label).argmax LabelSite.offset).map ([], ·) := by
  rcases h : sites l [] label with - | ⟨s, ss⟩
  · simp [answer?, first?, h]
  · simp [answer?, first?, h]

/-- A reference is filled with the offset of the reply. -/
theorem filled_eq_reply (l : List Placed) (p : Placed) :
    filled l p = (reply l p).map fun x => x.2.offset := by
  obtain ⟨node, index, offset, source, i⟩ := p
  cases i with
  | jumpRef label =>
    simp only [filled, reply, replyOf, answer?, target?, scope?]
    rcases first? l (enclosing node) label with - | a
    · rfl
    · simp only [Option.bind_some, Option.map_map]
      rfl
  | _ => rfl

/-! ### From the inside out -/

/-- No operation of the outermost macro has instructions in both lists. -/
def Separate (l l' : List Placed) : Prop :=
  ∀ p ∈ l, ∀ q ∈ l', ∀ k b c, p.node = k :: b → q.node ≠ k :: c

theorem Separate.symm {l l' : List Placed} (h : Separate l l') : Separate l' l :=
  fun q hq p hp k c b hc hb => h p hp q hq k b c hb hc

theorem sites_append_left {l l' : List Placed} (h : Separate l l') {p : Placed} (hp : p ∈ l)
    {a : List Nat} (ha : a ∈ (enclosing p.node).dropLast) (label : String) :
    sites (l ++ l') a label = sites l a label := by
  -- `a` begins with the operation that `p` is in, and `l'` has nothing of that operation
  obtain ⟨k, b, c, hb, rfl⟩ := exists_cons_of_mem_dropLast ha
  rw [sites_append, sites_eq_nil (fun q hq c' => h p hp q hq k b c' hb), List.append_nil]

theorem sites_append_right {l l' : List Placed} (h : Separate l l') {p : Placed} (hp : p ∈ l')
    {a : List Nat} (ha : a ∈ (enclosing p.node).dropLast) (label : String) :
    sites (l ++ l') a label = sites l' a label := by
  obtain ⟨k, b, c, hb, rfl⟩ := exists_cons_of_mem_dropLast ha
  rw [sites_append, sites_eq_nil (fun q hq c' => h.symm p hp q hq k b c' hb), List.nil_append]

theorem replyOf_congr {l l' : List Placed} {as : List (List Nat)}
    (h : ∀ a ∈ as, ∀ label, sites l a label = sites l' a label) (p : Placed) :
    replyOf l as p = replyOf l' as p := by
  unfold replyOf
  split
  · rw [answer?_congr fun a ha => h a ha _]
  · rfl

theorem replyInside_append_left {l l' : List Placed} (h : Separate l l') {p : Placed}
    (hp : p ∈ l) : replyInside (l ++ l') p = replyInside l p :=
  replyOf_congr (fun _ ha label => sites_append_left h hp ha label) p

theorem replyInside_append_right {l l' : List Placed} (h : Separate l l') {p : Placed}
    (hp : p ∈ l') : replyInside (l ++ l') p = replyInside l' p :=
  replyOf_congr (fun _ ha label => sites_append_right h hp ha label) p

/-- What is replied inside an operation is what its expansion replies. -/
theorem replyInside_map_inside (k : Nat) (l : List Placed) (p : Placed) :
    replyInside (l.map (Placed.inside k)) (p.inside k) =
      (reply l p).map fun x => (k :: x.1, x.2) := by
  simp only [replyInside, reply, Placed.inside_node, enclosing_cons, List.dropLast_concat,
    replyOf, Placed.inside_instr]
  split
  · rw [answer?_map_inside]
  · rfl

/-- An instruction of the outermost macro itself has no reply from inside. -/
theorem replyInside_of_node_eq_nil (l : List Placed) {p : Placed} (h : p.node = []) :
    replyInside l p = none := by
  simp only [replyInside, replyOf, h, enclosing_nil, answer?, first?]
  split <;> simp

/-- The outermost expansion is asked for what is still open. -/
theorem reply_eq_or (l : List Placed) (p : Placed) :
    reply l p = (replyInside l p).or (replyOf l [[]] p) := by
  rw [reply, enclosing_eq, replyInside]
  unfold replyOf
  split
  · rw [answer?_append]
  · rfl

/-! ### Layouts of trees -/

/-- The operations of a layout are numbered from its first index on. -/
theorem le_of_mem_layout {t : ExpansionTree} {index pos : Nat} {p : Placed}
    (hp : p ∈ t.layout index pos) {k : Nat} {b : List Nat} (hk : p.node = k :: b) : index ≤ k := by
  induction t generalizing index pos with
  | done => simp [ExpansionTree.layout] at hp
  | instr source i rest ih | measured source _ rest _ ih =>
    obtain rfl | hp := List.mem_cons.1 hp
    · simp at hk
    · exact (Nat.le_succ _).trans (ih hp)
  | inlined child rest _ ih =>
    obtain hp | hp := List.mem_append.1 hp
    · obtain ⟨q, -, rfl⟩ := List.mem_map.1 hp
      exact (List.cons.inj hk).1.le
    · exact (Nat.le_succ _).trans (ih hp)

/-- An operation that is expanded in place is separate from all that follow. -/
theorem separate_inlined (child rest : ExpansionTree) (index pos pos' : Nat) :
    Separate ((child.layout 0 pos).map (Placed.inside index)) (rest.layout (index + 1) pos') := by
  intro p hp q hq k b c hb hc
  -- everything in the child is in operation `index`, and what follows has greater numbers
  obtain ⟨p, -, rfl⟩ := List.mem_map.1 hp
  obtain ⟨rfl, -⟩ := List.cons.inj hb
  exact absurd (le_of_mem_layout hq hc) (Nat.not_succ_le_self _)

end Scope

end MacroAssembler
