/-
MacroAssembler/Proofs/Inlining.lean

A call can be replaced by the body of the macro that it calls.

When a call of `B` in the body of `A` is replaced by the operations of `B`, the
tree of `A` loses one node: the operations of `B` come up to the level of the
call.  Nothing moves, since sizes add up as before, and the limits are met more
easily than before.  What changes is who answers: references in `B` were settled
by the labels of `B` first and are now settled by all labels of `A` at once.
That shows only if `A` has a label of `B` a second time.

Trees of a body with an operation replaced are put together from the trees of
its parts (`unfolds_append_iff`).  The parts carry over to the new registry
because nothing inside them leads back to `A`, whatever comes in place of the
operation (`Registry.Rewritable.expands_replaceOp`).

Main result: `Expansion.expand_replaceOp_sameCode`.
-/
import MacroAssembler.Proofs.CodeLines
import MacroAssembler.Proofs.Transport

namespace MacroAssembler

open Relation Rendering Scope

/-! ### Trees one after the other -/

namespace ExpansionTree

/-- The operations of one tree and then those of another. -/
def append : ExpansionTree → ExpansionTree → ExpansionTree
  | .done, u => u
  | .instr source i rest, u => .instr source i (rest.append u)
  | .inlined child rest, u => .inlined child (rest.append u)
  | .measured source child rest, u => .measured source child (rest.append u)

instance : Append ExpansionTree := ⟨append⟩

/-- Number of operations. -/
def length : ExpansionTree → Nat
  | .done => 0
  | .instr _ _ rest => rest.length + 1
  | .inlined _ rest => rest.length + 1
  | .measured _ _ rest => rest.length + 1

variable (t u : ExpansionTree)

@[simp] theorem done_append : done ++ u = u := rfl

@[simp] theorem instr_append (source : Nat) (i : Instr) :
    instr source i t ++ u = instr source i (t ++ u) := rfl

@[simp] theorem inlined_append (child : ExpansionTree) :
    inlined child t ++ u = inlined child (t ++ u) := rfl

@[simp] theorem measured_append (source : Nat) (child : ExpansionTree) :
    measured source child t ++ u = measured source child (t ++ u) := rfl

@[simp] theorem size_append : (t ++ u).size = t.size + u.size := by
  induction t with
  | done => simp [size]
  | instr _ _ rest ih => simp [size, ih, Nat.add_assoc]
  | inlined _ rest _ ih => simp [size, ih, Nat.add_assoc]
  | measured _ _ rest _ ih => simp [size, ih, Nat.add_assoc]

@[simp] theorem depth_append : (t ++ u).depth = max t.depth u.depth := by
  induction t with
  | done => exact (Nat.max_eq_right u.depth_pos).symm
  | instr _ _ rest ih => exact ih
  | inlined child rest _ ih => simp [depth, ih, Nat.max_assoc]
  | measured _ child rest _ ih => simp [depth, ih, Nat.max_assoc]

@[simp] theorem nested_append : (t ++ u).nested = t.nested + u.nested := by
  induction t with
  | done => simp [nested]
  | instr _ _ rest ih => exact ih
  | inlined _ rest _ ih => simp [nested, ih, Nat.add_assoc]
  | measured _ _ rest _ ih => simp [nested, ih, Nat.add_assoc]

theorem within_append_iff {bound pos : Nat} :
    (t ++ u).Within bound pos ↔ t.Within bound pos ∧ u.Within bound (pos + t.size) := by
  induction t generalizing pos with
  | done => simp [Within, size]
  | instr _ _ rest ih => simp [Within, size, ih, and_assoc, Nat.add_assoc]
  | inlined _ rest _ ih => simp [Within, size, ih, and_assoc, Nat.add_assoc]
  | measured _ _ rest _ ih => simp [Within, size, ih, and_assoc, Nat.add_assoc]

theorem fitsInside_append_iff {pos : Nat} :
    (t ++ u).FitsInside pos ↔ t.FitsInside pos ∧ u.FitsInside (pos + t.size) := by
  induction t generalizing pos with
  | done => simp [FitsInside, size]
  | instr _ _ rest ih => simp [FitsInside, size, ih, Nat.add_assoc]
  | inlined _ rest _ ih => simp [FitsInside, size, ih, and_assoc, Nat.add_assoc]
  | measured _ _ rest _ ih => simp [FitsInside, size, ih, and_assoc, Nat.add_assoc]

theorem lines_append (pos : Nat) : (t ++ u).lines pos = t.lines pos ++ u.lines (pos + t.size) := by
  induction t generalizing pos with
  | done => simp [lines, size]
  | instr _ _ rest ih => simp [lines, size, ih, Nat.add_assoc]
  | inlined _ rest _ ih => simp [lines, size, ih, Nat.add_assoc]
  | measured _ _ rest _ ih => simp [lines, size, ih, Nat.add_assoc]

theorem layout_append (index pos : Nat) :
    (t ++ u).layout index pos =
      t.layout index pos ++ u.layout (index + t.length) (pos + t.size) := by
  induction t generalizing index pos with
  | done => simp [layout, size, length]
  | instr _ _ rest ih =>
    simp [layout, size, length, ih, Nat.add_assoc, Nat.add_comm 1]
  | inlined _ rest _ ih => simp [layout, size, length, ih, Nat.add_assoc, Nat.add_comm 1]
  | measured _ _ rest _ ih => simp [layout, size, length, ih, Nat.add_assoc, Nat.add_comm 1]

variable {t}

/-- The operations of a layout are numbered up to its last index. -/
theorem lt_of_mem_layout {index pos : Nat} {p : Placed} (hp : p ∈ t.layout index pos) {k : Nat}
    {b : List Nat} (hk : p.node = k :: b) : k < index + t.length := by
  induction t generalizing index pos with
  | done => simp [layout] at hp
  | instr source i rest ih | measured source _ rest _ ih =>
    obtain rfl | hp := List.mem_cons.1 hp
    · simp at hk
    · have := ih hp
      simp only [length]
      omega
  | inlined child rest _ ih =>
    obtain hp | hp := List.mem_append.1 hp
    · obtain ⟨q, -, rfl⟩ := List.mem_map.1 hp
      obtain ⟨rfl, -⟩ := List.cons.inj hk
      simp only [length]
      omega
    · have := ih hp
      simp only [length]
      omega

/-- A line comes from an instruction of the layout. -/
theorem exists_placed_of_mem_lines {pos : Nat} {x : CodeLine} (hx : x ∈ t.lines pos) (index : Nat) :
    ∃ p ∈ t.layout index pos, p.instr = x.instr := by
  rw [← lines_code t index pos] at hx
  obtain ⟨p, hp, rfl⟩ := List.mem_map.1 hx
  exact ⟨p, hp, rfl⟩

end ExpansionTree

/-! ### Operations one after the other -/

theorem Unfolds.length_eq {r : Registry} {m : Macro} {values : List String} {ops : List Operation}
    {t : ExpansionTree} (h : Unfolds r m values ops t) : t.length = ops.length := by
  induction h with
  | done => rfl
  | instr _ _ ih => simp [ExpansionTree.length, ih]
  | inlined _ _ _ _ _ _ ih => simp [ExpansionTree.length, ih]
  | measured _ _ _ _ _ _ ih => simp [ExpansionTree.length, ih]

/-- The tree of some operations is put together from the trees of its parts. -/
theorem unfolds_append_iff {r : Registry} {m : Macro} {values : List String}
    {ops ops' : List Operation} {t : ExpansionTree} :
    Unfolds r m values (ops ++ ops') t ↔
      ∃ u u', t = u ++ u' ∧ Unfolds r m values ops u ∧ Unfolds r m values ops' u' := by
  induction ops generalizing t with
  | nil =>
    constructor
    · exact fun h => ⟨.done, t, rfl, .done, h⟩
    · rintro ⟨u, u', rfl, hu, hu'⟩
      cases hu
      exact hu'
  | cons op ops ih =>
    constructor
    · intro h
      cases h with
      | instr ha h =>
        obtain ⟨u, u', rfl, hu, hu'⟩ := ih.1 h
        exact ⟨_, u', rfl, .instr ha hu, hu'⟩
      | inlined ha hm harity hc h =>
        obtain ⟨u, u', rfl, hu, hu'⟩ := ih.1 h
        exact ⟨_, u', rfl, .inlined ha hm harity hc hu, hu'⟩
      | measured ha hm harity hc h =>
        obtain ⟨u, u', rfl, hu, hu'⟩ := ih.1 h
        exact ⟨_, u', rfl, .measured ha hm harity hc hu, hu'⟩
    · rintro ⟨u, u', rfl, hu, hu'⟩
      cases hu with
      | instr ha hu => exact .instr ha (ih.2 ⟨_, u', rfl, hu, hu'⟩)
      | inlined ha hm harity hc hu => exact .inlined ha hm harity hc (ih.2 ⟨_, u', rfl, hu, hu'⟩)
      | measured ha hm harity hc hu => exact .measured ha hm harity hc (ih.2 ⟨_, u', rfl, hu, hu'⟩)

/-! ### Replacing an operation -/

/-- A macro with other operations in place of operation number `i`. -/
def Macro.replaceOp (m : Macro) (i : Nat) (ops : List Operation) : Macro :=
  { m with ops := m.ops.take i ++ (ops ++ m.ops.drop (i + 1)) }

namespace Registry

/-- A registry with other operations in place of operation number `i` of the
macro of a name. -/
def replaceOp (r : Registry) (name : String) (i : Nat) (ops : List Operation) : Registry :=
  { r with macros := r.macros.map fun m => if m.name = name then m.replaceOp i ops else m }

theorem getMacro?_replaceOp (r : Registry) (name : String) (i : Nat) (ops : List Operation)
    (name' : String) :
    (r.replaceOp name i ops).getMacro? name' =
      (r.getMacro? name').map fun m => if m.name = name then m.replaceOp i ops else m := by
  rw [getMacro?, replaceOp, List.find?_map, getMacro?]
  congr 2
  funext m
  by_cases hm : m.name = name <;> simp [hm, Macro.replaceOp]

theorem getMacro?_replaceOp_of_ne (r : Registry) {name name' : String} (hne : name' ≠ name)
    (i : Nat) (ops : List Operation) :
    (r.replaceOp name i ops).getMacro? name' = r.getMacro? name' := by
  rw [getMacro?_replaceOp]
  rcases hm : r.getMacro? name' with - | m
  · rfl
  · have hname := name_of_getMacro? hm
    simp [hname, hne]

theorem hasMacro_replaceOp (r : Registry) (name : String) (i : Nat) (ops : List Operation)
    (name' : String) : (r.replaceOp name i ops).hasMacro name' = r.hasMacro name' := by
  rw [hasMacro, getMacro?_replaceOp, Option.isSome_map, hasMacro]

/-- Where the macro was no constant, no constant gets lost. -/
theorem keepsConstants_replaceOp {r : Registry} {m : Macro} (hm : r.getMacro? m.name = some m)
    (hconst : m.constant? = none) (i : Nat) (ops : List Operation) :
    r.KeepsConstants (r.replaceOp m.name i ops) := by
  intro name m' n hm' hn
  by_cases hname : name = m.name
  · subst hname
    obtain rfl : m = m' := Option.some.inj (hm.symm.trans hm')
    rw [hconst] at hn
    cases hn
  · exact ⟨m', by rw [getMacro?_replaceOp_of_ne r hname, hm'], hn⟩

end Registry

/-- A macro is no constant if one of its operations is no push. -/
theorem Macro.constant?_eq_none {m : Macro} {i : Nat} {op : Operation} (h : m.ops[i]? = some op)
    (hop : op.pushValue? = none) : m.constant? = none := by
  rw [constant?]
  split
  · next op' hops =>
    rw [hops] at h
    rw [← List.mem_singleton.1 (List.mem_of_getElem? h)]
    exact hop
  · rfl

/-- The operations before one, the one, and those behind it. -/
theorem Macro.ops_eq {m : Macro} {i : Nat} {op : Operation} (h : m.ops[i]? = some op) :
    m.ops = m.ops.take i ++ op :: m.ops.drop (i + 1) ∧ (m.ops.take i).length = i := by
  obtain ⟨hlt, hget⟩ := List.getElem?_eq_some_iff.1 h
  refine ⟨?_, List.length_take_of_le hlt.le⟩
  rw [← hget, ← List.drop_eq_getElem_cons hlt, List.take_append_drop]

/-! ### Macros with an operation replaced -/

/-- The macro `a` has no parameters and is no constant, so that it is expanded in one
way only and no operand has its value.  Its operations can be replaced, and nothing
but its own tree shows it. -/
structure Registry.Rewritable (r : Registry) (a : Macro) : Prop where
  declared : r.getMacro? a.name = some a
  params : a.params = []
  constant : a.constant? = none

namespace Registry.Rewritable

variable {r : Registry} {a : Macro} {t : ExpansionTree}

/-- Actions are the same with operations of the macro replaced, for every macro with
the same parameters. -/
theorem action_replaceOp (h : r.Rewritable a) (i : Nat) (new : List Operation) {m m' : Macro}
    (hp : m.params = m'.params) {values : List String} {op : Operation} {x : Action}
    (hx : Expansion.action r m values op = .ok x) :
    Expansion.action (r.replaceOp a.name i new) m' values op = .ok x := by
  refine Expansion.action_mono (keepsConstants_replaceOp h.declared h.constant i new) hp ?_ hx
  exact fun _ _ _ _ _ => hasMacro_replaceOp ..

/-- Nothing inside the macro leads back to it. -/
theorem name_ne (h : r.Rewritable a) (ht : Expands r ⟨a.name, []⟩ t) {inv : Invocation}
    (hto : TransGen (Invokes r) ⟨a.name, []⟩ inv) {u : ExpansionTree} (hu : Expands r inv u) :
    inv.name ≠ a.name := by
  intro hname
  obtain ⟨name, args⟩ := inv
  obtain rfl : name = a.name := hname
  -- a macro without parameters is expanded without arguments only
  obtain ⟨m, hm, harity, -⟩ := hu
  obtain rfl : a = m := Option.some.inj (h.declared.symm.trans hm)
  rw [Macro.arity, h.params] at harity
  obtain rfl := List.eq_nil_of_length_eq_zero harity
  exact ht.not_leadsBack hto

/-- Everything inside the macro is expanded as before. -/
theorem expands_inner (h : r.Rewritable a) (i : Nat) (new : List Operation)
    (ht : Expands r ⟨a.name, []⟩ t) {inv : Invocation}
    (hto : TransGen (Invokes r) ⟨a.name, []⟩ inv) {u : ExpansionTree} (hu : Expands r inv u) :
    Expands (r.replaceOp a.name i new) inv u := by
  refine Expands.transport (Q := fun inv => TransGen (Invokes r) ⟨a.name, []⟩ inv) ?_ ?_ ?_ hto hu
  · exact fun hc hcd => hc.tail hcd
  · exact fun hc hexp => r.getMacro?_replaceOp_of_ne (h.name_ne ht hc hexp) i new
  · exact fun _ _ _ hx => h.action_replaceOp i new rfl hx

/-- The tree of the macro has a part for the operation, and any tree of the new
operations can stand in its place. -/
theorem expands_replaceOp (h : r.Rewritable a) {i : Nat} {op : Operation}
    (hop : a.ops[i]? = some op) (new : List Operation) (ht : Expands r ⟨a.name, []⟩ t) :
    ∃ u v u', t = u ++ (v ++ u') ∧ u.length = i ∧ Unfolds r a [] [op] v ∧
      ∀ v', Unfolds (r.replaceOp a.name i new) (a.replaceOp i new) [] new v' →
        Expands (r.replaceOp a.name i new) ⟨a.name, []⟩ (u ++ (v' ++ u')) := by
  obtain ⟨m, hm, harity, hops⟩ := id ht
  obtain rfl : a = m := Option.some.inj (h.declared.symm.trans hm)
  obtain ⟨heq, hlength⟩ := Macro.ops_eq hop
  rw [heq, ← List.singleton_append] at hops
  obtain ⟨u, w, rfl, hu, hw⟩ := unfolds_append_iff.1 hops
  obtain ⟨v, u', rfl, hv, hu'⟩ := unfolds_append_iff.1 hw
  -- the other operations invoke from the macro itself
  have hown : ∀ ops ⊆ a.ops, ∀ w, Unfolds r a [] ops w →
      Unfolds (r.replaceOp a.name i new) (a.replaceOp i new) [] ops w := by
    intro ops hsub w hw
    refine hw.transport (fun _ _ _ hx => h.action_replaceOp i new rfl hx) ?_
    intro op hop x inv hx hinv w' hw'
    exact h.expands_inner i new ht (.single ⟨a, op, x, hm, hsub hop, hx, hinv⟩) hw'
  refine ⟨u, v, u', rfl, hu.length_eq.trans hlength, hv, fun v' hv' => ?_⟩
  refine ⟨a.replaceOp i new, ?_, harity, ?_⟩
  · rw [getMacro?_replaceOp, hm]
    simp
  · refine unfolds_append_iff.2 ⟨u, _, rfl, hown _ (List.take_subset _ _) u hu, ?_⟩
    exact unfolds_append_iff.2 ⟨v', u', rfl, hv', hown _ (List.drop_subset _ _) u' hu'⟩

end Registry.Rewritable

/-! ### One node less -/

/-- No label that operation number `i` leads to is defined by another operation. -/
def LabelsApart (i : Nat) (l : List Placed) : Prop :=
  ∀ p ∈ l, ∀ q ∈ l, [i] <+: p.node → ¬ [i] <+: q.node →
    ∀ label, p.instr = .dest label → q.instr ≠ .dest label

theorem labelsApart_iff {i : Nat} {l : List Placed} :
    LabelsApart i l ↔ ∀ p ∈ l, ∀ q ∈ l, [i] <+: p.node → ¬ [i] <+: q.node →
      p.instr = q.instr → p.labels = .empty := by
  constructor
  · intro h p hp q hq hin hout heq
    obtain ⟨node, index, offset, source, instr⟩ := p
    cases instr with
    | dest label => exact absurd heq.symm (h _ hp q hq hin hout label rfl)
    | _ => rfl
  · intro h p hp q hq hin hout label hpl hql
    have hempty := h p hp q hq hin hout (hpl.trans hql.symm)
    simp [Placed.labels, hpl, LabelTable.single, LabelTable.empty] at hempty

instance (i : Nat) (l : List Placed) : Decidable (LabelsApart i l) :=
  decidable_of_iff _ labelsApart_iff.symm

namespace ExpansionTree

variable {t child u : ExpansionTree} {pos : Nat}

/-- Labels that are apart in the layout are apart in the lines. -/
theorem apart_lines (h : LabelsApart t.length ((t ++ inlined child u).layout 0 pos)) :
    ∀ x ∈ child.lines (pos + t.size), ∀ y ∈ t.lines pos ++ u.lines (pos + t.size + child.size),
      ∀ label, x.instr = .dest label → y.instr ≠ .dest label := by
  intro x hx y hy label hlabel
  rw [layout_append, layout, Nat.zero_add] at h
  obtain ⟨p, hp, hpx⟩ := exists_placed_of_mem_lines hx 0
  -- an instruction of another operation has another number first on its way
  obtain ⟨q, hq, hnode, hqy⟩ : ∃ q, (q ∈ t.layout 0 pos ∨
      q ∈ u.layout (t.length + 1) (pos + t.size + child.size)) ∧
      ¬ [t.length] <+: q.node ∧ q.instr = y.instr := by
    obtain hy | hy := List.mem_append.1 hy
    · obtain ⟨q, hq, hqy⟩ := exists_placed_of_mem_lines hy 0
      refine ⟨q, .inl hq, ?_, hqy⟩
      rintro ⟨b, hb⟩
      have := lt_of_mem_layout hq hb.symm
      omega
    · obtain ⟨q, hq, hqy⟩ := exists_placed_of_mem_lines hy (t.length + 1)
      refine ⟨q, .inr hq, ?_, hqy⟩
      rintro ⟨b, hb⟩
      exact absurd (le_of_mem_layout hq hb.symm) (Nat.not_succ_le_self _)
  rw [← hqy]
  refine h (p.inside t.length) ?_ q ?_ ?_ hnode label (hpx.trans hlabel)
  · exact List.mem_append_right _ (List.mem_append_left _ (List.mem_map_of_mem hp))
  · obtain hq | hq := hq
    · exact List.mem_append_left _ hq
    · exact List.mem_append_right _ (List.mem_append_right _ hq)
  · exact ⟨p.node, rfl⟩

theorem lines_append_inlined (t child u : ExpansionTree) (pos : Nat) :
    (t ++ inlined child u).lines pos =
      t.lines pos ++ CodeLine.settle (child.lines (pos + t.size)) ++
        u.lines (pos + t.size + child.size) := by
  rw [lines_append, lines, List.append_assoc]

theorem lines_append_append (t child u : ExpansionTree) (pos : Nat) :
    (t ++ (child ++ u)).lines pos =
      t.lines pos ++ child.lines (pos + t.size) ++ u.lines (pos + t.size + child.size) := by
  rw [lines_append, lines_append, List.append_assoc]

/-- A tree with one node less has the same code. -/
theorem sameCode_inline (h : LabelsApart t.length ((t ++ inlined child u).layout 0 pos)) :
    ((t ++ (child ++ u)).segment pos).SameCode ((t ++ inlined child u).segment pos) := by
  apply sameCode_segment
  rw [lines_append_inlined, lines_append_append]
  exact (CodeLine.settle_append_settle (apart_lines h)).symm

/-- A tree with one node less stays within the limits. -/
theorem Affordable.inline {limits : Limits} {room earlier : Nat}
    (hlabels : LabelsApart t.length ((t ++ inlined child u).layout 0 pos))
    (h : (t ++ inlined child u).Affordable limits room pos earlier) :
    (t ++ (child ++ u)).Affordable limits room pos earlier := by
  obtain ⟨hdepth, hcount, hwithin, hin, hout⟩ := h
  simp only [within_append_iff, fitsInside_append_iff] at hwithin hin
  obtain ⟨htw, hcw, -, huw⟩ := hwithin
  obtain ⟨hti, hci, hco, hui⟩ := hin
  constructor
  · simp only [depth_append, ExpansionTree.depth] at hdepth ⊢
    omega
  · simp only [ExpansionTree.expansions, nested_append, nested] at hcount ⊢
    omega
  · simp only [within_append_iff]
    exact ⟨htw, hcw, huw⟩
  · simp only [fitsInside_append_iff]
    exact ⟨hti, hci, hui⟩
  · rw [fitsOutside_iff, lines_append_inlined] at hout
    rw [fitsOutside_iff, lines_append_append]
    exact (fitsOutside_iff.1 hco).of_settle hout (apart_lines hlabels)

end ExpansionTree

/-! ### Inlining a call -/

/-- Operation number `i` of the macro `a` is a call of the macro `b`, and neither
has parameters. -/
structure PlainCall (r : Registry) (a b : Macro) (i : Nat) : Prop where
  caller : r.getMacro? a.name = some a
  callee : r.getMacro? b.name = some b
  caller_params : a.params = []
  callee_params : b.params = []
  call : ∃ source, a.ops[i]? = some ⟨.call b.name [], source⟩

namespace PlainCall

variable {r : Registry} {a b : Macro} {i : Nat} {t : ExpansionTree}

theorem rewritable (h : PlainCall r a b i) : r.Rewritable a := by
  obtain ⟨source, hop⟩ := h.call
  exact ⟨h.caller, h.caller_params, Macro.constant?_eq_none hop rfl⟩

/-- With the call replaced, the tree of the callee stands where its node
stood. -/
theorem expands_replaceOp (h : PlainCall r a b i) (ht : Expands r ⟨a.name, []⟩ t) :
    ∃ u child u', t = u ++ .inlined child u' ∧ u.length = i ∧
      Expands (r.replaceOp a.name i b.ops) ⟨a.name, []⟩ (u ++ (child ++ u')) := by
  obtain ⟨source, hop⟩ := h.call
  have hcall : Expansion.action r a [] ⟨.call b.name [], source⟩ = .ok (.inline ⟨b.name, []⟩) := by
    simp [Expansion.action, Expansion.callArgs]
  have htoB : Invokes r ⟨a.name, []⟩ ⟨b.name, []⟩ :=
    ⟨a, _, _, h.caller, List.mem_of_getElem? hop, hcall, rfl⟩
  obtain ⟨u, v, u', rfl, hlength, hv, hnew⟩ := h.rewritable.expands_replaceOp hop b.ops ht
  cases hv with
  | instr ha => simp [hcall] at ha
  | measured ha => simp [hcall] at ha
  | @inlined _ _ _ inv m' child _ v ha hm' _ hchild hv =>
    obtain rfl : ⟨b.name, []⟩ = inv := by simpa [hcall] using ha
    obtain rfl : b = m' := Option.some.inj (h.callee.symm.trans hm')
    cases hv
    refine ⟨u, child, u', rfl, hlength, hnew child ?_⟩
    -- operations of the callee invoke through the caller
    refine hchild.transport (fun _ _ _ hx => h.rewritable.action_replaceOp i b.ops ?_ hx) ?_
    · rw [h.callee_params]
      exact h.caller_params.symm
    · intro op hop x inv hx hinv w' hw'
      exact h.rewritable.expands_inner i b.ops ht
        (.tail (.single htoB) ⟨b, op, x, hm', hop, hx, hinv⟩) hw'

end PlainCall

namespace Expansion

/-- A call can be replaced by the operations of the macro that it calls, if
neither macro has parameters and the labels that the call brings in are defined
nowhere else.  The expansion succeeds as before, from every offset and under the
same limits, and gives the same bytes from the same sources, the same offsets of
labels and the same open references. -/
theorem expand_replaceOp_sameCode {r : Registry} {limits : Limits} {a b : Macro} {i : Nat}
    (hcall : PlainCall r a b i) {start earlier n : Nat} {s : Segment}
    (hrun : run (expand r limits ⟨a.name, []⟩ start) earlier = (.ok s, n))
    (hlabels : ∀ t, Expands r ⟨a.name, []⟩ t → LabelsApart i (t.layout 0 start)) :
    ∃ s' n', run (expand (r.replaceOp a.name i b.ops) limits ⟨a.name, []⟩ start) earlier =
        (.ok s', n') ∧
      s'.cells = s.cells ∧ (∀ label, s'.labels.offset? label = s.labels.offset? label) ∧
      s'.jumps = s.jumps ∧ s'.tables = s.tables := by
  obtain ⟨t, ht, hafford, rfl, -⟩ := run_expand_eq_ok_iff.1 hrun
  obtain ⟨u, child, u', rfl, rfl, ht'⟩ := hcall.expands_replaceOp ht
  have hapart := hlabels _ ht
  obtain ⟨hcells, hoffsets, hjumps, htables⟩ := ExpansionTree.sameCode_inline hapart
  refine ⟨_, _, run_expand_eq_ok_iff.2 ⟨_, ht', hafford.inline hapart, rfl, rfl⟩, ?_⟩
  exact ⟨hcells, hoffsets, hjumps, htables⟩

/-- `MAIN` calls `BODY`, which calls `LEAF`.  Each refers to labels of the others,
forwards and backwards, and one label stays open. -/
def threadedLeaf : Macro :=
  { Macro.ofName "LEAF" with ops := [⟨.jumpRef "back", 1⟩, ⟨.jumpRef "out", 2⟩] }

@[inherit_doc threadedLeaf]
def threadedBody : Macro :=
  { Macro.ofName "BODY" with
    ops := [⟨.jumpRef "back", 3⟩, ⟨.call "LEAF" [], 4⟩, ⟨.jumpDest "back", 5⟩,
      ⟨.jumpRef "out", 6⟩] }

@[inherit_doc threadedLeaf]
def threadedMain : Macro :=
  { Macro.ofName "MAIN" with
    ops := [⟨.jumpRef "back", 7⟩, ⟨.call "BODY" [], 8⟩, ⟨.codeSize "BODY" [], 9⟩,
      ⟨.jumpDest "out", 10⟩, ⟨.jumpRef "away", 11⟩] }

@[inherit_doc threadedLeaf]
def threaded : Registry := { macros := [threadedLeaf, threadedBody, threadedMain] }

theorem expand_replaceOp_threaded :
    ∃ s n, run (expand threaded {} ⟨"MAIN", []⟩ 40) 2 = (.ok s, n) ∧
      s.jumps = [⟨"away", 60⟩] ∧ s.labels.offset? "back" = some 52 ∧
      ∃ s' n', run (expand (threaded.replaceOp "MAIN" 1 threadedBody.ops) {} ⟨"MAIN", []⟩ 40) 2 =
          (.ok s', n') ∧
        s'.cells = s.cells ∧ (∀ label, s'.labels.offset? label = s.labels.offset? label) ∧
        s'.jumps = s.jumps ∧ s'.tables = s.tables := by
  have hcall : PlainCall threaded threadedMain threadedBody 1 :=
    ⟨by decide, by decide, rfl, rfl, 8, by decide⟩
  have hleaf : Unfolds threaded threadedLeaf [] threadedLeaf.ops _ := .instr rfl (.instr rfl .done)
  have hbody : Unfolds threaded threadedBody [] threadedBody.ops _ :=
    .instr rfl (.inlined rfl (by decide) rfl hleaf (.instr rfl (.instr rfl .done)))
  have htree : Expands threaded ⟨"MAIN", []⟩ _ :=
    ⟨threadedMain, by decide, rfl, .instr rfl (.inlined rfl (by decide) rfl hbody
      (.measured rfl (by decide) rfl hbody (.instr rfl (.instr rfl .done))))⟩
  have hlabels : ∀ t, Expands threaded ⟨"MAIN", []⟩ t → LabelsApart 1 (t.layout 0 40) := by
    intro t ht
    obtain rfl := ht.unique htree
    decide +kernel
  have hcheck : (run (expand threaded {} ⟨"MAIN", []⟩ 40) 2).1.map
      (fun s => (s.jumps, s.labels.offset? "back")) = .ok ([⟨"away", 60⟩], some 52) := by
    decide +kernel
  rcases hrun : run (expand threaded {} ⟨"MAIN", []⟩ 40) 2 with ⟨e | s, n⟩
  · rw [hrun] at hcheck
    cases hcheck
  · rw [hrun] at hcheck
    obtain ⟨hjumps, hback⟩ := Prod.mk.inj (Except.ok.inj hcheck)
    exact ⟨s, n, rfl, hjumps, hback, expand_replaceOp_sameCode hcall hrun hlabels⟩

end Expansion

end MacroAssembler
