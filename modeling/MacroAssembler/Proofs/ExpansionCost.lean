/-
MacroAssembler/Proofs/ExpansionCost.lean

When an expansion succeeds, and what it costs.

The tree of an invocation decides the outcome of its expansion.  The code is
the rendering of the tree (`ExpansionTree.segment`), the count grows by the
number of expansions in the tree, and the limits are met or exceeded by four
numbers that are read off the tree: how deep it nests, how many expansions it
has, where its operations end, and which offsets go into its references
(`ExpansionTree.Affordable`).

`Costs x P a k` says that the step `x` succeeds from exactly the counts that
satisfy `P`, with the value `a` and `k` expansions more.  Failures are covered
as well, since `x` has no other way to succeed, but it is left open which
failure it is.  The rules for `Costs` follow the monad, and one induction over
the tree carries them to a whole expansion.

Main result: `Expansion.run_expand_eq_ok_iff`.
-/
import MacroAssembler.Proofs.Assembly
import MacroAssembler.Proofs.CycleGuard

namespace MacroAssembler

open Rendering Scope

/-! ### What is read off a tree -/

namespace ExpansionTree

/-- Number of expansions inside, measurements included. -/
def nested : ExpansionTree → Nat
  | done => 0
  | instr _ _ rest => rest.nested
  | inlined child rest => child.nested + 1 + rest.nested
  | measured _ child rest => child.nested + 1 + rest.nested

/-- Number of expansions, the outermost one included. -/
def expansions (t : ExpansionTree) : Nat := t.nested + 1

/-- The code of a tree as the operations of a macro leave it, the first of them
with number `index`. -/
def code (t : ExpansionTree) (index pos : Nat) : Segment :=
  render (filledInside (t.layout index pos)) (t.layout index pos)

/-- The code of a tree when the labels of the macro itself have been asked. -/
def segment (t : ExpansionTree) (pos : Nat) : Segment :=
  render (filled (t.layout 0 pos)) (t.layout 0 pos)

/-- The offsets that the labels of the macro itself fill in fit. -/
def FitsOutside (t : ExpansionTree) (pos : Nat) : Prop :=
  Rendering.Fits (labelsOf (t.layout 0 pos)) (filledInside (t.layout 0 pos)) (t.layout 0 pos)

/-- The offsets that are filled in by the expansions inside fit, measurements
included. -/
def FitsInside : ExpansionTree → (pos : Nat) → Prop
  | .done, _ => True
  | .instr _ i rest, pos => rest.FitsInside (pos + i.size)
  | .inlined child rest, pos =>
    child.FitsInside pos ∧ child.FitsOutside pos ∧ rest.FitsInside (pos + child.size)
  | .measured _ child rest, pos =>
    child.FitsInside pos ∧ child.FitsOutside pos ∧
      rest.FitsInside (pos + (Instr.push (.ofSize child.size)).size)

/-- The operations of a macro stay within the limits: `room` more levels may
open inside them, they start at `pos`, and `earlier` expansions were made. -/
structure AffordableInside (limits : Limits) (room pos earlier : Nat) (t : ExpansionTree) :
    Prop where
  depth : t.depth ≤ room + 1
  -- without expansions the count is not looked at
  expansions : t.nested = 0 ∨ earlier + t.nested ≤ limits.expansions
  within : t.Within limits.bytes pos
  fits : t.FitsInside pos

/-- The expansion of a macro stays within the limits. -/
structure Affordable (limits : Limits) (room pos earlier : Nat) (t : ExpansionTree) : Prop where
  depth : t.depth ≤ room
  expansions : earlier + t.expansions ≤ limits.expansions
  within : t.Within limits.bytes pos
  fitsInside : t.FitsInside pos
  fitsOutside : t.FitsOutside pos

theorem depth_pos (t : ExpansionTree) : 0 < t.depth := by
  induction t with
  | done => exact Nat.one_pos
  | instr _ _ rest ih => exact ih
  | inlined child rest _ ih | measured _ child rest _ ih =>
    exact Nat.lt_of_lt_of_le ih (Nat.le_max_right _ _)

/-- The expansion of a macro is one expansion more than its operations make, at
one level more. -/
theorem affordable_succ_iff {limits : Limits} {room pos earlier : Nat} {t : ExpansionTree} :
    t.Affordable limits (room + 1) pos earlier ↔
      earlier + 1 ≤ limits.expansions ∧ t.AffordableInside limits room pos (earlier + 1) ∧
        t.FitsOutside pos := by
  constructor
  · rintro ⟨hdepth, hcount, hwithin, hin, hout⟩
    rw [expansions] at hcount
    exact ⟨by omega, ⟨hdepth, .inr (by omega), hwithin, hin⟩, hout⟩
  · rintro ⟨hone, ⟨hdepth, hcount, hwithin, hin⟩, hout⟩
    refine ⟨hdepth, ?_, hwithin, hin, hout⟩
    rw [expansions]
    omega

theorem not_affordable_zero {limits : Limits} {pos earlier : Nat} {t : ExpansionTree} :
    ¬ t.Affordable limits 0 pos earlier :=
  fun h => absurd h.depth (Nat.not_le_of_lt t.depth_pos)

theorem affordableInside_instr_iff {limits : Limits} {room pos earlier source : Nat} {i : Instr}
    {t : ExpansionTree} :
    (instr source i t).AffordableInside limits room pos earlier ↔
      pos + i.size ≤ limits.bytes ∧ t.AffordableInside limits room (pos + i.size) earlier := by
  constructor
  · rintro ⟨hdepth, hcount, hwithin, hin⟩
    exact ⟨hwithin.1, hdepth, hcount, hwithin.2, hin⟩
  · rintro ⟨hle, hdepth, hcount, hwithin, hin⟩
    exact ⟨hdepth, hcount, ⟨hle, hwithin⟩, hin⟩

/-- A tree that expands `child`, goes on with `t` and puts `size` bytes between
them. -/
theorem affordableInside_child_iff {limits : Limits} {room pos earlier size : Nat}
    {u child t : ExpansionTree} (hdepth : u.depth = max (child.depth + 1) t.depth)
    (hnested : u.nested = child.nested + 1 + t.nested)
    (hwithin : u.Within limits.bytes pos ↔ child.Within limits.bytes pos ∧
      pos + size ≤ limits.bytes ∧ t.Within limits.bytes (pos + size))
    (hfits : u.FitsInside pos ↔
      child.FitsInside pos ∧ child.FitsOutside pos ∧ t.FitsInside (pos + size)) :
    u.AffordableInside limits room pos earlier ↔
      child.Affordable limits room pos earlier ∧ pos + size ≤ limits.bytes ∧
        t.AffordableInside limits room (pos + size) (earlier + child.expansions) := by
  constructor
  · rintro ⟨hroom, hcount, hbytes, hoffsets⟩
    obtain ⟨hchild, hle, hrest⟩ := hwithin.1 hbytes
    obtain ⟨hin, hout, hrestFits⟩ := hfits.1 hoffsets
    rw [hdepth] at hroom
    rw [hnested] at hcount
    refine ⟨⟨by omega, ?_, hchild, hin, hout⟩, hle, by omega, ?_, hrest, hrestFits⟩ <;>
      simp only [expansions] <;> omega
  · rintro ⟨⟨hchildRoom, hchildCount, hchild, hin, hout⟩, hle, hroom, hcount, hrest, hrestFits⟩
    simp only [expansions] at hchildCount hcount
    refine ⟨?_, ?_, hwithin.2 ⟨hchild, hle, hrest⟩, hfits.2 ⟨hin, hout, hrestFits⟩⟩
    · rw [hdepth]
      omega
    · rw [hnested]
      omega

theorem affordableInside_inlined_iff {limits : Limits} {room pos earlier : Nat}
    {child t : ExpansionTree} :
    (inlined child t).AffordableInside limits room pos earlier ↔
      child.Affordable limits room pos earlier ∧ pos + child.size ≤ limits.bytes ∧
        t.AffordableInside limits room (pos + child.size) (earlier + child.expansions) :=
  affordableInside_child_iff rfl rfl .rfl .rfl

theorem affordableInside_measured_iff {limits : Limits} {room pos earlier source : Nat}
    {child t : ExpansionTree} :
    (measured source child t).AffordableInside limits room pos earlier ↔
      child.Affordable limits room pos earlier ∧
        pos + (Instr.push (.ofSize child.size)).size ≤ limits.bytes ∧
        t.AffordableInside limits room (pos + (Instr.push (.ofSize child.size)).size)
          (earlier + child.expansions) :=
  affordableInside_child_iff rfl rfl .rfl .rfl

/-! ### The code of a tree, operation by operation -/

@[simp] theorem size_segment (t : ExpansionTree) (pos : Nat) : (t.segment pos).size = t.size := by
  rw [segment, size_render, totalSize_layout]

theorem code_instr (source : Nat) (i : Instr) (rest : ExpansionTree) (index pos : Nat) :
    (instr source i rest).code index pos =
      i.segment source pos index ++ rest.code (index + 1) (pos + i.size) := by
  have hi : i.segment source pos index =
      render (filledInside [⟨[], index, pos, source, i⟩]) [⟨[], index, pos, source, i⟩] :=
    (assembled_instr i source pos index).segment
  have hlayout : (instr source i rest).layout index pos =
      [⟨[], index, pos, source, i⟩] ++ rest.layout (index + 1) (pos + i.size) := rfl
  rw [code, hlayout, render_inside_append (separate_of_node_eq_nil rfl _), ← hi, code]

theorem code_inlined (child rest : ExpansionTree) (index pos : Nat) :
    (inlined child rest).code index pos =
      child.segment pos ++ rest.code (index + 1) (pos + child.size) := by
  rw [segment, ← render_inside_map_inside index]
  exact render_inside_append (separate_inlined child rest index pos _)

theorem code_measured (source : Nat) (child rest : ExpansionTree) (index pos : Nat) :
    (measured source child rest).code index pos =
      .ofPush source (.ofSize child.size) ++
        rest.code (index + 1) (pos + (Instr.push (.ofSize child.size)).size) :=
  code_instr source (.push (.ofSize child.size)) rest index pos

/-- Asking the labels of the macro leads from the one code to the other. -/
theorem resolve_code (t : ExpansionTree) (pos : Nat) :
    (t.FitsOutside pos ∧ (t.code 0 pos).resolve (σ := Nat) pos = .ok (t.segment pos)) ∨
      ¬ t.FitsOutside pos ∧ ∃ e : CompileError Nat, (t.code 0 pos).resolve pos = .error e := by
  have hl := laid_layout t 0 pos
  obtain ⟨hf, hres, -⟩ | ⟨n, label, hover, herr⟩ :=
    resolve_render (v := filledInside (t.layout 0 pos)) hl
  · rw [settle_filledInside hl] at hres
    exact .inl ⟨hf, hres⟩
  · exact .inr ⟨hover.not_fits, _, herr⟩

end ExpansionTree

namespace Expansion

/-! ### Costs of steps -/

variable {α β : Type}

/-- `x` succeeds from exactly the counts of `P`, with `a`, and makes `k`
expansions. -/
def Costs (x : Step α) (P : Nat → Prop) (a : α) (k : Nat) : Prop :=
  ∀ n b n', run x n = (.ok b, n') ↔ P n ∧ b = a ∧ n' = n + k

/-- A sequence of two steps succeeds when both of them do. -/
theorem run_bind_eq_ok {x : Step α} {f : α → Step β} {n n' : Nat} {b : β} :
    run (x >>= f) n = (.ok b, n') ↔
      ∃ a k, run x n = (.ok a, k) ∧ run (f a) k = (.ok b, n') := by
  rw [run_bind]
  rcases run x n with ⟨e | a, k⟩
  · simp
  · constructor
    · exact fun h => ⟨a, k, rfl, h⟩
    · rintro ⟨a', k', heq, h⟩
      cases heq
      exact h

namespace Costs

variable {x : Step α} {P Q : Nat → Prop} {a : α} {k : Nat}

theorem of_iff (h : Costs x P a k) (hPQ : ∀ n, Q n ↔ P n) : Costs x Q a k := by
  intro n b n'
  rw [hPQ n]
  exact h n b n'

theorem pure (a : α) : Costs (pure a) (fun _ => True) a 0 := by
  intro n b n'
  simp [eq_comm]

theorem throw (e : CompileError Nat) (a : α) (k : Nat) :
    Costs (throw e) (fun _ => False) a k := by
  intro n b n'
  simp

/-- The second step starts from the count that the first one ends with. -/
theorem bind {f : α → Step β} {b : β} {j : Nat} (hx : Costs x P a k) (hf : Costs (f a) Q b j) :
    Costs (x >>= f) (fun n => P n ∧ Q (n + k)) b (k + j) := by
  intro n c n'
  rw [run_bind_eq_ok]
  constructor
  · rintro ⟨a', m, hrun, hrest⟩
    obtain ⟨hP, rfl, rfl⟩ := (hx n a' m).1 hrun
    obtain ⟨hQ, rfl, rfl⟩ := (hf _ _ _).1 hrest
    exact ⟨⟨hP, hQ⟩, rfl, Nat.add_assoc _ _ _⟩
  · rintro ⟨⟨hP, hQ⟩, rfl, rfl⟩
    exact ⟨a, n + k, (hx _ _ _).2 ⟨hP, rfl, rfl⟩,
      (hf _ _ _).2 ⟨hQ, rfl, (Nat.add_assoc _ _ _).symm⟩⟩

theorem count (limits : Limits) :
    Costs (count limits) (fun n => n + 1 ≤ limits.expansions) () 1 := by
  intro n b n'
  rw [run_count]
  by_cases h : limits.expansions < n + 1
  · rw [if_pos h]
    constructor
    · intro hrun
      cases hrun
    · rintro ⟨hle, -⟩
      exact absurd hle (Nat.not_le_of_gt h)
  · rw [if_neg h]
    constructor
    · intro hrun
      obtain ⟨-, rfl⟩ := Prod.mk.inj hrun
      exact ⟨Nat.le_of_not_lt h, rfl, rfl⟩
    · rintro ⟨-, rfl, rfl⟩
      rfl

theorem ofResult_ok (a : α) : Costs (ofResult (.ok a)) (fun _ => True) a 0 := pure a

theorem ofResult_error (e : CompileError Nat) (a : α) (k : Nat) :
    Costs (ofResult (.error e)) (fun _ => False) a k := throw e a k

/-- A test that is passed costs nothing. -/
theorem guarded {c : Prop} [Decidable c] {e : CompileError Nat} (hx : Costs x P a k) :
    Costs (if c then MonadExcept.throw e else x) (fun n => ¬ c ∧ P n) a k := by
  by_cases hc : c
  · rw [if_pos hc]
    exact (throw e a k).of_iff fun n => by simp [hc]
  · rw [if_neg hc]
    exact hx.of_iff fun n => by simp [hc]

end Costs

/-! ### Costs of expansions -/

variable {r : Registry} {limits : Limits}

/-- The labels of the macro are asked without a count. -/
theorem resolve_costs (t : ExpansionTree) (pos : Nat) :
    Costs (ofResult ((t.code 0 pos).resolve pos)) (fun _ => t.FitsOutside pos)
      (t.segment pos) 0 := by
  obtain ⟨hf, hres⟩ | ⟨hf, e, herr⟩ := t.resolve_code pos
  · rw [hres]
    exact (Costs.ofResult_ok _).of_iff fun _ => by simp [hf]
  · rw [herr]
    exact (Costs.ofResult_error e _ _).of_iff fun _ => by simp [hf]

/-- One operation of a known size, and those behind it. -/
theorem assemble_cons_costs {emit : (pos index : Nat) → Operation → Step Segment} {op : Operation}
    {ops : List Operation} {pos index size : Nat} {s s' : Segment} {k k' : Nat}
    {P P' : Nat → Prop} (hop : Costs (emit pos index op) P s k) (hs : s.size = size)
    (hops : Costs (assemble limits emit (pos + size) (index + 1) ops) P' s' k') :
    Costs (assemble limits emit pos index (op :: ops))
      (fun n => P n ∧ pos + size ≤ limits.bytes ∧ P' (n + k)) (s ++ s') (k + k') := by
  subst hs
  have hrest := hops.bind (f := fun t => pure (s ++ t)) (Costs.pure (s ++ s'))
  refine Costs.of_iff (hop.bind (hrest.guarded (c := limits.bytes < pos + s.size)
    (e := .outputLimit limits.bytes (pos + s.size)))) fun n => ?_
  simp

/-- What an operation costs is what its action costs. -/
theorem emit_costs (expand : Expander) {m : Macro} {values : List String} {op : Operation}
    {a : Action} (ha : action r m values op = .ok a) {pos : Nat} (index : Nat) {P : Nat → Prop}
    {s : Segment} {k : Nat} (h : Costs (perform expand op.source pos index a) P s k) :
    Costs (emit r expand m values pos index op) P s k := by
  rw [emit_eq_perform, ha]
  exact h

/-- A measurement costs what the measured expansion costs. -/
theorem measure_costs {expand : Expander} {source : Nat} {inv : Invocation} {pos size : Nat}
    (index : Nat) {P : Nat → Prop} {s : Segment} {k : Nat}
    (h : Costs (expand source inv pos) P s k) (hs : s.size = size) :
    Costs (perform expand source pos index (.measure inv)) P (.ofPush source (.ofSize size)) k := by
  subst hs
  have hpush := h.bind (f := fun s => pure (Segment.ofPush source (.ofSize s.size))) (Costs.pure _)
  exact hpush.of_iff fun n => by simp

/-- An expansion costs one more than its operations. -/
theorem unguardedAt_costs (room : Nat) (site? : Option Nat) {inv : Invocation} {m : Macro}
    {t : ExpansionTree} {pos : Nat} (hm : r.getMacro? inv.name = some m)
    (harity : inv.args.length = m.arity)
    (hops : ∀ room, Costs (assemble limits
      (emit r (fun site => unguardedAt r limits room (some site)) m inv.args) pos 0 m.ops)
      (fun n => t.AffordableInside limits room pos n) (t.code 0 pos) t.nested) :
    Costs (unguardedAt r limits room site? inv pos)
      (fun n => t.Affordable limits room pos n) (t.segment pos) t.expansions := by
  cases room with
  | zero =>
    rw [unguardedAt, hm]
    exact (Costs.throw _ _ _).of_iff fun n => iff_of_false ExpansionTree.not_affordable_zero id
  | succ room =>
    rw [unguardedAt_succ hm, ExpansionTree.expansions, Nat.add_comm t.nested]
    have hbody := (hops room).bind (f := fun s => ofResult (s.resolve pos)) (resolve_costs t pos)
    refine ((Costs.count limits).bind (hbody.guarded (c := inv.args.length ≠ m.arity)
      (e := .arityMismatch inv.name m.arity inv.args.length site?))).of_iff fun n => ?_
    rw [ExpansionTree.affordable_succ_iff]
    simp [harity]

/-- The operations of a macro succeed where their tree is affordable. -/
theorem assemble_costs {m : Macro} {values : List String} {ops : List Operation}
    {t : ExpansionTree} (ht : Unfolds r m values ops t) (room pos index : Nat) :
    Costs (assemble limits (emit r (fun site => unguardedAt r limits room (some site)) m values)
        pos index ops)
      (fun n => t.AffordableInside limits room pos n) (t.code index pos) t.nested := by
  induction ht generalizing room pos index with
  | done =>
    refine (Costs.pure _).of_iff fun n => iff_true_intro ?_
    exact ⟨Nat.le_add_left _ _, .inl rfl, trivial, trivial⟩
  | @instr m values op i ops t ha _ ih =>
    have hop := emit_costs (fun site => unguardedAt r limits room (some site)) ha index
      (Costs.pure (i.segment op.source pos index))
    rw [ExpansionTree.code_instr, ExpansionTree.nested, ← Nat.zero_add t.nested]
    refine (assemble_cons_costs hop (i.size_segment _ _ _) (ih room _ _)).of_iff fun n => ?_
    rw [ExpansionTree.affordableInside_instr_iff]
    simp
  | @inlined m values op inv m' child ops t ha hm harity _ _ ihc ih =>
    have hchild := unguardedAt_costs room (some op.source) hm harity fun room => ihc room pos 0
    have hop := emit_costs (fun site => unguardedAt r limits room (some site)) ha index hchild
    rw [ExpansionTree.code_inlined, ExpansionTree.nested]
    refine (assemble_cons_costs hop (child.size_segment pos) (ih room _ _)).of_iff fun n => ?_
    exact ExpansionTree.affordableInside_inlined_iff
  | @measured m values op inv m' child ops t ha hm harity _ _ ihc ih =>
    have hsize : (Segment.ofPush op.source (.ofSize child.size)).size =
        (Instr.push (.ofSize child.size)).size :=
      (Instr.push (.ofSize child.size)).size_segment op.source pos index
    have hchild := unguardedAt_costs room (some op.source) hm harity fun room => ihc room pos 0
    have hop := emit_costs (fun site => unguardedAt r limits room (some site)) ha index
      (measure_costs index hchild (child.size_segment pos))
    rw [ExpansionTree.code_measured, ExpansionTree.nested]
    refine (assemble_cons_costs hop hsize (ih room _ _)).of_iff fun n => ?_
    exact ExpansionTree.affordableInside_measured_iff

/-! ### Whole expansions -/

/-- An invocation with a tree is expanded where its tree is affordable, inside
expansions that led to it. -/
theorem expandAt_costs {inv : Invocation} {t : ExpansionTree} (ht : Expands r inv t)
    {active : List Invocation} (hactive : ∀ a ∈ active, Relation.TransGen (Invokes r) a inv)
    (room : Nat) (site? : Option Nat) (pos : Nat) :
    Costs (expandAt r limits room active site? inv pos)
      (fun n => t.Affordable limits room pos n) (t.segment pos) t.expansions := by
  obtain ⟨m, hm, harity, hops⟩ := id ht
  rw [expandAt_eq_unguardedAt ht hactive]
  exact unguardedAt_costs _ _ hm harity fun room => assemble_costs hops room pos 0

theorem expand_costs {inv : Invocation} {t : ExpansionTree} (ht : Expands r inv t) (pos : Nat) :
    Costs (expand r limits inv pos) (fun n => t.Affordable limits limits.depth pos n)
      (t.segment pos) t.expansions :=
  expandAt_costs ht (fun _ ha => absurd ha List.not_mem_nil) limits.depth none pos

/-- An expansion succeeds exactly when the invocation has a tree that stays
within the limits.  The tree then decides the code and the count. -/
theorem run_expand_eq_ok_iff {inv : Invocation} {pos n n' : Nat} {s : Segment} :
    run (expand r limits inv pos) n = (.ok s, n') ↔
      ∃ t, Expands r inv t ∧ t.Affordable limits limits.depth pos n ∧ s = t.segment pos ∧
        n' = n + t.expansions := by
  constructor
  · intro h
    obtain ⟨log, t, hreal⟩ :=
      (expandAt_yields r limits limits.depth [] none inv pos).of_run (congrArg Prod.fst h)
    exact ⟨t, hreal.expands, (expand_costs hreal.expands pos n s n').1 h⟩
  · rintro ⟨t, ht, hcost⟩
    exact (expand_costs ht pos n s n').2 hcost

end Expansion

end MacroAssembler
