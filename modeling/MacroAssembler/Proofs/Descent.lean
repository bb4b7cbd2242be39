/-
MacroAssembler/Proofs/Descent.lean

Which invocation leads to which.

`Invokes r a b` says that an operation of the macro of `a`, with the arguments
of `a`, expands or measures `b`.  It depends on the registry and on the two
invocations alone, as expansion trees do.  An invocation that has a tree
therefore hands a smaller tree to everything it invokes (`Expands.inner`), and
cannot come round to itself: if it did, its tree, of which there is only one,
would be smaller than itself (`Expands.not_leadsBack`).

Whoever finds an invocation inside itself may thus stop: it has no tree.
-/
import Mathlib.Logic.Relation
import MacroAssembler.Proofs.ExpansionTree

namespace MacroAssembler

open Relation

/-! ### Depth -/

/-- Deepest nesting of expansions, the outermost one included. -/
def ExpansionTree.depth : ExpansionTree → Nat
  | done => 1
  | instr _ _ rest => rest.depth
  | inlined child rest => max (child.depth + 1) rest.depth
  | measured _ child rest => max (child.depth + 1) rest.depth

/-! ### Invocations inside invocations -/

/-- The invocation that an action expands, in place or to measure it. -/
def Action.target? : Action → Option Invocation
  | emit _ => none
  | inline inv => some inv
  | measure inv => some inv

/-- An operation of the macro of the first invocation expands the second. -/
def Invokes (r : Registry) (inv inv' : Invocation) : Prop :=
  ∃ m op a, r.getMacro? inv.name = some m ∧ op ∈ m.ops ∧
    Expansion.action r m inv.args op = .ok a ∧ a.target? = some inv'

variable {r : Registry}

/-- What an operation expands has a tree inside the tree of the operations. -/
theorem Unfolds.inner {m : Macro} {values : List String} {ops : List Operation}
    {t : ExpansionTree} (ht : Unfolds r m values ops t) {op : Operation} (hop : op ∈ ops)
    {a : Action} (ha : Expansion.action r m values op = .ok a) {inv : Invocation}
    (hinv : a.target? = some inv) : ∃ u, Expands r inv u ∧ u.depth < t.depth := by
  induction ht with
  | done => cases hop
  | instr hb _ ih =>
    obtain rfl | hop := List.mem_cons.1 hop
    · -- an instruction expands nothing
      obtain rfl : a = _ := Except.ok.inj (ha.symm.trans hb)
      cases hinv
    · exact ih hop ha
  | inlined hb hm harity hc _ _ ih | measured hb hm harity hc _ _ ih =>
    -- whether it stays or is only measured, the child lies one level further down
    obtain rfl | hop := List.mem_cons.1 hop
    · obtain rfl : a = _ := Except.ok.inj (ha.symm.trans hb)
      obtain rfl := Option.some.inj hinv
      refine ⟨_, ⟨_, hm, harity, hc⟩, ?_⟩
      exact Nat.lt_of_lt_of_le (Nat.lt_succ_self _) (Nat.le_max_left _ _)
    · obtain ⟨u, hu, hlt⟩ := ih hop ha
      exact ⟨u, hu, Nat.lt_of_lt_of_le hlt (Nat.le_max_right _ _)⟩

namespace Expands

variable {inv inv' : Invocation} {t : ExpansionTree}

/-- What an invocation with a tree invokes has a tree of its own, of smaller
depth. -/
theorem inner (ht : Expands r inv t) (h : Invokes r inv inv') :
    ∃ u, Expands r inv' u ∧ u.depth < t.depth := by
  obtain ⟨m, hm, -, hops⟩ := ht
  obtain ⟨m', op, a, hm', hop, ha, hinv⟩ := h
  obtain rfl : m = m' := Option.some.inj (hm.symm.trans hm')
  exact hops.inner hop ha hinv

theorem leadsTo (ht : Expands r inv t) (h : TransGen (Invokes r) inv inv') :
    ∃ u, Expands r inv' u ∧ u.depth < t.depth := by
  induction h with
  | single h => exact ht.inner h
  | tail _ h ih =>
    obtain ⟨u, hu, hlt⟩ := ih
    obtain ⟨v, hv, hlt'⟩ := hu.inner h
    exact ⟨v, hv, Nat.lt_trans hlt' hlt⟩

/-- An invocation with a tree never comes round to itself. -/
theorem not_leadsBack (ht : Expands r inv t) : ¬ TransGen (Invokes r) inv inv := by
  intro h
  obtain ⟨u, hu, hlt⟩ := ht.leadsTo h
  obtain rfl : u = t := hu.unique ht
  exact Nat.lt_irrefl _ hlt

end Expands

end MacroAssembler
