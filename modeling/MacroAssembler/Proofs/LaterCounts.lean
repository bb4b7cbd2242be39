/-
MacroAssembler/Proofs/LaterCounts.lean

Expansions that are counted from a later number.

Two runs of one expansion are compared, from the counts `n` and `n + d`.  They go
in lock step, the counts `d` apart, because the expander looks at its count in one
place only, for the limit.  So the later run ends as the other does, or it meets
the limit, and which of the two is decided by how far the other counts
(`Delayed`).  An expansion that counts nothing ends alike from every count, also
from one above the limit.  The rules of `Shifts` follow the monad.

Main result: `Expansion.expandAt_shifts`.
-/
import MacroAssembler.Proofs.Steps

namespace MacroAssembler.Expansion

variable {α β : Type}

/-- What becomes of a step that starts at `n + d` in place of `n`. -/
structure Delayed (limits : Limits) (n d : Nat) (x : Step α) : Prop where
  le : n ≤ (run x n).2
  /-- Where the counts stay within the limit, or there are none, it is the same. -/
  same : (run x n).2 = n ∨ (run x n).2 + d ≤ limits.expansions →
    run x (n + d) = ((run x n).1, (run x n).2 + d)
  /-- Elsewhere the limit is met. -/
  limit : (run x n).2 ≠ n → limits.expansions < (run x n).2 + d →
    (run x (n + d)).1 = .error (.expansionLimit limits.expansions)

theorem fst_run_bind_of_error {x : Step α} {n : Nat} {e : CompileError Nat}
    (h : (run x n).1 = .error e) (f : α → Step β) : (run (x >>= f) n).1 = .error e := by
  have hrun : run x n = (.error e, (run x n).2) := Prod.ext h rfl
  rw [run_bind_eq_error.2 (.inl hrun)]

/-- A step depends on the count only by the limit on it. -/
def Shifts (limits : Limits) (x : Step α) : Prop := ∀ n d, Delayed limits n d x

variable {limits : Limits}

namespace Shifts

theorem ofResult (v : Except (CompileError Nat) α) : Shifts limits (ofResult v) := by
  intro n d
  refine ⟨?_, ?_, ?_⟩
  · exact Nat.le_of_eq (by rw [run_ofResult])
  · intro _
    rw [run_ofResult, run_ofResult]
  · intro hne
    rw [run_ofResult] at hne
    exact absurd rfl hne

theorem pure (a : α) : Shifts limits (pure a) := ofResult (.ok a)

theorem throw (e : CompileError Nat) : Shifts (α := α) limits (throw e) := ofResult (.error e)

theorem count : Shifts limits (count limits) := by
  intro n d
  by_cases hlt : limits.expansions < n + 1
  · have hrun : run (Expansion.count limits) n =
        (.error (.expansionLimit limits.expansions), n + 1) := by rw [run_count, if_pos hlt]
    have hlate : run (Expansion.count limits) (n + d) =
        (.error (.expansionLimit limits.expansions), n + d + 1) := by
      rw [run_count, if_pos (by omega)]
    refine ⟨?_, ?_, ?_⟩
    · rw [hrun]
      exact Nat.le_succ n
    · intro h
      rw [hrun] at h
      exact absurd h (by simp only; omega)
    · intro _ _
      rw [hlate]
  · have hrun : run (Expansion.count limits) n = (.ok (), n + 1) := by rw [run_count, if_neg hlt]
    refine ⟨?_, ?_, ?_⟩
    · rw [hrun]
      exact Nat.le_succ n
    · rw [hrun]
      intro h
      have hlate : ¬ limits.expansions < n + d + 1 := by simp only at h; omega
      rw [run_count, if_neg hlate, Nat.add_right_comm]
    · rw [hrun]
      intro _ h
      have hlate : limits.expansions < n + d + 1 := by simp only at h; omega
      rw [run_count, if_pos hlate]

theorem bind {x : Step α} {f : α → Step β} (hx : Shifts limits x)
    (hf : ∀ a, Shifts limits (f a)) : Shifts limits (x >>= f) := by
  intro n d
  obtain ⟨hle, hsame, hlimit⟩ := hx n d
  rcases hrun : run x n with ⟨e | a, k⟩
  · -- the first step fails, and so does the sequence
    have hbind : run (x >>= f) n = (.error e, k) := by rw [run_bind, hrun]
    rw [hrun] at hle hsame hlimit
    refine ⟨?_, ?_, ?_⟩
    · rwa [hbind]
    · rw [hbind]
      intro h
      rw [run_bind, hsame h]
    · rw [hbind]
      intro hne hlt
      exact fst_run_bind_of_error (hlimit hne hlt) f
  · have hbind : run (x >>= f) n = run (f a) k := by rw [run_bind, hrun]
    rw [hrun] at hle hsame hlimit
    obtain ⟨hle', hsame', hlimit'⟩ := hf a k d
    simp only at hle hsame hlimit
    -- the first step meets the limit, or the second starts later by as much
    have hsecond : (k = n ∨ k + d ≤ limits.expansions) →
        run (x >>= f) (n + d) = run (f a) (k + d) := by
      intro h
      rw [run_bind, hsame h]
    refine ⟨?_, ?_, ?_⟩
    · rw [hbind]
      exact Nat.le_trans hle hle'
    · rw [hbind]
      intro h
      rw [hsecond (by omega)]
      exact hsame' (by omega)
    · rw [hbind]
      intro hne hlt
      by_cases hk : k = n ∨ k + d ≤ limits.expansions
      · rw [hsecond hk]
        exact hlimit' (by omega) hlt
      · exact fst_run_bind_of_error (hlimit (by omega) (by omega)) f

end Shifts

theorem assemble_shifts {emit : (pos index : Nat) → Operation → Step Segment}
    (hemit : ∀ pos index op, Shifts limits (emit pos index op)) (pos index : Nat)
    (ops : List Operation) : Shifts limits (assemble limits emit pos index ops) := by
  induction ops generalizing pos index with
  | nil => exact .pure _
  | cons op ops ih =>
    rw [assemble]
    apply (hemit pos index op).bind
    intro s
    by_cases hlt : limits.bytes < pos + s.size
    · simp only [if_pos hlt]
      exact .throw _
    · simp only [if_neg hlt]
      exact (ih _ _).bind fun t => .pure _

theorem emit_shifts {expand : Expander} (hexp : ∀ site inv pos, Shifts limits (expand site inv pos))
    (r : Registry) (m : Macro) (values : List String) (pos index : Nat) (op : Operation) :
    Shifts limits (emit r expand m values pos index op) := by
  rw [emit_eq_perform]
  apply (Shifts.ofResult _).bind
  intro a
  cases a with
  | emit i => exact .pure _
  | inline inv => exact hexp op.source inv pos
  | measure inv => exact (hexp op.source inv pos).bind fun s => .pure _

theorem expandAt_shifts (r : Registry) (room : Nat) (active : List Invocation)
    (site? : Option Nat) (inv : Invocation) (pos : Nat) :
    Shifts limits (expandAt r limits room active site? inv pos) := by
  induction room generalizing active site? inv pos with
  | zero =>
    rw [expandAt]
    rcases r.getMacro? inv.name with - | m
    · exact .throw _
    · by_cases ha : inv ∈ active
      · simp only [if_pos ha]
        exact .throw _
      · simp only [if_neg ha]
        exact .throw _
  | succ room ih =>
    rcases hm : r.getMacro? inv.name with - | m
    · rw [expandAt, hm]
      exact .throw _
    by_cases ha : inv ∈ active
    · rw [expandAt, hm]
      simp only [if_pos ha]
      exact .throw _
    rw [expandAt_succ hm ha]
    apply Shifts.count.bind
    intro _
    by_cases harity : inv.args.length ≠ m.arity
    · rw [if_pos harity]
      exact .throw _
    · rw [if_neg harity]
      apply (assemble_shifts (emit_shifts ?_ r m inv.args) pos 0 m.ops).bind
      · exact fun s => .ofResult _
      · exact fun site => ih (inv :: active) (some site)

end MacroAssembler.Expansion
