/-
MacroAssembler/Proofs/LimitMonotone.lean

Limits stop a compilation, and do nothing else.

Two runs are compared, one under limits and one under wider ones.  They go in
lock step: from the same count they meet the same macros at the same offsets,
so each test comes out the same way in both until the first run meets a limit.
`Loosens x y` says this of two steps, and its rules follow the monad as those
of `Yields` do.  Wherever the expander looks at a limit, either the first run
stops there or the second passes as well.

Main result: `CompilationUnit.compile_eq_of_limits_le`.
-/
import Mathlib.Control.Monad.Basic
import MacroAssembler.CompilationUnit
import MacroAssembler.Proofs.Steps

namespace MacroAssembler

/-- Limits that allow no more than others. -/
instance : LE Limits where
  le a b := a.depth ≤ b.depth ∧ a.expansions ≤ b.expansions ∧ a.bytes ≤ b.bytes

instance (a b : Limits) : Decidable (a ≤ b) :=
  inferInstanceAs (Decidable (a.depth ≤ b.depth ∧ a.expansions ≤ b.expansions ∧ a.bytes ≤ b.bytes))

/-- An error that a limit was met. -/
def CompileError.IsLimit {σ : Type} : CompileError σ → Prop
  | .recursionLimit _ _ | .expansionLimit _ | .outputLimit _ _ => True
  | _ => False

theorem CompileError.IsLimit.map {σ τ : Type} (f : σ → τ) {e : CompileError σ} (h : e.IsLimit) :
    (e.map f).IsLimit := by
  cases e <;> trivial

/-! ### Results -/

/-- The first result is that a limit was met, or the second is the same. -/
def Loosened {σ α : Type} (x y : Except (CompileError σ) α) : Prop :=
  (∃ e, x = .error e ∧ e.IsLimit) ∨ y = x

namespace Loosened

variable {σ α β : Type}

theorem refl (x : Except (CompileError σ) α) : Loosened x x := .inr rfl

theorem limit {e : CompileError σ} (h : e.IsLimit) (y : Except (CompileError σ) α) :
    Loosened (.error e) y := .inl ⟨e, rfl, h⟩

theorem bind {x y : Except (CompileError σ) α} {f g : α → Except (CompileError σ) β}
    (hx : Loosened x y) (hf : ∀ a, Loosened (f a) (g a)) : Loosened (x >>= f) (y >>= g) := by
  obtain ⟨e, rfl, he⟩ | rfl := hx
  · exact limit he _
  · cases y with
    | error e => exact refl _
    | ok a => exact hf a

end Loosened

namespace Expansion

/-! ### Steps -/

/-- From every count, the first step meets a limit, or the second runs alike. -/
def Loosens {α : Type} (x y : Step α) : Prop :=
  ∀ n, (∃ e, (run x n).1 = .error e ∧ e.IsLimit) ∨ run y n = run x n

namespace Loosens

variable {α β : Type}

theorem refl (x : Step α) : Loosens x x := fun _ => .inr rfl

theorem limit {e : CompileError Nat} (h : e.IsLimit) (y : Step α) : Loosens (throw e) y :=
  fun _ => .inl ⟨e, rfl, h⟩

theorem bind {x y : Step α} {f g : α → Step β} (hx : Loosens x y)
    (hf : ∀ a, Loosens (f a) (g a)) : Loosens (x >>= f) (y >>= g) := by
  intro n
  rw [run_bind, run_bind]
  obtain ⟨e, hrun, he⟩ | heq := hx n
  · rcases hx : run x n with ⟨e' | a, n'⟩
    · obtain rfl : e' = e := by simpa [hx] using hrun
      exact .inl ⟨e', rfl, he⟩
    · simp [hx] at hrun
  · -- both continue from the same value and the same count
    rw [heq]
    rcases run x n with ⟨e' | a, n'⟩
    · exact .inr rfl
    · exact hf a n'

end Loosens

variable {limits limits' : Limits} (hle : limits ≤ limits')

include hle

theorem count_loosens : Loosens (count limits) (count limits') := by
  intro n
  rw [run_count, run_count]
  by_cases hlt : limits.expansions < n + 1
  · rw [if_pos hlt]
    exact .inl ⟨_, rfl, trivial⟩
  · have hlt' : ¬ limits'.expansions < n + 1 := by
      have := hle.2.1
      omega
    rw [if_neg hlt, if_neg hlt']
    exact .inr rfl

theorem assemble_loosens {emit emit' : (pos index : Nat) → Operation → Step Segment}
    (hemit : ∀ pos index op, Loosens (emit pos index op) (emit' pos index op))
    (pos index : Nat) (ops : List Operation) :
    Loosens (assemble limits emit pos index ops) (assemble limits' emit' pos index ops) := by
  induction ops generalizing pos index with
  | nil => exact .refl _
  | cons op ops ih =>
    rw [assemble, assemble]
    refine Loosens.bind (hemit pos index op) fun s => ?_
    by_cases hlt : limits.bytes < pos + s.size
    · simp only [if_pos hlt]
      refine .limit ?_ _
      trivial
    · have hlt' : ¬ limits'.bytes < pos + s.size := by
        have := hle.2.2
        omega
      simp only [if_neg hlt, if_neg hlt']
      exact Loosens.bind (ih _ _) fun t => .refl _

omit hle in
theorem emit_loosens {expand expand' : Expander}
    (hexp : ∀ site inv pos, Loosens (expand site inv pos) (expand' site inv pos))
    (r : Registry) (m : Macro) (values : List String) (pos index : Nat) (op : Operation) :
    Loosens (emit r expand m values pos index op) (emit r expand' m values pos index op) := by
  rw [emit_eq_perform, emit_eq_perform]
  refine Loosens.bind (.refl _) fun a => ?_
  cases a with
  | emit i => exact .refl _
  | inline inv => exact hexp op.source inv pos
  | measure inv => exact Loosens.bind (hexp op.source inv pos) fun s => .refl _

/-- With more room and wider limits, an expansion runs alike until it meets a
limit. -/
theorem expandAt_loosens (r : Registry) {room room' : Nat} (hroom : room ≤ room')
    (active : List Invocation) (site? : Option Nat) (inv : Invocation) (pos : Nat) :
    Loosens (expandAt r limits room active site? inv pos)
      (expandAt r limits' room' active site? inv pos) := by
  induction room generalizing room' active site? inv pos with
  | zero =>
    rw [expandAt, expandAt]
    -- the tests before the one for the depth are the same in both
    rcases r.getMacro? inv.name with - | m
    · exact .refl _
    · by_cases ha : inv ∈ active
      · simp only [if_pos ha]
        exact .refl _
      · simp only [if_neg ha]
        refine .limit ?_ _
        trivial
  | succ room ih =>
    obtain ⟨room', rfl⟩ : ∃ k, room' = k + 1 := ⟨room' - 1, by omega⟩
    rcases hm : r.getMacro? inv.name with - | m
    · rw [expandAt, expandAt, hm]
      exact .refl _
    · by_cases ha : inv ∈ active
      · rw [expandAt, expandAt, hm]
        simp only [if_pos ha]
        exact .refl _
      · rw [expandAt_succ hm ha, expandAt_succ hm ha]
        refine Loosens.bind (count_loosens hle) fun _ => ?_
        by_cases harity : inv.args.length ≠ m.arity
        · rw [if_pos harity, if_pos harity]
          exact .refl _
        · rw [if_neg harity, if_neg harity]
          refine Loosens.bind (assemble_loosens hle (emit_loosens ?_ r m inv.args) pos 0 m.ops)
            fun s => .refl _
          exact fun site => ih (Nat.le_of_succ_le_succ hroom) (inv :: active) (some site)

end Expansion

namespace Program

variable {limits limits' : Limits} (hle : limits ≤ limits')

include hle

theorem link_loosened (r : Registry) (s : Segment) :
    Loosened (link (σ := Nat) r limits s) (link r limits' s) := by
  rw [link, link]
  refine Loosened.bind (.refl _) fun placed => ?_
  by_cases hlt : limits.bytes < (s.cells ++ placed.1).length
  · simp only [if_pos hlt]
    refine .limit ?_ _
    trivial
  · have hlt' : ¬ limits'.bytes < (s.cells ++ placed.1).length := by
      have := hle.2.2
      omega
    simp only [if_neg hlt, if_neg hlt']
    exact .refl _

theorem compile_loosened (r : Registry) (entry : Invocation) :
    Loosened (compile r limits entry) (compile r limits' entry) := by
  rw [compile, compile]
  by_cases hname : (!r.hasMacro entry.name) = true
  · rw [if_pos hname, if_pos hname]
    exact .refl _
  · rw [if_neg hname, if_neg hname]
    rcases (CallGraph.ofRegistry r).findCycle entry.name with - | chain
    · have hexp : Loosened (Expansion.run (Expansion.expand r limits entry 0) 0).1
          (Expansion.run (Expansion.expand r limits' entry 0) 0).1 := by
        obtain hlimit | heq := Expansion.expandAt_loosens hle r hle.1 [] none entry 0 0
        · exact .inl hlimit
        · exact .inr (congrArg Prod.fst heq)
      refine Loosened.bind hexp fun s => ?_
      by_cases hopen : s.jumps.isEmpty = true
      · rw [if_pos hopen, if_pos hopen]
        exact link_loosened hle r s
      · rw [if_neg hopen, if_neg hopen]
        exact .refl _
    · exact .refl _

end Program

namespace CompilationUnit

/-- Under wider limits a unit compiles to the same program, or fails with the
same error, unless it met a limit under the narrower ones. -/
theorem compile_eq_of_limits_le (listing : Listing) (registry : Registry)
    (limits limits' : Limits) (hle : limits ≤ limits') (entry : Invocation) :
    (∃ e, compile ⟨listing, registry, limits⟩ entry = .error (.compile e) ∧ e.IsLimit) ∨
      compile ⟨listing, registry, limits'⟩ entry = compile ⟨listing, registry, limits⟩ entry := by
  obtain ⟨e, hrun, he⟩ | heq := Program.compile_loosened hle registry entry
  · refine .inl ⟨e.map listing.place, ?_, he.map listing.place⟩
    rw [compile]
    simp only [hrun]
  · refine .inr ?_
    rw [compile, compile]
    simp only [heq]

/-- A program that nests two deep, takes three expansions with the measurement,
and has eleven bytes with its table. -/
def exactFit : Registry where
  macros := [
    { Macro.ofName "A" with ops := [⟨.jumpRef "x", 1⟩] },
    { Macro.ofName "MAIN" with ops := [⟨.codeSize "A" [], 2⟩, ⟨.call "A" [], 3⟩,
        ⟨.jumpDest "x", 4⟩, ⟨.tableStart "T", 5⟩] }]
  tables := [⟨"T", ["x"], true, 6⟩]

theorem compile_exactFit :
    (⟨2, 3, 11⟩ : Limits) ≤ .default ∧
      ∃ p, compile ⟨.empty, exactFit, ⟨2, 3, 11⟩⟩ ⟨"MAIN", []⟩ = .ok p ∧
        compile ⟨.empty, exactFit, .default⟩ ⟨"MAIN", []⟩ = .ok p := by
  have h : compile ⟨.empty, exactFit, ⟨2, 3, 11⟩⟩ ⟨"MAIN", []⟩ =
      .ok ((compile ⟨.empty, exactFit, ⟨2, 3, 11⟩⟩ ⟨"MAIN", []⟩).toOption.getD ⟨[], .empty, []⟩) := by
    decide +kernel
  refine ⟨by decide, _, h, ?_⟩
  obtain ⟨e, he, -⟩ | heq := compile_eq_of_limits_le .empty exactFit ⟨2, 3, 11⟩ .default (by decide)
    ⟨"MAIN", []⟩
  · rw [h] at he
    cases he
  · rw [heq]
    exact h

end CompilationUnit

end MacroAssembler
