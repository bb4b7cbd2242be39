/-
MacroAssembler/Proofs/CycleGuard.lean

The test for running expansions refuses only what would never end.

`unguarded` is the expander without that test: nothing but its limits keeps it
from going on forever.  Whatever it expands has a tree (`unguardedAt_yields`),
and an invocation with a tree never comes round to itself, so the test, if it
were there, would not refuse anything on the way (`expandAt_eq_unguardedAt`).
The arguments of an invocation are compared as texts.  That is enough because
the tree depends on nothing but those texts.

A cycle that is refused is a loop of calls, each made by the one before it, and
so no limits let the unguarded expander get to the end of it.

Main result: `Expansion.expand_eq_unguarded_or_endless`.
-/
import Mathlib.Control.Monad.Basic
import MacroAssembler.Proofs.Calls

namespace MacroAssembler.Expansion

open Relation

/-! ### The expander without the test -/

/-- `expandAt` without the test for running expansions. -/
def unguardedAt (r : Registry) (limits : Limits) :
    (room : Nat) → (site? : Option Nat) → Invocation → (pos : Nat) → Step Segment
  | room, site?, inv, pos =>
    match r.getMacro? inv.name with
    | none => throw (.unknownMacro inv.name site?)
    | some m =>
      match room with
      | 0 => throw (.recursionLimit limits.depth inv.name)
      | room + 1 => do
        count limits
        if inv.args.length ≠ m.arity then
          throw (.arityMismatch inv.name m.arity inv.args.length site?)
        else
          let expand site := unguardedAt r limits room (some site)
          let s ← assemble limits (emit r expand m inv.args) pos 0 m.ops
          ofResult (s.resolve pos)

/-- `expand` without the test for running expansions. -/
def unguarded (r : Registry) (limits : Limits) (inv : Invocation) (pos : Nat) : Step Segment :=
  unguardedAt r limits limits.depth none inv pos

variable {r : Registry} {limits : Limits}

theorem unguardedAt_succ {room : Nat} {site? : Option Nat} {inv : Invocation} {pos : Nat}
    {m : Macro} (hm : r.getMacro? inv.name = some m) :
    unguardedAt r limits (room + 1) site? inv pos = (do
      count limits
      if inv.args.length ≠ m.arity then
        throw (.arityMismatch inv.name m.arity inv.args.length site?)
      else do
        let s ← assemble limits
          (emit r (fun site => unguardedAt r limits room (some site)) m inv.args) pos 0 m.ops
        ofResult (s.resolve pos)) := by
  rw [unguardedAt]
  simp only [hm]

/-! ### What it expands has a tree -/

section Trees

variable {expand : Expander} {m : Macro} {values : List String}

theorem emit_unfolds
    (hexp : ∀ site inv pos, Yields (expand site inv pos) (fun _ => ∃ t, Expands r inv t)
      fun _ => True) (pos index : Nat) (op : Operation) :
    Yields (emit r expand m values pos index op)
      (fun _ => ∀ ops t, Unfolds r m values ops t → ∃ u, Unfolds r m values (op :: ops) u)
      fun _ => True := by
  rw [emit_eq_perform]
  refine Yields.bind (P := fun a => action r m values op = .ok a)
    (Yields.ofResult (Returns.self (fun _ ha => ha) fun _ _ => trivial)) ?_
  intro a ha
  cases a with
  | emit i => exact Yields.pure fun ops t ht => ⟨_, .instr ha ht⟩
  | inline inv =>
    refine (hexp op.source inv pos).mono ?_
    rintro s ⟨child, m', hm', harity, hchild⟩ ops t ht
    exact ⟨_, .inlined ha hm' harity hchild ht⟩
  | measure inv =>
    refine Yields.bind (hexp op.source inv pos) ?_
    rintro s ⟨child, m', hm', harity, hchild⟩
    exact Yields.pure fun ops t ht => ⟨_, .measured ha hm' harity hchild ht⟩

theorem assemble_unfolds
    (hexp : ∀ site inv pos, Yields (expand site inv pos) (fun _ => ∃ t, Expands r inv t)
      fun _ => True) (pos index : Nat) (ops : List Operation) :
    Yields (assemble limits (emit r expand m values) pos index ops)
      (fun _ => ∃ t, Unfolds r m values ops t) fun _ => True := by
  induction ops generalizing pos index with
  | nil => exact Yields.pure ⟨_, .done⟩
  | cons op ops ih =>
    rw [assemble]
    refine Yields.bind (emit_unfolds hexp pos index op) ?_
    intro s hgrow
    by_cases hlt : limits.bytes < pos + s.size
    · simp only [if_pos hlt]
      exact Yields.throw trivial
    · simp only [if_neg hlt]
      refine Yields.bind (ih _ _) ?_
      rintro t ⟨u, hu⟩
      exact Yields.pure (hgrow ops u hu)

end Trees

/-- What the unguarded expander expands has a tree. -/
theorem unguardedAt_yields (r : Registry) (limits : Limits) (room : Nat) (site? : Option Nat)
    (inv : Invocation) (pos : Nat) :
    Yields (unguardedAt r limits room site? inv pos) (fun _ => ∃ t, Expands r inv t)
      fun _ => True := by
  induction room generalizing site? inv pos with
  | zero =>
    rw [unguardedAt]
    split <;> exact Yields.throw trivial
  | succ room ih =>
    rcases hm : r.getMacro? inv.name with - | m
    · rw [unguardedAt, hm]
      exact Yields.throw trivial
    · rw [unguardedAt_succ hm]
      refine Yields.bind (Yields.count trivial) fun _ _ => ?_
      by_cases harity : inv.args.length ≠ m.arity
      · rw [if_pos harity]
        exact Yields.throw trivial
      · rw [if_neg harity]
        refine Yields.bind (assemble_unfolds (fun site => ih (some site)) pos 0 m.ops) ?_
        rintro s ⟨t, ht⟩
        apply Yields.ofResult
        exact Returns.self (fun _ _ => ⟨t, m, hm, Decidable.not_not.1 harity, ht⟩) fun _ _ => trivial

/-! ### The test does not show -/

/-- An operation is emitted alike by two expanders that agree on what it
expands. -/
theorem emit_congr {expand expand' : Expander} {m : Macro} {values : List String}
    {op : Operation} (h : ∀ a inv, action r m values op = .ok a → a.target? = some inv →
      ∀ site pos, expand site inv pos = expand' site inv pos) (pos index : Nat) :
    emit r expand m values pos index op = emit r expand' m values pos index op := by
  rw [emit_eq_perform, emit_eq_perform]
  rcases ha : action r m values op with e | a
  · rfl
  · show perform expand op.source pos index a = perform expand' op.source pos index a
    cases a with
    | emit i => rfl
    | inline inv => exact h _ inv ha rfl op.source pos
    | measure inv =>
      show (expand op.source inv pos >>= _) = (expand' op.source inv pos >>= _)
      rw [h _ inv ha rfl op.source pos]

theorem assemble_congr {emit emit' : (pos index : Nat) → Operation → Step Segment}
    {ops : List Operation} (h : ∀ op ∈ ops, ∀ pos index, emit pos index op = emit' pos index op)
    (pos index : Nat) : assemble limits emit pos index ops = assemble limits emit' pos index ops := by
  induction ops generalizing pos index with
  | nil => rfl
  | cons op ops ih =>
    have hops : ∀ op' ∈ ops, ∀ pos index, emit pos index op' = emit' pos index op' :=
      fun op' hop' => h op' (List.mem_cons_of_mem _ hop')
    rw [assemble, assemble, h op List.mem_cons_self]
    congr 1
    funext s
    simp only [ih hops]

/-- An invocation with a tree is expanded alike with the test and without it,
inside expansions that led to it. -/
theorem expandAt_eq_unguardedAt {room : Nat} {active : List Invocation} {site? : Option Nat}
    {inv : Invocation} {pos : Nat} {t : ExpansionTree} (ht : Expands r inv t)
    (hactive : ∀ a ∈ active, TransGen (Invokes r) a inv) :
    expandAt r limits room active site? inv pos = unguardedAt r limits room site? inv pos := by
  induction room generalizing active site? inv pos t with
  | zero =>
    have hfresh : inv ∉ active := fun ha => ht.not_leadsBack (hactive inv ha)
    rw [expandAt, unguardedAt]
    rcases r.getMacro? inv.name with - | m
    · rfl
    · simp only [if_neg hfresh]
  | succ room ih =>
    have hfresh : inv ∉ active := fun ha => ht.not_leadsBack (hactive inv ha)
    obtain ⟨m, hm, -, -⟩ := id ht
    rw [expandAt_succ hm hfresh, unguardedAt_succ hm]
    -- below, the invocation itself is among those that led there
    have hinner : ∀ op ∈ m.ops, ∀ pos index,
        emit r (fun site => expandAt r limits room (inv :: active) (some site)) m inv.args
            pos index op =
          emit r (fun site => unguardedAt r limits room (some site)) m inv.args pos index op := by
      intro op hop
      apply emit_congr
      intro a inv' ha hinv' site pos
      have hinvokes : Invokes r inv inv' := ⟨m, op, a, hm, hop, ha, hinv'⟩
      obtain ⟨u, hu, -⟩ := ht.inner hinvokes
      apply ih hu
      intro b hb
      obtain rfl | hb := List.mem_cons.1 hb
      · exact .single hinvokes
      · exact (hactive b hb).tail hinvokes
    rw [assemble_congr hinner]

theorem expands_of_run_unguarded {inv : Invocation} {start earlier : Nat} {s : Segment}
    (h : (run (unguarded r limits inv start) earlier).1 = .ok s) : ∃ t, Expands r inv t :=
  (unguardedAt_yields r limits limits.depth none inv start).of_run h

theorem expand_eq_unguarded {inv : Invocation} {t : ExpansionTree} (ht : Expands r inv t)
    (start : Nat) : expand r limits inv start = unguarded r limits inv start :=
  expandAt_eq_unguardedAt ht fun _ ha => absurd ha List.not_mem_nil

/-! ### Refused cycles -/

/-- A call leads to the calls inside it through invocations. -/
theorem Call.leadsTo_of_makes {c d : Call} (h : ReflTransGen (Call.Makes r limits) c d) :
    ReflTransGen (Invokes r) c.inv d.inv :=
  h.lift Call.inv fun _ _ hmakes => hmakes.invokes

theorem Call.Loop.leadsBack {c : Call} {loop : List Call} (h : Call.Loop r limits c loop) :
    ∃ inv, ReflTransGen (Invokes r) c.inv inv ∧ TransGen (Invokes r) inv inv := by
  obtain ⟨hreach, hchain, hlength, hclosed⟩ := h
  match loop, hlength with
  | d :: e :: rest, _ =>
    obtain ⟨hde, hrest⟩ := List.isChain_cons_cons.1 hchain
    refine ⟨d.inv, leadsTo_of_makes (hreach d List.mem_cons_self), ?_⟩
    -- from the second call on, the chain leads to the last one
    have hlast : d.inv = ((e :: rest).getLast (List.cons_ne_nil _ _)).inv := by
      simpa [List.getLast?_eq_some_getLast] using hclosed
    apply TransGen.head' hde.invokes
    rw [hlast]
    exact leadsTo_of_makes (List.relationReflTransGen_of_exists_isChain_cons rest hrest rfl)

/-- The chain of a refused cycle is that of a loop of calls. -/
theorem exists_loop_of_cycle {inv : Invocation} {start earlier n : Nat} {chain : List String}
    (h : run (expand r limits inv start) earlier = (.error (.cycle chain), n)) :
    ∃ loop, Call.Loop r limits (.outermost limits inv start earlier) loop ∧
      chain = loop.map fun c => c.inv.name := by
  have hrefusal : (CompileError.cycle (σ := Nat) chain).IsRefusal := trivial
  obtain ⟨d, hreach, href⟩ :=
    Call.exists_refused (c := .outermost limits inv start earlier) hrefusal h
  cases href with
  | cycle _ hd => exact Call.exists_loop rfl hreach hd

/-- An invocation that has a tree is never refused as a cycle. -/
theorem not_cycle_of_expands {inv : Invocation} {t : ExpansionTree} (ht : Expands r inv t)
    {start earlier n : Nat} {chain : List String} :
    run (expand r limits inv start) earlier ≠ (.error (.cycle chain), n) := by
  intro h
  obtain ⟨loop, hloop, -⟩ := exists_loop_of_cycle h
  obtain ⟨inv', hto, hback⟩ := hloop.leadsBack
  obtain rfl | hto := reflTransGen_iff_eq_or_transGen.1 hto
  · exact ht.not_leadsBack hback
  · obtain ⟨u, hu, -⟩ := ht.leadsTo hto
    exact hu.not_leadsBack hback

/-- The expander returns what it would return without the test for running
expansions.  When it refuses a cycle, it would return nothing without the test,
whatever its limits; the chain that it reports is a loop of calls, each made
directly by the one before it. -/
theorem expand_eq_unguarded_or_endless (r : Registry) (limits : Limits) (inv : Invocation)
    (start earlier : Nat) :
    (∀ s n, run (unguarded r limits inv start) earlier = (.ok s, n) →
      run (expand r limits inv start) earlier = (.ok s, n)) ∧
    ∀ chain n, run (expand r limits inv start) earlier = (.error (.cycle chain), n) →
      (∀ limits' start' earlier' s,
        (run (unguarded r limits' inv start') earlier').1 ≠ .ok s) ∧
      2 ≤ chain.length ∧ chain.head? = chain.getLast? ∧
      ∃ loop, Call.Loop r limits (.outermost limits inv start earlier) loop ∧
        chain = loop.map fun c => c.inv.name := by
  constructor
  · intro s n h
    obtain ⟨t, ht⟩ := expands_of_run_unguarded (congrArg Prod.fst h)
    rw [expand_eq_unguarded ht]
    exact h
  · intro chain n h
    constructor
    · intro limits' start' earlier' s hs
      obtain ⟨t, ht⟩ := expands_of_run_unguarded hs
      exact not_cycle_of_expands ht h
    · obtain ⟨loop, hloop, rfl⟩ := exists_loop_of_cycle h
      refine ⟨?_, ?_, loop, hloop, rfl⟩
      · rw [List.length_map]
        exact hloop.two_le
      · have hclosed := congrArg (Option.map Invocation.name) hloop.closed
        simpa [Function.comp_def] using hclosed

/-- `A` stands for its argument.  `NESTED` enters `A` inside `A` with another
argument, and `RUNAWAY` hands its own name to `A`. -/
def reentrant : Registry where
  macros := [
    { Macro.ofName "A" with params := ["m"], ops := [⟨.templateRef "m", 1⟩] },
    { Macro.ofName "NESTED" with ops := [⟨.call "A" ["A<0x01>"], 2⟩] },
    { Macro.ofName "RUNAWAY" with ops := [⟨.opcode 0, 3⟩, ⟨.call "A" ["A<RUNAWAY>"], 4⟩] }]

theorem expand_reentrant :
    (∃ s n, run (unguarded reentrant {} ⟨"NESTED", []⟩ 0) 0 = (.ok s, n) ∧
      run (expand reentrant {} ⟨"NESTED", []⟩ 0) 0 = (.ok s, n)) ∧
    ∃ chain n, run (expand reentrant {} ⟨"RUNAWAY", []⟩ 5) 0 = (.error (.cycle chain), n) ∧
      chain = ["RUNAWAY", "A", "A", "RUNAWAY"] ∧
      (∀ limits' start' earlier' s,
        (run (unguarded reentrant limits' ⟨"RUNAWAY", []⟩ start') earlier').1 ≠ .ok s) ∧
      ∃ loop, Call.Loop reentrant {} (.outermost {} ⟨"RUNAWAY", []⟩ 5 0) loop ∧
        chain = loop.map fun c => c.inv.name := by
  constructor
  · have h : run (unguarded reentrant {} ⟨"NESTED", []⟩ 0) 0 =
        (.ok (.ofPush 1 ⟨[1]⟩), 3) := by
      decide +kernel
    exact ⟨_, _, h, (expand_eq_unguarded_or_endless reentrant {} ⟨"NESTED", []⟩ 0 0).1 _ _ h⟩
  · have h : run (expand reentrant {} ⟨"RUNAWAY", []⟩ 5) 0 =
        (.error (.cycle ["RUNAWAY", "A", "A", "RUNAWAY"]), 3) := by
      decide +kernel
    obtain ⟨hendless, -, -, hloop⟩ :=
      (expand_eq_unguarded_or_endless reentrant {} ⟨"RUNAWAY", []⟩ 5 0).2 _ _ h
    exact ⟨_, _, h, rfl, hendless, hloop⟩

end MacroAssembler.Expansion
