/-
MacroAssembler/Proofs/Calls.lean

The calls that an expansion makes.

The expander calls itself.  A `Call` is what one call is given: how much deeper
macros may nest, the running expansions, the operation that asks, the
invocation, the offset and the count.  `Makes r limits c d` says that `c` makes
the call `d` while it expands its own macro: the tests on entering the macro
were passed, the operations in front of one have been emitted, and that one
expands the invocation of `d`.

An error is raised by one call, and the calls around it hand it on, so an
expansion that fails has made the call that failed by itself (`exists_fails`).
Two errors are refusals to enter a macro, that of a cycle and that of the
nesting, and the call that failed has refused (`exists_refused`).  The running
expansions of a call are those of the calls around it (`exists_callers`); a
refused cycle is therefore a loop of calls, each made by the one before it
(`exists_loop`).
-/
import Mathlib.Data.List.Chain
import MacroAssembler.Proofs.Descent

namespace MacroAssembler

open Relation

/-- An error that a macro is not entered, though it is known. -/
def CompileError.IsRefusal {σ : Type} : CompileError σ → Prop
  | .cycle _ | .recursionLimit _ _ => True
  | _ => False

@[simp] theorem Segment.size_empty : Segment.empty.size = 0 := rfl

@[simp] theorem Segment.size_append (s t : Segment) : (s ++ t).size = s.size + t.size :=
  List.length_append

/-! ### Errors that are not refusals -/

theorem Chunk.not_isRefusal_of_patch {chunk : Chunk} {slot value : Nat} {what : String}
    {e : CompileError Nat} (h : chunk.patch slot value what = .error e) : ¬ e.IsRefusal := by
  unfold Chunk.patch at h
  split at h
  · split at h
    · cases h
    · cases h
      exact id
  · cases h
    exact id

theorem Segment.not_isRefusal_of_fill {start : Nat} {labels : LabelTable} {refs : List Reference}
    {chunk chunk' : Chunk} {e : CompileError Nat}
    (h : fill start labels refs chunk = (chunk', some e)) : ¬ e.IsRefusal := by
  fun_induction fill (σ := Nat) start labels refs chunk with
  | case1 => cases h
  | case2 _ _ _ _ ih => exact ih h
  | case3 _ _ _ _ _ _ hpatch =>
    cases h
    exact Chunk.not_isRefusal_of_patch hpatch
  | case4 _ _ _ _ _ _ _ ih => exact ih h

theorem Segment.not_isRefusal_of_resolve {start : Nat} {s : Segment} {e : CompileError Nat}
    (h : s.resolve start = .error e) : ¬ e.IsRefusal := by
  unfold resolve at h
  dsimp only at h
  split at h
  · cases h
  · split at h
    · rename_i hfill
      cases h
      exact not_isRefusal_of_fill hfill
    · cases h

namespace Expansion

theorem not_isRefusal_of_action {r : Registry} {m : Macro} {values : List String}
    {op : Operation} {e : CompileError Nat} (h : action r m values op = .error e) :
    ¬ e.IsRefusal := by
  have hsite := site?_of_action h
  cases e with
  | cycle | recursionLimit => cases hsite
  | _ => exact id

/-! ### Where an error comes from -/

/-- When operations fail, those in front of one of them were emitted, and that
one failed or made the code too long. -/
theorem assemble_error {limits : Limits} {emit : (pos index : Nat) → Operation → Step Segment}
    {pos index : Nat} {ops : List Operation} {n n' : Nat} {e : CompileError Nat}
    (h : run (assemble limits emit pos index ops) n = (.error e, n')) :
    ∃ before op after s k, ops = before ++ op :: after ∧
      run (assemble limits emit pos index before) n = (.ok s, k) ∧
      (run (emit (pos + s.size) (index + before.length) op) k = (.error e, n') ∨
        ∃ size, e = .outputLimit limits.bytes size) := by
  induction ops generalizing pos index n with
  | nil => cases h
  | cons op ops ih =>
    rw [assemble] at h
    obtain h | ⟨s, k, hs, h⟩ := run_bind_eq_error.1 h
    · exact ⟨[], op, ops, .empty, n, rfl, rfl, .inl h⟩
    · by_cases hlt : limits.bytes < pos + s.size
      · simp only [if_pos hlt, run_throw, Prod.mk.injEq, Except.error.injEq] at h
        exact ⟨[], op, ops, .empty, n, rfl, rfl, .inr ⟨_, h.1.symm⟩⟩
      · simp only [if_neg hlt] at h
        obtain h | ⟨t, k', -, h⟩ := run_bind_eq_error.1 h
        · -- the operation that failed comes later, and this one was emitted
          obtain ⟨before, op', after, t, k', rfl, ht, hop⟩ := ih h
          refine ⟨op :: before, op', after, s ++ t, k', rfl, ?_, ?_⟩
          · rw [assemble, run_bind, hs]
            simp only [if_neg hlt]
            rw [run_bind, ht]
            rfl
          · rw [Segment.size_append, List.length_cons, ← Nat.add_assoc, Nat.add_comm before.length,
              ← Nat.add_assoc]
            exact hop
        · cases h

/-- When an operation fails, its action is unknown or its expansion failed. -/
theorem emit_error {r : Registry} {expand : Expander} {m : Macro} {values : List String}
    {pos index : Nat} {op : Operation} {n n' : Nat} {e : CompileError Nat}
    (h : run (emit r expand m values pos index op) n = (.error e, n')) :
    action r m values op = .error e ∨
      ∃ a inv, action r m values op = .ok a ∧ a.target? = some inv ∧
        run (expand op.source inv pos) n = (.error e, n') := by
  rw [emit_eq_perform] at h
  obtain h | ⟨a, k, ha, h⟩ := run_bind_eq_error.1 h
  · rw [run_ofResult] at h
    exact .inl (Prod.mk.inj h).1
  · rw [run_ofResult] at ha
    obtain ⟨hact, rfl⟩ := Prod.mk.inj ha
    refine .inr ⟨a, ?_⟩
    cases a with
    | emit i => cases h
    | inline inv => exact ⟨inv, hact, rfl, h⟩
    | measure inv =>
      obtain h | ⟨s, k, -, h⟩ := run_bind_eq_error.1 h
      · exact ⟨inv, hact, rfl, h⟩
      · cases h

/-! ### Calls -/

/-- What a call of the expander is given. -/
structure Call where
  /-- How much deeper macros may nest. -/
  room : Nat
  /-- The running expansions, the innermost first. -/
  active : List Invocation
  /-- The operation that asks for the expansion. -/
  site? : Option Nat
  inv : Invocation
  /-- Offset of the expansion. -/
  pos : Nat
  /-- Count of earlier expansions. -/
  earlier : Nat

namespace Call

/-- The call from outside all macros. -/
def outermost (limits : Limits) (inv : Invocation) (pos earlier : Nat) : Call :=
  ⟨limits.depth, [], none, inv, pos, earlier⟩

/-- The outcome of a call. -/
def outcome (r : Registry) (limits : Limits) (c : Call) :
    Except (CompileError Nat) Segment × Nat :=
  run (expandAt r limits c.room c.active c.site? c.inv c.pos) c.earlier

/-- The first call makes the second while it expands its own macro. -/
inductive Makes (r : Registry) (limits : Limits) (c : Call) : Call → Prop
  | intro {room m before op after s n a inv} :
      -- the macro is entered
      r.getMacro? c.inv.name = some m → c.inv ∉ c.active → c.room = room + 1 →
      c.earlier < limits.expansions → c.inv.args.length = m.arity →
      -- the operations in front of `op` are emitted
      m.ops = before ++ op :: after →
      run (assemble limits
        (emit r (fun site => expandAt r limits room (c.inv :: c.active) (some site)) m c.inv.args)
        c.pos 0 before) (c.earlier + 1) = (.ok s, n) →
      -- and `op` expands `inv` where they end
      action r m c.inv.args op = .ok a → a.target? = some inv →
      Makes r limits c ⟨room, c.inv :: c.active, some op.source, inv, c.pos + s.size, n⟩

/-- A call refuses to enter its macro. -/
inductive Refuses (r : Registry) (limits : Limits) (c : Call) : CompileError Nat → Prop
  | cycle : r.hasMacro c.inv.name = true → c.inv ∈ c.active →
      Refuses r limits c (.cycle (cycleChain c.active c.inv))
  | depth : r.hasMacro c.inv.name = true → c.inv ∉ c.active → c.room = 0 →
      Refuses r limits c (.recursionLimit limits.depth c.inv.name)

variable {r : Registry} {limits : Limits} {c d : Call}

theorem Makes.active_eq (h : Makes r limits c d) : d.active = c.inv :: c.active := by
  cases h
  rfl

theorem Makes.room_eq (h : Makes r limits c d) : c.room = d.room + 1 := by
  cases h
  assumption

theorem Makes.known (h : Makes r limits c d) : r.hasMacro c.inv.name = true := by
  cases h with
  | intro hm => rw [Registry.hasMacro, hm, Option.isSome_some]

theorem Makes.invokes (h : Makes r limits c d) : Invokes r c.inv d.inv := by
  cases h with
  | intro hm _ _ _ _ hops _ ha hinv => exact ⟨_, _, _, hm, by simp [hops], ha, hinv⟩

/-- A call fails itself, and not by a call that it makes. -/
inductive Fails (r : Registry) (limits : Limits) (c : Call) : CompileError Nat → Prop
  | refuses {e} : c.Refuses r limits e → Fails r limits c e
  | unknown : Fails r limits c (.unknownMacro c.inv.name c.site?)
  | expansions : Fails r limits c (.expansionLimit limits.expansions)
  | arity {expected} :
      Fails r limits c (.arityMismatch c.inv.name expected c.inv.args.length c.site?)
  | action {m op e} : action r m c.inv.args op = .error e → Fails r limits c e
  | output {size} : Fails r limits c (.outputLimit limits.bytes size)
  /-- The operations are all emitted, and a reference among them cannot be filled. -/
  | resolve {room m s n e} : r.getMacro? c.inv.name = some m → c.inv.args.length = m.arity →
      run (assemble limits
        (emit r (fun site => expandAt r limits room (c.inv :: c.active) (some site)) m c.inv.args)
        c.pos 0 m.ops) (c.earlier + 1) = (.ok s, n) →
      s.resolve c.pos = .error e → Fails r limits c e

theorem Fails.refuses_of_isRefusal {e : CompileError Nat} (h : c.Fails r limits e)
    (he : e.IsRefusal) : c.Refuses r limits e := by
  cases h with
  | refuses h => exact h
  | unknown | expansions | arity | output => cases he
  | action ha => exact absurd he (not_isRefusal_of_action ha)
  | resolve _ _ _ h => exact absurd he (Segment.not_isRefusal_of_resolve h)

/-- A call that fails does so itself, or makes a call that fails alike. -/
theorem fails_or_makes {e : CompileError Nat} {n : Nat}
    (h : c.outcome r limits = (.error e, n)) :
    c.Fails r limits e ∨ ∃ d, Makes r limits c d ∧ d.outcome r limits = (.error e, n) := by
  obtain ⟨room, active, site?, inv, pos, earlier⟩ := c
  rw [outcome] at h
  rcases hm : r.getMacro? inv.name with - | m
  · rw [expandAt, hm] at h
    cases h
    exact .inl .unknown
  have hknown : r.hasMacro inv.name = true := by rw [Registry.hasMacro, hm, Option.isSome_some]
  by_cases ha : inv ∈ active
  · rw [expandAt, hm] at h
    simp only [if_pos ha] at h
    cases h
    exact .inl (.refuses (.cycle hknown ha))
  cases room with
  | zero =>
    rw [expandAt, hm] at h
    simp only [if_neg ha] at h
    cases h
    exact .inl (.refuses (.depth hknown ha rfl))
  | succ room =>
    rw [expandAt_succ hm ha, run_bind, run_count] at h
    by_cases hcount : limits.expansions < earlier + 1
    · rw [if_pos hcount] at h
      cases h
      exact .inl .expansions
    rw [if_neg hcount] at h
    by_cases harity : inv.args.length ≠ m.arity
    · simp only [if_pos harity] at h
      cases h
      exact .inl .arity
    simp only [if_neg harity] at h
    have harity := Decidable.not_not.1 harity
    obtain h | ⟨s, k, hs, h⟩ := run_bind_eq_error.1 h
    · obtain ⟨before, op, after, s, k, hops, hbefore, hop | ⟨size, rfl⟩⟩ := assemble_error h
      · obtain hact | ⟨a, inv', hact, hinv', h⟩ := emit_error hop
        · exact .inl (.action hact)
        · -- the error comes from the expansion of `inv'`
          have hmakes := Makes.intro (c := ⟨room + 1, active, site?, inv, pos, earlier⟩) hm ha rfl
            (Nat.lt_of_succ_le (Nat.le_of_not_lt hcount)) harity hops hbefore hact hinv'
          exact .inr ⟨_, hmakes, h⟩
      · exact .inl .output
    · rw [run_ofResult] at h
      exact .inl (.resolve hm harity hs (Prod.mk.inj h).1)

/-- An error that comes out of an expansion is that of a call that was made in
it. -/
theorem exists_fails {e : CompileError Nat} {n : Nat} (h : c.outcome r limits = (.error e, n)) :
    ∃ d, ReflTransGen (Makes r limits) c d ∧ d.Fails r limits e := by
  induction hroom : c.room generalizing c with
  | zero =>
    obtain hc | ⟨d, hmakes, -⟩ := fails_or_makes h
    · exact ⟨c, .refl, hc⟩
    · cases hroom.symm.trans hmakes.room_eq
  | succ room ih =>
    obtain hc | ⟨d, hmakes, hd⟩ := fails_or_makes h
    · exact ⟨c, .refl, hc⟩
    · obtain ⟨d', hreach, hfails⟩ := ih hd (Nat.succ.inj (hmakes.room_eq.symm.trans hroom))
      exact ⟨d', .head hmakes hreach, hfails⟩

/-- A refusal that comes out of an expansion is the answer of a call that was
made in it. -/
theorem exists_refused {e : CompileError Nat} (he : e.IsRefusal) {n : Nat}
    (h : c.outcome r limits = (.error e, n)) :
    ∃ d, ReflTransGen (Makes r limits) c d ∧ d.Refuses r limits e := by
  obtain ⟨d, hreach, hfails⟩ := exists_fails h
  exact ⟨d, hreach, hfails.refuses_of_isRefusal he⟩

/-! ### The calls around a call -/

/-- The running expansions of a call are those of the calls around it, each of
which made the one inside it. -/
theorem exists_callers (hc : c.active = []) (h : ReflTransGen (Makes r limits) c d) :
    ∃ callers, d.active = callers.map Call.inv ∧ d.room + callers.length = c.room ∧
      (d :: callers).IsChain (fun x y => Makes r limits y x) ∧
      ∀ x ∈ callers, ReflTransGen (Makes r limits) c x := by
  induction h with
  | refl => exact ⟨[], hc, rfl, .singleton _, by simp⟩
  | @tail b d hb hmakes ih =>
    obtain ⟨callers, hactive, hroom, hchain, hreach⟩ := ih
    refine ⟨b :: callers, ?_, ?_, ?_, ?_⟩
    · rw [hmakes.active_eq, hactive, List.map_cons]
    · have := hmakes.room_eq
      simp only [List.length_cons]
      omega
    · exact .cons_cons hmakes hchain
    · intro x hx
      obtain rfl | hx := List.mem_cons.1 hx
      · exact hb
      · exact hreach x hx

/-- What stands in a list before the first occurrence of one of its members. -/
theorem exists_eq_takeWhile_ne {l : List Invocation} {a : Invocation} (h : a ∈ l) :
    ∃ rest, l = l.takeWhile (· != a) ++ a :: rest := by
  induction l with
  | nil => cases h
  | cons b l ih =>
    by_cases hb : b = a
    · subst hb
      exact ⟨l, by simp⟩
    · obtain ⟨rest, hrest⟩ := ih ((List.mem_cons.1 h).resolve_left (Ne.symm hb))
      refine ⟨rest, ?_⟩
      rw [List.takeWhile_cons_of_pos (by simpa using hb), List.cons_append, ← hrest]

/-- Calls inside the call `c`, each made by the one before it, of which the last
asks for what the first is expanding. -/
structure Loop (r : Registry) (limits : Limits) (c : Call) (loop : List Call) : Prop where
  reached : ∀ d ∈ loop, ReflTransGen (Makes r limits) c d
  chain : loop.IsChain (Makes r limits)
  two_le : 2 ≤ loop.length
  closed : loop.head?.map Call.inv = loop.getLast?.map Call.inv

/-- The chain of names of a refused cycle is that of a loop of calls. -/
theorem exists_loop (hc : c.active = []) (h : ReflTransGen (Makes r limits) c d)
    (hd : d.inv ∈ d.active) :
    ∃ loop, Loop r limits c loop ∧
      cycleChain d.active d.inv = loop.map fun x => x.inv.name := by
  obtain ⟨callers, hactive, -, hchain, hreach⟩ := exists_callers hc h
  -- the nearest caller that expands the same invocation begins the loop
  obtain ⟨rest, hrest⟩ := exists_eq_takeWhile_ne hd
  rw [hactive] at hrest
  obtain ⟨inner, outer, rfl, hinner, houter⟩ := List.map_eq_append_iff.1 hrest
  obtain ⟨x, outer, rfl, hx, -⟩ := List.map_eq_cons_iff.1 houter
  refine ⟨(d :: (inner ++ [x])).reverse, ⟨?_, ?_, ?_, ?_⟩, ?_⟩
  · intro y hy
    rw [List.mem_reverse, List.mem_cons] at hy
    obtain rfl | hy := hy
    · exact h
    · apply hreach
      simp only [List.mem_append, List.mem_cons, List.not_mem_nil, or_false] at hy ⊢
      tauto
  · rw [List.isChain_reverse]
    have hsplit : d :: (inner ++ x :: outer) = (d :: (inner ++ [x])) ++ outer := by simp
    rw [hsplit] at hchain
    exact hchain.left_of_append
  · simp
  · simp [hx, List.getLast?_cons]
  · rw [cycleChain, hactive, ← hinner]
    simp [hx, Function.comp_def]

end Call

end Expansion

end MacroAssembler
