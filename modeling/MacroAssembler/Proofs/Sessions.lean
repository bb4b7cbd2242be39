/-
MacroAssembler/Proofs/Sessions.lean

One expander for many requests.

An expander outlives the requests it is asked.  Between them it keeps the chain
of running expansions, the parameters of the macros whose calls have handed
arguments on, and the count of expansions.  `Session` is this state, and
`Session.expand` the expander that works on it: an expansion is put on the chain
before its operations are assembled and is taken off again however that ends.
The session has a log besides, of every call of the expander and of every change
of the chain.

`Follows active x y` compares a job `x` of a session, whose chain is `active`,
with a step `y` that is given all it needs.  They have the same outcome and the
same count, and the job leaves the chain as it was.  Its rules follow the monad,
so `expandIn_follows` goes along the text of the expander.  What is left of earlier
requests is then the count alone, and a later count changes nothing either
until it meets its limit (`Expansion.Shifts`).

Main result: `Session.expand_serve`.
-/
import Mathlib.Data.List.Induction
import MacroAssembler.Proofs.LaterCounts

namespace MacroAssembler

/-! ### Sessions -/

/-- Something that happens in a session. -/
inductive Event where
  /-- The expander is called for `inv` while `active` are running. -/
  | asked (active : List Invocation) (inv : Invocation)
  /-- The running expansions have become `active`. -/
  | changed (active : List Invocation)
  deriving Repr, DecidableEq

namespace Event

/-- The running expansions at an event. -/
def active : Event → List Invocation
  | asked active _ => active
  | changed active => active

/-- The expander is called for a macro that it knows, and neither the test for a
cycle nor that for the depth stops it. -/
def admitted (r : Registry) (limits : Limits) : Event → Bool
  | asked active inv =>
    r.hasMacro inv.name && decide (inv ∉ active) && decide (active.length < limits.depth)
  | changed _ => false

end Event

/-- What an expander keeps. -/
structure Session where
  /-- The running expansions, the innermost first. -/
  active : List Invocation
  /-- The parameters of macros that have handed arguments on. -/
  patterns : List (String × List String)
  /-- Expansions so far. -/
  count : Nat
  /-- All that has happened. -/
  log : List Event
  deriving Repr, DecidableEq

namespace Session

open Expansion (action cycleChain callArgs)

/-- A piece of work in a session. -/
abbrev Job := ExceptT (CompileError Nat) (StateM Session)

variable {α β : Type}

/-- Do a job: its outcome, and the session after it. -/
def run (x : Job α) (s : Session) : Except (CompileError Nat) α × Session :=
  StateT.run (ExceptT.run x) s

/-- Make an entry in the log. -/
def note (e : Event) : Job Unit := modify fun s => { s with log := s.log ++ [e] }

/-- Change the running expansions. -/
def setActive (active : List Invocation) : Job Unit :=
  modify fun s => { s with active, log := s.log ++ [.changed active] }

/-- Do a job as part of the expansion of `inv`.  The expansion ends when the job
does, also when that fails. -/
def inside (inv : Invocation) (x : Job α) : Job α := do
  setActive (inv :: (← get).active)
  let result ← ExceptT.lift (ExceptT.run x)
  setActive (← get).active.tail
  MonadExcept.ofExcept result

/-- Count one more expansion. -/
def countUp (limits : Limits) : Job Unit := do
  let n := (← get).count + 1
  modify fun s => { s with count := n }
  if limits.expansions < n then throw (.expansionLimit limits.expansions)

/-- The arguments of an inner call of `m`.  The parameters are looked up, and
stored on first use. -/
def handOn (m : Macro) (values args : List String) : Job (List String) := do
  if m.params.isEmpty || args.isEmpty then return args
  else
    match (← get).patterns.lookup m.name with
    | some params => return Template.substituteAll params values args
    | none =>
      modify fun s => { s with patterns := (m.name, m.params) :: s.patterns }
      return Template.substituteAll m.params values args

/-- `Expansion.action`, in a session. -/
def actionIn (r : Registry) (m : Macro) (values : List String) (op : Operation) : Job Action :=
  match op.kind with
  | .call name args => do return .inline ⟨name, ← handOn m values args⟩
  | .codeSize name args => do return .measure ⟨name, ← handOn m values args⟩
  | _ => MonadExcept.ofExcept (action r m values op)

/-- `Expansion.perform`, in a session. -/
def performIn (expand : (site : Nat) → Invocation → (pos : Nat) → Job Segment)
    (source pos index : Nat) : Action → Job Segment
  | .emit i => pure (i.segment source pos index)
  | .inline inv => expand source inv pos
  | .measure inv => do
    let measured ← expand source inv pos
    return .ofPush source (.ofSize measured.size)

/-- `Expansion.emit`, in a session. -/
def emitIn (r : Registry) (expand : (site : Nat) → Invocation → (pos : Nat) → Job Segment)
    (m : Macro) (values : List String) (pos index : Nat) (op : Operation) : Job Segment := do
  performIn expand op.source pos index (← actionIn r m values op)

/-- `Expansion.assemble`, in a session. -/
def assembleIn (limits : Limits) (emit : (pos index : Nat) → Operation → Job Segment) :
    (pos index : Nat) → List Operation → Job Segment
  | _, _, [] => pure .empty
  | pos, index, op :: ops => do
    let s ← emit pos index op
    let next := pos + s.size
    if limits.bytes < next then throw (.outputLimit limits.bytes next)
    else
      let t ← assembleIn limits emit next (index + 1) ops
      return s ++ t

/-- `Expansion.expandAt`, in a session: what is running is read off the session,
and how deep macros are nested is the length of the chain.  The recursion is on
`fuel`, which lasts as long as the test for the depth is passed. -/
def expandIn (r : Registry) (limits : Limits) :
    (fuel : Nat) → (site? : Option Nat) → Invocation → (pos : Nat) → Job Segment
  | fuel, site?, inv, pos => do
    let active := (← get).active
    note (.asked active inv)
    match r.getMacro? inv.name with
    | none => throw (.unknownMacro inv.name site?)
    | some m =>
      if inv ∈ active then throw (.cycle (cycleChain active inv))
      else if limits.depth ≤ active.length then throw (.recursionLimit limits.depth inv.name)
      else
        match fuel with
        | 0 => throw (.recursionLimit limits.depth inv.name)
        | fuel + 1 => do
          countUp limits
          if inv.args.length ≠ m.arity then
            throw (.arityMismatch inv.name m.arity inv.args.length site?)
          else
            inside inv do
              let s ← assembleIn limits
                (emitIn r (fun site => expandIn r limits fuel (some site)) m inv.args) pos 0 m.ops
              MonadExcept.ofExcept (s.resolve pos)

/-- Expand a macro at offset `pos`. -/
def expand (r : Registry) (limits : Limits) (inv : Invocation) (pos : Nat) : Job Segment :=
  expandIn r limits limits.depth none inv pos

/-- A session in which nothing has happened yet, with a count to start from. -/
def fresh (count : Nat) : Session := ⟨[], [], count, []⟩

/-- The session after a request to expand a macro at an offset. -/
def answer (r : Registry) (limits : Limits) (s : Session) (request : Invocation × Nat) : Session :=
  (run (expand r limits request.1 request.2) s).2

/-- The session after requests, one after the other. -/
def serve (r : Registry) (limits : Limits) (requests : List (Invocation × Nat)) : Session :=
  requests.foldl (answer r limits) (fresh 0)

/-! ### Running jobs -/

theorem run_bind (x : Job α) (f : α → Job β) (s : Session) :
    run (x >>= f) s =
      match run x s with
      | (.ok a, s') => run (f a) s'
      | (.error e, s') => (.error e, s') := by
  show StateT.run (ExceptT.run (x >>= f)) s = _
  simp only [ExceptT.run_bind, StateT.run_bind, run]
  rcases h : StateT.run (ExceptT.run x) s with ⟨(e | a), s'⟩ <;> rfl

theorem run_ofExcept (v : Except (CompileError Nat) α) (s : Session) :
    run (MonadExcept.ofExcept v) s = (v, s) := by
  cases v <;> rfl

theorem run_get_bind (f : Session → Job α) (s : Session) : run (get >>= f) s = run (f s) s := rfl

theorem run_modify_bind (g : Session → Session) (f : PUnit → Job α) (s : Session) :
    run (modify g >>= f) s = run (f ⟨⟩) (g s) := rfl

theorem run_countUp (limits : Limits) (s : Session) :
    run (countUp limits) s =
      ((Expansion.run (Expansion.count limits) s.count).1, { s with count := s.count + 1 }) := by
  rw [Expansion.run_count]
  show run (if limits.expansions < s.count + 1 then throw (.expansionLimit limits.expansions)
    else pure ()) _ = _
  split <;> rfl

theorem run_inside (inv : Invocation) (x : Job α) (s : Session) :
    run (inside inv x) s =
      let chain := inv :: s.active
      let out := run x { s with active := chain, log := s.log ++ [.changed chain] }
      (out.1, { out.2 with
        active := out.2.active.tail, log := out.2.log ++ [.changed out.2.active.tail] }) := by
  show run (MonadExcept.ofExcept _) _ = _
  rw [run_ofExcept]
  rfl

/-! ### What a session keeps -/

/-- A chain of running expansions. -/
structure WellNested (r : Registry) (limits : Limits) (active : List Invocation) : Prop where
  length_le : active.length ≤ limits.depth
  nodup : active.Nodup
  arity : ∀ inv ∈ active, ∃ m, r.getMacro? inv.name = some m ∧ inv.args.length = m.arity

theorem WellNested.nil (r : Registry) (limits : Limits) : WellNested r limits [] :=
  ⟨Nat.zero_le _, List.nodup_nil, by simp⟩

/-- An expansion that passes the tests may join the chain. -/
theorem WellNested.cons {r : Registry} {limits : Limits} {active : List Invocation}
    {inv : Invocation} {m : Macro} (h : WellNested r limits active)
    (hm : r.getMacro? inv.name = some m) (ha : inv ∉ active) (hroom : active.length < limits.depth)
    (harity : inv.args.length = m.arity) : WellNested r limits (inv :: active) where
  length_le := hroom
  nodup := List.nodup_cons.2 ⟨ha, h.nodup⟩
  arity := List.forall_mem_cons.2 ⟨⟨m, hm, harity⟩, h.arity⟩

/-- The parameters in store are those of the registered macros. -/
def Stored (r : Registry) (patterns : List (String × List String)) : Prop :=
  ∀ entry ∈ patterns, ∃ m, r.getMacro? entry.1 = some m ∧ entry.2 = m.params

/-- `s'` is `s` after more events, all with good chains, and the count has gone
up with those that are admitted. -/
def Extends (r : Registry) (limits : Limits) (s s' : Session) : Prop :=
  ∃ events, s'.log = s.log ++ events ∧ (∀ e ∈ events, WellNested r limits e.active) ∧
    s'.count = s.count + events.countP (Event.admitted r limits)

namespace Extends

variable {r : Registry} {limits : Limits} {s s' s'' : Session}

theorem of_eq (hlog : s'.log = s.log) (hcount : s'.count = s.count) : Extends r limits s s' :=
  ⟨[], by rw [hlog, List.append_nil], by simp, hcount⟩

theorem of_event (e : Event) (he : WellNested r limits e.active) (hlog : s'.log = s.log ++ [e])
    (hcount : s'.count = s.count + if e.admitted r limits then 1 else 0) :
    Extends r limits s s' :=
  ⟨[e], hlog, by simpa using he, by rw [hcount, List.countP_singleton]⟩

theorem trans (h : Extends r limits s s') (h' : Extends r limits s' s'') :
    Extends r limits s s'' := by
  obtain ⟨events, hlog, hnested, hcount⟩ := h
  obtain ⟨events', hlog', hnested', hcount'⟩ := h'
  refine ⟨events ++ events', ?_, ?_, ?_⟩
  · rw [hlog', hlog, List.append_assoc]
  · exact List.forall_mem_append.2 ⟨hnested, hnested'⟩
  · rw [hcount', hcount, List.countP_append, Nat.add_assoc]

end Extends

/-! ### Jobs and steps -/

/-- A job, done in `s`, has come out as a step does that is run from the count. -/
structure Agrees (r : Registry) (limits : Limits) (s : Session)
    (out : Except (CompileError Nat) α × Session) (plain : Except (CompileError Nat) α × Nat) :
    Prop where
  result : out.1 = plain.1
  count : out.2.count = plain.2
  active : out.2.active = s.active
  stored : Stored r out.2.patterns
  history : Extends r limits s out.2

/-- In every session with the chain `active`, the job comes out as the step. -/
def Follows (r : Registry) (limits : Limits) (active : List Invocation) (x : Job α)
    (y : Expansion.Step α) : Prop :=
  ∀ s, s.active = active → Stored r s.patterns →
    Agrees r limits s (run x s) (Expansion.run y s.count)

variable {r : Registry} {limits : Limits} {active : List Invocation}

namespace Follows

theorem ofExcept (v : Except (CompileError Nat) α) :
    Follows r limits active (MonadExcept.ofExcept v) (Expansion.ofResult v) := by
  intro s hactive hstored
  rw [run_ofExcept, Expansion.run_ofResult]
  exact ⟨rfl, rfl, rfl, hstored, .of_eq rfl rfl⟩

theorem pure (a : α) : Follows r limits active (pure a) (pure a) := ofExcept (.ok a)

theorem throw (e : CompileError Nat) :
    Follows (α := α) r limits active (throw e) (throw e) := ofExcept (.error e)

theorem bind {x : Job α} {y : Expansion.Step α} {f : α → Job β} {g : α → Expansion.Step β}
    (hx : Follows r limits active x y) (hf : ∀ a, Follows r limits active (f a) (g a)) :
    Follows r limits active (x >>= f) (y >>= g) := by
  intro s hactive hstored
  have h := hx s hactive hstored
  rw [run_bind, Expansion.run_bind]
  rcases hrun : run x s with ⟨v, s'⟩
  rcases hplain : Expansion.run y s.count with ⟨w, n⟩
  rw [hrun, hplain] at h
  obtain ⟨rfl, rfl, hactive', hstored', hext⟩ := h
  cases v with
  | error e => exact ⟨rfl, rfl, hactive', hstored', hext⟩
  | ok a =>
    obtain ⟨hresult, hcount, hactive'', hstored'', hext'⟩ :=
      hf a s' (hactive'.trans hactive) hstored'
    exact ⟨hresult, hcount, hactive''.trans hactive', hstored'', hext.trans hext'⟩

/-- A job that looks at the session sees the chain and what is in store. -/
theorem get {f : Session → Job α} {y : Expansion.Step α}
    (h : ∀ s, s.active = active → Stored r s.patterns → Follows r limits active (f s) y) :
    Follows r limits active (get >>= f) y := by
  intro s hactive hstored
  rw [run_get_bind]
  exact h s hactive hstored s hactive hstored

/-- A call that is not admitted is not counted. -/
theorem note_throw (e : Event) (he : WellNested r limits e.active)
    (hadmitted : e.admitted r limits = false) (err : CompileError Nat) :
    Follows (α := α) r limits active (note e >>= fun _ => MonadExcept.throw err)
      (MonadExcept.throw err) := by
  intro s hactive hstored
  refine ⟨rfl, rfl, rfl, hstored, .of_event e he rfl ?_⟩
  rw [hadmitted]
  rfl

/-- A call that is admitted is counted once. -/
theorem note_countUp (e : Event) (he : WellNested r limits e.active)
    (hadmitted : e.admitted r limits = true) :
    Follows r limits active (note e >>= fun _ => countUp limits) (Expansion.count limits) := by
  intro s hactive hstored
  rw [note, run_modify_bind, run_countUp]
  refine ⟨rfl, ?_, rfl, hstored, .of_event e he rfl ?_⟩
  · rw [Expansion.run_count]
    split <;> rfl
  · rw [hadmitted]
    rfl

/-- An expansion joins the chain and leaves it, and the chain is as before. -/
theorem inside {inv : Invocation} {x : Job α} {y : Expansion.Step α}
    (houter : WellNested r limits active) (hinner : WellNested r limits (inv :: active))
    (hx : Follows r limits (inv :: active) x y) :
    Follows r limits active (inside inv x) y := by
  intro s hactive hstored
  subst hactive
  rw [run_inside]
  obtain ⟨hresult, hcount, hchain, hstored', hext⟩ :=
    hx { s with active := inv :: s.active, log := s.log ++ [.changed (inv :: s.active)] } rfl hstored
  dsimp only
  rw [hchain]
  refine ⟨hresult, hcount, rfl, hstored', ?_⟩
  have hjoin : Extends r limits s
      { s with active := inv :: s.active, log := s.log ++ [.changed (inv :: s.active)] } :=
    .of_event (.changed (inv :: s.active)) hinner rfl rfl
  exact (hjoin.trans hext).trans (.of_event (.changed s.active) houter rfl rfl)

end Follows

/-- What is in store does not change the arguments of inner calls. -/
theorem handOn_follows {m : Macro} (hm : r.getMacro? m.name = some m) (values args : List String) :
    Follows r limits active (handOn m values args) (pure (callArgs m values args)) := by
  intro s hactive hstored
  rw [handOn, callArgs]
  by_cases hnone : (m.params.isEmpty || args.isEmpty) = true
  · rw [if_pos hnone, if_pos hnone]
    exact Follows.pure _ s hactive hstored
  rw [if_neg hnone, if_neg hnone, run_get_bind]
  rcases hlookup : s.patterns.lookup m.name with - | params
  · -- stored now, for `m`
    refine ⟨rfl, rfl, rfl, ?_, .of_eq rfl rfl⟩
    exact List.forall_mem_cons.2 ⟨⟨m, hm, rfl⟩, hstored⟩
  · -- stored before, for a macro of this name
    obtain ⟨front, back, hpatterns, -⟩ := List.lookup_eq_some_iff.1 hlookup
    obtain ⟨m', hm', hparams⟩ := hstored (m.name, params) (by simp [hpatterns])
    obtain rfl : m = m' := Option.some.inj (hm.symm.trans hm')
    obtain rfl : params = m.params := hparams
    exact Follows.pure _ s hactive hstored

theorem actionIn_follows {m : Macro} (hm : r.getMacro? m.name = some m) (values : List String)
    (op : Operation) :
    Follows r limits active (actionIn r m values op)
      (Expansion.ofResult (action r m values op)) := by
  obtain ⟨kind, source⟩ := op
  cases kind with
  | call name args => exact (handOn_follows hm values args).bind fun _ => .pure _
  | codeSize name args => exact (handOn_follows hm values args).bind fun _ => .pure _
  | _ =>
    simp only [actionIn]
    exact .ofExcept _

theorem emitIn_follows {expand : (site : Nat) → Invocation → (pos : Nat) → Job Segment}
    {expand' : Expansion.Expander}
    (hexp : ∀ site inv pos, Follows r limits active (expand site inv pos) (expand' site inv pos))
    {m : Macro} (hm : r.getMacro? m.name = some m) (values : List String) (pos index : Nat)
    (op : Operation) :
    Follows r limits active (emitIn r expand m values pos index op)
      (Expansion.emit r expand' m values pos index op) := by
  rw [Expansion.emit_eq_perform, emitIn]
  apply (actionIn_follows hm values op).bind
  intro a
  cases a with
  | emit i => exact .pure _
  | inline inv => exact hexp op.source inv pos
  | measure inv => exact (hexp op.source inv pos).bind fun s => .pure _

theorem assembleIn_follows {emit : (pos index : Nat) → Operation → Job Segment}
    {emit' : (pos index : Nat) → Operation → Expansion.Step Segment}
    (hemit : ∀ pos index op, Follows r limits active (emit pos index op) (emit' pos index op))
    (pos index : Nat) (ops : List Operation) :
    Follows r limits active (assembleIn limits emit pos index ops)
      (Expansion.assemble limits emit' pos index ops) := by
  induction ops generalizing pos index with
  | nil => exact .pure _
  | cons op ops ih =>
    rw [assembleIn, Expansion.assemble]
    apply (hemit pos index op).bind
    intro s
    by_cases hlt : limits.bytes < pos + s.size
    · simp only [if_pos hlt]
      exact .throw _
    · simp only [if_neg hlt]
      exact (ih _ _).bind fun t => .pure _

/-- In a session, a macro is expanded as it is when the chain is handed on from
call to call. -/
theorem expandIn_follows {fuel : Nat} (hnested : WellNested r limits active)
    (hfuel : active.length + fuel = limits.depth) (site? : Option Nat) (inv : Invocation)
    (pos : Nat) :
    Follows r limits active (expandIn r limits fuel site? inv pos)
      (Expansion.expandAt r limits fuel active site? inv pos) := by
  -- on the fuel, which is the room that the chain leaves
  induction fuel generalizing active site? inv pos with
  | zero =>
    rw [expandIn, Expansion.expandAt]
    apply Follows.get
    intro s hactive hstored
    rw [hactive]
    rcases hm : r.getMacro? inv.name with - | m
    · exact .note_throw (.asked active inv) hnested (by simp [Event.admitted, Registry.hasMacro, hm]) _
    by_cases ha : inv ∈ active
    · simp only [if_pos ha]
      exact .note_throw (.asked active inv) hnested (by simp [Event.admitted, ha]) _
    have hfull : limits.depth ≤ active.length := Nat.le_of_eq hfuel.symm
    simp only [if_neg ha, if_pos hfull]
    exact .note_throw (.asked active inv) hnested (by simp [Event.admitted, hfull]) _
  | succ fuel ih =>
    rcases hm : r.getMacro? inv.name with - | m
    · rw [expandIn, Expansion.expandAt, hm]
      apply Follows.get
      intro s hactive hstored
      rw [hactive]
      exact .note_throw (.asked active inv) hnested (by simp [Event.admitted, Registry.hasMacro, hm]) _
    by_cases ha : inv ∈ active
    · rw [expandIn, Expansion.expandAt, hm]
      apply Follows.get
      intro s hactive hstored
      rw [hactive]
      simp only [if_pos ha]
      exact .note_throw (.asked active inv) hnested (by simp [Event.admitted, ha]) _
    have hroom : active.length < limits.depth := by omega
    rw [Expansion.expandAt_succ hm ha, expandIn, hm]
    apply Follows.get
    intro s hactive hstored
    rw [hactive]
    simp only [if_neg ha, if_neg (Nat.not_le.2 hroom)]
    rw [← bind_assoc]
    have hadmitted : Event.admitted r limits (.asked active inv) = true := by
      simp [Event.admitted, Registry.hasMacro, hm, ha, hroom]
    apply (Follows.note_countUp (.asked active inv) hnested hadmitted).bind
    intro _
    by_cases harity : inv.args.length ≠ m.arity
    · rw [if_pos harity, if_pos harity]
      exact .throw _
    rw [if_neg harity, if_neg harity]
    have hinner := hnested.cons hm ha hroom (Decidable.not_not.1 harity)
    apply Follows.inside hnested hinner
    have hfound : r.getMacro? m.name = some m := by rwa [Registry.name_of_getMacro? hm]
    apply (assembleIn_follows (emitIn_follows ?_ hfound inv.args) pos 0 m.ops).bind
    · exact fun s => .ofExcept _
    · exact fun site => ih hinner (by rw [List.length_cons]; omega) (some site)

/-! ### Requests -/

/-- From outside all macros. -/
theorem expand_follows (r : Registry) (limits : Limits) (inv : Invocation) (pos : Nat) :
    Follows r limits [] (expand r limits inv pos) (Expansion.expand r limits inv pos) :=
  expandIn_follows (.nil r limits) (Nat.zero_add _) none inv pos

/-- Nothing is running, and what is in store is right. -/
structure Idle (r : Registry) (s : Session) : Prop where
  active : s.active = []
  stored : Stored r s.patterns

theorem idle_fresh (r : Registry) (count : Nat) : Idle r (fresh count) :=
  ⟨rfl, by simp [Stored, fresh]⟩

theorem Idle.answer {s : Session} (h : Idle r s) (request : Invocation × Nat) :
    Idle r (answer r limits s request) := by
  have hagrees := expand_follows r limits request.1 request.2 s h.active h.stored
  exact ⟨hagrees.active.trans h.active, hagrees.stored⟩

/-- The next request finds the session that those before it have left. -/
theorem serve_concat (r : Registry) (limits : Limits) (requests : List (Invocation × Nat))
    (request : Invocation × Nat) :
    serve r limits (requests ++ [request]) =
      answer r limits (serve r limits requests) request := by
  rw [serve, List.foldl_append]
  rfl

theorem idle_serve (r : Registry) (limits : Limits) (requests : List (Invocation × Nat)) :
    Idle r (serve r limits requests) := by
  induction requests using List.reverseRecOn with
  | nil => exact idle_fresh r 0
  | append_singleton requests request ih =>
    rw [serve_concat]
    exact ih.answer request

/-- After any requests, whatever became of them, nothing is running, and the next
one is answered as by a session that has only the count in common.  Against a
session of its own, the limit on the count is all that makes a difference.  At every
event on the way the chain is well nested, and the count goes up with the admitted
calls.  The session that the request leaves is the one that further requests find. -/
theorem expand_serve (r : Registry) (limits : Limits) (requests : List (Invocation × Nat))
    (inv : Invocation) (pos : Nat) :
    let s := serve r limits requests
    let out := run (expand r limits inv pos) s
    let alone := run (expand r limits inv pos) (fresh 0)
    s.active = [] ∧ out.2.active = [] ∧
      out.1 = (run (expand r limits inv pos) (fresh s.count)).1 ∧
      (out.1, out.2.count) = Expansion.run (Expansion.expand r limits inv pos) s.count ∧
      out.1 = (if alone.2.count = 0 ∨ s.count + alone.2.count ≤ limits.expansions then alone.1
        else .error (.expansionLimit limits.expansions)) ∧
      (∃ events, out.2.log = s.log ++ events ∧ (∀ e ∈ events, WellNested r limits e.active) ∧
        out.2.count = s.count + events.countP (Event.admitted r limits)) ∧
      serve r limits (requests ++ [(inv, pos)]) = out.2 := by
  intro s out alone
  have hidle := idle_serve r limits requests
  have hfollows := expand_follows r limits inv pos
  have h := hfollows s hidle.active hidle.stored
  have hfresh := hfollows (fresh s.count) rfl (idle_fresh r s.count).stored
  refine ⟨hidle.active, h.active.trans hidle.active, h.result.trans hfresh.result.symm,
    Prod.ext h.result h.count, ?_, h.history, serve_concat r limits requests (inv, pos)⟩
  -- the count is all that is left of the requests before
  have halone := hfollows (fresh 0) rfl (idle_fresh r 0).stored
  have hshift : Expansion.Delayed limits 0 s.count (Expansion.expand r limits inv pos) :=
    Expansion.expandAt_shifts r limits.depth [] none inv pos 0 s.count
  obtain ⟨-, hsame, hlimit⟩ := hshift
  rw [Nat.zero_add] at hsame hlimit
  have hcount : alone.2.count = (Expansion.run (Expansion.expand r limits inv pos) 0).2 :=
    halone.count
  rw [← hcount] at hsame hlimit
  by_cases hfits : alone.2.count = 0 ∨ s.count + alone.2.count ≤ limits.expansions
  · rw [if_pos hfits, h.result, hsame (by omega)]
    exact halone.result.symm
  · rw [if_neg hfits, h.result]
    exact hlimit (by omega) (by omega)

/-- `OUTER` hands its argument on to `INNER`, which uses it. -/
def relay : Registry where
  macros := [
    { Macro.ofName "INNER" with params := ["y"], ops := [⟨.templateRef "y", 1⟩] },
    { Macro.ofName "OUTER" with params := ["x"], ops := [⟨.call "INNER" ["x"], 2⟩] }]

-- a request that fails two expansions deep leaves the count and the store behind
example : (serve relay .default [(⟨"OUTER", ["?"]⟩, 0)]).active = [] ∧
    (serve relay .default [(⟨"OUTER", ["?"]⟩, 0)]).patterns = [("OUTER", ["x"])] ∧
    (serve relay .default [(⟨"OUTER", ["?"]⟩, 0)]).count = 2 := by
  decide +kernel

end Session

end MacroAssembler
