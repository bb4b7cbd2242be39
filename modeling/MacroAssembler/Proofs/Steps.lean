/-
MacroAssembler/Proofs/Steps.lean

What the steps of an expansion can do.

An expansion is a computation in `Expansion.Step`: it may fail, and it counts
expansions either way.  `Yields x P E` says that, from every count, `x` ends
in a value of `P` or in an error of `E`, and `Returns` says the same of a result
that counts nothing.  Their rules follow the monad, so a proof about an
expansion goes along the text of the expander and never opens the monad.

An operation does one of three things: it emits an instruction of its own, it
inlines an expansion, or it measures one.  `action` finds out which, and
`emit_eq_perform` says that the expander only acts on the answer.  The proofs
about expansions therefore have these three cases, whatever the operation is
and however its template argument was resolved.
-/
import MacroAssembler.Expansion

namespace MacroAssembler

/-- A macro has the name it is found under. -/
theorem Registry.name_of_getMacro? {r : Registry} {name : String} {m : Macro}
    (h : r.getMacro? name = some m) : m.name = name := by
  simpa using List.find?_some h

/-! ### Instructions and actions -/

/-- What an operation leaves in the code of its own macro. -/
inductive Instr where
  | opcode (byte : UInt8)
  | push (p : Push)
  | dest (label : String)
  | jumpRef (label : String)
  | tableRef (table : String)
  deriving Repr, DecidableEq

namespace Instr

/-- Bytes of an instruction. -/
def size : Instr → Nat
  | opcode _ => 1
  | push p => 1 + p.immediate.length
  | dest _ => 1
  | jumpRef _ => 3
  | tableRef _ => 3

theorem size_pos (i : Instr) : 0 < i.size := by
  cases i <;> simp only [size] <;> omega

/-- The code of an instruction: operation number `index` of its macro, emitted
for `source` at offset `pos`. -/
def segment (source pos index : Nat) : Instr → Segment
  | opcode byte => .ofBytes source [byte]
  | push p => .ofPush source p
  | dest label => .jumpDest source pos index label
  | jumpRef label => .jumpRef source pos label
  | tableRef table => .tableStart source pos table

end Instr

/-- What an operation does. -/
inductive Action where
  /-- Emit an instruction. -/
  | emit (i : Instr)
  /-- Expand a macro in place. -/
  | inline (inv : Invocation)
  /-- Expand a macro and push its length. -/
  | measure (inv : Invocation)
  deriving Repr, DecidableEq

/-- The action of a template argument. -/
def Action.ofResolved : Template.Resolved → Action
  | .opcode byte => .emit (.opcode byte)
  | .push p => .emit (.push p)
  | .jumpRef label => .emit (.jumpRef label)
  | .expansion inv => .inline inv

namespace Expansion

/-- The action of an operation of `m`, expanded with `values`. -/
def action (r : Registry) (m : Macro) (values : List String) (op : Operation) :
    Except (CompileError Nat) Action :=
  match op.kind with
  | .opcode byte => .ok (.emit (.opcode byte))
  | .push p => .ok (.emit (.push p))
  | .jumpDest label => .ok (.emit (.dest label))
  | .jumpRef label => .ok (.emit (.jumpRef label))
  | .tableStart table => .ok (.emit (.tableRef table))
  | .call name args => .ok (.inline ⟨name, callArgs m values args⟩)
  | .codeSize name args => .ok (.measure ⟨name, callArgs m values args⟩)
  | .templateRef param =>
    match (m.params.zip values).lookup param with
    | none => .error (.unknownParam m.name param op.source)
    | some arg => (Template.resolve r arg op.source).map Action.ofResolved

/-- Act at offset `pos`, for operation number `index` at `source`. -/
def perform (expand : Expander) (source pos index : Nat) : Action → Step Segment
  | .emit i => pure (i.segment source pos index)
  | .inline inv => expand source inv pos
  | .measure inv => do
    let measured ← expand source inv pos
    return .ofPush source (.ofSize measured.size)

/-- To emit an operation is to find its action and to act. -/
theorem emit_eq_perform (r : Registry) (expand : Expander) (m : Macro) (values : List String)
    (pos index : Nat) (op : Operation) :
    emit r expand m values pos index op =
      ofResult (action r m values op) >>= perform expand op.source pos index := by
  obtain ⟨kind, source⟩ := op
  cases kind with
  | templateRef param =>
    simp only [emit, action]
    rcases (m.params.zip values).lookup param with - | arg
    · rfl
    · -- the argument is resolved first, and its action is read off
      rcases h : Template.resolve r arg source with e | res
      · simp only [h]
        rfl
      · simp only [h]
        cases res <;> rfl
  | _ => rfl

/-- An argument without a meaning is reported where the parameter is used. -/
theorem site?_of_resolve {r : Registry} {arg : String} {source : Nat} {e : CompileError Nat}
    (h : Template.resolve r arg source = .error e) : e.site? = some source := by
  unfold Template.resolve Template.resolveName at h
  grind [CompileError.site?]

/-- An operation whose action cannot be found out is reported at its source. -/
theorem site?_of_action {r : Registry} {m : Macro} {values : List String} {op : Operation}
    {e : CompileError Nat} (h : action r m values op = .error e) : e.site? = some op.source := by
  obtain ⟨kind, source⟩ := op
  cases kind with
  | templateRef param =>
    simp only [action] at h
    rcases hlookup : (m.params.zip values).lookup param with - | arg
    · rw [hlookup] at h
      cases h
      rfl
    · rw [hlookup] at h
      rcases hres : Template.resolve r arg source with e' | res
      · obtain rfl : e' = e := by simpa [hres, Except.map] using h
        exact site?_of_resolve hres
      · simp [hres, Except.map] at h
  | _ => simp [action] at h

/-! ### Runs of steps -/

variable {α β : Type}

@[simp] theorem run_pure (a : α) (n : Nat) : run (pure a) n = (.ok a, n) := rfl

@[simp] theorem run_throw (e : CompileError Nat) (n : Nat) :
    run (throw e : Step α) n = (.error e, n) := rfl

theorem run_bind (x : Step α) (f : α → Step β) (n : Nat) :
    run (x >>= f) n =
      match run x n with
      | (.ok a, n') => run (f a) n'
      | (.error e, n') => (.error e, n') := by
  show StateT.run (ExceptT.run (x >>= f)) n = _
  simp only [ExceptT.run_bind, StateT.run_bind, run]
  rcases h : StateT.run (ExceptT.run x) n with ⟨(e | a), n'⟩ <;> rfl

/-- A sequence of two steps fails when one of them does. -/
theorem run_bind_eq_error {x : Step α} {f : α → Step β} {n n' : Nat} {e : CompileError Nat} :
    run (x >>= f) n = (.error e, n') ↔
      run x n = (.error e, n') ∨ ∃ a k, run x n = (.ok a, k) ∧ run (f a) k = (.error e, n') := by
  rw [run_bind]
  rcases run x n with ⟨e' | a, k⟩
  · simp
  · constructor
    · exact fun h => .inr ⟨a, k, rfl, h⟩
    · rintro (h | ⟨a', k', heq, h⟩)
      · cases h
      · cases heq
        exact h

@[simp] theorem run_ofResult (x : Except (CompileError Nat) α) (n : Nat) :
    run (ofResult x) n = (x, n) := by
  cases x <;> rfl

theorem run_count (limits : Limits) (n : Nat) :
    run (count limits) n =
      if limits.expansions < n + 1 then (.error (.expansionLimit limits.expansions), n + 1)
      else (.ok (), n + 1) := by
  show run (if limits.expansions < n + 1 then throw (.expansionLimit limits.expansions)
    else pure ()) (n + 1) = _
  split <;> rfl

theorem run_map (f : α → β) (x : Step α) (n : Nat) :
    run (f <$> x) n = ((run x n).1.map f, (run x n).2) := by
  rw [map_eq_pure_bind, run_bind]
  rcases run x n with ⟨e | a, n'⟩ <;> rfl

/-! ### What a step yields -/

/-- `x` succeeds with a value of `P` or fails with an error of `E`. -/
def Returns (x : Except (CompileError Nat) α) (P : α → Prop) (E : CompileError Nat → Prop) : Prop :=
  match x with
  | .ok a => P a
  | .error e => E e

/-- From every count, `x` succeeds with a value of `P` or fails with an error
of `E`. -/
def Yields (x : Step α) (P : α → Prop) (E : CompileError Nat → Prop) : Prop :=
  ∀ n, Returns (run x n).1 P E

variable {P P' : α → Prop} {Q : β → Prop} {E : CompileError Nat → Prop}

namespace Returns

theorem ok {a : α} (h : P a) : Returns (.ok a) P E := h

theorem error {e : CompileError Nat} (h : E e) : Returns (.error e) P E := h

theorem mono {x : Except (CompileError Nat) α} (hx : Returns x P E) (h : ∀ a, P a → P' a) :
    Returns x P' E := by
  cases x with
  | error e => exact hx
  | ok a => exact h a hx

theorem mono_error {x : Except (CompileError Nat) α} {E' : CompileError Nat → Prop}
    (hx : Returns x P E) (h : ∀ e, E e → E' e) : Returns x P E' := by
  cases x with
  | error e => exact h e hx
  | ok a => exact hx

theorem bind {x : Except (CompileError Nat) α} {f : α → Except (CompileError Nat) β}
    (hx : Returns x P E) (hf : ∀ a, P a → Returns (f a) Q E) : Returns (x >>= f) Q E := by
  cases x with
  | error e => exact hx
  | ok a => exact hf a hx

/-- Anything can be said about what is returned, as long as it follows from
what it is. -/
theorem self {x : Except (CompileError Nat) α} (hok : ∀ a, x = .ok a → P a)
    (herr : ∀ e, x = .error e → E e) : Returns x P E := by
  cases x with
  | error e => exact herr e rfl
  | ok a => exact hok a rfl

end Returns

namespace Yields

theorem pure {a : α} (h : P a) : Yields (pure a) P E := fun _ => h

theorem throw {e : CompileError Nat} (h : E e) : Yields (throw e) P E := fun _ => h

theorem mono {x : Step α} (hx : Yields x P E) (h : ∀ a, P a → P' a) : Yields x P' E :=
  fun n => (hx n).mono h

theorem bind {x : Step α} {f : α → Step β} (hx : Yields x P E) (hf : ∀ a, P a → Yields (f a) Q E) :
    Yields (x >>= f) Q E := by
  intro n
  rw [run_bind]
  have h := hx n
  rcases hrun : run x n with ⟨e | a, n'⟩
  · rw [hrun] at h
    exact h
  · rw [hrun] at h
    exact hf a h n'

theorem map {x : Step α} {f : α → β} (hx : Yields x (fun a => Q (f a)) E) :
    Yields (f <$> x) Q E := by
  rw [map_eq_pure_bind]
  exact hx.bind fun _ ha => pure ha

theorem ofResult {x : Except (CompileError Nat) α} (hx : Returns x P E) :
    Yields (ofResult x) P E := by
  intro n
  rw [run_ofResult]
  exact hx

theorem count {limits : Limits} (h : E (.expansionLimit limits.expansions)) :
    Yields (count limits) (fun _ => True) E := by
  intro n
  rw [run_count]
  by_cases hn : limits.expansions < n + 1
  · rw [if_pos hn]
    exact h
  · rw [if_neg hn]
    trivial

theorem of_run {x : Step α} (hx : Yields x P E) {n : Nat} {a : α} (h : (run x n).1 = .ok a) :
    P a := by
  have hn := hx n
  rwa [h] at hn

end Yields

/-! ### Entering a macro -/

/-- Past the tests for the name, the running expansions and the depth, an
expansion is counted, its arguments are counted, its operations are assembled
and the references among them are filled. -/
theorem expandAt_succ {r : Registry} {limits : Limits} {room : Nat} {active : List Invocation}
    {site? : Option Nat} {inv : Invocation} {pos : Nat} {m : Macro}
    (hm : r.getMacro? inv.name = some m) (ha : inv ∉ active) :
    expandAt r limits (room + 1) active site? inv pos = (do
      count limits
      if inv.args.length ≠ m.arity then
        throw (.arityMismatch inv.name m.arity inv.args.length site?)
      else do
        let s ← assemble limits
          (emit r (fun site => expandAt r limits room (inv :: active) (some site)) m inv.args)
          pos 0 m.ops
        ofResult (s.resolve pos)) := by
  rw [expandAt]
  simp only [hm, if_neg ha]

end Expansion

end MacroAssembler
