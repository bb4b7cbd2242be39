/-
MacroAssembler/Proofs/PatchLog.lean

Expansion with a log of its patches.

The expander keeps no record of the slots that it fills.  `expandLogged` is
the expander with such a record: each expansion notes the slots that it fills
itself (`Segment.patched`) behind those that the expansions inside it filled,
and a measurement takes its notes with it when its code is dropped.  A patch
names the expansion that made it by the way to it, as `Placed.node` does.

The record changes nothing: without it, `expandLogged` is `expandAt`
(`fst_expandLogged`).
-/
import MacroAssembler.Proofs.Filling

namespace MacroAssembler

/-- A slot that was filled, with what filled it. -/
inductive Patch where
  /-- Filled with the offset of a label, by the expansion `node`. -/
  | byExpansion (node : List Nat) (slot : Nat)
  /-- Filled with the offset of a jump table. -/
  | byLinker (slot : Nat)
  deriving Repr, DecidableEq

namespace Patch

/-- The slot that was filled. -/
def slot : Patch → Nat
  | byExpansion _ slot => slot
  | byLinker slot => slot

/-- The same patch, seen from an expansion whose operation number `k` is the
expansion that it was seen from. -/
def inside (k : Nat) : Patch → Patch
  | byExpansion node slot => byExpansion (k :: node) slot
  | byLinker slot => byLinker slot

end Patch

namespace Expansion

/-- A segment with the patches that were made in it. -/
abbrev Logged := Segment × List Patch

/-- `Expansion.perform`, with a log. -/
def performLogged (expand : (site : Nat) → Invocation → (pos : Nat) → Step Logged)
    (source pos index : Nat) : Action → Step Logged
  | .emit i => pure (i.segment source pos index, [])
  | .inline inv => do
    let out ← expand source inv pos
    return (out.1, out.2.map (Patch.inside index))
  | .measure inv => do
    let out ← expand source inv pos
    -- the patches go with the code that was measured
    return (.ofPush source (.ofSize out.1.size), [])

/-- `Expansion.emit`, with a log. -/
def emitLogged (r : Registry) (expand : (site : Nat) → Invocation → (pos : Nat) → Step Logged)
    (m : Macro) (values : List String) (pos index : Nat) (op : Operation) : Step Logged := do
  performLogged expand op.source pos index (← ofResult (action r m values op))

/-- `Expansion.assemble`, with a log. -/
def assembleLogged (limits : Limits) (emit : (pos index : Nat) → Operation → Step Logged) :
    (pos index : Nat) → List Operation → Step Logged
  | _, _, [] => pure (.empty, [])
  | pos, index, op :: ops => do
    let out ← emit pos index op
    let next := pos + out.1.size
    if limits.bytes < next then throw (.outputLimit limits.bytes next)
    else
      let rest ← assembleLogged limits emit next (index + 1) ops
      return (out.1 ++ rest.1, out.2 ++ rest.2)

/-- `Segment.resolve`, with a log. -/
def resolveLogged (pos : Nat) (out : Logged) : Except (CompileError Nat) Logged := do
  let s ← out.1.resolve pos
  let slots := Segment.patched pos out.1.labels out.1.jumps out.1.cells.toArray
  return (s, out.2 ++ slots.map (Patch.byExpansion []))

/-- `Expansion.expandAt`, with a log. -/
def expandLogged (r : Registry) (limits : Limits) :
    (room : Nat) → (active : List Invocation) → (site? : Option Nat) → Invocation → (pos : Nat) →
      Step Logged
  | room, active, site?, inv, pos =>
    match r.getMacro? inv.name with
    | none => throw (.unknownMacro inv.name site?)
    | some m =>
      if inv ∈ active then throw (.cycle (cycleChain active inv))
      else
        match room with
        | 0 => throw (.recursionLimit limits.depth inv.name)
        | room + 1 => do
          count limits
          if inv.args.length ≠ m.arity then
            throw (.arityMismatch inv.name m.arity inv.args.length site?)
          else
            let expand site := expandLogged r limits room (inv :: active) (some site)
            let out ← assembleLogged limits (emitLogged r expand m inv.args) pos 0 m.ops
            ofResult (resolveLogged pos out)

/-! ### Without the log -/

theorem fst_throw (e : CompileError Nat) : Prod.fst <$> (throw e : Step Logged) = throw e := rfl

theorem fst_performLogged {expandL : (site : Nat) → Invocation → (pos : Nat) → Step Logged}
    {expand : Expander} (h : ∀ site inv pos, Prod.fst <$> expandL site inv pos = expand site inv pos)
    (source pos index : Nat) (a : Action) :
    Prod.fst <$> performLogged expandL source pos index a = perform expand source pos index a := by
  cases a with
  | emit i => rfl
  | inline inv => simp [performLogged, perform, ← h]
  | measure inv => simp [performLogged, perform, ← h]

theorem fst_emitLogged {expandL : (site : Nat) → Invocation → (pos : Nat) → Step Logged}
    {expand : Expander} (h : ∀ site inv pos, Prod.fst <$> expandL site inv pos = expand site inv pos)
    (r : Registry) (m : Macro) (values : List String) (pos index : Nat) (op : Operation) :
    Prod.fst <$> emitLogged r expandL m values pos index op =
      emit r expand m values pos index op := by
  rw [emit_eq_perform, emitLogged, map_bind]
  simp only [fst_performLogged h]

theorem fst_assembleLogged {limits : Limits} {emitL : (pos index : Nat) → Operation → Step Logged}
    {emit : (pos index : Nat) → Operation → Step Segment}
    (h : ∀ pos index op, Prod.fst <$> emitL pos index op = emit pos index op)
    (pos index : Nat) (ops : List Operation) :
    Prod.fst <$> assembleLogged limits emitL pos index ops = assemble limits emit pos index ops := by
  induction ops generalizing pos index with
  | nil => rfl
  | cons op ops ih =>
    rw [assembleLogged, assemble, map_bind, ← h, bind_map_left]
    congr 1
    funext out
    -- the test looks at the segment only
    by_cases hlt : limits.bytes < pos + out.1.size
    · simp only [if_pos hlt, fst_throw]
    · simp only [if_neg hlt, map_bind, ← ih, bind_map_left]
      rfl

theorem fst_resolveLogged (pos : Nat) (out : Logged) :
    Prod.fst <$> ofResult (resolveLogged pos out) = ofResult (out.1.resolve pos) := by
  rw [resolveLogged]
  rcases out.1.resolve (σ := Nat) pos with e | s <;> rfl

/-- Without its log, the logged expander is the expander. -/
theorem fst_expandLogged (r : Registry) (limits : Limits) (room : Nat) (active : List Invocation)
    (site? : Option Nat) (inv : Invocation) (pos : Nat) :
    Prod.fst <$> expandLogged r limits room active site? inv pos =
      expandAt r limits room active site? inv pos := by
  induction room generalizing active site? inv pos with
  | zero =>
    rw [expandLogged, expandAt]
    rcases r.getMacro? inv.name with - | m
    · rfl
    · by_cases ha : inv ∈ active <;> simp only [ha, if_true, if_false, fst_throw]
  | succ room ih =>
    rw [expandLogged, expandAt]
    rcases r.getMacro? inv.name with - | m
    · rfl
    · by_cases ha : inv ∈ active
      · simp only [ha, if_true, fst_throw]
      · simp only [ha, if_false, map_bind]
        congr 1
        funext _
        by_cases harity : inv.args.length ≠ m.arity
        · simp only [if_pos harity, fst_throw]
        · have hemit := fst_emitLogged (fun site inv' pos' => ih (inv :: active) (some site) inv' pos')
            r m inv.args
          simp only [if_neg harity, map_bind, fst_resolveLogged, ← fst_assembleLogged hemit,
            bind_map_left]

end Expansion

end MacroAssembler
