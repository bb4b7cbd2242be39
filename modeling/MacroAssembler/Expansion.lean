/-
MacroAssembler/Expansion.lean

Expanding a macro into code.

A macro is expanded at a given offset.  Its operations are laid out from there
one after the other, calls being expanded in place; the segment so built is
then resolved, which fills every reference to a label that the macro or
anything inside it defines.  References that are left go to the caller with the
segment.

Expansion is bounded: by the depth of nesting, which the recursion is on, by
the number of expansions, which a counter keeps and no error sets back, and by
the length of the code.  A macro that is met inside an expansion of itself with
the same arguments would never end and is refused at once.
-/
import MacroAssembler.Code.Segment
import MacroAssembler.Limits
import MacroAssembler.Template.Resolution
import MacroAssembler.Template.Substitution

namespace MacroAssembler.Expansion

/-- A step of an expansion.  It may fail, and counts expansions either way. -/
abbrev Step := ExceptT (CompileError Nat) (StateM Nat)

/-- A result that does not count as an expansion. -/
def ofResult {α : Type} : Except (CompileError Nat) α → Step α
  | .ok a => pure a
  | .error e => throw e

/-- Count one more expansion. -/
def count (limits : Limits) : Step Unit := do
  let n := (← get) + 1
  set n
  if limits.expansions < n then throw (.expansionLimit limits.expansions)

/-- The chain of names from the running expansion of `inv` back to itself.
`active` lists the running expansions, the innermost first. -/
def cycleChain (active : List Invocation) (inv : Invocation) : List String :=
  let inner := active.takeWhile (· != inv)
  inv.name :: (inv.name :: inner.map Invocation.name).reverse

/-- The arguments of an inner call, with the parameters of the macro replaced. -/
def callArgs (m : Macro) (values args : List String) : List String :=
  if m.params.isEmpty || args.isEmpty then args
  else Template.substituteAll m.params values args

/-! ### Operations -/

/-- How an inner macro is expanded: for the operation at a source offset, at an
offset of the code. -/
abbrev Expander := (site : Nat) → Invocation → (pos : Nat) → Step Segment

/-- The code of a template argument, used at `source`. -/
def emitResolved (expand : Expander) (source pos : Nat) : Template.Resolved → Step Segment
  | .opcode byte => pure (.ofBytes source [byte])
  | .push p => pure (.ofPush source p)
  | .jumpRef label => pure (.jumpRef source pos label)
  | .expansion inv => expand source inv pos

/-- The code of operation number `index` of a macro, at offset `pos`. -/
def emit (r : Registry) (expand : Expander) (m : Macro) (values : List String) (pos index : Nat)
    (op : Operation) : Step Segment :=
  match op.kind with
  | .opcode byte => pure (.ofBytes op.source [byte])
  | .push p => pure (.ofPush op.source p)
  | .jumpDest label => pure (.jumpDest op.source pos index label)
  | .jumpRef label => pure (.jumpRef op.source pos label)
  | .tableStart table => pure (.tableStart op.source pos table)
  | .call name args => expand op.source ⟨name, callArgs m values args⟩ pos
  | .codeSize name args => do
    let measured ← expand op.source ⟨name, callArgs m values args⟩ pos
    return .ofPush op.source (.ofSize measured.size)
  | .templateRef param =>
    match (m.params.zip values).lookup param with
    | none => throw (.unknownParam m.name param op.source)
    | some arg => do emitResolved expand op.source pos (← ofResult (Template.resolve r arg op.source))

/-- The code of operations one after the other, from offset `pos` on.  The
length is checked after each operation. -/
def assemble (limits : Limits) (emit : (pos index : Nat) → Operation → Step Segment) :
    (pos index : Nat) → List Operation → Step Segment
  | _, _, [] => pure .empty
  | pos, index, op :: ops => do
    let s ← emit pos index op
    let next := pos + s.size
    if limits.bytes < next then throw (.outputLimit limits.bytes next)
    else
      let t ← assemble limits emit next (index + 1) ops
      return s ++ t

/-! ### Macros -/

/-- Expand a macro at offset `pos`.  `room` is how much deeper macros may nest,
`active` lists the running expansions with the innermost first, and `site?` is
the operation that asks for the expansion. -/
def expandAt (r : Registry) (limits : Limits) :
    (room : Nat) → (active : List Invocation) → (site? : Option Nat) → Invocation → (pos : Nat) →
      Step Segment
  | room, active, site?, inv, pos =>
    match r.getMacro? inv.name with
    | none => throw (.unknownMacro inv.name site?)
    | some m =>
      if inv ∈ active then throw (.cycle (cycleChain active inv))
      else
        match room with
        | 0 => throw (.recursionLimit limits.depth inv.name)
        | room + 1 => do
          count limits
          if inv.args.length ≠ m.arity then
            throw (.arityMismatch inv.name m.arity inv.args.length site?)
          else
            let expand site := expandAt r limits room (inv :: active) (some site)
            let s ← assemble limits (emit r expand m inv.args) pos 0 m.ops
            ofResult (s.resolve pos)

/-- Expand a macro at offset `pos` from outside all macros. -/
def expand (r : Registry) (limits : Limits) (inv : Invocation) (pos : Nat) : Step Segment :=
  expandAt r limits limits.depth [] none inv pos

/-- Run an expansion from a count of earlier ones: its outcome, and the count
after it. -/
def run {α : Type} (x : Step α) (earlier : Nat) : Except (CompileError Nat) α × Nat :=
  StateT.run (ExceptT.run x) earlier

end MacroAssembler.Expansion
