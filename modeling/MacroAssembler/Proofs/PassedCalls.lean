/-
MacroAssembler/Proofs/PassedCalls.lean

A call that is handed to a macro is the call itself.

A macro that does nothing but use its one parameter can be given a call as the
argument.  The argument stays text until the parameter is used, and is then read and
expanded.  In the tree of the expansion this is a node around the node of the call
(`ExpansionTree.wrapped`).

Code is settled at every node, and settling it a second time at once changes nothing:
a label that answers at the inner node has answered, and one that does not is no label
of the outer node either.  The node in between leaves no trace in the segment, not even
in the numbers that labels carry (`ExpansionTree.segment_wrapped`), and takes room only
from the limits.

Main result: `Expansion.expand_passedCall`.
-/
import MacroAssembler.Proofs.Inlining

namespace MacroAssembler

open Relation Rendering Scope

/-! ### A node around a node -/

namespace ExpansionTree

variable {child t u : ExpansionTree} {pos : Nat}

/-- A tree whose only operation is an expansion. -/
def wrapped (child : ExpansionTree) : ExpansionTree := inlined child done

@[simp] theorem size_wrapped (child : ExpansionTree) : child.wrapped.size = child.size := rfl

@[simp] theorem nested_wrapped (child : ExpansionTree) :
    child.wrapped.nested = child.nested + 1 := rfl

theorem lines_wrapped (child : ExpansionTree) (pos : Nat) :
    child.wrapped.lines pos = CodeLine.settle (child.lines pos) := by
  rw [wrapped, lines, lines, List.append_nil]

/-- Lines are settled once. -/
theorem settle_lines_wrapped (child : ExpansionTree) (pos : Nat) :
    CodeLine.settle (child.wrapped.lines pos) = CodeLine.settle (child.lines pos) := by
  have h := CodeLine.settle_append_settle (a := []) (b := child.lines pos) (c := []) (by simp)
  rw [lines_wrapped]
  simpa using h

theorem lines_inlined_wrapped (t child u : ExpansionTree) (pos : Nat) :
    (t ++ inlined child.wrapped u).lines pos = (t ++ inlined child u).lines pos := by
  rw [lines_append_inlined, lines_append_inlined, settle_lines_wrapped, size_wrapped]

theorem labelsOf_inlined_wrapped (t child u : ExpansionTree) (pos : Nat) :
    labelsOf ((t ++ inlined child.wrapped u).layout 0 pos) =
      labelsOf ((t ++ inlined child u).layout 0 pos) := by
  simp only [layout_append, layout, wrapped, labelsOf_append, labelsOf_map_inside, size,
    List.append_nil, Nat.add_zero]

/-- **A node around a node leaves no trace in the code.** -/
theorem segment_wrapped (t child u : ExpansionTree) (pos : Nat) :
    (t ++ inlined child.wrapped u).segment pos = (t ++ inlined child u).segment pos := by
  obtain ⟨hcells, -, hjumps, htables⟩ := sameCode_segment
    (congrArg CodeLine.settle (lines_inlined_wrapped t child u pos))
  simp only [segment, render, Segment.mk.injEq]
  exact ⟨hcells, labelsOf_inlined_wrapped t child u pos, hjumps, htables⟩

/-- A tree with a node less around a node stays within the limits. -/
theorem Affordable.unwrap {limits : Limits} {room earlier : Nat}
    (h : (t ++ inlined child.wrapped u).Affordable limits room pos earlier) :
    (t ++ inlined child u).Affordable limits room pos earlier := by
  obtain ⟨hdepth, hcount, hwithin, hin, hout⟩ := h
  simp only [within_append_iff, fitsInside_append_iff] at hwithin hin
  obtain ⟨htw, ⟨hcw, -, -⟩, hle, huw⟩ := hwithin
  obtain ⟨hti, ⟨hci, hco, -⟩, -, hui⟩ := hin
  constructor
  · simp only [depth_append, ExpansionTree.depth, wrapped] at hdepth ⊢
    omega
  · simp only [ExpansionTree.expansions, nested_append, nested, nested_wrapped] at hcount ⊢
    omega
  · rw [within_append_iff]
    exact ⟨htw, hcw, hle, huw⟩
  · rw [fitsInside_append_iff]
    exact ⟨hti, hci, hco, hui⟩
  · rw [fitsOutside_iff, lines_inlined_wrapped] at hout
    exact fitsOutside_iff.2 hout

end ExpansionTree

/-! ### Handing a call on -/

open Argument

/-- The text is read as a call of a macro where it is used as a template argument: it
is neither arithmetic nor a mnemonic. -/
structure NamesCall (r : Registry) (t : String) (target : CallTarget) : Prop where
  trimmed : Text.trim t.toList = t.toList
  not_literal : isLiteral t.toList = false
  not_mnemonic : Opcode.ofMnemonic? t = none
  parsed : CallTarget.parse? t.toList = some target
  known : r.hasMacro (String.ofList target.name) = true

/-- The call that a text names. -/
def Argument.CallTarget.invocation (target : CallTarget) : Invocation :=
  ⟨String.ofList target.name, target.arguments⟩

theorem NamesCall.resolve_eq {r : Registry} {t : String} {target : CallTarget}
    (h : NamesCall r t target) (source : Nat) :
    Template.resolve r t source = .ok (.expansion target.invocation) := by
  simp only [Template.resolve, h.trimmed, h.not_literal, String.ofList_toList, h.not_mnemonic,
    Template.resolveName, h.parsed, h.known]
  rfl

/-- Operation number `i` of the macro `a`, which has no parameters, hands the text `t`
to the macro `apply`, which uses its parameter and does nothing else. -/
structure PassedCall (r : Registry) (a apply : Macro) (i : Nat) (t : String) : Prop where
  caller : r.getMacro? a.name = some a
  caller_params : a.params = []
  passer : r.getMacro? apply.name = some apply
  uses : ∃ param source, apply.params = [param] ∧ apply.ops = [⟨.templateRef param, source⟩]
  call : ∃ source, a.ops[i]? = some ⟨.call apply.name [t], source⟩

namespace PassedCall

variable {r : Registry} {a apply : Macro} {i : Nat} {t : String} {target : CallTarget}

theorem rewritable (h : PassedCall r a apply i t) : r.Rewritable a := by
  obtain ⟨source, hop⟩ := h.call
  exact ⟨h.caller, h.caller_params, Macro.constant?_eq_none hop rfl⟩

/-- The operation of `apply` is the call. -/
theorem exists_action (h : PassedCall r a apply i t) (ht : NamesCall r t target) :
    ∃ op, apply.ops = [op] ∧
      Expansion.action r apply [t] op = .ok (.inline target.invocation) := by
  obtain ⟨param, source, hparams, hops⟩ := h.uses
  refine ⟨_, hops, ?_⟩
  simp [Expansion.action, hparams, ht.resolve_eq, Except.map, Action.ofResolved]

/-- With the call in its place, the tree of the call stands where `apply` was
expanded. -/
theorem expands_replaceOp (h : PassedCall r a apply i t) (ht : NamesCall r t target)
    (source : Nat) {tree : ExpansionTree} (htree : Expands r ⟨a.name, []⟩ tree) :
    ∃ u child u', tree = u ++ .inlined child.wrapped u' ∧
      Expands (r.replaceOp a.name i
          [⟨.call (String.ofList target.name) target.arguments, source⟩]) ⟨a.name, []⟩
        (u ++ .inlined child u') := by
  obtain ⟨source', hop⟩ := h.call
  obtain ⟨op, hops, huse⟩ := h.exists_action ht
  have hcall : Expansion.action r a [] ⟨.call apply.name [t], source'⟩ =
      .ok (.inline ⟨apply.name, [t]⟩) := by
    simp [Expansion.action, Expansion.callArgs, h.caller_params]
  obtain ⟨u, v, u', rfl, -, hv, hnew⟩ := h.rewritable.expands_replaceOp hop
    [⟨.call (String.ofList target.name) target.arguments, source⟩] htree
  cases hv with
  | instr ha => simp [hcall] at ha
  | measured ha => simp [hcall] at ha
  | @inlined _ _ _ inv m' c _ v ha hm' _ hc hv =>
    obtain rfl : ⟨apply.name, [t]⟩ = inv := by simpa [hcall] using ha
    obtain rfl : apply = m' := Option.some.inj (h.passer.symm.trans hm')
    cases hv
    rw [hops] at hc
    cases hc with
    | instr hb => simp [huse] at hb
    | measured hb => simp [huse] at hb
    | @inlined _ _ _ inv m'' child _ w hb hm'' harity hchild hw =>
      obtain rfl : target.invocation = inv := by simpa [huse] using hb
      cases hw
      -- the call is reached through `apply`, and so has its tree in the new registry too
      have hto : TransGen (Invokes r) ⟨a.name, []⟩ target.invocation := by
        refine .tail (.single ⟨a, _, _, h.caller, List.mem_of_getElem? hop, hcall, rfl⟩) ?_
        exact ⟨apply, op, _, h.passer, by simp [hops], huse, rfl⟩
      obtain ⟨m₁, hm₁, harity₁, hchild₁⟩ :=
        h.rewritable.expands_inner i [⟨.call (String.ofList target.name) target.arguments, source⟩]
          htree hto ⟨m'', hm'', harity, hchild⟩
      refine ⟨u, child, u', rfl, hnew (.inlined child .done) ?_⟩
      refine .inlined ?_ hm₁ harity₁ hchild₁ .done
      simp [Expansion.action, Expansion.callArgs, Macro.replaceOp, h.caller_params,
        CallTarget.invocation]

end PassedCall

namespace Expansion

/-- **Handing a call to a macro is calling.**  Where the expansion of a macro without
parameters succeeds and hands a call to a macro that only uses its parameter, it succeeds
with the call itself in that place, from every offset and under the same limits, and gives
the same segment. -/
theorem expand_passedCall {r : Registry} {limits : Limits} {a apply : Macro} {i : Nat}
    {t : String} {target : CallTarget} (hcall : PassedCall r a apply i t)
    (ht : NamesCall r t target) (source : Nat) {start earlier n : Nat} {s : Segment}
    (hrun : run (expand r limits ⟨a.name, []⟩ start) earlier = (.ok s, n)) :
    ∃ n', run (expand (r.replaceOp a.name i
        [⟨.call (String.ofList target.name) target.arguments, source⟩]) limits ⟨a.name, []⟩ start)
      earlier = (.ok s, n') := by
  obtain ⟨tree, htree, hafford, rfl, -⟩ := run_expand_eq_ok_iff.1 hrun
  obtain ⟨u, child, u', rfl, htree'⟩ := hcall.expands_replaceOp ht source htree
  refine ⟨_, run_expand_eq_ok_iff.2 ⟨_, htree', hafford.unwrap, ?_, rfl⟩⟩
  exact ExpansionTree.segment_wrapped u child u' start

/-- `MAIN` hands a call of `LOOP` to `APPLY`, with another call of `LOOP` as its
argument.  Each has a label `x` of its own, and `MAIN` jumps to the last of them. -/
def handedMain : Macro :=
  { Macro.ofName "MAIN" with
    ops := [⟨.jumpRef "x", 1⟩, ⟨.call "APPLY" ["LOOP<LOOP<2>>"], 2⟩, ⟨.jumpRef "away", 3⟩] }

@[inherit_doc handedMain]
def handedApply : Macro :=
  { Macro.ofName "APPLY" with params := ["m"], ops := [⟨.templateRef "m", 4⟩] }

@[inherit_doc handedMain]
def handed : Registry where
  macros := [
    { Macro.ofName "LOOP" with
      params := ["p"], ops := [⟨.jumpDest "x", 5⟩, ⟨.templateRef "p", 6⟩, ⟨.jumpRef "x", 7⟩] },
    handedApply, handedMain]

theorem expand_passedCall_handed :
    ∃ s n n', run (expand handed {} ⟨"MAIN", []⟩ 40) 2 = (.ok s, n) ∧
      s.jumps = [⟨"away", 54⟩] ∧ s.labels.offset? "x" = some 44 ∧
      run (expand (handed.replaceOp "MAIN" 1 [⟨.call "LOOP" ["LOOP<2>"], 9⟩]) {} ⟨"MAIN", []⟩ 40) 2 =
        (.ok s, n') := by
  have hcall : PassedCall handed handedMain handedApply 1 "LOOP<LOOP<2>>" :=
    ⟨by decide, rfl, by decide, ⟨"m", 4, rfl, rfl⟩, 2, by decide⟩
  have ht : NamesCall handed "LOOP<LOOP<2>>" ⟨"LOOP".toList, some "LOOP<2>".toList⟩ :=
    ⟨by decide +kernel, by decide +kernel, by decide +kernel, by decide +kernel, by decide +kernel⟩
  have hargs : CallTarget.arguments ⟨"LOOP".toList, some "LOOP<2>".toList⟩ = ["LOOP<2>"] := by
    decide +kernel
  have hcheck : (run (expand handed {} ⟨"MAIN", []⟩ 40) 2).1.map
      (fun s => (s.jumps, s.labels.offset? "x")) = .ok ([⟨"away", 54⟩], some 44) := by
    decide +kernel
  rcases hrun : run (expand handed {} ⟨"MAIN", []⟩ 40) 2 with ⟨e | s, n⟩
  · rw [hrun] at hcheck
    cases hcheck
  · rw [hrun] at hcheck
    obtain ⟨hjumps, hlabel⟩ := Prod.mk.inj (Except.ok.inj hcheck)
    obtain ⟨n', hrun'⟩ := expand_passedCall hcall ht 9 hrun
    rw [hargs, String.ofList_toList] at hrun'
    exact ⟨s, n, n', rfl, hjumps, hlabel, hrun'⟩

end Expansion

end MacroAssembler
