/-
MacroAssembler/Proofs/SizeFolding.lean

A measurement can be replaced by the number that it measures.

A measurement expands a macro to the end and keeps nothing of it but its length.
The length is that of the tree, and the tree depends on no offset, so it is the
same wherever the macro is measured.  With the push of the length in its place,
an expansion has one node less in its tree and the same layout
(`ExpansionTree.Folds`): nothing else in the code can tell the difference, and
the limits are met more easily.

The operation that is replaced may be expanded any number of times, inside other
macros and inside measurements, and the macro that has it may become a constant
by the replacement.  An argument that had a value before keeps it.

Main result: `CompilationUnit.compile_foldSize`.
-/
import MacroAssembler.Proofs.Inlining
import MacroAssembler.Proofs.UnrelatedMacro

namespace MacroAssembler

open Rendering Scope Expansion

/-! ### Trees -/

namespace ExpansionTree

/-- The second tree is the first one with some of its measurements replaced by
pushes of the lengths that they measure. -/
inductive Folds : ExpansionTree → ExpansionTree → Prop
  | done : Folds .done .done
  | instr {source i t t'} : Folds t t' → Folds (.instr source i t) (.instr source i t')
  | inlined {c c' t t'} : Folds c c' → Folds t t' → Folds (.inlined c t) (.inlined c' t')
  | measured {source c c' t t'} :
      Folds c c' → Folds t t' → Folds (.measured source c t) (.measured source c' t')
  | folded {source c t t'} :
      Folds t t' → Folds (.measured source c t) (.instr source (.push (.ofSize c.size)) t')

namespace Folds

variable {t t' u u' : ExpansionTree}

theorem congruence : Congruence Folds := ⟨.done, .instr, .inlined, .measured⟩

theorem append (h : Folds t t') (hu : Folds u u') : Folds (t ++ u) (t' ++ u') := by
  induction h with
  | done => exact hu
  | instr _ ih => exact .instr ih
  | inlined hc _ _ ih => exact .inlined hc ih
  | measured hc _ _ ih => exact .measured hc ih
  | folded _ ih => exact .folded ih

theorem size_eq (h : Folds t t') : t'.size = t.size := by
  induction h with
  | done => rfl
  | instr _ ih | folded _ ih => simp only [size, ih]
  | inlined _ _ ihc ih | measured _ _ ihc ih => simp only [size, ihc, ih]

/-- The push of a length stands where the measurement stood. -/
theorem layout_eq (h : Folds t t') (index pos : Nat) :
    t'.layout index pos = t.layout index pos := by
  induction h generalizing index pos with
  | done => rfl
  | instr _ ih | folded _ ih => simp only [layout, ih]
  | inlined hc _ ihc ih => simp only [layout, ihc, ih, hc.size_eq]
  | measured hc _ _ ih => simp only [layout, ih, hc.size_eq]

theorem depth_le (h : Folds t t') : t'.depth ≤ t.depth := by
  induction h with
  | done => exact Nat.le_refl _
  | instr _ ih => exact ih
  | inlined _ _ ihc ih | measured _ _ ihc ih => exact max_le_max (Nat.succ_le_succ ihc) ih
  | folded _ ih => exact ih.trans (Nat.le_max_right _ _)

theorem nested_le (h : Folds t t') : t'.nested ≤ t.nested := by
  induction h with
  | done => exact Nat.le_refl _
  | instr _ ih => exact ih
  | inlined _ _ ihc ih | measured _ _ ihc ih | folded _ ih =>
    simp only [nested]
    omega

theorem within {bound pos : Nat} (h : Folds t t') (ht : t.Within bound pos) :
    t'.Within bound pos := by
  induction h generalizing pos with
  | done => trivial
  | instr _ ih => exact ⟨ht.1, ih ht.2⟩
  | inlined hc _ ihc ih =>
    rw [Within, hc.size_eq]
    exact ⟨ihc ht.1, ht.2.1, ih ht.2.2⟩
  | measured hc _ ihc ih =>
    rw [Within, hc.size_eq]
    exact ⟨ihc ht.1, ht.2.1, ih ht.2.2⟩
  | folded _ ih => exact ⟨ht.2.1, ih ht.2.2⟩

theorem fitsOutside {pos : Nat} (h : Folds t t') (ht : t.FitsOutside pos) : t'.FitsOutside pos := by
  rw [FitsOutside, h.layout_eq]
  exact ht

theorem fitsInside {pos : Nat} (h : Folds t t') (ht : t.FitsInside pos) : t'.FitsInside pos := by
  induction h generalizing pos with
  | done => trivial
  | instr _ ih => exact ih ht
  | inlined hc _ ihc ih =>
    rw [FitsInside, hc.size_eq]
    exact ⟨ihc ht.1, hc.fitsOutside ht.2.1, ih ht.2.2⟩
  | measured hc _ ihc ih =>
    rw [FitsInside, hc.size_eq]
    exact ⟨ihc ht.1, hc.fitsOutside ht.2.1, ih ht.2.2⟩
  | folded _ ih => exact ih ht.2.2

/-- A tree with fewer measurements stays within the limits. -/
theorem affordable {limits : Limits} {room pos earlier : Nat} (h : Folds t t')
    (ht : t.Affordable limits room pos earlier) : t'.Affordable limits room pos earlier := by
  obtain ⟨hdepth, hcount, hwithin, hin, hout⟩ := ht
  refine ⟨h.depth_le.trans hdepth, ?_, h.within hwithin, h.fitsInside hin, h.fitsOutside hout⟩
  have := h.nested_le
  rw [expansions] at hcount ⊢
  omega

theorem segment_eq (h : Folds t t') (pos : Nat) : t'.segment pos = t.segment pos := by
  rw [segment, h.layout_eq, segment]

end Folds

end ExpansionTree

/-! ### Replacing a measurement -/

/-- Operation number `i` of the macro `a`, which has no parameters, measures
`inv`, whose trees have `n` bytes. -/
structure Measures (r : Registry) (a : Macro) (i : Nat) (inv : Invocation) (source n : Nat) :
    Prop where
  declared : r.getMacro? a.name = some a
  params : a.params = []
  operation : a.ops[i]? = some ⟨.codeSize inv.name inv.args, source⟩
  size : ∀ c, Expands r inv c → c.size = n

/-- The push of a length, in place of the measurement at the same source. -/
def sizePush (source n : Nat) : Operation := ⟨.push (.ofSize n), source⟩

namespace Measures

variable {r : Registry} {a : Macro} {i : Nat} {inv : Invocation} {source n : Nat}

theorem rewritable (h : Measures r a i inv source n) : r.Rewritable a :=
  ⟨h.declared, h.params, Macro.constant?_eq_none h.operation rfl⟩

/-- The operations of the macro itself, with the measurement replaced. -/
theorem unfolds_replaceOp (h : Measures r a i inv source n) {t : ExpansionTree}
    (ht : Unfolds r a [] a.ops t)
    (hinner : ∀ op ∈ a.ops, ∀ x inv', action r a [] op = .ok x → x.target? = some inv' →
      ∀ u, Expands r inv' u →
        ∃ u', Expands (r.replaceOp a.name i [sizePush source n]) inv' u' ∧ u.Folds u') :
    ∃ t', Unfolds (r.replaceOp a.name i [sizePush source n]) (a.replaceOp i [sizePush source n]) []
      (a.replaceOp i [sizePush source n]).ops t' ∧ t.Folds t' := by
  obtain ⟨heq, -⟩ := Macro.ops_eq h.operation
  -- the other operations of the macro do what they did
  have hother : ∀ ops ⊆ a.ops, ∀ u, Unfolds r a [] ops u →
      ∃ u', Unfolds (r.replaceOp a.name i [sizePush source n])
        (a.replaceOp i [sizePush source n]) [] ops u' ∧ u.Folds u' := by
    intro ops hsub u hu
    refine hu.relate ExpansionTree.Folds.congruence
      (fun _ _ _ hx => h.rewritable.action_replaceOp i _ rfl hx) ?_
    exact fun op hop => hinner op (hsub hop)
  rw [heq] at ht
  obtain ⟨u, v, rfl, hu, hv⟩ := unfolds_append_iff.1 ht
  obtain ⟨u', hu', hufolds⟩ := hother _ (List.take_subset _ _) u hu
  have haction : action r a [] ⟨.codeSize inv.name inv.args, source⟩ = .ok (.measure inv) := by
    simp [action, callArgs, h.params]
  cases hv with
  | instr hb => simp [haction] at hb
  | inlined hb => simp [haction] at hb
  | @measured _ _ _ inv' m' child _ w hb hm' harity hchild hw =>
    obtain rfl : inv = inv' := by simpa [haction] using hb
    obtain ⟨w', hw', hwfolds⟩ := hother _ (List.drop_subset _ _) w hw
    have hsize : child.size = n := h.size child ⟨m', hm', harity, hchild⟩
    have hpush : action (r.replaceOp a.name i [sizePush source n])
        (a.replaceOp i [sizePush source n]) [] (sizePush source n) =
          .ok (.emit (.push (.ofSize n))) := rfl
    refine ⟨u' ++ .instr source (.push (.ofSize n)) w', ?_, ?_⟩
    · exact unfolds_append_iff.2 ⟨u', _, rfl, hu', Unfolds.instr hpush hw'⟩
    · rw [← hsize]
      exact hufolds.append (.folded hwfolds)

/-- With the measurement replaced, every tree is folded. -/
theorem expands_replaceOp (h : Measures r a i inv source n) {x : Invocation} {t : ExpansionTree}
    (ht : Expands r x t) :
    ∃ t', Expands (r.replaceOp a.name i [sizePush source n]) x t' ∧ t.Folds t' := by
  induction hd : t.depth using Nat.strongRecOn generalizing x t with
  | _ d ih =>
    obtain ⟨m, hm, harity, hops⟩ := id ht
    have hinner : ∀ op ∈ m.ops, ∀ y inv', action r m x.args op = .ok y → y.target? = some inv' →
        ∀ u, Expands r inv' u →
          ∃ u', Expands (r.replaceOp a.name i [sizePush source n]) inv' u' ∧ u.Folds u' := by
      intro op hop y inv' hy htarget u hu
      obtain ⟨v, hv, hlt⟩ := ht.inner ⟨m, op, y, hm, hop, hy, htarget⟩
      obtain rfl : u = v := hu.unique hv
      exact ih _ (hd ▸ hlt) hu rfl
    by_cases hname : x.name = a.name
    · obtain rfl : a = m := Option.some.inj (h.declared.symm.trans (hname ▸ hm))
      -- a macro without parameters is expanded without arguments
      have hargs : x.args = [] := by
        rw [Macro.arity, h.params] at harity
        exact List.eq_nil_of_length_eq_zero harity
      rw [hargs] at hops hinner
      obtain ⟨t', ht', hfolds⟩ := h.unfolds_replaceOp hops hinner
      refine ⟨t', ⟨a.replaceOp i [sizePush source n], ?_, ?_, ?_⟩, hfolds⟩
      · rw [Registry.getMacro?_replaceOp, hm]
        simp
      · exact harity
      · rw [hargs]
        exact ht'
    · obtain ⟨t', ht', hfolds⟩ := hops.relate ExpansionTree.Folds.congruence
        (fun _ _ _ hx => h.rewritable.action_replaceOp i _ rfl hx) hinner
      exact ⟨t', ⟨m, by rw [r.getMacro?_replaceOp_of_ne hname, hm], harity, ht'⟩, hfolds⟩

end Measures

/-! ### Compiling -/

theorem Registry.Built.replaceOp {r : Registry} (hr : r.Built) (name : String) (i : Nat)
    (ops : List Operation) : (r.replaceOp name i ops).Built := by
  obtain ⟨hmacros, htables⟩ := hr.nodup
  refine built_of_nodup ?_ htables
  have hnames : (r.replaceOp name i ops).macros.map Macro.name = r.macros.map Macro.name := by
    rw [Registry.replaceOp, List.map_map]
    refine List.map_congr_left fun m _ => ?_
    by_cases hm : m.name = name <;> simp [hm, Macro.replaceOp]
  rwa [hnames]

/-- However a macro is expanded, its length is that of its tree. -/
theorem Expansion.size_of_run_expand {r : Registry} {limits : Limits} {inv : Invocation}
    {start earlier : Nat} {s : Segment} (h : (run (expand r limits inv start) earlier).1 = .ok s)
    {t : ExpansionTree} (ht : Expands r inv t) : t.size = s.size := by
  obtain ⟨log, t', hreal⟩ := (expandAt_yields r limits limits.depth [] none inv start).of_run h
  obtain rfl : t = t' := ht.unique hreal.expands
  exact hreal.size_eq.symm

namespace CompilationUnit

/-- **A measurement is a constant.**  When a program compiles, a measurement in a
macro without parameters can be replaced by a push of the length that the
measured macro has by itself, wherever it is expanded and under whatever limits.
The program stays the same. -/
theorem compile_foldSize {listing : Listing} {limits limits' : Limits} {r : Registry} {a : Macro}
    {i source : Nat} {measured entry : Invocation} {start earlier : Nat} {s : Segment} {p : Program}
    (hr : r.Built) (ha : r.getMacro? a.name = some a) (hparams : a.params = [])
    (hop : a.ops[i]? = some ⟨.codeSize measured.name measured.args, source⟩)
    (hsize : (run (expand r limits' measured start) earlier).1 = .ok s)
    (h : compile ⟨listing, r, limits⟩ entry = .ok p) :
    compile ⟨listing, r.replaceOp a.name i [⟨.push (.ofSize s.size), source⟩], limits⟩ entry =
      .ok p := by
  have hmeasures : Measures r a i measured source s.size :=
    ⟨ha, hparams, hop, fun c hc => size_of_run_expand hsize hc⟩
  rw [compile_eq_ok_iff, Program.compile_eq_ok_iff] at h ⊢
  obtain ⟨hentry, -, code, n, hrun, hjumps, hlink⟩ := h
  obtain ⟨t, ht, hafford, rfl, -⟩ := run_expand_eq_ok_iff.1 hrun
  obtain ⟨t', ht', hfolds⟩ := hmeasures.expands_replaceOp ht
  refine ⟨?_, Registry.findCycle_eq_none_of_expands (hr.replaceOp _ _ _) ht', t'.segment 0, _,
    run_expand_eq_ok_iff.2 ⟨t', ht', hfolds.affordable hafford, rfl, rfl⟩, ?_, ?_⟩
  · exact (r.hasMacro_replaceOp ..).trans hentry
  · rw [hfolds.segment_eq]
    exact hjumps
  · -- linking reads the tables only
    rw [hfolds.segment_eq]
    exact hlink

/-- `SIZE` measures `HOLE`, whose jump goes to its own label.  `MAIN` has a label of
the same name, measures `SIZE` in turn and hands it to `HOLE` as an argument. -/
def holeSize : Macro := { Macro.ofName "SIZE" with ops := [⟨.codeSize "HOLE" ["0x5b5b"], 4⟩] }

@[inherit_doc holeSize]
def holes : Registry where
  macros := [
    { Macro.ofName "HOLE" with
      params := ["p"], ops := [⟨.templateRef "p", 1⟩, ⟨.jumpDest "x", 2⟩, ⟨.jumpRef "x", 3⟩] },
    holeSize,
    { Macro.ofName "MAIN" with
      ops := [⟨.call "SIZE" [], 5⟩, ⟨.jumpDest "x", 6⟩, ⟨.call "HOLE" ["SIZE"], 7⟩,
        ⟨.codeSize "SIZE" [], 8⟩, ⟨.jumpRef "x", 9⟩] }]

theorem compile_foldSize_holes :
    ∃ s p, (run (expand holes {} ⟨"HOLE", ["0x5b5b"]⟩ 40) 3).1 = .ok s ∧ s.size = 7 ∧
      p.bytes = [0x60, 7, 0x5b, 0x60, 7, 0x5b, 0x61, 0, 5, 0x60, 2, 0x61, 0, 5] ∧
      compile ⟨.empty, holes, .default⟩ ⟨"MAIN", []⟩ = .ok p ∧
      compile ⟨.empty, holes.replaceOp "SIZE" 0 [⟨.push (.ofSize s.size), 4⟩], .default⟩
        ⟨"MAIN", []⟩ = .ok p := by
  have hsize : (run (expand holes {} ⟨"HOLE", ["0x5b5b"]⟩ 40) 3).1.map Segment.size = .ok 7 := by
    decide +kernel
  have hbytes : (compile ⟨.empty, holes, .default⟩ ⟨"MAIN", []⟩).map Program.bytes =
      .ok [0x60, 7, 0x5b, 0x60, 7, 0x5b, 0x61, 0, 5, 0x60, 2, 0x61, 0, 5] := by
    decide +kernel
  rcases hrun : (run (expand holes {} ⟨"HOLE", ["0x5b5b"]⟩ 40) 3).1 with e | s
  · rw [hrun] at hsize
    cases hsize
  · rcases hcompile : compile ⟨.empty, holes, .default⟩ ⟨"MAIN", []⟩ with e | p
    · rw [hcompile] at hbytes
      cases hbytes
    · rw [hrun] at hsize
      rw [hcompile] at hbytes
      have hbuilt : holes.Built := Registry.built_of_nodup (by decide) (by decide)
      have hdeclared : holes.getMacro? holeSize.name = some holeSize := by decide
      have hop : holeSize.ops[0]? = some ⟨.codeSize "HOLE" ["0x5b5b"], 4⟩ := rfl
      have hfold := compile_foldSize hbuilt hdeclared rfl hop hrun hcompile
      exact ⟨s, p, rfl, Except.ok.inj hsize, Except.ok.inj hbytes, rfl, hfold⟩

end CompilationUnit

end MacroAssembler
