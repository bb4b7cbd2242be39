/-
MacroAssembler/Proofs/StaticCycles.lean

The call graph and the expander agree on cycles.

An edge of the call graph is an operation of a macro, and the expander follows
every operation.  So an invocation that has a tree hands a smaller tree to each
name that its own name refers to, and a name from which a cycle can be reached
has no tree with any arguments (`not_expands_of_cycle`).

The other way round, the expander follows edges of the graph and nothing else
as long as no macro on the way stands for one of its arguments (`NoTemplateRef`).  Then
the names of the calls around a call are a path of the graph.  Without a cycle
they are all different, and no longer than there are macros to be reached.

Main result: `Expansion.findCycle_agrees`.
-/
import MacroAssembler.Proofs.Assembly
import MacroAssembler.Proofs.CycleGuard
import MacroAssembler.Proofs.GraphCycles
import MacroAssembler.Proofs.Registration

namespace MacroAssembler

open Relation

/-! ### The call graph of a registry -/

namespace CallGraph

theorem next_ofRegistry (r : Registry) (v : String) :
    (ofRegistry r).next v = ((r.getMacro? v).map fun m => m.callees.eraseDups).getD [] := by
  rw [next]
  show ((r.macros.map fun m => (m.name, m.callees.eraseDups)).lookup v).getD [] = _
  rw [Registry.getMacro?]
  induction r.macros with
  | nil => rfl
  | cons m ms ih =>
    rw [List.map_cons, List.lookup_cons, List.find?_cons, BEq.comm]
    rcases m.name == v
    · exact ih
    · rfl

/-- A name refers to what its macro expands or measures. -/
theorem edge_ofRegistry {r : Registry} {v u : String} :
    (ofRegistry r).Edge v u ↔ ∃ m, r.getMacro? v = some m ∧ u ∈ m.callees := by
  rw [Edge, next_ofRegistry]
  rcases r.getMacro? v with - | m <;> simp [List.mem_eraseDups]

theorem wellFormed_ofRegistry {r : Registry} (hr : r.Built) : (ofRegistry r).WellFormed where
  keys := by
    have := hr.nodup.1
    simpa [ofRegistry, Function.comp_def] using this
  source := by
    intro e he
    obtain ⟨m, hm, rfl⟩ := List.mem_map.1 he
    exact List.mem_eraseDups.2 (List.mem_flatMap.2 ⟨m, hm, List.mem_cons_self⟩)
  target := by
    intro e he u hu
    obtain ⟨m, hm, rfl⟩ := List.mem_map.1 he
    apply List.mem_eraseDups.2
    exact List.mem_flatMap.2 ⟨m, hm, List.mem_cons_of_mem _ (List.mem_eraseDups.1 hu)⟩

theorem mem_reachableFrom_of_known {r : Registry} (hr : r.Built) {entry v : String}
    (hreach : ReflTransGen (ofRegistry r).Edge entry v) (hv : r.hasMacro v = true) :
    v ∈ (ofRegistry r).reachableFrom entry := by
  have hclosed := (wellFormed_ofRegistry hr).closed
  refine hclosed.mem_reachableFrom.2 ⟨?_, hreach⟩
  obtain rfl | ⟨u, hedge, -⟩ := ReflTransGen.cases_head hreach
  · obtain ⟨m, hm, rfl⟩ := Registry.hasMacro_iff.1 hv
    exact List.mem_eraseDups.2 (List.mem_flatMap.2 ⟨m, hm, List.mem_cons_self⟩)
  · exact (hclosed entry u hedge).1

end CallGraph

/-- No operation of the macro stands for one of its arguments. -/
def Macro.NoTemplateRef (m : Macro) : Prop := ∀ op ∈ m.ops, ∀ param, op.kind ≠ .templateRef param

instance (kind : OperationKind) : Decidable (∀ param, kind ≠ .templateRef param) :=
  match kind with
  | .templateRef param => isFalse fun h => h param rfl
  | .opcode _ | .push _ | .jumpDest _ | .jumpRef _ | .call _ _ | .codeSize _ _ | .tableStart _ =>
    isTrue fun _ h => OperationKind.noConfusion h

instance (m : Macro) : Decidable m.NoTemplateRef :=
  inferInstanceAs (Decidable (∀ op ∈ m.ops, ∀ param, op.kind ≠ .templateRef param))

namespace Expansion

variable {r : Registry}

/-! ### Edges are followed -/

/-- What a macro refers to is invoked, with whatever arguments. -/
theorem exists_invokes_of_edge {inv : Invocation} {u : String}
    (h : (CallGraph.ofRegistry r).Edge inv.name u) :
    ∃ inv', Invokes r inv inv' ∧ inv'.name = u := by
  obtain ⟨m, hm, hu⟩ := CallGraph.edge_ofRegistry.1 h
  rw [Macro.callees, List.mem_filterMap] at hu
  obtain ⟨⟨kind, source⟩, hop, hkind⟩ := hu
  cases kind with
  | call name args | codeSize name args =>
    obtain rfl : name = u := Option.some.inj hkind
    exact ⟨_, ⟨m, _, _, hm, hop, rfl, rfl⟩, rfl⟩
  | _ => cases hkind

/-- A name from which a cycle can be reached has no tree. -/
theorem not_expands_of_cycle {v : String} (hcycle : TransGen (CallGraph.ofRegistry r).Edge v v)
    {inv : Invocation} (hreach : ReflTransGen (CallGraph.ofRegistry r).Edge inv.name v)
    (t : ExpansionTree) : ¬ Expands r inv t := by
  induction hdepth : t.depth using Nat.strong_induction_on generalizing inv t with
  | _ depth ih =>
    intro ht
    -- a name on the way to the cycle, or on it, refers to another such name
    obtain ⟨u, hedge, hu⟩ : ∃ u, (CallGraph.ofRegistry r).Edge inv.name u ∧
        ReflTransGen (CallGraph.ofRegistry r).Edge u v := by
      obtain heq | ⟨u, hedge, hu⟩ := ReflTransGen.cases_head hreach
      · rw [heq]
        exact TransGen.head'_iff.1 hcycle
      · exact ⟨u, hedge, hu⟩
    obtain ⟨inv', hinvokes, rfl⟩ := exists_invokes_of_edge hedge
    obtain ⟨t', ht', hlt⟩ := ht.inner hinvokes
    exact ih _ (hdepth ▸ hlt) hu t' rfl ht'

/-! ### Nothing else is followed -/

/-- Without template references, an invocation invokes only what its macro
refers to. -/
theorem edge_of_invokes {inv inv' : Invocation}
    (hnoRef : ∀ m, r.getMacro? inv.name = some m → m.NoTemplateRef) (h : Invokes r inv inv') :
    (CallGraph.ofRegistry r).Edge inv.name inv'.name := by
  obtain ⟨m, ⟨kind, source⟩, a, hm, hop, ha, htarget⟩ := h
  apply CallGraph.edge_ofRegistry.2
  refine ⟨m, hm, ?_⟩
  rw [Macro.callees, List.mem_filterMap]
  cases kind with
  | call name args | codeSize name args =>
    cases ha
    cases htarget
    exact ⟨_, hop, rfl⟩
  | templateRef param => exact absurd rfl (hnoRef m hm _ hop param)
  | _ =>
    cases ha
    cases htarget

/-- The running expansions of a call, on a path of the graph from `entry` that
meets no name twice. -/
structure Trail (r : Registry) (entry : String) (c : Call) : Prop where
  reach : ReflTransGen (CallGraph.ofRegistry r).Edge entry c.inv.name
  known : ∀ a ∈ c.active, r.hasMacro a.name = true
  passed : ∀ a ∈ c.active, ReflTransGen (CallGraph.ofRegistry r).Edge entry a.name
  leads : ∀ a ∈ c.active, TransGen (CallGraph.ofRegistry r).Edge a.name c.inv.name
  nodup : (c.active.map Invocation.name).Nodup

/-- From a name on, the call graph has no cycle, and no macro stands for an
argument. -/
structure Tame (r : Registry) (entry : String) : Prop where
  acyclic : ∀ v, ReflTransGen (CallGraph.ofRegistry r).Edge entry v →
    ¬ TransGen (CallGraph.ofRegistry r).Edge v v
  noTemplateRef : ∀ v, ReflTransGen (CallGraph.ofRegistry r).Edge entry v →
    ∀ m, r.getMacro? v = some m → m.NoTemplateRef

variable {limits : Limits} {entry : String}

/-- The name at the end of a trail is a new one. -/
theorem Trail.fresh {c : Call} (h : Trail r entry c) (htame : Tame r entry) :
    c.inv.name ∉ c.active.map Invocation.name := by
  intro hmem
  obtain ⟨a, ha, hname⟩ := List.mem_map.1 hmem
  apply htame.acyclic c.inv.name h.reach
  have hleads := h.leads a ha
  rwa [hname] at hleads

theorem Trail.makes {c d : Call} (h : Trail r entry c) (htame : Tame r entry)
    (hmakes : c.Makes r limits d) : Trail r entry d := by
  have hedge : (CallGraph.ofRegistry r).Edge c.inv.name d.inv.name :=
    edge_of_invokes (htame.noTemplateRef _ h.reach) hmakes.invokes
  -- the call that is made has one more running expansion, that of its caller
  constructor
  · exact h.reach.tail hedge
  all_goals rw [hmakes.active_eq]
  · intro a ha
    obtain rfl | ha := List.mem_cons.1 ha
    · exact hmakes.known
    · exact h.known a ha
  · intro a ha
    obtain rfl | ha := List.mem_cons.1 ha
    · exact h.reach
    · exact h.passed a ha
  · intro a ha
    obtain rfl | ha := List.mem_cons.1 ha
    · exact .single hedge
    · exact (h.leads a ha).tail hedge
  · rw [List.map_cons, List.nodup_cons]
    exact ⟨h.fresh htame, h.nodup⟩

theorem trail_of_reached (htame : Tame r entry) {args : List String} {start earlier : Nat}
    {d : Call} (h : ReflTransGen (Call.Makes r limits) (.outermost limits ⟨entry, args⟩ start earlier) d) :
    Trail r entry d := by
  induction h with
  | refl =>
    refine ⟨.refl, ?_, ?_, ?_, List.nodup_nil⟩
    all_goals exact fun a ha => absurd ha List.not_mem_nil
  | tail _ hmakes ih => exact ih.makes htame hmakes

/-! ### Both ways -/

variable {args : List String} {start earlier : Nat}

theorem run_expand_ne_cycle (htame : Tame r entry) (chain : List String) :
    (run (expand r limits ⟨entry, args⟩ start) earlier).1 ≠ .error (.cycle chain) := by
  intro h
  have hrefusal : (CompileError.cycle (σ := Nat) chain).IsRefusal := trivial
  obtain ⟨d, hreach, href⟩ := Call.exists_refused
    (c := .outermost limits ⟨entry, args⟩ start earlier) hrefusal (Prod.ext h rfl)
  cases href with
  | cycle _ hd =>
    apply (trail_of_reached htame hreach).fresh htame
    exact List.mem_map_of_mem hd

/-- When the nesting is refused, more macros than its limit can be reached. -/
theorem depth_lt_of_run_expand (htame : Tame r entry) (hr : r.Built) {limit : Nat}
    {name : String}
    (h : (run (expand r limits ⟨entry, args⟩ start) earlier).1 =
      .error (.recursionLimit limit name)) :
    limits.depth < ((CallGraph.ofRegistry r).reachableFrom entry).countP r.hasMacro := by
  have hrefusal : (CompileError.recursionLimit (σ := Nat) limit name).IsRefusal := trivial
  obtain ⟨d, hreach, href⟩ := Call.exists_refused
    (c := .outermost limits ⟨entry, args⟩ start earlier) hrefusal (Prod.ext h rfl)
  have htrail := trail_of_reached htame hreach
  obtain ⟨callers, hactive, hroom, -, -⟩ := Call.exists_callers rfl hreach
  cases href with
  | depth hknown _ hzero =>
    -- the call that refuses and those around it have different names
    have hnodup : (d.inv.name :: d.active.map Invocation.name).Nodup :=
      List.nodup_cons.2 ⟨htrail.fresh htame, htrail.nodup⟩
    have hsub : (d.inv.name :: d.active.map Invocation.name) ⊆
        ((CallGraph.ofRegistry r).reachableFrom entry).filter r.hasMacro := by
      intro v hv
      obtain rfl | hv := List.mem_cons.1 hv
      · exact List.mem_filter.2
          ⟨CallGraph.mem_reachableFrom_of_known hr htrail.reach hknown, hknown⟩
      · obtain ⟨a, ha, rfl⟩ := List.mem_map.1 hv
        exact List.mem_filter.2 ⟨CallGraph.mem_reachableFrom_of_known hr (htrail.passed a ha)
          (htrail.known a ha), htrail.known a ha⟩
    have hle := (List.Nodup.subperm hnodup hsub).length_le
    rw [List.countP_eq_length_filter]
    rw [hzero, Nat.zero_add] at hroom
    simp only [List.length_cons, List.length_map, hactive] at hle
    exact Nat.lt_of_lt_of_le (Nat.lt_succ_of_le (Nat.le_of_eq hroom.symm)) hle

/-- If the call graph shows a cycle behind a name, the name cannot be expanded.
If it shows none, and no macro behind the name stands for an argument, then no
cycle is refused, and the nesting is refused only if its limit is below the
number of macros that the name reaches. -/
theorem findCycle_agrees (r : Registry) (hr : r.Built) (entry : String) :
    ((CallGraph.ofRegistry r).findCycle entry ≠ none →
      ∀ limits args start earlier,
        ∃ e, (run (expand r limits ⟨entry, args⟩ start) earlier).1 = .error e) ∧
    ((CallGraph.ofRegistry r).findCycle entry = none →
      (∀ v ∈ (CallGraph.ofRegistry r).reachableFrom entry,
        ∀ m, r.getMacro? v = some m → m.NoTemplateRef) →
      ∀ limits args start earlier,
        (∀ chain,
          (run (expand r limits ⟨entry, args⟩ start) earlier).1 ≠ .error (.cycle chain)) ∧
        (((CallGraph.ofRegistry r).reachableFrom entry).countP r.hasMacro ≤ limits.depth →
          ∀ limit name,
            (run (expand r limits ⟨entry, args⟩ start) earlier).1 ≠
              .error (.recursionLimit limit name))) := by
  have hg := CallGraph.wellFormed_ofRegistry hr
  constructor
  · intro hfound limits args start earlier
    obtain ⟨v, hreach, hcycle⟩ := (CallGraph.findCycle_ne_none_iff hg).1 hfound
    rcases hrun : (run (expand r limits ⟨entry, args⟩ start) earlier).1 with e | s
    · exact ⟨e, rfl⟩
    · obtain ⟨log, t, ht⟩ := (expandAt_yields r limits limits.depth [] none _ start).of_run hrun
      exact absurd ht.expands (not_expands_of_cycle hcycle hreach t)
  · intro hnone hnoRef limits args start earlier
    have htame : Tame r entry := by
      constructor
      · intro v hreach hcycle
        exact (CallGraph.findCycle_ne_none_iff hg).2 ⟨v, hreach, hcycle⟩ hnone
      · intro v hreach m hm
        refine hnoRef v (CallGraph.mem_reachableFrom_of_known hr hreach ?_) m hm
        rw [Registry.hasMacro, hm, Option.isSome_some]
    constructor
    · exact run_expand_ne_cycle htame
    · intro hle limit name h
      exact Nat.not_lt.2 hle (depth_lt_of_run_expand htame hr h)

/-- `MAIN` calls `B` twice and measures it, and `B` calls `A`; `LOOP` and `BACK`
refer to each other, one by a call and the other by a measurement. -/
def twoSides : Registry where
  macros := [
    { Macro.ofName "A" with ops := [⟨.opcode 0, 1⟩] },
    { Macro.ofName "B" with ops := [⟨.call "A" [], 2⟩] },
    { Macro.ofName "MAIN" with ops := [⟨.call "B" [], 3⟩, ⟨.codeSize "B" [], 4⟩, ⟨.call "B" [], 5⟩] },
    { Macro.ofName "LOOP" with ops := [⟨.codeSize "BACK" ["1"], 6⟩] },
    { Macro.ofName "BACK" with params := ["x"], ops := [⟨.call "LOOP" [], 7⟩] }]

theorem findCycle_twoSides :
    (∀ limits args start earlier,
      ∃ e, (run (expand twoSides limits ⟨"LOOP", args⟩ start) earlier).1 = .error e) ∧
    (∀ limits args start earlier, 3 ≤ limits.depth → ∀ chain limit name,
      (run (expand twoSides limits ⟨"MAIN", args⟩ start) earlier).1 ≠ .error (.cycle chain) ∧
      (run (expand twoSides limits ⟨"MAIN", args⟩ start) earlier).1 ≠
        .error (.recursionLimit limit name)) ∧
    (run (expand twoSides { depth := 2 } ⟨"MAIN", []⟩ 0) 0).1 = .error (.recursionLimit 2 "A") := by
  have hbuilt : twoSides.Built := Registry.built_of_nodup (by decide) (by decide)
  have hcycle : (CallGraph.ofRegistry twoSides).findCycle "LOOP" ≠ none := by decide +kernel
  have hnone : (CallGraph.ofRegistry twoSides).findCycle "MAIN" = none := by decide +kernel
  have hreach : (CallGraph.ofRegistry twoSides).reachableFrom "MAIN" = ["MAIN", "B", "A"] := by
    decide +kernel
  have hnoRef : ∀ v ∈ (CallGraph.ofRegistry twoSides).reachableFrom "MAIN",
      ∀ m, twoSides.getMacro? v = some m → m.NoTemplateRef := by
    have hall : ∀ m ∈ twoSides.macros, m.NoTemplateRef := by decide
    exact fun v _ m hm => hall m (List.mem_of_find?_eq_some hm)
  refine ⟨(findCycle_agrees twoSides hbuilt "LOOP").1 hcycle, ?_, by decide +kernel⟩
  intro limits args start earlier hdepth chain limit name
  obtain ⟨hne, hlt⟩ :=
    (findCycle_agrees twoSides hbuilt "MAIN").2 hnone hnoRef limits args start earlier
  refine ⟨hne chain, hlt ?_ limit name⟩
  rw [hreach]
  exact hdepth

end Expansion

end MacroAssembler
