/-
MacroAssembler/Proofs/GraphCycles.lean

A cycle is found exactly when there is one.

The component of a name is what it reaches and what reaches it, and it holds a
cycle exactly when the name leads back to itself (`isCyclic_component_iff`).
The search for a cyclic component looks closely only at names that a name
finished no later refers to.  That misses nothing: as long as a component with
a cycle has a name that is still to come, it is found, because the last of its
names is referred to by another name of it, which has been passed by then
(`firstCyclic_ne_none`).

Main result: `findCycle_ne_none_iff`.
-/
import MacroAssembler.Proofs.GraphSearch

namespace MacroAssembler.CallGraph

open Relation

/-- Edges run between listed names, and no name has two lists of successors. -/
structure WellFormed (g : CallGraph) : Prop where
  keys : (g.edges.map Prod.fst).Nodup
  source : ∀ e ∈ g.edges, e.1 ∈ g.nodes
  target : ∀ e ∈ g.edges, ∀ u ∈ e.2, u ∈ g.nodes

/-! ### Lists of pairs -/

theorem lookup_of_mem {l : List (String × List String)} (hl : (l.map Prod.fst).Nodup)
    {k : String} {b : List String} (h : (k, b) ∈ l) : l.lookup k = some b := by
  induction l with
  | nil => cases h
  | cons e l ih =>
    obtain ⟨hk, hl⟩ := List.nodup_cons.1 hl
    obtain rfl | h := List.mem_cons.1 h
    · exact List.lookup_cons_self
    · have hne : k ≠ e.1 := by
        rintro rfl
        exact hk (List.mem_map.2 ⟨_, h, rfl⟩)
      rw [List.lookup_cons, beq_false_of_ne hne]
      exact ih hl h

theorem mem_of_lookup {l : List (String × List String)} {k : String} {b : List String}
    (h : l.lookup k = some b) : (k, b) ∈ l := by
  obtain ⟨before, after, rfl, -⟩ := List.lookup_eq_some_iff.1 h
  simp

theorem lookup_map_self {l : List String} (f : String → List String) {k : String} :
    (l.map fun v => (v, f v)).lookup k = if k ∈ l then some (f k) else none := by
  induction l with
  | nil => rfl
  | cons v l ih =>
    by_cases hk : k = v
    · subst hk
      simp
    · rw [List.map_cons, List.lookup_cons, beq_false_of_ne hk, ih]
      simp [hk]

namespace WellFormed

variable {g : CallGraph} (hg : g.WellFormed) {v u : String}

include hg

/-! ### Edges, forwards and backwards -/

theorem edge_iff : g.Edge v u ↔ ∃ outs, (v, outs) ∈ g.edges ∧ u ∈ outs := by
  rw [Edge, next]
  constructor
  · intro h
    rcases hl : g.edges.lookup v with - | outs
    · simp [hl] at h
    · rw [hl] at h
      exact ⟨outs, mem_of_lookup hl, h⟩
  · rintro ⟨outs, hmem, hu⟩
    rw [lookup_of_mem hg.keys hmem]
    exact hu

theorem closed : g.Closed := by
  intro v u h
  obtain ⟨outs, hmem, hu⟩ := hg.edge_iff.1 h
  exact ⟨hg.source _ hmem, hg.target _ hmem u hu⟩

theorem mem_callers_iff : u ∈ g.callers v ↔ g.Edge u v := by
  rw [hg.edge_iff, callers]
  simp

theorem flip_edge_iff : g.flip.Edge v u ↔ g.Edge u v := by
  show u ∈ ((g.nodes.map fun v => (v, g.callers v)).lookup v).getD [] ↔ _
  rw [lookup_map_self, ← hg.mem_callers_iff]
  by_cases hv : v ∈ g.nodes
  · simp [hv]
  · -- a name that is not listed has no callers
    have hno : u ∉ g.callers v := fun h => hv (hg.closed u v (hg.mem_callers_iff.1 h)).2
    simp [hv, hno]

theorem flip_closed : g.flip.Closed := by
  intro v u h
  exact (hg.closed u v (hg.flip_edge_iff.1 h)).symm

theorem reach_flip_iff : ReflTransGen g.flip.Edge v u ↔ ReflTransGen g.Edge u v := by
  have hswap : g.flip.Edge = Function.swap g.Edge := by
    funext x y
    exact propext hg.flip_edge_iff
  rw [hswap, reflTransGen_swap]

/-! ### Components -/

theorem mem_component (hv : v ∈ g.nodes) :
    u ∈ g.component v ↔ ReflTransGen g.Edge v u ∧ ReflTransGen g.Edge u v := by
  rw [component, List.mem_filter, List.contains_iff_mem, hg.closed.mem_reachableFrom,
    hg.flip_closed.mem_reachableFrom, hg.reach_flip_iff]
  exact and_congr (and_iff_right hv) (and_iff_right hv)

theorem mem_component_self (hv : v ∈ g.nodes) : v ∈ g.component v :=
  (hg.mem_component hv).2 ⟨.refl, .refl⟩

theorem nodup_component (v : String) : (g.component v).Nodup :=
  (hg.closed.nodup_reachableFrom v).filter _

/-- A component holds a cycle when its name leads back to itself. -/
theorem isCyclic_component_iff (hv : v ∈ g.nodes) :
    g.isCyclic v (g.component v) = true ↔ TransGen g.Edge v v := by
  have hnodup := hg.nodup_component v
  rw [isCyclic, Bool.or_eq_true, decide_eq_true_iff, calls, List.contains_iff_mem]
  constructor
  · rintro (hlength | hself)
    · -- a second name is reached and leads back
      obtain ⟨u, hu, hne⟩ : ∃ u ∈ g.component v, u ≠ v := by
        by_contra hall
        push Not at hall
        have hle := (List.Nodup.subperm hnodup fun u hu => List.mem_singleton.2 (hall u hu)).length_le
        exact absurd hlength (Nat.not_lt.2 hle)
      obtain ⟨hto, hback⟩ := (hg.mem_component hv).1 hu
      obtain rfl | hto := reflTransGen_iff_eq_or_transGen.1 hto
      · exact absurd rfl hne
      · exact hto.trans_left hback
    · exact .single hself
  · intro hcycle
    obtain ⟨u, hedge, hback⟩ := TransGen.head'_iff.1 hcycle
    by_cases hne : u = v
    · subst hne
      exact .inr hedge
    · have hu : u ∈ g.component v := (hg.mem_component hv).2 ⟨.single hedge, hback⟩
      have hpair : [u, v].Nodup := by simp [hne]
      have hsub : [u, v] ⊆ g.component v := by
        intro x hx
        simp only [List.mem_cons, List.not_mem_nil, or_false] at hx
        obtain rfl | rfl := hx
        · exact hu
        · exact hg.mem_component_self hv
      exact .inl (List.Nodup.subperm hpair hsub).length_le

/-- Names that lead to each other have the same component. -/
theorem mem_component_congr {w : String} (hv : v ∈ g.nodes) (hu : u ∈ g.component v) :
    w ∈ g.component v ↔ ReflTransGen g.Edge u w ∧ ReflTransGen g.Edge w u := by
  obtain ⟨hto, hback⟩ := (hg.mem_component hv).1 hu
  rw [hg.mem_component hv]
  constructor
  · exact fun h => ⟨hback.trans h.1, h.2.trans hto⟩
  · exact fun h => ⟨hto.trans h.1, h.2.trans hback⟩

end WellFormed

/-! ### Cyclic components -/

/-- A component that holds a cycle, of a name that satisfies `p`. -/
def CyclicComponent (g : CallGraph) (p : String → Bool) (members : List String) : Prop :=
  ∃ v, p v = true ∧ members = g.component v ∧ g.isCyclic v members = true

theorem firstCyclic_sound {g : CallGraph} {p : String → Bool} {before : List String}
    {opened : List (List String)} {rest : List String}
    (hopened : ∀ members ∈ opened, g.CyclicComponent p members) {members : List String}
    (h : g.firstCyclic p before opened rest = some members) : g.CyclicComponent p members := by
  induction rest generalizing before opened with
  | nil => cases h
  | cons v rest ih =>
    rw [firstCyclic] at h
    rcases hfind : opened.find? (·.contains v) with - | found
    · simp only [hfind] at h
      split at h
      · rename_i hp
        split at h
        · exact ih hopened h
        · rename_i hcyclic
          -- `v` opens a cyclic component
          have hmembers : g.CyclicComponent p (g.component v) :=
            ⟨v, (Bool.and_eq_true_iff.1 hp).1, rfl, by simpa using hcyclic⟩
          split at h
          · refine ih (fun ms hms => ?_) h
            obtain rfl | hms := List.mem_cons.1 hms
            · exact hmembers
            · exact hopened ms hms
          · obtain rfl := Option.some.inj h
            exact hmembers
      · exact ih hopened h
    · simp only [hfind] at h
      split at h
      · exact ih hopened h
      · obtain rfl := Option.some.inj h
        exact hopened found (List.mem_of_find?_eq_some hfind)

/-- In a cyclic component every name is referred to by another, or by itself. -/
theorem exists_caller_of_mem_component {g : CallGraph} (hg : g.WellFormed) {c v : String}
    (hc : c ∈ g.nodes) (hcycle : TransGen g.Edge c c) (hv : v ∈ g.component c) :
    TransGen g.Edge v v ∧ ∃ u ∈ g.component c, g.Edge u v := by
  obtain ⟨hto, hback⟩ := (hg.mem_component hc).1 hv
  have hround : TransGen g.Edge v v := (TransGen.trans_right hback hcycle).trans_left hto
  obtain ⟨u, hvu, huv⟩ := TransGen.tail'_iff.1 hround
  exact ⟨hround, u, (hg.mem_component_congr hc hv).2 ⟨hvu, .single huv⟩, huv⟩

/-- A cyclic component is found as long as one of its names is still to come. -/
theorem firstCyclic_ne_none {g : CallGraph} (hg : g.WellFormed) {p : String → Bool} {c : String}
    (hnodes : ∀ v, p v = true → v ∈ g.nodes) (hc : c ∈ g.nodes)
    (hp : ∀ v ∈ g.component c, p v = true) (hcycle : TransGen g.Edge c c)
    {before : List String} {opened : List (List String)} {rest : List String}
    (hopened : ∀ members ∈ opened, g.CyclicComponent p members)
    (hall : ∀ u ∈ g.component c, u ∈ before ∨ u ∈ rest) (hsome : ∃ u ∈ g.component c, u ∈ rest) :
    g.firstCyclic p before opened rest ≠ none := by
  induction rest generalizing before opened with
  | nil =>
    obtain ⟨u, -, hu⟩ := hsome
    cases hu
  | cons v rest ih =>
    have hall' : ∀ u ∈ g.component c, u ∈ v :: before ∨ u ∈ rest := by
      intro u hu
      have := hall u hu
      simp only [List.mem_cons] at this ⊢
      tauto
    -- it goes on as long as another name of the component is still to come
    have goOn : ∀ {opened : List (List String)}, (∀ members ∈ opened, g.CyclicComponent p members) →
        (v ∈ g.component c → ∃ u ∈ g.component c, u ∈ rest) →
        g.firstCyclic p (v :: before) opened rest ≠ none := by
      intro opened hopened hnext
      apply ih hopened hall'
      obtain ⟨u, hu, hmem⟩ := hsome
      obtain rfl | hmem := List.mem_cons.1 hmem
      · exact hnext hu
      · exact ⟨u, hu, hmem⟩
    -- a name of the component of `v` belongs to that of `c` if `v` does
    have hshare : ∀ {w u}, w ∈ g.nodes → v ∈ g.component w → u ∈ g.component w →
        v ∈ g.component c → u ∈ g.component c := by
      intro w u hw hvw huw hvc
      exact (hg.mem_component_congr hc hvc).2 ((hg.mem_component_congr hw hvw).1 huw)
    rw [firstCyclic]
    rcases hfind : opened.find? (·.contains v) with - | found
    · simp only [hfind]
      by_cases hlook : (p v && (g.callers v).any (v :: before).contains) = true
      · rw [if_pos hlook]
        have hpv : p v = true := (Bool.and_eq_true_iff.1 hlook).1
        have hv : v ∈ g.nodes := hnodes v hpv
        by_cases hcyclic : g.isCyclic v (g.component v) = true
        · simp only [hcyclic, Bool.not_true, Bool.false_eq_true, if_false]
          by_cases hany : rest.any (g.component v).contains = true
          · rw [if_pos hany]
            apply goOn
            · intro members hmembers
              obtain rfl | hmembers := List.mem_cons.1 hmembers
              · exact ⟨v, hpv, rfl, hcyclic⟩
              · exact hopened members hmembers
            · intro hvc
              obtain ⟨u, hu, hmem⟩ := List.any_eq_true.1 hany
              rw [List.contains_iff_mem] at hmem
              exact ⟨u, hshare hv (hg.mem_component_self hv) hmem hvc, hu⟩
          · rw [if_neg hany]
            exact Option.some_ne_none _
        · simp only [hcyclic, Bool.not_false, if_true]
          apply goOn hopened
          intro hvc
          -- a name of the component would lead back to itself
          have hround := (exists_caller_of_mem_component hg hc hcycle hvc).1
          exact absurd ((hg.isCyclic_component_iff hv).2 hround) hcyclic
      · rw [if_neg hlook]
        apply goOn hopened
        intro hvc
        -- the name that refers to `v` has not been passed yet
        obtain ⟨-, u, hu, hedge⟩ := exists_caller_of_mem_component hg hc hcycle hvc
        refine ⟨u, hu, (hall' u hu).resolve_left fun hpassed => hlook ?_⟩
        rw [Bool.and_eq_true]
        refine ⟨hp v hvc, List.any_eq_true.2 ⟨u, hg.mem_callers_iff.2 hedge, ?_⟩⟩
        exact List.contains_iff_mem.2 hpassed
    · simp only [hfind]
      obtain ⟨w, hpw, rfl, -⟩ := hopened found (List.mem_of_find?_eq_some hfind)
      have hvw : v ∈ g.component w := by simpa using List.find?_some hfind
      by_cases hany : rest.any (g.component w).contains = true
      · rw [if_pos hany]
        apply goOn hopened
        intro hvc
        obtain ⟨u, hu, hmem⟩ := List.any_eq_true.1 hany
        rw [List.contains_iff_mem] at hmem
        exact ⟨u, hshare (hnodes w hpw) hvw hmem hvc, hu⟩
      · rw [if_neg hany]
        exact Option.some_ne_none _

/-- A cycle is found exactly when the name reaches one. -/
theorem findCycle_ne_none_iff {g : CallGraph} (hg : g.WellFormed) {entry : String} :
    g.findCycle entry ≠ none ↔
      ∃ v, ReflTransGen g.Edge entry v ∧ TransGen g.Edge v v := by
  have hfind : g.findCycle entry ≠ none ↔
      g.firstCyclic (g.reachableFrom entry).contains [] [] g.finishOrder ≠ none := by
    rw [findCycle]
    split <;> simp_all
  have hnodes : ∀ v, (g.reachableFrom entry).contains v = true → v ∈ g.nodes := by
    intro v hv
    rw [List.contains_iff_mem, hg.closed.mem_reachableFrom] at hv
    exact hg.closed.mem_nodes_of_reach hv.2 hv.1
  rw [hfind]
  constructor
  · intro h
    obtain ⟨members, hmembers⟩ := Option.ne_none_iff_exists'.1 h
    obtain ⟨v, hp, rfl, hcyclic⟩ := firstCyclic_sound (by simp) hmembers
    have hround := (hg.isCyclic_component_iff (hnodes v hp)).1 hcyclic
    rw [List.contains_iff_mem, hg.closed.mem_reachableFrom] at hp
    exact ⟨v, hp.2, hround⟩
  · rintro ⟨v, hreach, hcycle⟩
    have hv : v ∈ g.nodes := by
      obtain ⟨u, hedge, -⟩ := TransGen.head'_iff.1 hcycle
      exact (hg.closed v u hedge).1
    have hentry : entry ∈ g.nodes := by
      obtain rfl | ⟨u, hedge, -⟩ := ReflTransGen.cases_head hreach
      · exact hv
      · exact (hg.closed entry u hedge).1
    apply firstCyclic_ne_none hg hnodes hv _ hcycle (by simp)
    · intro u hu
      have hto := ((hg.mem_component hv).1 hu).1
      exact .inr (hg.closed.mem_finishOrder (hg.closed.mem_nodes_of_reach hto hv))
    · exact ⟨v, hg.mem_component_self hv, hg.closed.mem_finishOrder hv⟩
    · intro u hu
      rw [List.contains_iff_mem, hg.closed.mem_reachableFrom]
      exact ⟨hentry, hreach.trans ((hg.mem_component hv).1 hu).1⟩

end MacroAssembler.CallGraph
