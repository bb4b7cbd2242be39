/-
MacroAssembler/Proofs/OffsetOverflow.lean

Where an offset that does not fit into two bytes comes from.

Offsets are written in three places: into references to labels when the macro
that has the label is expanded, into the entries of jump tables, and into
references to tables.  An error about an offset names one of them, and the
offset is the one that it has in the layout, which knows no bound.

References to labels are filled in every expansion.  `Reaches` says which
expansions are made and where, on the way of expanding an invocation, and
whether their code is kept.  Code that is only measured is not, but it is laid
out at the offset of the operation that measures it and its references are
filled before it is dropped.  A measurement behind the first 64 KiB therefore
fails if the macro jumps to a label of its own, though nothing is emitted that
does not fit (`overflow_without_reference`).

Main result: `Program.offsetOf_of_compile`.
-/
import MacroAssembler.Proofs.Inlining
import MacroAssembler.Proofs.LinkLayout

namespace MacroAssembler

open Rendering Scope Relation

namespace Expansion

variable {r : Registry} {limits : Limits}

/-! ### Expansions on the way -/

/-- What an operation of `inv` does at the offset `pos'`, when `inv` is expanded at
the offset `pos`. -/
def Acts (r : Registry) (inv : Invocation) (pos : Nat) (a : Action) (pos' : Nat) : Prop :=
  ∃ m before op after u, r.getMacro? inv.name = some m ∧ m.ops = before ++ op :: after ∧
    Unfolds r m inv.args before u ∧ action r m inv.args op = .ok a ∧ pos' = pos + u.size

/-- While `inv` is expanded at the offset `pos`, `inv'` is expanded at the offset
`pos'`.  The code is emitted if `kept`, and otherwise it is part of a measurement. -/
inductive Reaches (r : Registry) : (kept : Bool) → Invocation → Nat → Invocation → Nat → Prop
  | self {inv pos} : Reaches r true inv pos inv pos
  | inlined {kept inv pos inv₁ pos₁ inv' pos'} : Acts r inv pos (.inline inv₁) pos₁ →
      Reaches r kept inv₁ pos₁ inv' pos' → Reaches r kept inv pos inv' pos'
  | measured {kept inv pos inv₁ pos₁ inv' pos'} : Acts r inv pos (.measure inv₁) pos₁ →
      Reaches r kept inv₁ pos₁ inv' pos' → Reaches r false inv pos inv' pos'

theorem assemble_yields (room : Nat) (active : List Invocation) (m : Macro) (values : List String)
    (pos index : Nat) (ops : List Operation) :
    Yields (assemble limits
        (emit r (fun site => expandAt r limits room active (some site)) m values) pos index ops)
      (fun s => ∃ t, Unfolds r m values ops t ∧ s = t.code index pos) CompileError.SlotsIntact := by
  have hemit := fst_emitLogged (fun site inv pos =>
    fst_expandLogged r limits room active (some site) inv pos) r m values
  rw [← fst_assembleLogged hemit]
  refine Yields.map ((assembleLogged_yields fun site =>
    expandLogged_yields r limits room active (some site)).mono ?_)
  rintro out ⟨t, ht, -, hout⟩
  exact ⟨t, ht, hout.segment⟩

namespace Call

variable {c d : Call}

theorem Makes.acts (h : Makes r limits c d) :
    ∃ a, a.target? = some d.inv ∧ Acts r c.inv c.pos a d.pos := by
  cases h with
  | @intro room m before op after s n a inv hm _ _ _ _ hops hrun ha hinv =>
    obtain ⟨u, hu, rfl⟩ := (assemble_yields _ _ _ _ _ _ _).of_run (congrArg Prod.fst hrun)
    refine ⟨a, hinv, m, before, op, after, u, hm, hops, hu, ha, ?_⟩
    rw [ExpansionTree.code, size_render, totalSize_layout]

/-- The calls that are made reach what they expand. -/
theorem reaches (h : ReflTransGen (Makes r limits) c d) :
    ∃ kept, Reaches r kept c.inv c.pos d.inv d.pos := by
  induction h using ReflTransGen.head_induction_on with
  | refl => exact ⟨true, .self⟩
  | head hmakes _ ih =>
    obtain ⟨kept, hreach⟩ := ih
    obtain ⟨a, htarget, hacts⟩ := hmakes.acts
    cases a with
    | emit i => cases htarget
    | inline inv =>
      obtain rfl := Option.some.inj htarget
      exact ⟨kept, .inlined hacts hreach⟩
    | measure inv =>
      obtain rfl := Option.some.inj htarget
      exact ⟨false, .measured hacts hreach⟩

end Call

/-! ### References in the whole layout -/

theorem filled_of_filledInside {pos : Nat} {l : List Placed} (hl : Laid pos l) {p : Placed}
    {n : Nat} (h : filledInside l p = some n) : filled l p = some n := by
  rw [← settle_filledInside hl, settle, h, Option.some_or]

theorem separate_layout (t u : ExpansionTree) (index pos pos' : Nat) :
    Separate (t.layout index pos) (u.layout (index + t.length) pos') := by
  intro p hp q hq k b c hb hc
  have hlt := ExpansionTree.lt_of_mem_layout hp hb
  exact absurd (le_of_mem_layout hq hc) (Nat.not_le_of_lt hlt)

/-- What is filled in an expansion stays so in the expansion that inlines it. -/
theorem Acts.exists_filled {inv inv₁ : Invocation} {pos pos₁ : Nat}
    (h : Acts r inv pos (.inline inv₁) pos₁) {t : ExpansionTree} (ht : Expands r inv t) :
    ∃ child, Expands r inv₁ child ∧ ∀ p ∈ child.layout 0 pos₁, ∀ n,
      filled (child.layout 0 pos₁) p = some n →
        ∃ q ∈ t.layout 0 pos, q.instr = p.instr ∧ filled (t.layout 0 pos) q = some n := by
  obtain ⟨m, before, op, after, u, hm, hops, hu, ha, rfl⟩ := h
  obtain ⟨m', hm', -, ht⟩ := ht
  obtain rfl : m = m' := Option.some.inj (hm.symm.trans hm')
  rw [hops] at ht
  obtain ⟨u', w, rfl, hu', hw⟩ := unfolds_append_iff.1 ht
  obtain rfl := hu'.unique hu
  cases hw with
  | instr hb => simp [ha] at hb
  | measured hb => simp [ha] at hb
  | @inlined _ _ _ inv₂ m₂ child _ rest hb hm₂ harity hchild =>
    obtain rfl : inv₁ = inv₂ := by simpa [ha] using hb
    refine ⟨child, ⟨m₂, hm₂, harity, hchild⟩, ?_⟩
    intro p hp n hn
    have hlayout : (u' ++ .inlined child rest).layout 0 pos = u'.layout 0 pos ++
        ((child.layout 0 (pos + u'.size)).map (Placed.inside (0 + u'.length)) ++
          rest.layout (0 + u'.length + 1) (pos + u'.size + child.size)) :=
      ExpansionTree.layout_append u' _ 0 pos
    have hmem : p.inside (0 + u'.length) ∈
        (child.layout 0 (pos + u'.size)).map (Placed.inside (0 + u'.length)) :=
      List.mem_map_of_mem hp
    refine ⟨p.inside (0 + u'.length), ?_, rfl, filled_of_filledInside (laid_layout _ _ _) ?_⟩
    · rw [hlayout]
      exact List.mem_append_right _ (List.mem_append_left _ hmem)
    · -- neither what is in front of the expansion nor what follows it has to be asked
      have hfront : Separate (u'.layout 0 pos) (_ ++ _) :=
        separate_layout u' (.inlined child rest) 0 pos (pos + u'.size)
      have hbehind := separate_inlined child rest (0 + u'.length) (pos + u'.size)
        (pos + u'.size + child.size)
      rw [hlayout, (filledInside_append hfront).2 (List.mem_append_left _ hmem),
        (filledInside_append hbehind).1 hmem, filledInside_map_inside, hn]

/-- A reference in code that is kept is in the whole layout, with the same offset. -/
theorem Reaches.exists_filled {kept : Bool} {inv inv' : Invocation} {pos pos' : Nat}
    (h : Reaches r kept inv pos inv' pos') (hkept : kept = true) {t t' : ExpansionTree}
    (ht : Expands r inv t) (ht' : Expands r inv' t') {p : Placed} (hp : p ∈ t'.layout 0 pos')
    {n : Nat} (hn : filled (t'.layout 0 pos') p = some n) :
    ∃ q ∈ t.layout 0 pos, q.instr = p.instr ∧ filled (t.layout 0 pos) q = some n := by
  induction h generalizing t with
  | self =>
    obtain rfl := ht.unique ht'
    exact ⟨p, hp, rfl, hn⟩
  | inlined hacts _ ih =>
    obtain ⟨child, hchild, hembed⟩ := hacts.exists_filled ht
    obtain ⟨q, hq, hinstr, hfilled⟩ := ih hkept hchild ht' hp hn
    obtain ⟨q', hq', hinstr', hfilled'⟩ := hembed q hq n hfilled
    exact ⟨q', hq', hinstr'.trans hinstr, hfilled'⟩
  | measured => cases hkept

/-! ### Overflows -/

/-- A reference to `label` has the offset `n`, in an expansion that is made while
`inv` is expanded at `pos`. -/
def JumpsTo (r : Registry) (kept : Bool) (inv : Invocation) (pos : Nat) (label : String) (n : Nat) :
    Prop :=
  ∃ inv' pos' t p, Reaches r kept inv pos inv' pos' ∧ Expands r inv' t ∧ p ∈ t.layout 0 pos' ∧
    p.instr = .jumpRef label ∧ filled (t.layout 0 pos') p = some n

/-- A call that cannot fill a reference has an offset for it that does not fit. -/
theorem Call.Fails.overflow {c : Call} {e : CompileError Nat} (h : c.Fails r limits e) {n : Nat}
    {what : String} (he : e = .offsetOverflow n what) :
    0xffff < n ∧ ∃ t p label, Expands r c.inv t ∧ p ∈ t.layout 0 c.pos ∧
      p.instr = .jumpRef label ∧ filled (t.layout 0 c.pos) p = some n ∧
      what = Segment.jumpName label := by
  subst he
  cases h with
  | refuses h => cases h
  | action ha => cases site?_of_action ha
  | @resolve room m s _ _ hm harity hrun hres =>
    obtain ⟨t, ht, rfl⟩ := (assemble_yields _ _ _ _ _ _ _).of_run (congrArg Prod.fst hrun)
    have hl := laid_layout t 0 c.pos
    obtain ⟨-, hok, -⟩ | ⟨k, label, ⟨p, hp, hi, hv, hk, hlt⟩, herr⟩ :=
      resolve_render (v := filledInside (t.layout 0 c.pos)) hl
    · rw [show Segment.resolve c.pos (render _ _) = .error _ from hres] at hok
      cases hok
    · rw [show Segment.resolve c.pos (render _ _) = .error _ from hres] at herr
      obtain ⟨rfl, rfl⟩ : n = k ∧ what = Segment.jumpName label := by simpa using herr
      refine ⟨hlt, t, p, label, ⟨m, hm, harity, ht⟩, hp, hi, ?_, rfl⟩
      rw [← settle_filledInside hl, settle, hv, Option.none_or, known_jumpRef hi, hk]

/-- An expansion that fails for an offset has a reference to a label there. -/
theorem jumpsTo_of_run_expand {inv : Invocation} {pos earlier n' n : Nat} {what : String}
    (h : run (expand r limits inv pos) earlier = (.error (.offsetOverflow n what), n')) :
    0xffff < n ∧ ∃ kept label, JumpsTo r kept inv pos label n ∧ what = Segment.jumpName label := by
  obtain ⟨d, hmakes, hfails⟩ := Call.exists_fails (c := .outermost limits inv pos earlier) h
  obtain ⟨kept, hreach⟩ := Call.reaches hmakes
  obtain ⟨hlt, t, p, label, ht, hp, hi, hfilled, hwhat⟩ := hfails.overflow rfl
  exact ⟨hlt, kept, label, ⟨d.inv, d.pos, t, p, hreach, ht, hp, hi, hfilled⟩, hwhat⟩

end Expansion

namespace Program

open Expansion

/-- What is named in an error about the offset `n`, when `entry` is compiled. -/
inductive OffsetOf (r : Registry) (entry : Invocation) (n : Nat) : String → Prop
  /-- A reference to a label in code that is emitted.  If the program has a layout,
  the reference is in it. -/
  | emitted {label} : JumpsTo r true entry 0 label n →
      (∀ t, Expands r entry t → ∃ p ∈ t.layout 0 0, p.instr = .jumpRef label ∧
        filled (t.layout 0 0) p = some n) →
      OffsetOf r entry n (Segment.jumpName label)
  /-- A reference to a label in code that is measured, at the place where it is
  measured. -/
  | measured {label} : JumpsTo r false entry 0 label n →
      OffsetOf r entry n (Segment.jumpName label)
  /-- The label of an entry of a jump table. -/
  | entry {t u label} : Expands r entry t → u ∈ r.tables → label ∈ u.labels →
      (labelsOf (t.layout 0 0)).offset? label = some n →
      OffsetOf r entry n (entryName u.name label)
  /-- A jump table that is referred to. -/
  | table {t p table} : Expands r entry t → p ∈ t.layout 0 0 → p.instr = .tableRef table →
      tableOffset? (place t.size r.tables) table = some n →
      OffsetOf r entry n (tableName table)

theorem offsetOf_of_jumpsTo {r : Registry} {entry : Invocation} {kept : Bool} {label : String}
    {n : Nat} (h : JumpsTo r kept entry 0 label n) :
    OffsetOf r entry n (Segment.jumpName label) := by
  cases kept with
  | false => exact .measured h
  | true =>
    refine .emitted h ?_
    intro t ht
    obtain ⟨inv', pos', t', p, hreach, ht', hp, hi, hfilled⟩ := h
    obtain ⟨q, hq, hinstr, hfilled'⟩ := hreach.exists_filled rfl ht ht' hp hfilled
    exact ⟨q, hq, hinstr.trans hi, hfilled'⟩

theorem LinkFault.offsetOf {r : Registry} {limits : Limits} {entry : Invocation}
    {t : ExpansionTree} (ht : Expands r entry t) {e : CompileError Nat}
    (h : LinkFault r limits (t.layout 0 0) e) {n : Nat} {what : String}
    (he : e = .offsetOverflow n what) : 0xffff < n ∧ OffsetOf r entry n what := by
  subst he
  cases h with
  | entry hu hfault =>
    cases hfault with
    | overflow hlabel hn hlt => exact ⟨hlt, .entry ht hu hlabel hn⟩
  | table hlay hfault =>
    obtain ⟨rfl, -⟩ := layOut_eq_ok hlay
    rw [totalSize_layout] at hfault
    cases hfault with
    | overflow hp hi hn hlt => exact ⟨hlt, .table ht hp hi hn⟩

/-- **An offset that is reported is one of the layout.**  When a compilation fails
for an offset, the offset does not fit into two bytes, and it is that of a
reference to a label, of an entry of a jump table or of a table that is referred
to.  A reference to a label may be in code that is measured. -/
theorem offsetOf_of_compile {r : Registry} {limits : Limits} {entry : Invocation} {n : Nat}
    {what : String} (h : compile r limits entry = .error (.offsetOverflow n what)) :
    0xffff < n ∧ OffsetOf r entry n what := by
  rw [compile] at h
  split at h
  · cases h
  · split at h
    · cases h
    · rcases hrun : run (expand r limits entry 0) 0 with ⟨e | s, k⟩
      · rw [hrun] at h
        obtain rfl := Except.error.inj h
        obtain ⟨hlt, kept, label, hjumps, rfl⟩ := jumpsTo_of_run_expand hrun
        exact ⟨hlt, offsetOf_of_jumpsTo hjumps⟩
      · simp only [hrun, bind, Except.bind] at h
        split at h
        · obtain ⟨t, ht, -, rfl, -⟩ := run_expand_eq_ok_iff.1 hrun
          have hreturns := link_segment_returns r limits t
          rw [h] at hreturns
          exact LinkFault.offsetOf ht hreturns rfl
        · cases h

end Program

/-! ### A measurement behind 64 KiB -/

namespace ExpansionTree

/-- No label is referred to, and nothing is measured. -/
def JumpFree : ExpansionTree → Prop
  | .done => True
  | .instr _ i rest => (∀ label, i ≠ .jumpRef label) ∧ rest.JumpFree
  | .inlined child rest => child.JumpFree ∧ rest.JumpFree
  | .measured _ _ _ => False

theorem JumpFree.instr_ne {t : ExpansionTree} (h : t.JumpFree) {index pos : Nat} :
    ∀ p ∈ t.layout index pos, ∀ label, p.instr ≠ .jumpRef label := by
  induction t generalizing index pos with
  | done => simp [layout]
  | instr _ i rest ih =>
    intro p hp
    obtain rfl | hp := List.mem_cons.1 hp
    · exact h.1
    · exact ih h.2 p hp
  | inlined child rest ihc ih =>
    intro p hp
    obtain hp | hp := List.mem_append.1 hp
    · obtain ⟨q, hq, rfl⟩ := List.mem_map.1 hp
      exact ihc h.1 q hq
    · exact ih h.2 p hp
  | measured => exact h.elim

theorem JumpFree.fitsOutside {t : ExpansionTree} (h : t.JumpFree) (pos : Nat) :
    t.FitsOutside pos := by
  intro p hp _ n hn
  obtain ⟨label, hi, -⟩ := exists_of_known hn
  exact absurd hi (h.instr_ne p hp label)

theorem JumpFree.fitsInside {t : ExpansionTree} (h : t.JumpFree) (pos : Nat) :
    t.FitsInside pos := by
  induction t generalizing pos with
  | done => trivial
  | instr _ i rest ih => exact ih h.2 _
  | inlined child rest ihc ih => exact ⟨ihc h.1 _, h.1.fitsOutside _, ih h.2 _⟩
  | measured => exact h.elim

theorem JumpFree.within {t : ExpansionTree} (h : t.JumpFree) {bound pos : Nat}
    (hle : pos + t.size ≤ bound) : t.Within bound pos := by
  induction t generalizing pos with
  | done => trivial
  | instr _ i rest ih =>
    rw [size] at hle
    exact ⟨by omega, ih h.2 (by omega)⟩
  | inlined child rest ihc ih =>
    rw [size] at hle
    exact ⟨ihc h.1 (by omega), by omega, ih h.2 (by omega)⟩
  | measured => exact h.elim

/-- Some expansions of one tree. -/
def copies (child : ExpansionTree) : Nat → ExpansionTree
  | 0 => .done
  | k + 1 => .inlined child (copies child k)

variable (child : ExpansionTree) (k : Nat)

theorem size_copies : (copies child k).size = k * child.size := by
  induction k with
  | zero => simp [copies, size]
  | succ k ih => rw [copies, size, ih, Nat.succ_mul, Nat.add_comm]

theorem nested_copies : (copies child k).nested = k * (child.nested + 1) := by
  induction k with
  | zero => simp [copies, nested]
  | succ k ih => rw [copies, nested, ih, Nat.succ_mul, Nat.add_comm]

theorem depth_copies_le : (copies child k).depth ≤ child.depth + 1 := by
  induction k with
  | zero => simp [copies, depth]
  | succ k ih => exact max_le (Nat.le_refl _) ih

theorem jumpFree_copies {child : ExpansionTree} (h : child.JumpFree) (k : Nat) :
    (copies child k).JumpFree := by
  induction k with
  | zero => trivial
  | succ k ih => exact ⟨h, ih⟩

end ExpansionTree

theorem unfolds_copies {r : Registry} {m : Macro} {values : List String} {op : Operation}
    {inv : Invocation} (ha : Expansion.action r m values op = .ok (.inline inv))
    {child : ExpansionTree} (hchild : Expands r inv child) (k : Nat) :
    Unfolds r m values (List.replicate k op) (child.copies k) := by
  obtain ⟨m', hm', harity, hops⟩ := hchild
  induction k with
  | zero => exact .done
  | succ k ih => exact .inlined ha hm' harity hops ih

namespace Program

open Expansion ExpansionTree

/-- `D` has 65536 bytes, and `MAIN` measures `L` behind it.  The jump of `L` goes to
a label of `L`. -/
def tower : Registry where
  macros := [
    { Macro.ofName "A" with ops := List.replicate 16 ⟨.opcode 0x58, 1⟩ },
    { Macro.ofName "B" with ops := List.replicate 16 ⟨.call "A" [], 2⟩ },
    { Macro.ofName "C" with ops := List.replicate 16 ⟨.call "B" [], 3⟩ },
    { Macro.ofName "D" with ops := List.replicate 16 ⟨.call "C" [], 4⟩ },
    { Macro.ofName "L" with ops := [⟨.jumpDest "x", 5⟩, ⟨.jumpRef "x", 6⟩] },
    { Macro.ofName "MAIN" with ops := [⟨.call "D" [], 7⟩, ⟨.codeSize "L" [], 8⟩] }]

/-- The tree of `A`. -/
def towerBase : ExpansionTree :=
  (List.replicate 16 ()).foldr (fun _ t => .instr 1 (.opcode 0x58) t) .done

/-- The tree of `D`. -/
def towerTree : ExpansionTree := ((towerBase.copies 16).copies 16).copies 16

theorem jumpFree_towerTree : towerTree.JumpFree := by
  have hbase : towerBase.JumpFree := by simp [towerBase, JumpFree]
  exact jumpFree_copies (jumpFree_copies (jumpFree_copies hbase 16) 16) 16

theorem size_towerTree : towerTree.size = 65536 := by
  simp [towerTree, size_copies, towerBase, ExpansionTree.size, Instr.size]

theorem expansions_towerTree : towerTree.expansions = 4369 := by
  simp [expansions, towerTree, nested_copies, towerBase, nested]

theorem expands_towerTree : Expands tower ⟨"D", []⟩ towerTree := by
  have hbase : Expands tower ⟨"A", []⟩ towerBase := by
    refine ⟨_, rfl, rfl, ?_⟩
    repeat refine Unfolds.instr rfl ?_
    exact .done
  have hB : Expands tower ⟨"B", []⟩ (towerBase.copies 16) :=
    ⟨_, rfl, rfl, unfolds_copies rfl hbase 16⟩
  have hC : Expands tower ⟨"C", []⟩ ((towerBase.copies 16).copies 16) :=
    ⟨_, rfl, rfl, unfolds_copies rfl hB 16⟩
  exact ⟨_, rfl, rfl, unfolds_copies rfl hC 16⟩

theorem affordable_towerTree : towerTree.Affordable {} 255 0 1 := by
  refine ⟨?_, ?_, jumpFree_towerTree.within ?_, jumpFree_towerTree.fitsInside 0,
    jumpFree_towerTree.fitsOutside 0⟩
  · have h₁ := depth_copies_le towerBase 16
    have h₂ := depth_copies_le (towerBase.copies 16) 16
    have h₃ := depth_copies_le ((towerBase.copies 16).copies 16) 16
    have hbase : towerBase.depth = 1 := rfl
    rw [towerTree]
    omega
  · rw [expansions_towerTree]
    decide
  · rw [size_towerTree]
    decide

theorem run_expand_tower :
    run (expand tower {} ⟨"MAIN", []⟩ 0) 0 =
      (.error (.offsetOverflow 65536 (Segment.jumpName "x")), 4371) := by
  have hinvokes : Invokes tower ⟨"MAIN", []⟩ ⟨"D", []⟩ :=
    ⟨_, _, _, rfl, List.mem_cons_self, rfl, rfl⟩
  have hD : run (expandAt tower {} 255 [⟨"MAIN", []⟩] (some 7) ⟨"D", []⟩ 0) 1 =
      (.ok (towerTree.segment 0), 4370) := by
    have hactive : ∀ a ∈ [(⟨"MAIN", []⟩ : Invocation)], TransGen (Invokes tower) a ⟨"D", []⟩ :=
      List.forall_mem_singleton.2 (.single hinvokes)
    have hcosts := (expandAt_costs expands_towerTree hactive 255 (some 7) 0 1 _ _).2
      ⟨affordable_towerTree, rfl, rfl⟩
    rwa [expansions_towerTree] at hcosts
  have hL : run (expandAt tower {} 255 [⟨"MAIN", []⟩] (some 8) ⟨"L", []⟩ 65536) 4370 =
      (.error (.offsetOverflow 65536 (Segment.jumpName "x")), 4371) := by
    decide +kernel
  have hsize : 0 + (towerTree.segment 0).size = 65536 := by
    rw [size_segment, size_towerTree]
  show run (expandAt tower {} (255 + 1) [] none ⟨"MAIN", []⟩ 0) 0 = _
  rw [expandAt_succ (m := tower.macros.getLast (by decide)) rfl List.not_mem_nil]
  refine run_bind_eq_error.2 (.inr ⟨(), 1, rfl, ?_⟩)
  refine run_bind_eq_error.2 (.inl ?_)
  -- `D` is expanded, and the measurement behind it fails
  refine run_bind_eq_error.2 (.inr ⟨_, _, hD, ?_⟩)
  simp only [hsize]
  refine run_bind_eq_error.2 (.inl ?_)
  refine run_bind_eq_error.2 (.inl ?_)
  exact run_bind_eq_error.2 (.inl hL)

theorem compile_tower :
    compile tower {} ⟨"MAIN", []⟩ = .error (.offsetOverflow 65536 (Segment.jumpName "x")) := by
  have hcycle : (CallGraph.ofRegistry tower).findCycle "MAIN" = none := by decide +kernel
  rw [compile, if_neg (by decide), hcycle, run_expand_tower]
  rfl

theorem offsetOf_tower :
    compile tower {} ⟨"MAIN", []⟩ = .error (.offsetOverflow 65536 (Segment.jumpName "x")) ∧
      0xffff < 65536 ∧ OffsetOf tower ⟨"MAIN", []⟩ 65536 (Segment.jumpName "x") :=
  ⟨compile_tower, offsetOf_of_compile compile_tower⟩

/-- An offset is reported that nothing in the program has: no reference to a label
is emitted and there is no table, and yet a label is too far. -/
theorem overflow_without_reference :
    compile tower {} ⟨"MAIN", []⟩ = .error (.offsetOverflow 65536 (Segment.jumpName "x")) ∧
      tower.tables = [] ∧ ∃ t, Expands tower ⟨"MAIN", []⟩ t ∧
        ∀ p ∈ t.layout 0 0, ∀ label, p.instr ≠ .jumpRef label := by
  have hL : Expands tower ⟨"L", []⟩ _ := ⟨_, rfl, rfl, .instr rfl (.instr rfl .done)⟩
  obtain ⟨mL, hmL, harityL, hopsL⟩ := hL
  obtain ⟨m, hm, harity, hops⟩ := expands_towerTree
  refine ⟨compile_tower, rfl, _, ⟨_, rfl, rfl, .inlined rfl hm harity hops
    (.measured rfl hmL harityL hopsL .done)⟩, ?_⟩
  intro p hp label
  obtain hp | hp := List.mem_append.1 hp
  · obtain ⟨q, hq, rfl⟩ := List.mem_map.1 hp
    exact jumpFree_towerTree.instr_ne q hq label
  · obtain rfl := List.mem_singleton.1 hp
    simp

end Program

end MacroAssembler
