/-
MacroAssembler/Proofs/LimitThresholds.lean

The least limits that a program compiles under.

A program that compiles under some limits has a tree, and the tree lists every
expansion that is made on the way, with its depth and its place
(`ExpansionTree.frames`).  Three numbers are read off the list: how deep it goes,
how long it is, and where the last measured expansion ends.  Measured code is
not kept, so it may end behind the end of the program, and it is then what the
limit on the length is about.

The expander looks at its limits at many places, before an expansion, behind
each operation, and once more when the tables are there.  Together the tests come
to the three numbers and the length of the program, each compared once
(`ExpansionTree.demand_le_iff`).  Everything else that can go wrong does not depend on the
limits.

Main result: `CompilationUnit.compile_iff_demand_le`.
-/
import MacroAssembler.Proofs.LimitMonotone
import MacroAssembler.Proofs.LinkLayout
import MacroAssembler.Proofs.UnrelatedMacro

namespace MacroAssembler

/-! ### All expansions of a tree -/

/-- An expansion at its place. -/
structure Frame where
  /-- Number of expansions around it, itself included. -/
  depth : Nat
  /-- Offset of its first byte. -/
  start : Nat
  /-- Bytes of its code. -/
  size : Nat
  /-- Whether it is made for its length only. -/
  measured : Bool
  deriving Repr, DecidableEq

/-- Where the code of an expansion ends. -/
def Frame.stop (f : Frame) : Nat := f.start + f.size

/-- The greatest of some numbers, zero if there are none. -/
def greatest (ns : List Nat) : Nat := ns.foldr max 0

theorem greatest_le_iff {ns : List Nat} {bound : Nat} :
    greatest ns ≤ bound ↔ ∀ n ∈ ns, n ≤ bound := by
  induction ns with
  | nil => simp [greatest]
  | cons n ns ih =>
    rw [greatest, List.foldr_cons, ← greatest, Nat.max_le, ih, List.forall_mem_cons]

namespace ExpansionTree

/-- The expansions inside one at `depth`, whose operations are laid out from `pos`
on. -/
def framesInside : ExpansionTree → (depth pos : Nat) → List Frame
  | done, _, _ => []
  | instr _ i rest, depth, pos => rest.framesInside depth (pos + i.size)
  | inlined child rest, depth, pos =>
    ⟨depth + 1, pos, child.size, false⟩ ::
      (child.framesInside (depth + 1) pos ++ rest.framesInside depth (pos + child.size))
  | measured _ child rest, depth, pos =>
    ⟨depth + 1, pos, child.size, true⟩ ::
      (child.framesInside (depth + 1) pos ++
        rest.framesInside depth (pos + (Instr.push (.ofSize child.size)).size))

/-- All expansions of a program, the entry first. -/
def frames (t : ExpansionTree) : List Frame := ⟨1, 0, t.size, false⟩ :: t.framesInside 1 0

/-- The limits that a program of `size` bytes needs: the greatest depth of its
expansions, their number, and the end of the program or of a measured expansion,
whichever is greater. -/
def demand (t : ExpansionTree) (size : Nat) : Limits where
  depth := greatest (t.frames.map Frame.depth)
  expansions := t.frames.length
  bytes := max size (greatest ((t.frames.filter Frame.measured).map Frame.stop))

theorem length_framesInside (t : ExpansionTree) (depth pos : Nat) :
    (t.framesInside depth pos).length = t.nested := by
  induction t generalizing depth pos with
  | done => rfl
  | instr _ i rest ih => exact ih depth _
  | inlined child rest ihc ih | measured _ child rest ihc ih =>
    rw [framesInside, List.length_cons, List.length_append, ihc, ih, nested]
    omega

/-- The expansions go no deeper than a bound when the tree does not. -/
theorem depth_framesInside {t : ExpansionTree} {depth pos bound : Nat} (hle : depth ≤ bound) :
    (∀ f ∈ t.framesInside depth pos, f.depth ≤ bound) ↔ depth + t.depth ≤ bound + 1 := by
  induction t generalizing depth pos with
  | done => simpa [framesInside, ExpansionTree.depth] using hle
  | instr _ i rest ih => exact ih hle
  | inlined child rest ihc ih | measured _ child rest ihc ih =>
    have hpos := child.depth_pos
    rw [framesInside, List.forall_mem_cons, List.forall_mem_append, ih hle, ExpansionTree.depth]
    constructor
    · rintro ⟨(hopen : depth + 1 ≤ bound), hchild, hrest⟩
      have hdeep := (ihc hopen).1 hchild
      omega
    · intro hmax
      have hopen : depth + 1 ≤ bound := by omega
      exact ⟨hopen, (ihc hopen).2 (by omega), by omega⟩

/-- No operation ends behind a bound when the code does not and no measured
expansion does. -/
theorem within_iff {t : ExpansionTree} (depth : Nat) {pos bound : Nat} (hle : pos ≤ bound) :
    t.Within bound pos ↔ pos + t.size ≤ bound ∧
      ∀ f ∈ t.framesInside depth pos, f.measured = true → f.stop ≤ bound := by
  induction t generalizing depth pos with
  | done => simpa [Within, framesInside, size] using hle
  | instr _ i rest ih =>
    rw [Within, framesInside, size, ← Nat.add_assoc]
    constructor
    · rintro ⟨hnext, hrest⟩
      exact (ih _ hnext).1 hrest
    · rintro ⟨hend, hframes⟩
      have hnext : pos + i.size ≤ bound := by omega
      exact ⟨hnext, (ih _ hnext).2 ⟨hend, hframes⟩⟩
  | inlined child rest ihc ih =>
    rw [Within, framesInside, size, List.forall_mem_cons, List.forall_mem_append, ← Nat.add_assoc]
    constructor
    · rintro ⟨hchild, hnext, hrest⟩
      obtain ⟨hend, hframes⟩ := (ih _ hnext).1 hrest
      exact ⟨hend, by simp, ((ihc _ hle).1 hchild).2, hframes⟩
    · rintro ⟨hend, -, hinside, hframes⟩
      have hnext : pos + child.size ≤ bound := by omega
      exact ⟨(ihc _ hle).2 ⟨hnext, hinside⟩, hnext, (ih _ hnext).2 ⟨hend, hframes⟩⟩
  | measured _ child rest ihc ih =>
    rw [Within, framesInside, size, List.forall_mem_cons, List.forall_mem_append, ← Nat.add_assoc]
    constructor
    · rintro ⟨hchild, hnext, hrest⟩
      obtain ⟨hend, hframes⟩ := (ih _ hnext).1 hrest
      obtain ⟨hstop, hinside⟩ := (ihc _ hle).1 hchild
      exact ⟨hend, fun _ => hstop, hinside, hframes⟩
    · rintro ⟨hend, hstop, hinside, hframes⟩
      have hnext : pos + (Instr.push (.ofSize child.size)).size ≤ bound := by omega
      exact ⟨(ihc _ hle).2 ⟨hstop rfl, hinside⟩, hnext, (ih _ hnext).2 ⟨hend, hframes⟩⟩

/-- The limits of the tree and of the program are met when the demand is. -/
theorem demand_le_iff {t : ExpansionTree} {size : Nat} {limits : Limits} (hsize : t.size ≤ size) :
    t.demand size ≤ limits ↔
      t.depth ≤ limits.depth ∧ t.expansions ≤ limits.expansions ∧
        t.Within limits.bytes 0 ∧ size ≤ limits.bytes := by
  have hdepth : greatest (t.frames.map Frame.depth) ≤ limits.depth ↔ t.depth ≤ limits.depth := by
    rw [greatest_le_iff, List.forall_mem_map, frames, List.forall_mem_cons]
    have hpos := t.depth_pos
    constructor
    · rintro ⟨(hone : 1 ≤ limits.depth), hall⟩
      have hdeep := (depth_framesInside hone).1 hall
      omega
    · intro hle
      have hone : 1 ≤ limits.depth := by omega
      exact ⟨hone, (depth_framesInside hone).2 (by omega)⟩
  have hlength : t.frames.length = t.expansions := by
    rw [frames, List.length_cons, length_framesInside, expansions]
  have hbytes : max size (greatest ((t.frames.filter Frame.measured).map Frame.stop)) ≤ limits.bytes ↔
      t.Within limits.bytes 0 ∧ size ≤ limits.bytes := by
    rw [Nat.max_le, greatest_le_iff, List.forall_mem_map, List.forall_mem_filter,
      within_iff 1 (Nat.zero_le _), Nat.zero_add, frames, List.forall_mem_cons]
    constructor
    · rintro ⟨hle, -, hall⟩
      exact ⟨⟨Nat.le_trans hsize hle, hall⟩, hle⟩
    · rintro ⟨⟨-, hall⟩, hle⟩
      exact ⟨hle, by simp, hall⟩
  show greatest (t.frames.map Frame.depth) ≤ limits.depth ∧ t.frames.length ≤ limits.expansions ∧
    max size _ ≤ limits.bytes ↔ _
  rw [hdepth, hlength, hbytes]

end ExpansionTree

namespace Program

variable {r : Registry} {limits : Limits} {p : Program}

/-! ### Linking under other limits -/

/-- The linker looks at its limits once. -/
theorem link_eq_ok_iff {s : Segment} :
    link (σ := Nat) r limits s = .ok p ↔
      ∃ cells tables chunk, layOut (σ := Nat) s.labels s.size r.tables = .ok (cells, tables) ∧
        s.size + cells.length ≤ limits.bytes ∧
        fillTables (σ := Nat) tables s.tables (s.cells ++ cells).toArray = .ok chunk ∧
        ⟨chunk.toList, s.labels, tables⟩ = p := by
  simp only [link, Outcome.bind_eq_ok, Prod.exists]
  constructor
  · rintro ⟨cells, tables, hlay, h⟩
    rw [List.length_append] at h
    split at h
    · cases h
    · rename_i hle
      obtain ⟨chunk, hfill, hp⟩ := Outcome.bind_eq_ok.1 h
      exact ⟨cells, tables, chunk, hlay, Nat.le_of_not_lt hle, hfill, Outcome.pure_eq_ok.1 hp⟩
  · rintro ⟨cells, tables, chunk, hlay, hle, hfill, rfl⟩
    refine ⟨cells, tables, hlay, ?_⟩
    have hroom : ¬ limits.bytes < s.cells.length + cells.length := Nat.not_lt.2 hle
    rw [List.length_append, if_neg hroom, hfill]
    rfl

/-- Code that was linked once is linked alike wherever there is room for it. -/
theorem link_segment_eq_ok_iff {t : ExpansionTree}
    (h : link (σ := Nat) r limits (t.segment 0) = .ok p) {limits' : Limits} {q : Program} :
    link (σ := Nat) r limits' (t.segment 0) = .ok q ↔ p.size ≤ limits'.bytes ∧ q = p := by
  have hlinked := link_segment_returns r limits t
  rw [h] at hlinked
  obtain ⟨cells, tables, chunk, hlay, -, hfill, hp⟩ := link_eq_ok_iff.1 h
  have hsize : p.size = (t.segment 0).size + cells.length := by
    rw [LinkedFrom.size_eq hlinked, t.size_segment, totalSize_layout, (layOut_eq_ok hlay).2]
  rw [link_eq_ok_iff, hsize]
  constructor
  · rintro ⟨cells', tables', chunk', hlay', hle, hfill', hq⟩
    -- both have the same tables, and fill the references alike
    obtain ⟨rfl, rfl⟩ := Prod.mk.inj (Except.ok.inj (hlay.symm.trans hlay'))
    obtain rfl := Except.ok.inj (hfill.symm.trans hfill')
    exact ⟨hle, hq.symm.trans hp⟩
  · rintro ⟨hle, rfl⟩
    exact ⟨cells, tables, chunk, hlay, hle, hfill, hp⟩

theorem size_le_of_link {t : ExpansionTree}
    (h : link (σ := Nat) r limits (t.segment 0) = .ok p) : t.size ≤ p.size := by
  have hlinked := link_segment_returns r limits t
  rw [h] at hlinked
  rw [LinkedFrom.size_eq hlinked, totalSize_layout]
  exact Nat.le_add_right _ _

end Program

namespace CompilationUnit

/-- What compiles under some limits has one tree.  It compiles under other limits
exactly when they allow the depth, the number and the extent of the expansions
in the tree, and then to the same program. -/
theorem compile_iff_demand_le (listing : Listing) (r : Registry) (limits : Limits)
    (entry : Invocation) (p : Program) (h : compile ⟨listing, r, limits⟩ entry = .ok p) :
    (∃! t, Expands r entry t) ∧ ∀ t, Expands r entry t → ∀ limits',
      ((∃ q, compile ⟨listing, r, limits'⟩ entry = .ok q) ↔ t.demand p.size ≤ limits') ∧
      ∀ q, compile ⟨listing, r, limits'⟩ entry = .ok q → q = p := by
  rw [compile_eq_ok_iff, Program.compile_eq_ok_iff] at h
  obtain ⟨hname, hcycle, s, n, hrun, hjumps, hlink⟩ := h
  obtain ⟨t, ht, hcost, rfl, -⟩ := Expansion.run_expand_eq_ok_iff.1 hrun
  refine ⟨⟨t, ht, fun u hu => hu.unique ht⟩, ?_⟩
  intro u hu limits'
  obtain rfl : u = t := hu.unique ht
  have hiff : ∀ q, compile ⟨listing, r, limits'⟩ entry = .ok q ↔
      u.demand p.size ≤ limits' ∧ q = p := by
    intro q
    rw [compile_eq_ok_iff, Program.compile_eq_ok_iff,
      ExpansionTree.demand_le_iff (Program.size_le_of_link hlink)]
    constructor
    · rintro ⟨-, -, s', n', hrun', -, hlink'⟩
      obtain ⟨t', ht', hcost', rfl, -⟩ := Expansion.run_expand_eq_ok_iff.1 hrun'
      obtain rfl : t' = u := ht'.unique ht
      obtain ⟨hle, rfl⟩ := (Program.link_segment_eq_ok_iff hlink).1 hlink'
      have hcount := hcost'.expansions
      rw [Nat.zero_add] at hcount
      exact ⟨⟨hcost'.depth, hcount, hcost'.within, hle⟩, rfl⟩
    · rintro ⟨⟨hdepth, hcount, hwithin, hle⟩, rfl⟩
      -- whether offsets fit into their slots has nothing to do with the limits
      have hcost' : u.Affordable limits' limits'.depth 0 0 :=
        ⟨hdepth, by rwa [Nat.zero_add], hwithin, hcost.fitsInside, hcost.fitsOutside⟩
      refine ⟨hname, hcycle, u.segment 0, 0 + u.expansions, ?_, hjumps, ?_⟩
      · exact Expansion.run_expand_eq_ok_iff.2 ⟨u, ht, hcost', rfl, rfl⟩
      · exact (Program.link_segment_eq_ok_iff hlink).2 ⟨hle, rfl⟩
  refine ⟨⟨?_, fun hle => ⟨p, (hiff p).2 ⟨hle, rfl⟩⟩⟩, fun q hq => ((hiff q).1 hq).2⟩
  rintro ⟨q, hq⟩
  exact ((hiff q).1 hq).1

/-- `MAIN` measures `BIG` and keeps two bytes of it: measured at offset 1, `BIG` ends
at 6, and the program with its table at 5. -/
def overhang : Registry where
  macros := [
    { Macro.ofName "LEAF" with ops := [⟨.push ⟨[7]⟩, 1⟩] },
    { Macro.ofName "BIG" with ops := [⟨.call "LEAF" [], 2⟩, ⟨.call "LEAF" [], 3⟩, ⟨.opcode 0, 4⟩] },
    { Macro.ofName "MAIN" with ops := [⟨.jumpDest "x", 5⟩, ⟨.codeSize "BIG" [], 6⟩] }]
  tables := [⟨"T", ["x"], true, 7⟩]

@[inherit_doc overhang]
def overhangTree : ExpansionTree :=
  let leaf := .instr 1 (.push ⟨[7]⟩) .done
  .instr 5 (.dest "x") (.measured 6 (.inlined leaf (.inlined leaf (.instr 4 (.opcode 0) .done))) .done)

theorem compile_overhang :
    ∃ p, compile ⟨.empty, overhang, .default⟩ ⟨"MAIN", []⟩ = .ok p ∧ p.size = 5 ∧
      Expands overhang ⟨"MAIN", []⟩ overhangTree ∧
      (∀ limits, (∃ q, compile ⟨.empty, overhang, limits⟩ ⟨"MAIN", []⟩ = .ok q) ↔
        ⟨3, 4, 6⟩ ≤ limits) ∧
      ∀ limits q, compile ⟨.empty, overhang, limits⟩ ⟨"MAIN", []⟩ = .ok q → q = p := by
  have ht : Expands overhang ⟨"MAIN", []⟩ overhangTree :=
    ⟨_, rfl, rfl, .instr rfl (.measured rfl rfl rfl
      (.inlined rfl rfl rfl (.instr rfl .done)
        (.inlined rfl rfl rfl (.instr rfl .done) (.instr rfl .done))) .done)⟩
  have hdone : (compile ⟨.empty, overhang, .default⟩ ⟨"MAIN", []⟩).map Program.size = .ok 5 := by
    decide +kernel
  have hneed : overhangTree.demand 5 = ⟨3, 4, 6⟩ := by decide
  cases h : compile ⟨.empty, overhang, .default⟩ ⟨"MAIN", []⟩ with
  | error e => simp [h, Except.map] at hdone
  | ok p =>
    have hsize : p.size = 5 := by simpa [h, Except.map] using hdone
    obtain ⟨-, hdemand⟩ := compile_iff_demand_le .empty overhang .default ⟨"MAIN", []⟩ p h
    rw [hsize] at hdemand
    refine ⟨p, rfl, hsize, ht, ?_, ?_⟩
    · intro limits
      rw [← hneed]
      exact (hdemand overhangTree ht limits).1
    · intro limits q hq
      exact (hdemand overhangTree ht limits).2 q hq

end CompilationUnit

end MacroAssembler
