/-
MacroAssembler/Proofs/Placeholders.lean

Every slot is filled once, and none is found overwritten.

A slot is emitted empty and filled later, by an expansion around it or by the
linker, and `Chunk.patch` refuses a slot that does not hold the mark of an
empty one.  That test alone does not show that a slot is filled only once: an
offset of 0xffff looks like the mark.  The log of a compilation does show it.
It is, up to order, one patch for each reference of the layout
(`patchFor?`), and references stand apart from each other.  In the program,
each slot then holds the offset of its label or table.

Main result: `CompilationUnit.patchedOnce_of_compile`.
-/
import MacroAssembler.CompilationUnit
import MacroAssembler.Proofs.Linking

namespace MacroAssembler

open Rendering Scope Expansion

/-! ### The patch of a reference -/

/-- What fills a reference of a layout. -/
def patchFor? (l : List Placed) (e : Placed) : Option Patch :=
  match e.instr with
  | .jumpRef _ => (reply l e).map (patchOf e)
  | .tableRef _ => some (.byLinker e.slot)
  | _ => none

theorem slot_of_patchFor? {l : List Placed} {e : Placed} {q : Patch} (h : patchFor? l e = some q) :
    q.slot = e.slot ∧ e.isRef := by
  obtain ⟨node, index, offset, source, i⟩ := e
  cases i with
  | jumpRef label =>
    obtain ⟨x, -, rfl⟩ := Option.map_eq_some_iff.1 h
    exact ⟨rfl, trivial⟩
  | tableRef table =>
    obtain rfl := Option.some.inj h
    exact ⟨rfl, trivial⟩
  | _ => cases h

/-- The reply to a reference comes from the expansion that answers it, which is
around it, with the definition that the reference stands for. -/
theorem scope?_of_reply {l : List Placed} {e : Placed} {label : String}
    (hi : e.instr = .jumpRef label) {x : List Nat × LabelSite} (h : reply l e = some x) :
    scope? l e.node label = some x.1 ∧ target? l e.node label = some x.2 ∧ x.1 <+: e.node := by
  rw [reply, replyOf, hi] at h
  obtain ⟨a, ha, hx⟩ := Option.bind_eq_some_iff.1 h
  obtain ⟨site, hsite, rfl⟩ := Option.map_eq_some_iff.1 hx
  refine ⟨ha, ?_, mem_enclosing.1 (List.mem_of_find?_eq_some ha)⟩
  rw [target?, scope?, ha, Option.bind_some, hsite]

/-- The patches of the expansions and of the linker are those of the layout. -/
theorem perm_patchFor? (l : List Placed) :
    (patches l ++ Program.linkerPatches l).Perm (l.filterMap (patchFor? l)) := by
  have hlinker : Program.linkerPatches l = l.filterMap fun e =>
      if (reply l e).map (patchOf e) = none then e.tableRef?.map fun r => .byLinker r.slot
      else none := by
    rw [Program.linkerPatches, List.map_filterMap]
    refine List.filterMap_congr fun e _ => ?_
    obtain ⟨node, index, offset, source, i⟩ := e
    cases i <;> simp [Placed.tableRef?, reply, replyOf]
  -- no instruction refers both to a label and to a table
  rw [hlinker]
  refine (filterMap_or_perm _ _ l).symm.trans (List.Perm.of_eq ?_)
  refine List.filterMap_congr fun e _ => ?_
  obtain ⟨node, index, offset, source, i⟩ := e
  cases i <;> simp [patchFor?, Placed.tableRef?, reply, replyOf, Placed.slot]

/-! ### Slots apart -/

theorem pairwise_slot {pos : Nat} {l : List Placed} (hl : Laid pos l) :
    l.Pairwise fun e e' => e.isRef → e'.isRef → e.slot + 2 ≤ e'.slot := by
  refine hl.pairwise.imp ?_
  intro e e' hle href _
  rw [Placed.size_of_isRef href] at hle
  rw [Placed.slot, Placed.slot]
  omega

/-- Of the patches of references that stand apart, one is at a given slot. -/
theorem filter_slot {pos : Nat} {l : List Placed} (hl : Laid pos l) {f : Placed → Option Patch}
    (hf : ∀ {e q}, f e = some q → q.slot = e.slot) {e : Placed} (he : e ∈ l) {q : Patch}
    (hq : f e = some q) : (l.filterMap f).filter (fun x => x.slot = e.slot) = [q] := by
  induction l generalizing pos with
  | nil => cases he
  | cons p l ih =>
    have hpos := p.size_pos
    obtain rfl | he := List.mem_cons.1 he
    · -- the slots behind this one are further on
      have hrest : (l.filterMap f).filter (fun x => x.slot = e.slot) = [] := by
        refine List.filter_eq_nil_iff.2 fun x hx => ?_
        obtain ⟨e', he', hx⟩ := List.mem_filterMap.1 hx
        have hle := hl.2.le_offset he'
        have hoff := hl.1
        have hslot : x.slot ≠ e.slot := by
          rw [hf hx, Placed.slot, Placed.slot]
          omega
        simpa using hslot
      rw [List.filterMap_cons_some hq, List.filter_cons_of_pos (by simpa using hf hq), hrest]
    · have hle := hl.2.le_offset he
      have hoff := hl.1
      rw [← ih hl.2 he]
      rcases hp : f p with - | x
      · rw [List.filterMap_cons_none hp]
      · have hslot : x.slot ≠ e.slot := by
          rw [hf hp, Placed.slot, Placed.slot]
          omega
        rw [List.filterMap_cons_some hp, List.filter_cons_of_neg (by simpa using hslot)]

/-! ### Compilations -/

/-- The program `p` is the layout `l` with every slot filled once, as `log`
says, and nothing else: those of references to labels by the expansion that
answers them, with the offset of the definition, and those of references to
tables by the linker, with the offset of the table.  The slots do not overlap,
and lie in the code. -/
structure PatchedOnce (l : List Placed) (p : Program) (log : List Patch) : Prop where
  jumps : ∀ e ∈ l, ∀ label, e.instr = .jumpRef label →
    ∃ a site, scope? l e.node label = some a ∧ a <+: e.node ∧
      target? l e.node label = some site ∧
      log.filter (fun q => q.slot = e.slot) = [.byExpansion a e.slot] ∧
      Chunk.word? p.cells.toArray e.slot = some site.offset
  tables : ∀ e ∈ l, ∀ table, e.instr = .tableRef table →
    ∃ n, Program.tableOffset? p.tables table = some n ∧
      log.filter (fun q => q.slot = e.slot) = [.byLinker e.slot] ∧
      Chunk.word? p.cells.toArray e.slot = some n
  only : ∀ q ∈ log, ∃ e ∈ l, e.isRef ∧ q.slot = e.slot
  apart : l.Pairwise fun e e' => e.isRef → e'.isRef → e.slot + 2 ≤ e'.slot
  inside : ∀ e ∈ l, e.isRef → e.slot + 2 ≤ p.codeSize

theorem Program.Compiled.patchedOnce {r : Registry} {limits : Limits} {entry : Invocation}
    {t : ExpansionTree} {p : Program} {log : List Patch} (h : Compiled r limits entry t p log) :
    PatchedOnce (t.layout 0 0) p log := by
  have hl := laid_layout t 0 0
  have hperm := h.perm.trans (perm_patchFor? (t.layout 0 0))
  have honce : ∀ {e q}, e ∈ t.layout 0 0 → patchFor? (t.layout 0 0) e = some q →
      log.filter (fun x => x.slot = e.slot) = [q] := by
    intro e q he hq
    -- a list that is a permutation of one patch is that patch
    have hfilter := hperm.filter fun x => x.slot = e.slot
    rw [filter_slot hl (fun h => (slot_of_patchFor? h).1) he hq] at hfilter
    exact List.perm_singleton.1 hfilter
  refine ⟨?_, ?_, ?_, pairwise_slot hl, ?_⟩
  · intro e he label hi
    obtain ⟨n, hn, hle⟩ := h.closed e he label hi
    have hword := h.word?_slot he (Placed.isRef_of_jumpRef hi)
      (by rw [withTables_jumpRef _ _ hi, hn]) hle
    rw [filled_eq_reply] at hn
    obtain ⟨x, hx, rfl⟩ := Option.map_eq_some_iff.1 hn
    obtain ⟨hscope, htarget, hnode⟩ := scope?_of_reply hi hx
    refine ⟨x.1, x.2, hscope, hnode, htarget, honce he ?_, hword⟩
    simp [patchFor?, hi, hx, patchOf]
  · intro e he table hi
    obtain ⟨n, hn, hle⟩ := h.known e he table hi
    refine ⟨n, hn, honce he ?_, h.word?_slot he (Placed.isRef_of_tableRef hi)
      (by rw [withTables_tableRef _ _ hi, hn]) hle⟩
    simp [patchFor?, hi]
  · intro q hq
    obtain ⟨e, he, hq⟩ := List.mem_filterMap.1 (hperm.subset hq)
    exact ⟨e, he, (slot_of_patchFor? hq).2, (slot_of_patchFor? hq).1⟩
  · intro e he href
    have hend := hl.end_le he
    rw [Placed.size_of_isRef href, totalSize_layout, Nat.zero_add] at hend
    rw [h.codeSize_eq, Placed.slot]
    omega

theorem CompileError.SlotsIntact.map {σ τ : Type} (f : σ → τ) {e : CompileError σ}
    (h : e.SlotsIntact) : (e.map f).SlotsIntact := by
  cases e <;> trivial

namespace CompilationUnit

/-- No compilation finds a slot overwritten, and one that succeeds has filled
every slot once, with the offset that the program holds there. -/
theorem patchedOnce_of_compile (u : CompilationUnit) (entry : Invocation) :
    (∀ slot found, u.compile entry ≠ .error (.compile (.placeholderCorruption slot found))) ∧
      ∀ p, u.compile entry = .ok p →
        ∃ t log, Expands u.registry entry t ∧
          Program.compileLogged u.registry u.limits entry = .ok (p, log) ∧
          PatchedOnce (t.layout 0 0) p log := by
  have hreturns := Program.compile_returns u.registry u.limits entry
  rw [compile]
  rcases hrun : Program.compile u.registry u.limits entry with e | p
  · rw [hrun] at hreturns
    have hintact := CompileError.SlotsIntact.map u.listing.place hreturns
    refine ⟨?_, fun p hp => (by cases hp)⟩
    intro slot found heq
    rw [Failure.compile.inj (Except.error.inj heq)] at hintact
    exact hintact
  · rw [hrun] at hreturns
    obtain ⟨t, log, hlog, ht⟩ := hreturns
    refine ⟨fun slot found heq => (by cases heq), ?_⟩
    intro p' hp'
    obtain rfl := Except.ok.inj hp'
    exact ⟨t, log, ht.expands, hlog, ht.patchedOnce⟩

/-- `A` leaves its reference to `MAIN`, and measuring `A` leaves none behind. -/
def handedOut : CompilationUnit where
  listing := {}
  registry := {
    macros := [
      { Macro.ofName "A" with ops := [⟨.jumpRef "x", 1⟩] },
      { Macro.ofName "MAIN" with ops := [⟨.codeSize "A" [], 2⟩, ⟨.call "A" [], 3⟩,
          ⟨.jumpDest "x", 4⟩, ⟨.tableStart "T", 5⟩] }]
    tables := [⟨"T", ["x"], true, 6⟩] }

theorem patchedOnce_handedOut :
    ∃ p, handedOut.compile ⟨"MAIN", []⟩ = .ok p ∧
      Program.compileLogged handedOut.registry handedOut.limits ⟨"MAIN", []⟩ =
        .ok (p, [.byExpansion [] 3, .byLinker 7]) ∧
      ∃ t log, Expands handedOut.registry ⟨"MAIN", []⟩ t ∧
        Program.compileLogged handedOut.registry handedOut.limits ⟨"MAIN", []⟩ = .ok (p, log) ∧
        PatchedOnce (t.layout 0 0) p log := by
  have h : handedOut.compile ⟨"MAIN", []⟩ =
      .ok ((handedOut.compile ⟨"MAIN", []⟩).toOption.getD ⟨[], .empty, []⟩) := by decide +kernel
  exact ⟨_, h, by decide +kernel, (patchedOnce_of_compile handedOut ⟨"MAIN", []⟩).2 _ h⟩

end CompilationUnit

end MacroAssembler
