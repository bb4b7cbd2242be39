/-
MacroAssembler/Proofs/Provenance.lean

Where the bytes of a program come from.

A byte remembers the offset of the token that it was emitted for.  The offset is
one of the flattened and blanked listing; this file follows it back to the files
as they were given.  Four things are put together:

* the instructions of a layout are emitted by operations of declared macros
  (`emittedBy_of_unfolds`);
* the bytes of an instruction keep its source, whatever is patched into them
  (`source_code`), and so do the bytes of a table;
* an operation has the offset of the token that it was read from, and a table
  that of its `#define` (`Registry.readFrom_of_parse`);
* a listing locates a character that was not blanked where it stands in the
  original text (`Listing.leadsBack_of_blanks`).

Main result: `CompilationUnit.traced_of_compile`.
-/
import Mathlib.Control.Monad.Basic
import MacroAssembler.CompilationUnit
import MacroAssembler.Proofs.Declarations
import MacroAssembler.Proofs.Linking
import MacroAssembler.Proofs.Locating
import MacroAssembler.Proofs.Registration

namespace MacroAssembler

open Rendering Scope Expansion

/-! ### Instructions and operations -/

/-- An instruction of a layout is emitted by the operation `op` of the macro
`m`, expanded with `values`: as what the operation, or the template argument that
it stands for, is, or as the length of what it measures. -/
structure Placed.EmittedBy (r : Registry) (m : Macro) (values : List String) (op : Operation)
    (q : Placed) : Prop where
  declared : m ∈ r.macros
  operation : m.ops[q.index]? = some op
  source : q.source = op.source
  emits : action r m values op = .ok (.emit q.instr) ∨
    ∃ inv child, action r m values op = .ok (.measure inv) ∧ Expands r inv child ∧
      q.instr = .push (.ofSize child.size)

theorem Placed.EmittedBy.inside {r : Registry} {m : Macro} {values : List String} {op : Operation}
    {q : Placed} (h : q.EmittedBy r m values op) (k : Nat) :
    (q.inside k).EmittedBy r m values op :=
  ⟨h.declared, h.operation, h.source, h.emits⟩

theorem getElem?_of_drop_eq_cons {α : Type} {l t : List α} {a : α} {k : Nat}
    (h : l.drop k = a :: t) : l[k]? = some a ∧ l.drop (k + 1) = t := by
  refine ⟨?_, ?_⟩
  · rw [← List.head?_drop, h, List.head?_cons]
  · rw [← List.tail_drop, h, List.tail_cons]

/-- Every instruction of a tree is emitted by an operation of a declared macro. -/
theorem emittedBy_of_unfolds {r : Registry} {m : Macro} {values : List String}
    {ops : List Operation} {t : ExpansionTree} (h : Unfolds r m values ops t) (hm : m ∈ r.macros)
    {index : Nat} (hops : m.ops.drop index = ops) (pos : Nat) :
    ∀ q ∈ t.layout index pos, ∃ m' values' op, q.EmittedBy r m' values' op := by
  induction h generalizing index pos with
  | done => simp [ExpansionTree.layout]
  | @instr m values op i ops t haction _ ih =>
    obtain ⟨hop, hrest⟩ := getElem?_of_drop_eq_cons hops
    intro q hq
    obtain rfl | hq := List.mem_cons.1 hq
    · exact ⟨m, values, op, hm, hop, rfl, .inl haction⟩
    · exact ih hm hrest _ q hq
  | @inlined m values op inv m' child ops t _ hm' _ _ _ ihc ih =>
    obtain ⟨-, hrest⟩ := getElem?_of_drop_eq_cons hops
    intro q hq
    obtain hq | hq := List.mem_append.1 hq
    · obtain ⟨q', hq', rfl⟩ := List.mem_map.1 hq
      obtain ⟨m₁, values₁, op₁, h₁⟩ := ihc (List.mem_of_find?_eq_some hm') List.drop_zero _ q' hq'
      exact ⟨m₁, values₁, op₁, h₁.inside index⟩
    · exact ih hm hrest _ q hq
  | @measured m values op inv m' child ops t haction hm' harity hchild _ _ ih =>
    obtain ⟨hop, hrest⟩ := getElem?_of_drop_eq_cons hops
    intro q hq
    obtain rfl | hq := List.mem_cons.1 hq
    · exact ⟨m, values, op, hm, hop, rfl, .inr ⟨inv, child, haction, ⟨m', hm', harity, hchild⟩, rfl⟩⟩
    · exact ih hm hrest _ q hq

/-! ### Sources of bytes -/

theorem Cell.source_of_mem_ofBytes {source : Nat} {bytes : List UInt8} {cell : Cell}
    (h : cell ∈ ofBytes source bytes) : cell.source = source := by
  obtain ⟨byte, -, rfl⟩ := List.mem_map.1 h
  rfl

theorem Cell.source_of_mem_ofWord {source n : Nat} {cell : Cell} (h : cell ∈ ofWord source n) :
    cell.source = source := by
  simp only [ofWord, List.mem_cons, List.not_mem_nil, or_false] at h
  obtain rfl | rfl := h <;> rfl

theorem Placed.source_of_mem_cells {q : Placed} {value? : Option Nat} {cell : Cell}
    (h : cell ∈ q.cells value?) : cell.source = q.source := by
  obtain ⟨node, index, offset, source, i⟩ := q
  cases i with
  | opcode byte => exact Cell.source_of_mem_ofBytes h
  | push p => exact Cell.source_of_mem_ofBytes h
  | dest label => exact Cell.source_of_mem_ofBytes h
  | jumpRef label | tableRef label =>
    obtain rfl | h := List.mem_cons.1 h
    · rfl
    · exact Cell.source_of_mem_ofWord h

/-- Every byte of a layout belongs to one of its instructions. -/
theorem Laid.exists_covering {pos : Nat} {l : List Placed} (hl : Laid pos l) {n : Nat}
    (hle : pos ≤ n) (hlt : n < pos + totalSize l) :
    ∃ q ∈ l, q.offset ≤ n ∧ n < q.offset + q.size := by
  induction l generalizing pos with
  | nil =>
    simp at hlt
    omega
  | cons p l ih =>
    rcases Nat.lt_or_ge n (pos + p.size) with hp | hp
    · exact ⟨p, by simp, by rw [hl.1]; exact hle, by rw [hl.1]; exact hp⟩
    · rw [totalSize_cons, ← Nat.add_assoc] at hlt
      obtain ⟨q, hq, hcovers⟩ := ih hl.2 hp hlt
      exact ⟨q, by simp [hq], hcovers⟩

/-- The bytes of an instruction keep its source. -/
theorem source_code {v : Placed → Option Nat} {pos : Nat} {l : List Placed} (hl : Laid pos l)
    {q : Placed} (hq : q ∈ l) {n : Nat} (hle : q.offset ≤ n) (hlt : n < q.offset + q.size) :
    ∃ cell, (code v l)[n - pos]? = some cell ∧ cell.source = q.source := by
  induction l generalizing pos with
  | nil => cases hq
  | cons p l ih =>
    have hcode : code v (p :: l) = p.cells (v p) ++ code v l := rfl
    rw [hcode]
    obtain rfl | hq := List.mem_cons.1 hq
    · have hin : n - pos < (q.cells (v q)).length := by
        rw [Placed.length_cells]
        have := hl.1
        omega
      refine ⟨(q.cells (v q))[n - pos], ?_, Placed.source_of_mem_cells (List.getElem_mem hin)⟩
      rw [List.getElem?_append_left hin, List.getElem?_eq_getElem hin]
    · have hbehind := hl.2.le_offset hq
      rw [List.getElem?_append_right (by rw [Placed.length_cells]; omega), Placed.length_cells,
        Nat.sub_sub]
      exact ih hl.2 hq

namespace Program

theorem source_of_mem_entryCells {t : JumpTable} {n : Nat} {cell : Cell}
    (h : cell ∈ entryCells t n) : cell.source = t.source := by
  obtain h | h := List.mem_append.1 h
  · exact Cell.source_of_mem_ofBytes h
  · exact Cell.source_of_mem_ofWord h

/-- The bytes of a table keep its source. -/
theorem LaidOut.source {labels : LabelTable} {pos : Nat} {ts : List JumpTable} {cells : List Cell}
    {linked : List LinkedTable} (h : LaidOut labels pos ts cells linked) {t : LinkedTable}
    (ht : t ∈ linked) {n : Nat} (hle : t.offset ≤ n) (hlt : n < t.offset + t.table.size) :
    ∃ cell, cells[n - pos]? = some cell ∧ cell.source = t.table.source := by
  obtain ⟨a, b, offsets, hoffs, hcells, hoffset⟩ := h.entries t ht
  have hin : n - t.offset < (offsets.flatMap (entryCells t.table)).length := by
    rw [length_table hoffs]
    omega
  refine ⟨(offsets.flatMap (entryCells t.table))[n - t.offset], ?_, ?_⟩
  · have hskip : n - pos = a.length + (n - t.offset) := by omega
    rw [hcells, List.append_assoc, hskip, List.getElem?_append_right (Nat.le_add_right _ _),
      Nat.add_sub_cancel_left, List.getElem?_append_left hin, List.getElem?_eq_getElem hin]
  · obtain ⟨k, -, hk⟩ := List.mem_flatMap.1 (List.getElem_mem hin)
    exact source_of_mem_entryCells hk

end Program

/-! ### Places in a text -/

/-- The operation is what a token stands for that is read at its source, and
`ch` is the first character of the token. -/
def Operation.ReadFrom (text : Text) (op : Operation) (ch : Char) : Prop :=
  ∃ c d t r labels, c.Within text ∧ c.offset = op.source ∧ Token.token? c = some (t, d) ∧
    t.lexeme.head? = some ch ∧ Body.operation r labels t = .ok op.kind

/-- The table is what is declared by the `#define` at its source. -/
def JumpTable.DeclaredIn (text : Text) (t : JumpTable) : Prop :=
  ∃ c d st st', c.Within text ∧ c.offset = t.source ∧ "#define".toList <+: c.rest ∧
    Declaration.declaration st c = .ok (st', d) ∧
    st'.registry.tables = st.registry.tables ++ [t]

/-- A character that a cursor in a text is at. -/
theorem Cursor.Within.exists_split {text rest : Text} {c : Cursor} {ch : Char} (h : c.Within text)
    (hrest : c.rest = ch :: rest) : ∃ a b, text = a ++ ch :: b ∧ c.offset = Text.byteLength a := by
  obtain ⟨before, after, htext, hoffset⟩ := h
  refine ⟨before, rest ++ after, ?_, hoffset⟩
  rw [htext, hrest]
  simp

/-- What is known of the places of declarations in a text. -/
structure Registry.ReadFrom (text : Text) (r : Registry) : Prop where
  macros : ∀ m ∈ r.macros, ∃ r' window, window.Within text ∧ Body.parse r' window = .ok m.ops
  tables : ∀ t ∈ r.tables, t.DeclaredIn text

/-- Every declaration of a text is read from it. -/
theorem Registry.readFrom_of_parse {text : Text} {r : Registry}
    (h : Declaration.parse text = .ok r) : r.ReadFrom text := by
  refine Declaration.parse_induction_within (P := fun st => st.registry.ReadFrom text) ?_
    ⟨fun _ hm => (by cases hm), fun _ ht => (by cases ht)⟩ h
  intro c d st st' hc hdecl hst
  obtain ⟨-, hdeclares⟩ := Declaration.declares_of_declaration hdecl
  cases hdeclares with
  | template => exact hst
  | addMacro hread hadd =>
    obtain ⟨-, rfl⟩ := addMacro_eq_ok.1 hadd
    refine ⟨?_, hst.tables⟩
    intro m hm
    obtain hm | hm := List.mem_append.1 hm
    · exact hst.macros m hm
    · obtain rfl := List.mem_singleton.1 hm
      obtain ⟨s, e, f, hs, -, hbody, -, hops⟩ := hread.window
      exact ⟨_, _, hbody.within_window (hs.within hc), hops⟩
  | addTable _ hread hadd =>
    obtain ⟨-, rfl⟩ := addTable_eq_ok.1 hadd
    refine ⟨hst.macros, ?_⟩
    intro t ht
    obtain ht | ht := List.mem_append.1 ht
    · exact hst.tables t ht
    · obtain rfl := List.mem_singleton.1 ht
      exact ⟨c, d, st, _, hc, hread.source.symm, hread.keyword, hdecl, rfl⟩

/-! ### Places in the original texts -/

section LeadsBack

variable {l : Listing} {raws : List Text} (hback : l.LeadsBack raws)

include hback

/-- The place of an operation is where its token starts. -/
theorem standsAt_of_body {r : Registry} {window : Cursor} {ops : List Operation}
    (hwindow : window.Within l.text) (h : Body.parse r window = .ok ops) {op : Operation}
    (hop : op ∈ ops) :
    ∃ ch, op.ReadFrom l.text ch ∧ StandsAt raws op.source ch (l.locate op.source) := by
  obtain ⟨labels, t, s, c, d, hread, hstop, hoffset, htoken, hkind⟩ :=
    Body.exists_token_of_parse h hop
  have hlexeme := (Token.readAt_of_token? htoken).reads
  have hwithin := hread.within hwindow
  -- a token is not empty
  obtain ⟨ch, rest, hrest⟩ : ∃ ch rest, t.lexeme = ch :: rest := by
    refine List.exists_cons_of_ne_nil ?_
    intro hnil
    have hlt := Token.token?_rest_lt htoken
    rw [hlexeme.rest, hnil] at hlt
    exact Nat.lt_irrefl _ hlt
  have hcons : c.rest = ch :: (rest ++ d.rest) := by rw [hlexeme.rest, hrest, List.cons_append]
  have hch : ch ≠ ' ' := by
    rintro rfl
    rw [Cursor.check_eq_false_iff, hcons] at hstop
    exact absurd (hstop ' ' rfl) (by decide)
  obtain ⟨a, b, htext, ha⟩ := hwithin.exists_split hcons
  refine ⟨ch, ⟨c, d, t, r, labels, hwithin, hoffset, htoken, by simp [hrest], hkind⟩, ?_⟩
  rw [← hoffset, ha]
  exact hback htext hch

/-- The place of a table is where its `#define` starts. -/
theorem JumpTable.DeclaredIn.standsAt {t : JumpTable} (h : t.DeclaredIn l.text) :
    StandsAt raws t.source '#' (l.locate t.source) := by
  obtain ⟨c, d, st, st', hc, hoffset, ⟨rest, hrest⟩, -⟩ := h
  obtain ⟨a, b, htext, ha⟩ := hc.exists_split hrest.symm
  rw [← hoffset, ha]
  exact hback htext (by decide)

end LeadsBack

/-! ### Source maps -/

namespace Program

theorem getElem?_sourceMap (p : Program) (l : Listing) (n : Nat) :
    (p.sourceMap l)[n]? = p.cells[n]?.map fun cell => l.locate cell.source := by
  rw [sourceMap, List.getElem?_map]

/-- Every byte of some offsets has the same entry in the source map. -/
def Marks (p : Program) (l : Listing) (start size : Nat) (o : Origin) : Prop :=
  ∀ n, start ≤ n → n < start + size → (p.sourceMap l)[n]? = some o

variable {r : Registry} {limits : Limits} {entry : Invocation} {t : ExpansionTree} {p : Program}
  {log : List Patch}

theorem Compiled.marks_code (h : Compiled r limits entry t p log) (l : Listing) {q : Placed}
    (hq : q ∈ t.layout 0 0) : p.Marks l q.offset q.size (l.locate q.source) := by
  intro n hle hlt
  obtain ⟨tableCells, -, hcells⟩ := h.cells
  have hl := laid_layout t 0 0
  obtain ⟨cell, hcell, hsource⟩ :=
    source_code (v := withTables p.tables (filled (t.layout 0 0))) hl hq hle hlt
  have hin : n < (code (withTables p.tables (filled (t.layout 0 0))) (t.layout 0 0)).length := by
    have := hl.end_le hq
    rw [length_code]
    omega
  rw [getElem?_sourceMap, hcells, List.getElem?_append_left hin]
  rw [Nat.sub_zero] at hcell
  rw [hcell, Option.map_some, hsource]

theorem Compiled.marks_table (h : Compiled r limits entry t p log) (l : Listing) {u : LinkedTable}
    (hu : u ∈ p.tables) : p.Marks l u.offset u.table.size (l.locate u.table.source) := by
  intro n hle hlt
  obtain ⟨tableCells, hlaid, hcells⟩ := h.cells
  obtain ⟨cell, hcell, hsource⟩ := hlaid.source hu hle hlt
  obtain ⟨a, -, -, -, -, hoffset⟩ := hlaid.entries u hu
  have hbehind : (code (withTables p.tables (filled (t.layout 0 0))) (t.layout 0 0)).length ≤ n := by
    rw [length_code, totalSize_layout]
    omega
  rw [getElem?_sourceMap, hcells, List.getElem?_append_right hbehind, length_code,
    totalSize_layout, hcell, Option.map_some, hsource]

/-- The code is made of the instructions of the layout. -/
theorem Compiled.exists_placed (h : Compiled r limits entry t p log) {n : Nat}
    (hn : n < p.codeSize) : ∃ q ∈ t.layout 0 0, q.offset ≤ n ∧ n < q.offset + q.size := by
  rw [h.codeSize_eq] at hn
  exact (laid_layout t 0 0).exists_covering (Nat.zero_le n) (by simpa using hn)

/-- What follows the code is made of the tables. -/
theorem Compiled.exists_table (h : Compiled r limits entry t p log) {n : Nat}
    (hle : p.codeSize ≤ n) (hlt : n < p.size) :
    ∃ u ∈ p.tables, u.offset ≤ n ∧ n < u.offset + u.table.size := by
  obtain ⟨tableCells, hlaid, hcells⟩ := h.cells
  rw [h.codeSize_eq] at hle
  rw [Program.size, hcells, List.length_append, length_code, totalSize_layout] at hlt
  obtain ⟨u, hu, hcovers⟩ := hlaid.covers (n - t.size) (by omega)
  refine ⟨u, hu, ?_⟩
  rwa [Nat.add_sub_cancel' hle] at hcovers

theorem Compiled.table_mem (h : Compiled r limits entry t p log) {u : LinkedTable}
    (hu : u ∈ p.tables) : u.table ∈ r.tables := by
  obtain ⟨tableCells, hlaid, -⟩ := h.cells
  rw [← hlaid.tables]
  exact List.mem_map_of_mem hu

end Program

namespace CompilationUnit

/-- The texts that a listing was made from, in its order, as `files` gives them;
of several files with one name the last counts. -/
def Originals (files : List (String × Text)) (l : Listing) (raws : List Text) : Prop :=
  List.Forall₂ (fun f raw => files.reverse.lookup f.name = some raw) l.files raws

/-- The source map of a program leads all its bytes back to the original texts
`raws`. -/
structure Traced (raws : List Text) (u : CompilationUnit) (entry : Invocation) (p : Program) :
    Prop where
  /-- There is one entry for each byte. -/
  length : (p.sourceMap u.listing).length = p.bytes.length
  /-- The bytes of an instruction have the place where the token of the operation
  that emits it starts, and the instructions are all the code. -/
  code : ∃ t, Expands u.registry entry t ∧
    (∀ n < p.codeSize, ∃ q ∈ t.layout 0 0, q.offset ≤ n ∧ n < q.offset + q.size) ∧
    ∀ q ∈ t.layout 0 0, ∃ m values op ch o, q.EmittedBy u.registry m values op ∧
      op.ReadFrom u.listing.text ch ∧ StandsAt raws op.source ch o ∧
      p.Marks u.listing q.offset q.size o
  /-- The bytes of a table have the place where its definition starts, and the
  tables are all the rest. -/
  tables : (∀ n, p.codeSize ≤ n → n < p.size → ∃ t ∈ p.tables, t.offset ≤ n ∧
      n < t.offset + t.table.size) ∧
    ∀ t ∈ p.tables, ∃ o, t.table ∈ u.registry.tables ∧ t.table.DeclaredIn u.listing.text ∧
      StandsAt raws t.table.source '#' o ∧ p.Marks u.listing t.offset t.table.size o

theorem exists_forall₂ {α β : Type} {R : α → β → Prop} {l : List α} (h : ∀ a ∈ l, ∃ b, R a b) :
    ∃ l', List.Forall₂ R l l' := by
  induction l with
  | nil => exact ⟨[], .nil⟩
  | cons a l ih =>
    obtain ⟨b, hb⟩ := h a (by simp)
    obtain ⟨l', hl'⟩ := ih fun a' ha' => h a' (by simp [ha'])
    exact ⟨b :: l', .cons hb hl'⟩

/-- A unit is read from a listing that leads back to the originals. -/
theorem exists_originals_of_load {files : List (String × Text)} {entryFile : String}
    {u : CompilationUnit} (h : load (Library.ofFiles files) entryFile = .ok u) :
    Declaration.parse u.listing.text = .ok u.registry ∧
      ∃ raws, Originals files u.listing raws ∧ u.listing.LeadsBack raws := by
  rw [load] at h
  split at h
  · rename_i l hl
    rw [ofListing] at h
    split at h
    · rename_i r hr
      obtain rfl := Except.ok.inj h
      refine ⟨hr, ?_⟩
      obtain ⟨fs, rfl, hlisted⟩ := Library.listed_of_flatten hl
      obtain ⟨raws, hraws⟩ := exists_forall₂ fun f hf => Library.listed_ofFiles_iff.1 (hlisted f hf)
      refine ⟨raws, ?_, Listing.leadsBack_of_blanks ?_⟩
      · rw [Originals, Listing.files_ofFiles,
          ← List.forall₂_map_left_iff (f := ListedFile.name)
            (R := fun name raw => files.reverse.lookup name = some raw),
          Listing.map_name_filesFrom, List.forall₂_map_left_iff]
        exact hraws.imp fun _ _ h => h.1
      · rw [List.forall₂_map_right_iff]
        exact hraws.flip.imp fun _ _ h => h.2
    · cases h
  · cases h

/-- **Source maps lead back to the files as they were given.**  Whatever the
files, the entry macro, its arguments and the limits are, a program that is
compiled has one source map entry for each byte, and the entry is the place of
the token, or of the definition, that the byte was emitted for. -/
theorem traced_of_compile (files : List (String × Text)) (entryFile : String)
    (u : CompilationUnit) (limits : Limits) (entry : Invocation) (p : Program)
    (hload : load (Library.ofFiles files) entryFile = .ok u)
    (hcompile : compile { u with limits := limits } entry = .ok p) :
    ∃ raws, Originals files u.listing raws ∧ Traced raws u entry p := by
  obtain ⟨hparse, raws, horiginals, hback⟩ := exists_originals_of_load hload
  have hread := Registry.readFrom_of_parse hparse
  have hreturns := Program.compile_returns u.registry limits entry
  rw [compile] at hcompile
  split at hcompile
  · rename_i p' hp'
    obtain rfl := Except.ok.inj hcompile
    rw [hp'] at hreturns
    obtain ⟨t, log, -, ht⟩ := hreturns
    refine ⟨raws, horiginals, by simp [Program.sourceMap, Program.bytes],
      ⟨t, ht.expands, fun n hn => ht.exists_placed hn, ?_⟩,
      fun n hle hlt => ht.exists_table hle hlt, ?_⟩
    · intro q hq
      obtain ⟨m, hm, -, hops⟩ := ht.expands
      obtain ⟨m', values, op, hemits⟩ :=
        emittedBy_of_unfolds hops (List.mem_of_find?_eq_some hm) List.drop_zero 0 q hq
      obtain ⟨r', window, hwindow, hbody⟩ := hread.macros m' hemits.declared
      obtain ⟨ch, hop, hstands⟩ :=
        standsAt_of_body hback hwindow hbody (List.mem_of_getElem? hemits.operation)
      have hmarks := ht.marks_code u.listing hq
      rw [hemits.source] at hmarks
      exact ⟨m', values, op, ch, _, hemits, hop, hstands, hmarks⟩
    · intro v hv
      have hdeclared := hread.tables v.table (ht.table_mem hv)
      exact ⟨_, ht.table_mem hv, hdeclared, hdeclared.standsAt hback,
        ht.marks_table u.listing hv⟩
  · cases hcompile

/-- An entry file that includes an empty file and a file that is given twice;
comments with characters of several bytes stand before what is emitted. -/
def included : List (String × Text) :=
  [("lib", "replaced".toList),
   ("main", "#include \"empty\" #include \"lib\"\n".toList ++
      "#define macro MAIN = takes(0) returns(0) \x7b\n/* é */ B<0x5b5b>()\n".toList ++
      "__tablestart(T) \x7d".toList),
   ("empty", []),
   ("lib", "// €\n/* ü\n */ #define jumptable__packed T \x7b x \x7d\ntemplate <p>\n".toList ++
      "#define macro B = takes(0) returns(0) \x7b <p> /**/ x:\n\x7d".toList)]

theorem traced_included :
    ∃ u p raws, load (Library.ofFiles included) "main" = .ok u ∧
      compile { u with limits := { bytes := 9 } } ⟨"MAIN", []⟩ = .ok p ∧
      p.sourceMap u.listing = List.replicate 4 ⟨1, 5⟩ ++ List.replicate 3 ⟨2, 4⟩ ++
        List.replicate 2 ⟨1, 3⟩ ∧
      Originals included u.listing raws ∧ Traced raws u ⟨"MAIN", []⟩ p := by
  have hrun : (load (Library.ofFiles included) "main" >>= fun u =>
      (compile { u with limits := { bytes := 9 } } ⟨"MAIN", []⟩ >>= fun p =>
        pure (p.sourceMap u.listing))) =
      .ok (List.replicate 4 ⟨1, 5⟩ ++ List.replicate 3 ⟨2, 4⟩ ++ List.replicate 2 ⟨1, 3⟩) := by
    decide +kernel
  simp only [Outcome.bind_eq_ok, Outcome.pure_eq_ok] at hrun
  obtain ⟨u, hload, p, hcompile, hmap⟩ := hrun
  obtain ⟨raws, hraws, htraced⟩ :=
    traced_of_compile included "main" u { bytes := 9 } ⟨"MAIN", []⟩ p hload hcompile
  exact ⟨u, p, raws, hload, hcompile, hmap, hraws, htraced⟩

end CompilationUnit

end MacroAssembler
