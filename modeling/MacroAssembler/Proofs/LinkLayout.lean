/-
MacroAssembler/Proofs/LinkLayout.lean

The layout of a linked program.

The linker has two loops.  The first appends the tables and can fail at an entry,
the second fills the references to tables and can fail at one of them; between
the two the length is checked.  `link_returns` says what the loops make and why
they fail.  Every cause of a failure contradicts `Linkable`, which speaks of the
code and of the declared tables only, so linking succeeds exactly if that holds.

A table begins where the tables in front of it end (`place`).  The size of a
table is fixed by its declaration, and the reader of macros knows it as well:
`__tablesize(T)` is a push of the size of a table that was declared before.
Declarations are never taken back, so the table that is linked is this one.

Main result: `Program.linked_of_run_expand`.
-/
import MacroAssembler.Proofs.ExpansionCost
import MacroAssembler.Proofs.JumpTargets
import MacroAssembler.Proofs.Provenance
import MacroAssembler.Proofs.WellFormedness

namespace MacroAssembler

open Rendering Scope Expansion

namespace Program

/-! ### Where tables are -/

/-- Bytes of some tables together. -/
def tablesSize : List JumpTable → Nat
  | [] => 0
  | t :: ts => t.size + tablesSize ts

/-- Tables one behind the other, from an offset on. -/
def place (pos : Nat) : List JumpTable → List LinkedTable
  | [] => []
  | t :: ts => ⟨t, pos⟩ :: place (pos + t.size) ts

/-- A table begins where the tables in front of it end. -/
theorem getElem?_place (pos : Nat) (ts : List JumpTable) (k : Nat) :
    (place pos ts)[k]? = ts[k]?.map fun t => ⟨t, pos + tablesSize (ts.take k)⟩ := by
  induction ts generalizing pos k with
  | nil => rfl
  | cons t ts ih =>
    cases k with
    | zero => rfl
    | succ k => simp [place, ih, tablesSize, Nat.add_assoc]

theorem layOut_eq_ok {labels : LabelTable} {pos : Nat} {ts : List JumpTable} {cells : List Cell}
    {linked : List LinkedTable} (h : layOut (σ := Nat) labels pos ts = .ok (cells, linked)) :
    linked = place pos ts ∧ cells.length = tablesSize ts := by
  induction ts generalizing pos cells linked with
  | nil =>
    obtain ⟨rfl, rfl⟩ := Prod.mk.inj (Except.ok.inj h)
    exact ⟨rfl, rfl⟩
  | cons t ts ih =>
    simp only [layOut, Outcome.bind_eq_ok, Outcome.pure_eq_ok] at h
    obtain ⟨first, hfirst, ⟨rest, later⟩, hrest, h⟩ := h
    obtain ⟨rfl, rfl⟩ := Prod.mk.inj h
    have hreturns := tableCells_returns labels t t.labels
    rw [hfirst] at hreturns
    obtain ⟨offsets, hoffs, rfl⟩ := hreturns
    rw [length_table hoffs] at hrest
    obtain ⟨hlater, hlength⟩ := ih hrest
    refine ⟨by rw [place, hlater], ?_⟩
    rw [List.length_append, length_table hoffs, hlength, tablesSize]

/-- When no two tables share a name, the offset of a table is the place of the one
that has the name. -/
theorem tableOffset?_place_eq_some_iff {ts : List JumpTable}
    (hnodup : (ts.map JumpTable.name).Nodup) {pos : Nat} {name : String} {n : Nat} :
    tableOffset? (place pos ts) name = some n ↔
      ∃ k t, ts[k]? = some t ∧ t.name = name ∧ n = pos + tablesSize (ts.take k) := by
  induction ts generalizing pos with
  | nil => simp [tableOffset?, place]
  | cons t ts ih =>
    obtain ⟨hnew, hrest⟩ := List.nodup_cons.1 hnodup
    by_cases hname : t.name = name
    · have hfirst : tableOffset? (place pos (t :: ts)) name = some pos := by
        simp [tableOffset?, place, hname]
      rw [hfirst]
      constructor
      · rintro h
        obtain rfl := Option.some.inj h
        exact ⟨0, t, rfl, hname, rfl⟩
      · rintro ⟨k, u, hu, huname, rfl⟩
        -- a later table has another name
        cases k with
        | zero => rfl
        | succ k =>
          refine absurd ?_ hnew
          rw [hname, ← huname]
          exact List.mem_map_of_mem (List.mem_of_getElem? hu)
    · have hskip : tableOffset? (place pos (t :: ts)) name =
          tableOffset? (place (pos + t.size) ts) name := by
        simp [tableOffset?, place, hname]
      rw [hskip, ih hrest]
      constructor
      · rintro ⟨k, u, hu, huname, rfl⟩
        exact ⟨k + 1, u, hu, huname, by simp [tablesSize, Nat.add_assoc]⟩
      · rintro ⟨k, u, hu, huname, rfl⟩
        cases k with
        | zero =>
          obtain rfl := Option.some.inj hu
          exact absurd huname hname
        | succ k => exact ⟨k, u, hu, huname, by simp [tablesSize, Nat.add_assoc]⟩

/-! ### When linking succeeds -/

/-- The code can be linked: every label of a table has an offset of two bytes, code
and tables are not too long, and every table that is referred to is declared and
begins at an offset of two bytes. -/
structure Linkable (r : Registry) (limits : Limits) (s : Segment) : Prop where
  entries : ∀ t ∈ r.tables, ∀ label ∈ t.labels,
    ∃ n, s.labels.offset? label = some n ∧ n ≤ 0xffff
  bytes : s.size + tablesSize r.tables ≤ limits.bytes
  references : ∀ ref ∈ s.tables, ∃ k t, r.tables[k]? = some t ∧ t.name = ref.target ∧
    s.size + tablesSize (r.tables.take k) ≤ 0xffff

variable {r : Registry} {limits : Limits} {l : List Placed} {v : Placed → Option Nat}
  {p : Program}

theorem mem_tables_render {p : Placed} {table : String} (hp : p ∈ l)
    (hi : p.instr = .tableRef table) : ⟨table, p.slot⟩ ∈ (render v l).tables :=
  List.mem_filterMap.2 ⟨p, hp, tableRef?_of_instr hi⟩

theorem exists_of_mem_tables_render {ref : Reference} (h : ref ∈ (render v l).tables) :
    ∃ p ∈ l, p.instr = .tableRef ref.target ∧ p.slot = ref.slot := by
  obtain ⟨p, hp, href⟩ := List.mem_filterMap.1 h
  obtain ⟨table, hi, rfl⟩ := exists_of_tableRef? href
  exact ⟨p, hp, hi, rfl⟩

theorem EntryFault.not_linkable {t : JumpTable} {e : CompileError Nat} (ht : t ∈ r.tables)
    (h : EntryFault (labelsOf l) t t.labels e) : ¬ Linkable r limits (render v l) := by
  intro hlink
  cases h with
  | missing hlabel hnone =>
    obtain ⟨n, hn, -⟩ := hlink.entries t ht _ hlabel
    rw [show (labelsOf l).offset? _ = some n from hn] at hnone
    cases hnone
  | overflow hlabel hsome hlt =>
    obtain ⟨n, hn, hle⟩ := hlink.entries t ht _ hlabel
    rw [show (labelsOf l).offset? _ = some n from hn] at hsome
    obtain rfl := Option.some.inj hsome
    exact absurd hle (Nat.not_le_of_lt hlt)

/-- Where nothing is wrong with the code, the references to tables have their
offsets. -/
theorem Linkable.tablesKnown (h : Linkable r limits (render v l))
    (hnodup : (r.tables.map JumpTable.name).Nodup) :
    TablesKnown (place (totalSize l) r.tables) l := by
  intro p hp table hi
  obtain ⟨k, t, ht, hname, hle⟩ := h.references _ (mem_tables_render hp hi)
  rw [size_render] at hle
  exact ⟨_, (tableOffset?_place_eq_some_iff hnodup).2 ⟨k, t, ht, hname, rfl⟩, hle⟩

theorem TableFault.not_tablesKnown {tables : List LinkedTable} {e : CompileError Nat}
    (h : TableFault tables l e) : ¬ TablesKnown tables l := by
  intro hknown
  cases h with
  | missing hp hi hnone =>
    obtain ⟨n, hn, -⟩ := hknown _ hp _ hi
    rw [hn] at hnone
    cases hnone
  | overflow hp hi hsome hlt =>
    obtain ⟨n, hn, hle⟩ := hknown _ hp _ hi
    rw [hn] at hsome
    obtain rfl := Option.some.inj hsome
    exact absurd hle (Nat.not_le_of_lt hlt)

/-- The linker fails only if something is wrong with the code. -/
theorem LinkFault.not_linkable {e : CompileError Nat} (h : LinkFault r limits l e)
    (hnodup : (r.tables.map JumpTable.name).Nodup) : ¬ Linkable r limits (render v l) := by
  intro hlink
  cases h with
  | entry ht hfault => exact hfault.not_linkable ht hlink
  | size hlay hlt =>
    have hle := hlink.bytes
    rw [size_render, ← (layOut_eq_ok hlay).2] at hle
    exact absurd hle (Nat.not_le_of_lt hlt)
  | table hlay hfault =>
    obtain ⟨rfl, -⟩ := layOut_eq_ok hlay
    exact hfault.not_tablesKnown (hlink.tablesKnown hnodup)

/-- What the linker has made something of can be linked. -/
theorem LinkedFrom.linkable (h : LinkedFrom r limits l v p)
    (hnodup : (r.tables.map JumpTable.name).Nodup) : Linkable r limits (render v l) := by
  obtain ⟨tableCells, hlay, -, hle⟩ := h.cells
  obtain ⟨hplace, hlength⟩ := layOut_eq_ok hlay
  have hlaid := laidOut_of_layOut hlay
  refine ⟨?_, ?_, ?_⟩
  · intro t ht label hlabel
    rw [← hlaid.tables] at ht
    obtain ⟨u, hu, rfl⟩ := List.mem_map.1 ht
    obtain ⟨-, -, offsets, hoffs, -⟩ := hlaid.entries u hu
    obtain ⟨i, hi⟩ := List.mem_iff_getElem?.1 hlabel
    obtain ⟨n, -, hn⟩ := hoffs.get hi
    exact ⟨n, hn⟩
  · rwa [size_render, ← hlength]
  · intro ref href
    obtain ⟨q, hq, hi, -⟩ := exists_of_mem_tables_render href
    obtain ⟨n, hn, hle⟩ := h.known q hq _ hi
    rw [hplace] at hn
    obtain ⟨k, t, ht, hname, rfl⟩ := (tableOffset?_place_eq_some_iff hnodup).1 hn
    exact ⟨k, t, ht, hname, by rwa [size_render]⟩

theorem link_segment_returns (r : Registry) (limits : Limits) (t : ExpansionTree) :
    Returns (link r limits (t.segment 0))
      (LinkedFrom r limits (t.layout 0 0) (filled (t.layout 0 0)))
      (LinkFault r limits (t.layout 0 0)) :=
  link_returns r limits (laid_layout t 0 0) filled_tableRef

theorem link_eq_ok_iff_linkable (hl : Laid 0 l)
    (hv : ∀ p table, Placed.instr p = .tableRef table → v p = none)
    (hnodup : (r.tables.map JumpTable.name).Nodup) :
    (∃ p, link (σ := Nat) r limits (render v l) = .ok p) ↔ Linkable r limits (render v l) := by
  have hreturns := link_returns r limits hl hv
  rcases hlink : link (σ := Nat) r limits (render v l) with e | p
  · rw [hlink] at hreturns
    exact ⟨by simp, fun h => absurd h (hreturns.not_linkable hnodup)⟩
  · rw [hlink] at hreturns
    exact ⟨fun _ => hreturns.linkable hnodup, fun _ => ⟨p, rfl⟩⟩

end Program

/-! ### Sizes of tables in a text -/

/-- The operation of the macro stands where the text of its body has
`__tablesize(table)`. -/
def Macro.SizesTable (text : Text) (m : Macro) (op : Operation) (table : String) : Prop :=
  ∃ start tok, m.BodyAt text start ∧ tok ∈ (Token.lex ⟨start, m.body⟩).1 ∧
    tok.kind = .tableSize table ∧ tok.start = op.source

/-- A body stands at one place. -/
theorem Macro.BodyAt.unique {text : Text} {m : Macro} {start start' : Nat}
    (h : m.BodyAt text start) (h' : m.BodyAt text start') : start = start' := by
  obtain ⟨before, head, after, htext, -, hhead, -, hsource, rfl⟩ := h
  obtain ⟨before', head', after', htext', -, hhead', -, hsource', rfl⟩ := h'
  have hrest : head ++ '{' :: (m.body ++ '}' :: after) =
      head' ++ '{' :: (m.body ++ '}' :: after') := by
    have hdrop := Text.dropBytes_append before (head ++ '{' :: (m.body ++ '}' :: after))
    have hdrop' := Text.dropBytes_append before' (head' ++ '{' :: (m.body ++ '}' :: after'))
    rw [← hsource, ← htext] at hdrop
    rw [← hsource', ← htext'] at hdrop'
    exact hdrop.symm.trans hdrop'
  have hheads := congrArg (List.takeWhile (· != '{')) hrest
  rw [Text.takeWhile_append_cons hhead, Text.takeWhile_append_cons hhead'] at hheads
  rw [hheads]

/-- The operations of every macro are read from its body in the text, with tables
that the registry has as well. -/
def Registry.BodiesRead (text : Text) (r : Registry) : Prop :=
  ∀ m ∈ r.macros, ∃ start r', m.BodyAt text start ∧
    Body.parse r' ⟨start, m.body⟩ = .ok m.ops ∧ r'.tables ⊆ r.tables

theorem Registry.bodiesRead_of_parse {text : Text} {r : Registry}
    (h : Declaration.parse text = .ok r) : r.BodiesRead text := by
  refine Declaration.parse_induction_within (P := fun st => st.registry.BodiesRead text) ?_
    (fun _ hm => by cases hm) h
  intro c d st st' hc hdecl hst
  obtain ⟨-, hdeclares⟩ := Declaration.declares_of_declaration hdecl
  cases hdeclares with
  | template => exact hst
  | addMacro hread hadd =>
    obtain ⟨-, rfl⟩ := addMacro_eq_ok.1 hadd
    intro m hm
    obtain hm | hm := List.mem_append.1 hm
    · exact hst m hm
    · obtain rfl := List.mem_singleton.1 hm
      obtain ⟨start, hbody, hops⟩ := hread.bodyAt hc
      exact ⟨start, _, hbody, hops, List.Subset.refl _⟩
  | addTable _ _ hadd =>
    obtain ⟨-, rfl⟩ := addTable_eq_ok.1 hadd
    intro m hm
    obtain ⟨start, r', hbody, hops, htables⟩ := hst m hm
    exact ⟨start, r', hbody, hops, fun t ht => List.mem_append_left _ (htables ht)⟩

/-- A push of the size of a table is made for each `__tablesize`. -/
theorem Body.push_of_tableSize {r : Registry} {labels : List String} {tok : Token} {table : String}
    {kind : OperationKind} (htok : tok.kind = .tableSize table)
    (h : operation r labels tok = .ok kind) :
    ∃ t ∈ r.tables, t.name = table ∧ ∃ push, kind = .push push ∧ push.value = t.size := by
  simp only [operation, htok] at h
  split at h
  · rename_i t ht
    have hname : t.name = table := by simpa using List.find?_some ht
    rw [pushOf] at h
    split at h
    · rename_i push hpush
      obtain rfl := Except.ok.inj h
      exact ⟨t, List.mem_of_find?_eq_some ht, hname, push, rfl, Push.value_of_encode hpush⟩
    · cases h
  · cases h

theorem Registry.BodiesRead.sizesTable {text : Text} {r : Registry} (h : r.BodiesRead text)
    {m : Macro} (hm : m ∈ r.macros) {op : Operation} (hop : op ∈ m.ops) {table : String}
    (hsize : m.SizesTable text op table) :
    ∃ t ∈ r.tables, t.name = table ∧ ∃ push, op.kind = .push push ∧ push.value = t.size := by
  obtain ⟨start, r', hbody, hops, htables⟩ := h m hm
  obtain ⟨start', tok, hbody', htok, hkind, hstart⟩ := hsize
  obtain rfl := hbody.unique hbody'
  obtain ⟨labels, tok', htok', hoperation, hsource⟩ := Body.exists_token_of_ofTokens hops op hop
  -- tokens that start at one place are one token
  have hnodup : ((Token.lex ⟨start, m.body⟩).1.map Token.start).Nodup :=
    (Token.pairwise_start_lex _).imp Nat.ne_of_lt
  obtain rfl : tok = tok' := List.inj_on_of_nodup_map hnodup htok htok' (hstart.trans hsource)
  obtain ⟨t, ht, hname, hpush⟩ := Body.push_of_tableSize hkind hoperation
  exact ⟨t, htables ht, hname, hpush⟩

/-! ### Linked programs -/

theorem Placed.EmittedBy.cells_of_push {r : Registry} {m : Macro} {values : List String}
    {op : Operation} {q : Placed} (h : q.EmittedBy r m values op) {push : Push}
    (hop : op.kind = .push push) (value? : Option Nat) :
    (q.cells value?).map Cell.byte = push.bytes := by
  have haction : action r m values op = .ok (.emit (.push push)) := by simp [action, hop]
  obtain hemit | ⟨inv, child, hmeasure, -⟩ := h.emits
  · obtain hi : Instr.push push = q.instr := by simpa [haction] using hemit
    simp [Placed.cells, ← hi, Cell.ofBytes, Function.comp_def]
  · simp [haction] at hmeasure

namespace Program

/-- The program is the code `s` of an entry macro, with the tables of the registry
behind it; the registry is read from `text`. -/
structure Linked (text : Text) (r : Registry) (entry : Invocation) (s : Segment) (p : Program) :
    Prop where
  labels : p.labels = s.labels
  size : p.size = s.size + tablesSize r.tables
  codeSize : p.codeSize = s.size
  tables : p.tables.map LinkedTable.table = r.tables
  offsets : ∀ k u, p.tables[k]? = some u → u.offset = s.size + tablesSize (r.tables.take k)
  /-- Entries are offsets of labels, in two bytes or in a word of 32. -/
  entries : ∀ u ∈ p.tables, ∀ j label, u.table.labels[j]? = some label →
    (p.entryBytes u j).length = (if u.table.packed then 2 else 32) ∧
      s.labels.offset? label = some (Numeral.ofBytes (p.entryBytes u j))
  slots : ∀ ref ∈ s.tables, ∃ u ∈ p.tables, u.table.name = ref.target ∧
    Chunk.word? p.cells.toArray ref.slot = some u.offset
  /-- All else is as it was. -/
  code : ∀ i < s.size, (∀ ref ∈ s.tables, i ≠ ref.slot ∧ i ≠ ref.slot + 1) →
    p.cells[i]? = s.cells[i]?
  sources : (p.cells.take s.size).map Cell.source = s.cells.map Cell.source
  /-- What is pushed for the size of a table is the size that it has here. -/
  sizes : ∀ t, Expands r entry t → ∀ m ∈ r.macros, ∀ op ∈ m.ops, ∀ table,
    m.SizesTable text op table → ∃ u ∈ p.tables, u.table.name = table ∧
      ∃ push, op.kind = .push push ∧ push.value = u.table.size ∧
        ∀ q ∈ t.layout 0 0, ∀ values, q.EmittedBy r m values op →
          (p.bytes.drop q.offset).take q.size = push.bytes

theorem LinkedFrom.codeSize_eq (h : LinkedFrom r limits l v p) : p.codeSize = totalSize l := by
  obtain ⟨tableCells, hlay, hcells, -⟩ := h.cells
  exact (laidOut_of_layOut hlay).codeSize_eq (length_code _ _) hcells

theorem LinkedFrom.size_eq (h : LinkedFrom r limits l v p) :
    p.size = totalSize l + tablesSize r.tables := by
  obtain ⟨tableCells, hlay, hcells, -⟩ := h.cells
  rw [Program.size, hcells, List.length_append, length_code, (layOut_eq_ok hlay).2]

theorem LinkedFrom.map_table (h : LinkedFrom r limits l v p) :
    p.tables.map LinkedTable.table = r.tables := by
  obtain ⟨tableCells, hlay, -⟩ := h.cells
  exact (laidOut_of_layOut hlay).tables

theorem LinkedFrom.offset_eq (h : LinkedFrom r limits l v p) {k : Nat} {u : LinkedTable}
    (hu : p.tables[k]? = some u) : u.offset = totalSize l + tablesSize (r.tables.take k) := by
  obtain ⟨tableCells, hlay, -⟩ := h.cells
  rw [(layOut_eq_ok hlay).1, getElem?_place] at hu
  obtain ⟨t, -, rfl⟩ := Option.map_eq_some_iff.1 hu
  rfl

theorem LinkedFrom.entry_eq (h : LinkedFrom r limits l v p) {u : LinkedTable} (hu : u ∈ p.tables)
    {j : Nat} {label : String} (hj : u.table.labels[j]? = some label) :
    (p.entryBytes u j).length = u.table.entrySize ∧
      (labelsOf l).offset? label = some (Numeral.ofBytes (p.entryBytes u j)) := by
  obtain ⟨tableCells, hlay, hcells, -⟩ := h.cells
  have hlaid := laidOut_of_layOut hlay
  rw [← h.labels] at hlaid ⊢
  obtain ⟨n, hlabel, hn, hbytes⟩ := hlaid.entryBytes_eq (length_code _ _) hcells hu hj
  rw [hbytes, List.length_map, length_entryCells, ofBytes_entryCells _ hn]
  exact ⟨rfl, hlabel⟩

/-- A reference to a table holds the offset of the table. -/
theorem LinkedFrom.slot_eq (h : LinkedFrom r limits l v p) (hl : Laid 0 l) {ref : Reference}
    (href : ref ∈ (render v l).tables) :
    ∃ u ∈ p.tables, u.table.name = ref.target ∧
      Chunk.word? p.cells.toArray ref.slot = some u.offset := by
  obtain ⟨tableCells, -, hcells, -⟩ := h.cells
  obtain ⟨q, hq, hi, hslot⟩ := exists_of_mem_tables_render href
  obtain ⟨n, hn, hle⟩ := h.known q hq _ hi
  obtain ⟨u, hfind, rfl⟩ := Option.map_eq_some_iff.1 hn
  refine ⟨u, List.mem_of_find?_eq_some hfind, by simpa using List.find?_some hfind, ?_⟩
  rw [hcells, ← hslot]
  refine word?_code hl hq (Placed.isRef_of_tableRef hi) ?_ hle tableCells
  rw [withTables_tableRef _ _ hi, hn]

/-- Linking changes nothing of the code but the references to tables. -/
theorem LinkedFrom.getElem?_eq (h : LinkedFrom r limits l v p) (hl : Laid 0 l) {i : Nat}
    (hi : i < totalSize l)
    (hother : ∀ ref ∈ (render v l).tables, i ≠ ref.slot ∧ i ≠ ref.slot + 1) :
    p.cells[i]? = (render v l).cells[i]? := by
  obtain ⟨tableCells, -, hcells, -⟩ := h.cells
  rw [hcells, List.getElem?_append_left (by rwa [length_code])]
  refine getElem?_code_congr hl fun q hq _ hne => ?_
  rw [Nat.zero_add]
  rcases href : q.tableRef? with - | ref
  · exact absurd (withTables_of_tableRef?_eq_none _ _ href) hne
  · obtain ⟨table, hinstr, rfl⟩ := exists_of_tableRef? href
    exact hother _ (mem_tables_render hq hinstr)

theorem LinkedFrom.map_source (h : LinkedFrom r limits l v p) :
    (p.cells.take (totalSize l)).map Cell.source = (render v l).cells.map Cell.source := by
  obtain ⟨tableCells, -, hcells, -⟩ := h.cells
  rw [hcells, List.take_left' (length_code _ _)]
  exact map_source_code _ _ _

/-- An operation that pushes has pushed the same bytes wherever it was expanded. -/
theorem LinkedFrom.pushed (h : LinkedFrom r limits l v p) (hl : Laid 0 l) {m : Macro}
    {values : List String} {op : Operation} {push : Push} (hop : op.kind = .push push) {q : Placed}
    (hq : q ∈ l) (hemits : q.EmittedBy r m values op) :
    (p.bytes.drop q.offset).take q.size = push.bytes := by
  obtain ⟨tableCells, -, hcells, -⟩ := h.cells
  rw [bytes, hcells, ← List.map_drop, ← List.map_take, take_drop_code _ hl hq]
  exact hemits.cells_of_push hop _

theorem LinkedFrom.linked {text : Text} {entry : Invocation} {t : ExpansionTree}
    (h : LinkedFrom r limits (t.layout 0 0) (filled (t.layout 0 0)) p) (ht : Expands r entry t)
    (hread : r.BodiesRead text) : Linked text r entry (t.segment 0) p := by
  have hl := laid_layout t 0 0
  have hsize : (t.segment 0).size = totalSize (t.layout 0 0) := size_render _ _
  refine ⟨h.labels, ?_, ?_, h.map_table, ?_, ?_, fun _ href => h.slot_eq hl href, ?_, ?_, ?_⟩
  · rw [hsize, h.size_eq]
  · rw [hsize, h.codeSize_eq]
  · intro k u hu
    rw [hsize, h.offset_eq hu]
  · exact fun u hu j label hj => h.entry_eq hu hj
  · intro i hi hother
    rw [hsize] at hi
    exact h.getElem?_eq hl hi hother
  · rw [hsize]
    exact h.map_source
  · intro t' ht' m hm op hop table hsizes
    obtain rfl := ht'.unique ht
    obtain ⟨u', hu', hname, push, hpush, hvalue⟩ := hread.sizesTable hm hop hsizes
    rw [← h.map_table] at hu'
    obtain ⟨u, hu, rfl⟩ := List.mem_map.1 hu'
    exact ⟨u, hu, hname, push, hpush, hvalue, fun q hq values => h.pushed hl hpush hq⟩

/-- **The layout of a program is exact.**  Whatever a text declares and an entry
macro expands to, the code can be linked exactly if it is `Linkable`, and the
program is then what `Linked` says. -/
theorem linked_of_run_expand {text : Text} {r : Registry} {limits limits' : Limits}
    {entry : Invocation} {earlier n : Nat} {s : Segment} (hparse : Declaration.parse text = .ok r)
    (hrun : run (expand r limits' entry 0) earlier = (.ok s, n)) :
    ((∃ p, link (σ := Nat) r limits s = .ok p) ↔ Linkable r limits s) ∧
      ∀ p, link (σ := Nat) r limits s = .ok p → Linked text r entry s p := by
  obtain ⟨t, ht, -, rfl, -⟩ := run_expand_eq_ok_iff.1 hrun
  have hnodup := (Registry.built_of_parse hparse).nodup.2
  refine ⟨link_eq_ok_iff_linkable (laid_layout t 0 0) filled_tableRef hnodup, ?_⟩
  intro p hp
  have hlinked := link_segment_returns r limits t
  rw [hp] at hlinked
  exact LinkedFrom.linked hlinked ht (Registry.bodiesRead_of_parse hparse)

/-- The body of `MAIN`, which measures two tables, one of them empty, and refers to
a third one twice before that is declared. -/
def measuringBody : Text :=
  (" __tablesize(W) a: __tablestart(P) __tablestart(W) b: __tablesize(E) " ++
    "__tablestart(P) ").toList

@[inherit_doc measuringBody]
def measuringText : Text :=
  "#define jumptable W \x7b b a b \x7d #define jumptable__packed E \x7b \x7d ".toList ++
    ("#define macro MAIN = takes(0) returns(0) ".toList ++ '{' :: (measuringBody ++ '}' ::
      " #define jumptable__packed P \x7b a b \x7d".toList))

@[inherit_doc measuringBody]
def measuringMain : Macro :=
  { Macro.ofName "MAIN" with
    body := measuringBody
    ops := [⟨.push ⟨[96]⟩, 105⟩, ⟨.jumpDest "a", 120⟩, ⟨.tableStart "P", 123⟩,
      ⟨.tableStart "W", 139⟩, ⟨.jumpDest "b", 155⟩, ⟨.push ⟨[0]⟩, 158⟩, ⟨.tableStart "P", 173⟩]
    source := 62 }

@[inherit_doc measuringBody]
def measuring : Registry where
  macros := [measuringMain]
  tables := [⟨"W", ["b", "a", "b"], false, 0⟩, ⟨"E", [], true, 30⟩, ⟨"P", ["a", "b"], true, 191⟩]

theorem linked_measuring :
    ∃ s n p, Declaration.parse measuringText = .ok measuring ∧
      run (expand measuring {} ⟨"MAIN", []⟩ 0) 0 = (.ok s, n) ∧
      measuringMain.SizesTable measuringText ⟨.push ⟨[96]⟩, 105⟩ "W" ∧
      Linkable measuring { bytes := 115 } s ∧
      link (σ := Nat) measuring { bytes := 115 } s = .ok p ∧
      p.bytes.take 15 = [0x60, 96, 0x5b, 0x61, 0, 111, 0x61, 0, 15, 0x5b, 0x60, 0, 0x61, 0, 111] ∧
      Linked measuringText measuring ⟨"MAIN", []⟩ s p := by
  have hparse : Declaration.parse measuringText = .ok measuring := by decide +kernel
  have hsizes : measuringMain.SizesTable measuringText ⟨.push ⟨[96]⟩, 105⟩ "W" := by
    refine ⟨104, ⟨.tableSize "W", "__tablesize(W)".toList, 105⟩, ⟨_, _, _, rfl, ?_⟩, ?_, rfl, rfl⟩
    · decide +kernel
    · decide +kernel
  have hbytes : ((run (expand measuring {} ⟨"MAIN", []⟩ 0) 0).1 >>= fun s =>
      link measuring { bytes := 115 } s).map (fun p => p.bytes.take 15) =
        .ok [0x60, 96, 0x5b, 0x61, 0, 111, 0x61, 0, 15, 0x5b, 0x60, 0, 0x61, 0, 111] := by
    decide +kernel
  rcases hrun : run (expand measuring {} ⟨"MAIN", []⟩ 0) 0 with ⟨e | s, n⟩
  · rw [hrun] at hbytes
    cases hbytes
  · rw [hrun] at hbytes
    obtain ⟨hlinkable, hlinked⟩ :
        ((∃ p, link (σ := Nat) measuring { bytes := 115 } s = .ok p) ↔ _) ∧ _ :=
      linked_of_run_expand hparse hrun
    rcases hlink : link (σ := Nat) measuring { bytes := 115 } s with e | p
    · simp [bind, Except.bind, hlink, Except.map] at hbytes
    · simp only [bind, Except.bind, hlink, Except.map] at hbytes
      exact ⟨s, n, p, hparse, rfl, hsizes, hlinkable.1 ⟨p, hlink⟩, hlink, Except.ok.inj hbytes,
        hlinked p hlink⟩

end Program

end MacroAssembler
