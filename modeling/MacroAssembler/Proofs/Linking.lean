/-
MacroAssembler/Proofs/Linking.lean

Compiled programs, from the layout of the entry macro.

A program is the code of a layout with the jump tables behind it.  The linker
fills the references to tables in the code, by the same patches that the
expander fills references to labels with; `withTables` adds their offsets to
those that the rule of scopes gives.

Main result: `compileLogged_returns`.  A compilation, run with a log of its
patches, either makes a program from the tree of the entry macro, as `Compiled`
says, or fails with its slots intact.  Without the log it is `Program.compile`
(`fst_compileLogged`).
-/
import Mathlib.Data.List.Forall2
import MacroAssembler.Program
import MacroAssembler.Proofs.Assembly

namespace MacroAssembler

open Rendering Scope Expansion

/-! ### Jump tables -/

namespace Program

/-- The offsets of some labels, each of which fits into two bytes. -/
def Offsets (labels : LabelTable) : List String → List Nat → Prop :=
  List.Forall₂ fun label n => labels.offset? label = some n ∧ n ≤ 0xffff

/-- Why the entries of some labels cannot be written. -/
inductive EntryFault (labels : LabelTable) (t : JumpTable) (names : List String) :
    CompileError Nat → Prop
  | missing {label} : label ∈ names → labels.offset? label = none →
      EntryFault labels t names (.missingTableLabel t.name label)
  | overflow {label n} : label ∈ names → labels.offset? label = some n → 0xffff < n →
      EntryFault labels t names (.offsetOverflow n (entryName t.name label))

theorem EntryFault.cons {labels : LabelTable} {t : JumpTable} {names : List String}
    {e : CompileError Nat} (h : EntryFault labels t names e) (label : String) :
    EntryFault labels t (label :: names) e := by
  cases h with
  | missing hmem hoff => exact .missing (List.mem_cons_of_mem _ hmem) hoff
  | overflow hmem hoff hlt => exact .overflow (List.mem_cons_of_mem _ hmem) hoff hlt

theorem EntryFault.slotsIntact {labels : LabelTable} {t : JumpTable} {names : List String}
    {e : CompileError Nat} (h : EntryFault labels t names e) : e.SlotsIntact := by
  cases h <;> trivial

theorem tableCells_returns (labels : LabelTable) (t : JumpTable) (names : List String) :
    Returns (tableCells labels t names)
      (fun cells => ∃ offsets, Offsets labels names offsets ∧
        cells = offsets.flatMap (entryCells t)) (EntryFault labels t names) := by
  induction names with
  | nil => exact Returns.ok ⟨[], .nil, rfl⟩
  | cons label names ih =>
    rw [tableCells]
    rcases hoff : labels.offset? label with - | n
    · exact Returns.error (.missing List.mem_cons_self hoff)
    · by_cases hle : n ≤ 0xffff
      · simp only [if_pos hle]
        refine Returns.bind (ih.mono_error fun _ he => he.cons label) ?_
        rintro cells ⟨offsets, hoffs, rfl⟩
        exact Returns.ok ⟨n :: offsets, .cons ⟨hoff, hle⟩ hoffs, rfl⟩
      · simp only [if_neg hle]
        exact Returns.error (.overflow List.mem_cons_self hoff (Nat.lt_of_not_le hle))

theorem length_entryCells (t : JumpTable) (n : Nat) : (entryCells t n).length = t.entrySize := by
  obtain ⟨name, labels, packed, source⟩ := t
  cases packed <;> rfl

theorem length_entries (t : JumpTable) (offsets : List Nat) :
    (offsets.flatMap (entryCells t)).length = offsets.length * t.entrySize := by
  induction offsets with
  | nil => simp
  | cons n offsets ih =>
    rw [List.flatMap_cons, List.length_append, ih, length_entryCells, List.length_cons,
      Nat.succ_mul, Nat.add_comm]

/-- The bytes of a table are as many as its size says. -/
theorem length_table {labels : LabelTable} {t : JumpTable} {offsets : List Nat}
    (h : Offsets labels t.labels offsets) :
    (offsets.flatMap (entryCells t)).length = t.size := by
  rw [length_entries, ← h.length_eq, JumpTable.size]

/-- The bytes of tables that begin at offset `pos`, and where each is. -/
structure LaidOut (labels : LabelTable) (pos : Nat) (ts : List JumpTable) (cells : List Cell)
    (linked : List LinkedTable) : Prop where
  tables : linked.map LinkedTable.table = ts
  nil : linked = [] → cells = []
  first : ∀ t ts', linked = t :: ts' → t.offset = pos
  entries : ∀ t ∈ linked, ∃ a b offsets, Offsets labels t.table.labels offsets ∧
    cells = a ++ offsets.flatMap (entryCells t.table) ++ b ∧ t.offset = pos + a.length
  covers : ∀ n < cells.length, ∃ t ∈ linked, t.offset ≤ pos + n ∧ pos + n < t.offset + t.table.size

theorem layOut_returns (labels : LabelTable) (pos : Nat) (ts : List JumpTable) :
    Returns (layOut labels pos ts) (fun out => LaidOut labels pos ts out.1 out.2)
      (fun e => ∃ t ∈ ts, EntryFault labels t t.labels e) := by
  induction ts generalizing pos with
  | nil => exact Returns.ok ⟨rfl, fun _ => rfl, by simp, by simp, by simp⟩
  | cons t ts ih =>
    rw [layOut]
    refine Returns.bind ((tableCells_returns labels t t.labels).mono_error fun _ he =>
      ⟨t, List.mem_cons_self, he⟩) ?_
    rintro cells ⟨offsets, hoffs, hcells⟩
    have hlater : ∀ e, (∃ u ∈ ts, EntryFault labels u u.labels e) →
        ∃ u ∈ t :: ts, EntryFault labels u u.labels e := by
      rintro e ⟨u, hu, he⟩
      exact ⟨u, List.mem_cons_of_mem _ hu, he⟩
    refine Returns.bind ((ih (pos + cells.length)).mono_error hlater) ?_
    rintro ⟨rest, linked⟩ hrest
    refine Returns.ok ⟨?_, by simp, ?_, ?_, ?_⟩
    · show t :: linked.map LinkedTable.table = t :: ts
      rw [hrest.tables]
    · intro u us hu
      obtain ⟨rfl, -⟩ := List.cons.inj hu
      rfl
    · intro u hu
      obtain rfl | hu := List.mem_cons.1 hu
      · exact ⟨[], rest, offsets, hoffs, by rw [hcells]; rfl, rfl⟩
      · -- a later table stands behind the bytes of this one
        obtain ⟨a, b, offs, hoffs', happ, hoff⟩ := hrest.entries u hu
        refine ⟨cells ++ a, b, offs, hoffs', ?_, ?_⟩
        · rw [List.append_assoc, List.append_assoc, ← List.append_assoc a]
          exact congrArg (cells ++ ·) happ
        · rw [hoff, List.length_append, Nat.add_assoc]
    · intro n hn
      have hlength : cells.length = t.size := by rw [hcells, length_table hoffs]
      rcases Nat.lt_or_ge n cells.length with hlt | hge
      · exact ⟨⟨t, pos⟩, by simp, by simp, by simp; omega⟩
      · obtain ⟨u, hu, hle, hlt⟩ := hrest.covers (n - cells.length) (by simp at hn ⊢; omega)
        exact ⟨u, by simp [hu], by omega, by omega⟩

theorem laidOut_of_layOut {labels : LabelTable} {pos : Nat} {ts : List JumpTable}
    {cells : List Cell} {linked : List LinkedTable}
    (h : layOut (σ := Nat) labels pos ts = .ok (cells, linked)) :
    LaidOut labels pos ts cells linked := by
  have hreturns := layOut_returns labels pos ts
  rwa [h] at hreturns

/-- What stands in front of the tables of a program is its code. -/
theorem LaidOut.codeSize_eq {p : Program} {labels : LabelTable} {pos : Nat} {ts : List JumpTable}
    {front tableCells : List Cell} (h : LaidOut labels pos ts tableCells p.tables)
    (hfront : front.length = pos) (hcells : p.cells = front ++ tableCells) : p.codeSize = pos := by
  rw [codeSize]
  split
  · -- without tables, all is code
    rename_i hnil
    rw [size, hcells, h.nil hnil, List.append_nil, hfront]
  · rename_i u us hcons
    exact h.first u us hcons

/-- The offset of a table. -/
def tableOffset? (tables : List LinkedTable) (name : String) : Option Nat :=
  (tables.find? fun t => t.table.name == name).map LinkedTable.offset

end Program

/-- Fill references to tables, and other references as before. -/
def Rendering.withTables (tables : List LinkedTable) (v : Placed → Option Nat) (p : Placed) :
    Option Nat :=
  match p.instr with
  | .tableRef table => Program.tableOffset? tables table
  | _ => v p

theorem withTables_tableRef (tables : List LinkedTable) (v : Placed → Option Nat) {p : Placed}
    {table : String} (h : p.instr = .tableRef table) :
    withTables tables v p = Program.tableOffset? tables table := by
  simp [withTables, h]

theorem withTables_of_tableRef?_eq_none (tables : List LinkedTable) (v : Placed → Option Nat)
    {p : Placed} (h : p.tableRef? = none) : withTables tables v p = v p := by
  obtain ⟨node, index, offset, source, i⟩ := p
  cases i with
  | tableRef table => simp [Placed.tableRef?] at h
  | _ => rfl

/-- The linker leaves references to labels alone. -/
theorem withTables_jumpRef (tables : List LinkedTable) (v : Placed → Option Nat) {p : Placed}
    {label : String} (h : p.instr = .jumpRef label) : withTables tables v p = v p := by
  simp [withTables, h]

namespace Program

/-! ### The linker with a log -/

/-- `Program.fillTables`, with a log. -/
def fillTablesLogged (tables : List LinkedTable) :
    List Reference → Chunk → Except (CompileError Nat) (Chunk × List Patch)
  | [], c => .ok (c, [])
  | r :: rs, c =>
    match tables.find? fun t => t.table.name == r.target with
    | none => .error (.missingTable r.target)
    | some t => do
      let c ← c.patch r.slot t.offset (tableName t.table.name)
      let out ← fillTablesLogged tables rs c
      return (out.1, .byLinker r.slot :: out.2)

/-- `Program.link`, with a log. -/
def linkLogged (r : Registry) (limits : Limits) (out : Logged) :
    Except (CompileError Nat) (Program × List Patch) := do
  let (tableCells, tables) ← layOut out.1.labels out.1.size r.tables
  let cells := out.1.cells ++ tableCells
  if limits.bytes < cells.length then .error (.outputLimit limits.bytes cells.length)
  else
    let chunk ← fillTablesLogged tables out.1.tables cells.toArray
    return (⟨chunk.1.toList, out.1.labels, tables⟩, out.2 ++ chunk.2)

/-- `Program.compile`, with a log. -/
def compileLogged (r : Registry) (limits : Limits) (entry : Invocation) :
    Except (CompileError Nat) (Program × List Patch) :=
  if !r.hasMacro entry.name then .error (.unknownMacro entry.name none)
  else
    match (CallGraph.ofRegistry r).findCycle entry.name with
    | some chain => .error (.cycle chain)
    | none => do
      let out ← (run (expandLogged r limits limits.depth [] none entry 0) 0).1
      if out.1.jumps.isEmpty then linkLogged r limits out
      else
        .error (.unresolvedLabels entry.name (out.1.jumps.map fun j => (j.target, j.slot - 1)))

theorem fst_fillTablesLogged (tables : List LinkedTable) (refs : List Reference) (c : Chunk) :
    Prod.fst <$> fillTablesLogged tables refs c = fillTables tables refs c := by
  induction refs generalizing c with
  | nil => rfl
  | cons ref refs ih =>
    rw [fillTablesLogged, fillTables]
    rcases hfind : tables.find? fun t => t.table.name == ref.target with - | t
    · simp only [hfind]
      rfl
    · simp only [hfind, ← ih, map_eq_pure_bind, bind_assoc, pure_bind]

theorem fst_linkLogged (r : Registry) (limits : Limits) (out : Logged) :
    Prod.fst <$> linkLogged r limits out = link r limits out.1 := by
  rw [linkLogged, link, map_bind]
  congr 1
  funext placed
  by_cases hlt : limits.bytes < (out.1.cells ++ placed.1).length
  · simp only [if_pos hlt]
    rfl
  · simp only [if_neg hlt, ← fst_fillTablesLogged, map_eq_pure_bind, bind_assoc, pure_bind]

/-- Without its log, the logged compiler is the compiler. -/
theorem fst_compileLogged (r : Registry) (limits : Limits) (entry : Invocation) :
    Prod.fst <$> compileLogged r limits entry = compile r limits entry := by
  rw [compileLogged, compile]
  by_cases hname : (!r.hasMacro entry.name) = true
  · rw [if_pos hname, if_pos hname]
    rfl
  · rw [if_neg hname, if_neg hname]
    rcases (CallGraph.ofRegistry r).findCycle entry.name with - | chain
    · -- the log is dropped from the outcome of the run, whichever it is
      have hrun : (run (expand r limits entry 0) 0).1 =
          (run (expandLogged r limits limits.depth [] none entry 0) 0).1.map Prod.fst := by
        rw [expand, ← fst_expandLogged, run_map]
      simp only [hrun]
      rcases (run (expandLogged r limits limits.depth [] none entry 0) 0).1 with e | out
      · rfl
      · show Prod.fst <$> (if out.1.jumps.isEmpty then _ else _) =
          (if out.1.jumps.isEmpty then _ else _)
        by_cases hopen : out.1.jumps.isEmpty = true
        · rw [if_pos hopen, if_pos hopen, fst_linkLogged]
        · rw [if_neg hopen, if_neg hopen]
          rfl
    · rfl

/-! ### Filling the references to tables -/

/-- A patch for each reference to a table. -/
def linkerPatches (l : List Placed) : List Patch :=
  (l.filterMap Placed.tableRef?).map fun r => .byLinker r.slot

/-- Every reference to a table has an offset that fits into two bytes. -/
def TablesKnown (tables : List LinkedTable) (l : List Placed) : Prop :=
  ∀ p ∈ l, ∀ table, p.instr = .tableRef table →
    ∃ n, tableOffset? tables table = some n ∧ n ≤ 0xffff

theorem exists_of_tableRef? {p : Placed} {ref : Reference} (h : p.tableRef? = some ref) :
    ∃ table, p.instr = .tableRef table ∧ ref = ⟨table, p.slot⟩ := by
  obtain ⟨node, index, offset, source, i⟩ := p
  cases i <;> simp [Placed.tableRef?] at h
  exact ⟨_, rfl, h.symm⟩

theorem tableRef?_of_instr {p : Placed} {table : String} (h : p.instr = .tableRef table) :
    p.tableRef? = some ⟨table, p.slot⟩ := by
  simp [Placed.tableRef?, h]

variable {tables : List LinkedTable} {v : Placed → Option Nat}

/-- Why the references to tables of a layout cannot be filled. -/
inductive TableFault (tables : List LinkedTable) (l : List Placed) : CompileError Nat → Prop
  | missing {p table} : p ∈ l → Placed.instr p = .tableRef table →
      tableOffset? tables table = none → TableFault tables l (.missingTable table)
  | overflow {p table n} : p ∈ l → Placed.instr p = .tableRef table →
      tableOffset? tables table = some n → 0xffff < n →
      TableFault tables l (.offsetOverflow n (tableName table))

theorem TableFault.cons {l : List Placed} {e : CompileError Nat} (h : TableFault tables l e)
    (p : Placed) : TableFault tables (p :: l) e := by
  cases h with
  | missing hq hi hoff => exact .missing (List.mem_cons_of_mem _ hq) hi hoff
  | overflow hq hi hoff hlt => exact .overflow (List.mem_cons_of_mem _ hq) hi hoff hlt

theorem TableFault.slotsIntact {l : List Placed} {e : CompileError Nat}
    (h : TableFault tables l e) : e.SlotsIntact := by
  cases h <;> trivial

/-- The linker fills every reference to a table in the code of a layout, which
stands between `a` and `b`. -/
theorem fillTablesLogged_returns {a b : List Cell} {l : List Placed} (hl : Laid a.length l)
    (hv : ∀ p table, Placed.instr p = .tableRef table → v p = none) :
    Returns (fillTablesLogged tables (l.filterMap Placed.tableRef?) (a ++ code v l ++ b).toArray)
      (fun out => out.1 = (a ++ code (withTables tables v) l ++ b).toArray ∧
        out.2 = linkerPatches l ∧ TablesKnown tables l) (TableFault tables l) := by
  induction l generalizing a with
  | nil => exact Returns.ok ⟨rfl, rfl, by simp [TablesKnown]⟩
  | cons p l ih =>
    -- the code before the rest of the layout ends where the rest begins
    have hbehind : ∀ value?, Laid (a ++ p.cells value?).length l := by
      intro value?
      simpa using hl.2
    rw [append_code_cons]
    rcases href : p.tableRef? with - | ref
    · rw [List.filterMap_cons_none href]
      refine ((ih (hbehind (v p))).mono_error fun _ he => he.cons p).mono ?_
      rintro out ⟨hcells, hlog, hknown⟩
      refine ⟨?_, ?_, ?_⟩
      · rw [hcells, append_code_cons, withTables_of_tableRef?_eq_none _ _ href]
      · rw [hlog, linkerPatches, linkerPatches, List.filterMap_cons_none href]
      · intro q hq table hi
        obtain rfl | hq := List.mem_cons.1 hq
        · simp [tableRef?_of_instr hi] at href
        · exact hknown q hq table hi
    · obtain ⟨table, hi, rfl⟩ := exists_of_tableRef? href
      rw [List.filterMap_cons_some href, fillTablesLogged, hv p table hi]
      rcases hfind : tables.find? fun t => t.table.name == table with - | t
      · simp only [hfind]
        refine Returns.error (.missing List.mem_cons_self hi ?_)
        rw [tableOffset?, hfind, Option.map_none]
      · simp only [hfind]
        have hoff : tableOffset? tables table = some t.offset := by
          rw [tableOffset?, hfind, Option.map_some]
        have hpatch := patch_ref (σ := Nat) (Placed.isRef_of_tableRef hi)
          (by rw [hl.1, Nat.zero_add] : p.offset = 0 + a.length) (code v l ++ b) t.offset
          (tableName t.table.name)
        rw [Nat.sub_zero, ← List.append_assoc] at hpatch
        rw [hpatch]
        by_cases hle : t.offset ≤ 0xffff
        · rw [if_pos hle, ← List.append_assoc]
          show Returns (fillTablesLogged tables _ _ >>= _) _ _
          refine Returns.bind ((ih (hbehind (some t.offset))).mono_error fun _ he => he.cons p) ?_
          rintro out ⟨hcells, hlog, hknown⟩
          refine Returns.ok ⟨?_, ?_, ?_⟩
          · rw [hcells, append_code_cons, withTables_tableRef _ _ hi, hoff]
          · rw [hlog, linkerPatches, linkerPatches, List.filterMap_cons_some href, List.map_cons]
          · intro q hq table' hi'
            obtain rfl | hq := List.mem_cons.1 hq
            · obtain rfl : table = table' := by simpa [hi] using hi'
              exact ⟨t.offset, hoff, hle⟩
            · exact hknown q hq table' hi'
        · -- the message names the table that was found, which has the name asked for
          obtain rfl : t.table.name = table := by simpa using List.find?_some hfind
          rw [if_neg hle]
          exact Returns.error (.overflow List.mem_cons_self hi hoff (Nat.lt_of_not_le hle))

/-! ### Linking a layout -/

/-- The program that is made from a layout whose references to labels hold `v`. -/
structure LinkedFrom (r : Registry) (limits : Limits) (l : List Placed) (v : Placed → Option Nat)
    (p : Program) : Prop where
  labels : p.labels = labelsOf l
  known : TablesKnown p.tables l
  cells : ∃ tableCells,
    layOut (σ := Nat) (labelsOf l) (totalSize l) r.tables = .ok (tableCells, p.tables) ∧
    p.cells = code (withTables p.tables v) l ++ tableCells ∧
    totalSize l + tableCells.length ≤ limits.bytes

/-- Why a layout cannot be linked. -/
inductive LinkFault (r : Registry) (limits : Limits) (l : List Placed) : CompileError Nat → Prop
  | entry {t e} : t ∈ r.tables → EntryFault (labelsOf l) t t.labels e → LinkFault r limits l e
  | size {tableCells tables} :
      layOut (σ := Nat) (labelsOf l) (totalSize l) r.tables = .ok (tableCells, tables) →
      limits.bytes < totalSize l + tableCells.length →
      LinkFault r limits l (.outputLimit limits.bytes (totalSize l + tableCells.length))
  | table {tableCells tables e} :
      layOut (σ := Nat) (labelsOf l) (totalSize l) r.tables = .ok (tableCells, tables) →
      TableFault tables l e → LinkFault r limits l e

theorem LinkFault.slotsIntact {r : Registry} {limits : Limits} {l : List Placed}
    {e : CompileError Nat} (h : LinkFault r limits l e) : e.SlotsIntact := by
  cases h with
  | entry _ he => exact he.slotsIntact
  | size => trivial
  | table _ he => exact he.slotsIntact

theorem filled_tableRef {l : List Placed} (p : Placed) (table : String)
    (h : p.instr = .tableRef table) : filled l p = none := by
  simp [filled, h]

/-- The linker makes a program from a layout at offset 0, or says why it cannot. -/
theorem linkLogged_render {r : Registry} {limits : Limits} {l : List Placed} (hl : Laid 0 l)
    (hv : ∀ p table, Placed.instr p = .tableRef table → v p = none) (log : List Patch) :
    Returns (linkLogged r limits (render v l, log))
      (fun q => LinkedFrom r limits l v q.1 ∧ q.2 = log ++ linkerPatches l)
      (LinkFault r limits l) := by
  have hsize : (render v l).size = totalSize l := size_render v l
  rw [linkLogged]
  simp only [hsize]
  have hlay := layOut_returns (labelsOf l) (totalSize l) r.tables
  refine Returns.bind (P := fun out => layOut (σ := Nat) (labelsOf l) (totalSize l) r.tables =
    .ok out) (Returns.self (fun _ h => h) fun e he => ?_) ?_
  · rw [show layOut (labelsOf l) (totalSize l) r.tables = .error e from he] at hlay
    obtain ⟨t, ht, hfault⟩ := hlay
    exact .entry ht hfault
  · rintro ⟨tableCells, tables⟩ hok
    have hlength : ((render v l).cells ++ tableCells).length = totalSize l + tableCells.length := by
      rw [List.length_append]
      exact congrArg (· + _) hsize
    simp only [hlength]
    by_cases hlt : limits.bytes < totalSize l + tableCells.length
    · rw [if_pos hlt]
      exact Returns.error (.size hok hlt)
    · rw [if_neg hlt]
      -- the code stands at offset 0 and the tables behind it
      refine Returns.bind ((fillTablesLogged_returns (a := []) hl hv).mono_error
        fun _ he => .table hok he) ?_
      rintro chunk ⟨hcells, hlog, hknown⟩
      refine Returns.ok ⟨⟨rfl, hknown, tableCells, hok, ?_, Nat.le_of_not_lt hlt⟩, ?_⟩
      · show chunk.1.toList = _
        rw [hcells]
        rfl
      · rw [hlog]

/-- The same for the linker, which keeps no log. -/
theorem link_returns (r : Registry) (limits : Limits) {l : List Placed} (hl : Laid 0 l)
    (hv : ∀ p table, Placed.instr p = .tableRef table → v p = none) :
    Returns (link r limits (render v l)) (LinkedFrom r limits l v) (LinkFault r limits l) := by
  have h : Returns (linkLogged r limits (render v l, [])) _ _ := linkLogged_render hl hv []
  rw [← fst_linkLogged r limits (render v l, [])]
  rcases hlink : linkLogged r limits (render v l, []) with e | q
  · rw [hlink] at h
    exact h
  · rw [hlink] at h
    exact h.1

/-! ### Compiled programs -/

/-- A program made from the tree `t` of its entry macro, with its patches. -/
structure Compiled (r : Registry) (limits : Limits) (entry : Invocation) (t : ExpansionTree)
    (p : Program) (log : List Patch) : Prop where
  expands : Expands r entry t
  within : t.Within limits.bytes 0
  labels : p.labels = labelsOf (t.layout 0 0)
  /-- Every reference to a label is filled. -/
  closed : ∀ e ∈ t.layout 0 0, ∀ label, e.instr = .jumpRef label →
    ∃ n, filled (t.layout 0 0) e = some n ∧ n ≤ 0xffff
  known : TablesKnown p.tables (t.layout 0 0)
  cells : ∃ tableCells, LaidOut p.labels t.size r.tables tableCells p.tables ∧
    p.cells = code (withTables p.tables (filled (t.layout 0 0))) (t.layout 0 0) ++ tableCells
  perm : log.Perm (patches (t.layout 0 0) ++ linkerPatches (t.layout 0 0))

/-- A slot of the program holds the offset that fills it. -/
theorem Compiled.word?_slot {r : Registry} {limits : Limits} {entry : Invocation}
    {t : ExpansionTree} {p : Program} {log : List Patch} (h : Compiled r limits entry t p log)
    {e : Placed} (he : e ∈ t.layout 0 0) (href : e.isRef) {n : Nat}
    (hn : withTables p.tables (filled (t.layout 0 0)) e = some n) (hle : n ≤ 0xffff) :
    Chunk.word? p.cells.toArray e.slot = some n := by
  obtain ⟨tableCells, -, hcells⟩ := h.cells
  rw [hcells]
  exact word?_code (laid_layout t 0 0) he href hn hle tableCells

/-- Code without open references has all of them filled. -/
theorem closed_of_settled {t : ExpansionTree} {out : Logged} (h : Settled (t.layout 0 0) out)
    (hopen : out.1.jumps.isEmpty = true) (e : Placed) (he : e ∈ t.layout 0 0) (label : String)
    (hi : e.instr = .jumpRef label) :
    ∃ n, filled (t.layout 0 0) e = some n ∧ n ≤ 0xffff := by
  rcases hfilled : filled (t.layout 0 0) e with - | n
  · have hmem : (⟨label, e.slot⟩ : Reference) ∈ openJumps (filled (t.layout 0 0)) (t.layout 0 0) := by
      refine List.mem_filterMap.2 ⟨e, he, ?_⟩
      simp [Placed.openJump?, hi, hfilled]
    have hnil : openJumps (filled (t.layout 0 0)) (t.layout 0 0) = [] := by
      rw [h.segment] at hopen
      exact List.isEmpty_iff.1 hopen
    rw [hnil] at hmem
    simp at hmem
  · exact ⟨n, rfl, h.fits e he n hfilled⟩

theorem linkLogged_returns {r : Registry} {limits : Limits} {entry : Invocation} {out : Logged}
    {t : ExpansionTree} (h : Realizes r limits.bytes entry 0 out t)
    (hopen : out.1.jumps.isEmpty = true) :
    Returns (linkLogged r limits out) (fun q => Compiled r limits entry t q.1 q.2)
      CompileError.SlotsIntact := by
  have hclosed := closed_of_settled h.settled hopen
  obtain ⟨s, log⟩ := out
  obtain rfl : s = render (filled (t.layout 0 0)) (t.layout 0 0) := h.settled.segment
  refine ((linkLogged_render (laid_layout t 0 0) filled_tableRef log).mono_error
    fun _ he => he.slotsIntact).mono ?_
  rintro ⟨p, log'⟩ ⟨hlinked, rfl⟩
  obtain ⟨tableCells, hlay, hcells, -⟩ := hlinked.cells
  have hlaid := laidOut_of_layOut hlay
  rw [totalSize_layout, ← hlinked.labels] at hlaid
  exact ⟨h.expands, h.within, hlinked.labels, hclosed, hlinked.known, ⟨tableCells, hlaid, hcells⟩,
    h.settled.perm.append_right _⟩

/-- A compilation makes a program from the tree of its entry macro, or fails
with its slots intact. -/
theorem compileLogged_returns (r : Registry) (limits : Limits) (entry : Invocation) :
    Returns (compileLogged r limits entry) (fun out => ∃ t, Compiled r limits entry t out.1 out.2)
      CompileError.SlotsIntact := by
  rw [compileLogged]
  split
  · exact Returns.error trivial
  · split
    · exact Returns.error trivial
    · refine Returns.bind (expandLogged_yields r limits limits.depth [] none entry 0 0) ?_
      rintro out ⟨t, ht⟩
      by_cases hopen : out.1.jumps.isEmpty = true
      · rw [if_pos hopen]
        exact (linkLogged_returns ht hopen).mono fun _ hcomp => ⟨t, hcomp⟩
      · rw [if_neg hopen]
        exact Returns.error trivial

/-- The same for the compiler, which keeps no log. -/
theorem compile_returns (r : Registry) (limits : Limits) (entry : Invocation) :
    Returns (compile r limits entry)
      (fun p => ∃ t log, compileLogged r limits entry = .ok (p, log) ∧
        Compiled r limits entry t p log) CompileError.SlotsIntact := by
  have h := compileLogged_returns r limits entry
  rw [← fst_compileLogged]
  rcases hrun : compileLogged r limits entry with e | ⟨p, log⟩
  · rw [hrun] at h
    exact h
  · rw [hrun] at h
    obtain ⟨t, ht⟩ := h
    exact ⟨t, log, rfl, ht⟩

theorem Compiled.codeSize_eq {r : Registry} {limits : Limits} {entry : Invocation}
    {t : ExpansionTree} {p : Program} {log : List Patch} (h : Compiled r limits entry t p log) :
    p.codeSize = t.size := by
  obtain ⟨tableCells, hlaid, hcells⟩ := h.cells
  exact hlaid.codeSize_eq (by simp) hcells

end Program

end MacroAssembler
