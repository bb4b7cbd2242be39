/-
MacroAssembler/Proofs/JumpTargets.lean

Jumps of a compiled program land on jump destinations.

Offsets of labels are kept in three places: in the table of labels, in the
slots of references, and in the entries of jump tables.  All three come from an
instruction of the layout that defines the label, which is one byte,
`Opcode.jumpDest`.  Since the machine decodes the code of the program into the
instructions of the layout (`decode_code`), it takes each of these offsets for
a jump destination and none of them for a byte inside a push.

Main result: `Program.jumpsLand_of_compile`.
-/
import MacroAssembler.Proofs.Decoding

namespace MacroAssembler

open Rendering Scope Expansion

/-! ### Where offsets come from -/

/-- Some instruction of a layout at the given offset is a jump destination. -/
def HasDest (l : List Placed) (offset : Nat) : Prop :=
  ∃ e ∈ l, ∃ label, e.instr = .dest label ∧ e.offset = offset

theorem hasDest_of_site? {l : List Placed} {e : Placed} (he : e ∈ l) {label : String}
    {site : LabelSite} (h : e.site? label = some site) : HasDest l site.offset := by
  refine ⟨e, he, label, ?_, (Placed.offset_of_site? h).symm⟩
  obtain ⟨node, index, offset, source, i⟩ := e
  cases i with
  | dest name =>
    simp only [Placed.site?] at h
    split at h
    · rename_i hname
      rw [hname]
    · cases h
  | _ => cases h

/-- The rule of scopes answers with a definition. -/
theorem hasDest_of_filled {l : List Placed} {e : Placed} {n : Nat} (h : filled l e = some n) :
    HasDest l n := by
  obtain ⟨node, index, offset, source, i⟩ := e
  cases i with
  | jumpRef label =>
    obtain ⟨site, hsite, rfl⟩ := Option.map_eq_some_iff.1 h
    obtain ⟨a, -, hmax⟩ := Option.bind_eq_some_iff.1 hsite
    obtain ⟨q, hq, hif⟩ := List.mem_filterMap.1 (List.argmax_mem hmax)
    split at hif
    · exact hasDest_of_site? hq hif
    · cases hif
  | _ => cases h

/-- The table of labels lists definitions. -/
theorem hasDest_of_mem_labelsOf {l : List Placed} {x : String × LabelSite}
    (hx : x ∈ (labelsOf l).entries) : HasDest l x.2.offset := by
  induction l with
  | nil => cases hx
  | cons e l ih =>
    obtain hx | hx := List.mem_append.1 hx
    · have hx := (List.mem_filter.1 hx).1
      obtain ⟨node, index, offset, source, i⟩ := e
      cases i with
      | dest label =>
        obtain rfl := List.mem_singleton.1 hx
        exact ⟨_, List.mem_cons_self, label, rfl, rfl⟩
      | _ => cases hx
    · obtain ⟨e', he', hdest⟩ := ih hx
      exact ⟨e', List.mem_cons_of_mem _ he', hdest⟩

theorem offset?_eq_some {t : LabelTable} {label : String} {n : Nat} (h : t.offset? label = some n) :
    ∃ x ∈ t.entries, x.2.offset = n := by
  obtain ⟨site, hsite, rfl⟩ := Option.map_eq_some_iff.1 h
  obtain ⟨a, b, hentries, -⟩ := List.lookup_eq_some_iff.1 hsite
  exact ⟨(label, site), by rw [hentries]; simp, rfl⟩

/-! ### Entries of tables -/

namespace Program

/-- The bytes of entry number `i` of a table. -/
def entryBytes (p : Program) (t : LinkedTable) (i : Nat) : List UInt8 :=
  (p.bytes.drop (t.offset + i * t.table.entrySize)).take t.table.entrySize

/-- An entry reads as the number that was written. -/
theorem ofBytes_entryCells (t : JumpTable) {n : Nat} (hn : n ≤ 0xffff) :
    Numeral.ofBytes ((entryCells t n).map Cell.byte) = n := by
  -- leading zeros do not count
  have hzeros : ∀ k : Nat, (List.replicate k 0).foldl (fun n d => n * 256 + d) 0 = 0 := by
    intro k
    induction k with
    | zero => rfl
    | succ k ih => rw [List.replicate_succ, List.foldl_cons]; exact ih
  have hbytes : ((entryCells t n).map Cell.byte).map UInt8.toNat =
      List.replicate (t.entrySize - 2) 0 ++ [n / 256, n % 256] := by
    simp [entryCells, Cell.ofBytes, Cell.ofWord, Numeral.twoBytes]
    omega
  rw [Numeral.ofBytes, Numeral.ofDigits, hbytes, List.foldl_append, hzeros]
  show (0 * 256 + n / 256) * 256 + n % 256 = n
  omega

theorem Offsets.get {labels : LabelTable} {names : List String} {offsets : List Nat}
    (h : Offsets labels names offsets) {i : Nat} {label : String} (hi : names[i]? = some label) :
    ∃ n, offsets[i]? = some n ∧ labels.offset? label = some n ∧ n ≤ 0xffff := by
  induction h generalizing i with
  | nil => simp at hi
  | cons hn _ ih =>
    cases i with
    | zero =>
      obtain rfl : _ = label := by simpa using hi
      exact ⟨_, rfl, hn⟩
    | succ i => exact ih (by simpa using hi)

/-- The bytes of an entry, among the bytes around it. -/
theorem take_drop_entries (t : JumpTable) (a b : List Cell) {offsets : List Nat} {i n : Nat}
    (hi : offsets[i]? = some n) :
    ((a ++ offsets.flatMap (entryCells t) ++ b).drop (a.length + i * t.entrySize)).take
      t.entrySize = entryCells t n := by
  obtain ⟨hlt, hget⟩ := List.getElem?_eq_some_iff.1 hi
  have hsplit : offsets = offsets.take i ++ n :: offsets.drop (i + 1) := by
    rw [← hget, List.getElem_cons_drop, List.take_append_drop]
  -- all entries have the same length, so those before number `i` end where it begins
  have hlen : (a ++ (offsets.take i).flatMap (entryCells t)).length = a.length + i * t.entrySize := by
    rw [List.length_append, length_entries, List.length_take, Nat.min_eq_left (Nat.le_of_lt hlt)]
  have hcells : a ++ offsets.flatMap (entryCells t) ++ b =
      (a ++ (offsets.take i).flatMap (entryCells t)) ++
        (entryCells t n ++ ((offsets.drop (i + 1)).flatMap (entryCells t) ++ b)) := by
    conv_lhs => rw [hsplit, List.flatMap_append, List.flatMap_cons]
    simp only [List.append_assoc]
  rw [hcells, ← hlen, List.drop_left, ← length_entryCells t n, List.take_left]

/-- The bytes of an entry, in a program whose tables stand behind other bytes. -/
theorem LaidOut.entryBytes_eq {p : Program} {pos : Nat} {ts : List JumpTable}
    {front tableCells : List Cell} (h : LaidOut p.labels pos ts tableCells p.tables)
    (hfront : front.length = pos) (hcells : p.cells = front ++ tableCells) {u : LinkedTable}
    (hu : u ∈ p.tables) {i : Nat} {label : String} (hi : u.table.labels[i]? = some label) :
    ∃ n, p.labels.offset? label = some n ∧ n ≤ 0xffff ∧
      p.entryBytes u i = (entryCells u.table n).map Cell.byte := by
  obtain ⟨a, b, offsets, hoffs, htable, hoff⟩ := h.entries u hu
  obtain ⟨n, hget, hlabel, hn⟩ := hoffs.get hi
  refine ⟨n, hlabel, hn, ?_⟩
  have hbefore : u.offset = (front ++ a).length := by rw [hoff, List.length_append, hfront]
  have hentry := take_drop_entries u.table (front ++ a) b hget
  rw [entryBytes, bytes, ← List.map_drop, ← List.map_take, hcells, htable, hbefore,
    ← List.append_assoc, ← List.append_assoc, hentry]

/-! ### Compiled programs -/

variable {r : Registry} {limits : Limits} {entry : Invocation} {t : ExpansionTree} {p : Program}
  {log : List Patch}

/-- The bytes before the tables are the code of the layout. -/
theorem Compiled.take_codeSize (h : Compiled r limits entry t p log) :
    p.bytes.take p.codeSize =
      (code (withTables p.tables (filled (t.layout 0 0))) (t.layout 0 0)).map Cell.byte := by
  rw [h.codeSize_eq]
  obtain ⟨tableCells, -, hcells⟩ := h.cells
  rw [bytes, hcells, List.map_append]
  exact List.take_left' (by simp)

theorem Compiled.entryBytes_eq (h : Compiled r limits entry t p log) {u : LinkedTable}
    (hu : u ∈ p.tables) {i : Nat} {label : String} (hi : u.table.labels[i]? = some label) :
    ∃ n, p.labels.offset? label = some n ∧ Numeral.ofBytes (p.entryBytes u i) = n := by
  obtain ⟨tableCells, hlaid, hcells⟩ := h.cells
  obtain ⟨n, hlabel, hn, hbytes⟩ := hlaid.entryBytes_eq (by simp) hcells hu hi
  exact ⟨n, hlabel, by rw [hbytes, ofBytes_entryCells u.table hn]⟩

/-- No plain opcode is a push opcode. -/
def NoBarePush (l : List Placed) : Prop :=
  ∀ e ∈ l, ∀ byte, e.instr = .opcode byte → ¬ (0x60 ≤ byte ∧ byte ≤ 0x7f)

/-- The machine sees the instructions of the layout in the code of the program,
and every offset that may be jumped to is a jump destination. -/
structure JumpsLand (l : List Placed) (p : Program) : Prop where
  starts : (decode 0 (p.bytes.take p.codeSize)).1.map Prod.fst = l.map Placed.offset
  stop : (decode 0 (p.bytes.take p.codeSize)).2 = p.codeSize
  labels : ∀ x ∈ p.labels.entries,
    (x.2.offset, Opcode.jumpDest) ∈ (decode 0 (p.bytes.take p.codeSize)).1
  slots : ∀ e ∈ l, ∀ label, e.instr = .jumpRef label →
    ∃ n, Chunk.word? p.cells.toArray e.slot = some n ∧
      (n, Opcode.jumpDest) ∈ (decode 0 (p.bytes.take p.codeSize)).1
  entries : ∀ t ∈ p.tables, ∀ i < t.table.labels.length,
    (Numeral.ofBytes (p.entryBytes t i), Opcode.jumpDest) ∈
      (decode 0 (p.bytes.take p.codeSize)).1

/-- Instructions of a program that is read from a text delimit themselves. -/
theorem Compiled.selfDelimiting (h : Compiled r limits entry t p log) (hr : r.PushesEncodable)
    (hword : limits.bytes < Numeral.wordBound) (hbare : NoBarePush (t.layout 0 0)) :
    ∀ e ∈ t.layout 0 0, e.SelfDelimiting := by
  obtain ⟨m, hm, -, hops⟩ := h.expands
  have hpush := encodable_of_unfolds hr hword hops (hr m (List.mem_of_find?_eq_some hm)) 0 h.within
  intro e he
  obtain ⟨node, index, offset, source, i⟩ := e
  cases i with
  | opcode byte =>
    show (if 0x60 ≤ byte ∧ byte ≤ 0x7f then _ else 0) + 1 = 1
    rw [if_neg (hbare _ he byte rfl)]
  | push q =>
    show Opcode.skip q.opcode + 1 = 1 + q.immediate.length
    rw [Push.skip_opcode (hpush _ he q rfl), Nat.add_comm]
  | dest label => rfl
  | jumpRef label => rfl
  | tableRef table => rfl

theorem Compiled.jumpsLand (h : Compiled r limits entry t p log)
    (hself : ∀ e ∈ t.layout 0 0, e.SelfDelimiting) : JumpsLand (t.layout 0 0) p := by
  have hl := laid_layout t 0 0
  have hdecode : decode 0 (p.bytes.take p.codeSize) =
      ((t.layout 0 0).map fun e => (e.offset, e.head), p.codeSize) := by
    rw [h.take_codeSize, decode_code _ hl hself, h.codeSize_eq, totalSize_layout, Nat.zero_add]
  -- a definition decodes as a jump destination
  have hland : ∀ {n}, HasDest (t.layout 0 0) n →
      (n, Opcode.jumpDest) ∈ (decode 0 (p.bytes.take p.codeSize)).1 := by
    rintro n ⟨e, he, label, hi, rfl⟩
    rw [hdecode]
    refine List.mem_map.2 ⟨e, he, ?_⟩
    simp [Placed.head, hi]
  have hlabels : ∀ x ∈ p.labels.entries,
      (x.2.offset, Opcode.jumpDest) ∈ (decode 0 (p.bytes.take p.codeSize)).1 := by
    intro x hx
    rw [h.labels] at hx
    exact hland (hasDest_of_mem_labelsOf hx)
  refine ⟨?_, ?_, hlabels, ?_, ?_⟩
  · rw [hdecode, List.map_map]
    rfl
  · rw [hdecode]
  · intro e he label hi
    obtain ⟨n, hfilled, hn⟩ := h.closed e he label hi
    refine ⟨n, h.word?_slot he (Placed.isRef_of_jumpRef hi) ?_ hn,
      hland (hasDest_of_filled hfilled)⟩
    rw [withTables_jumpRef _ _ hi, hfilled]
  · intro u hu i hi
    obtain ⟨n, hlabel, rfl⟩ := h.entryBytes_eq hu (List.getElem?_eq_getElem hi)
    obtain ⟨x, hx, hoff⟩ := offset?_eq_some hlabel
    rw [← hoff]
    exact hlabels x hx

/-- In a program that is compiled from a text, every jump lands: when no bare
push mnemonic is emitted, the machine finds the instructions that were emitted,
and a jump destination wherever a label, a reference or a table entry points. -/
theorem jumpsLand_of_compile (text : Text) (r : Registry) (limits : Limits) (entry : Invocation)
    (p : Program) (hparse : Declaration.parse text = .ok r)
    (hword : limits.bytes < Numeral.wordBound) (hcompile : compile r limits entry = .ok p) :
    p.tables.map LinkedTable.table = r.tables ∧ (∃! t, Expands r entry t) ∧
      ∀ t, Expands r entry t → NoBarePush (t.layout 0 0) → JumpsLand (t.layout 0 0) p := by
  have hreturns := compile_returns r limits entry
  rw [hcompile] at hreturns
  obtain ⟨t, log, -, ht⟩ := hreturns
  obtain ⟨tableCells, hlaid, -⟩ := ht.cells
  refine ⟨hlaid.tables, ⟨t, ht.expands, fun u hu => hu.unique ht.expands⟩, ?_⟩
  intro u hu hbare
  obtain rfl : u = t := hu.unique ht.expands
  exact ht.jumpsLand (ht.selfDelimiting (pushesEncodable_of_parse hparse) hword hbare)

/-- A program whose pushes hold bytes that look like jump destinations. -/
def landingText : Text :=
  ("#define jumptable__packed T \x7b y x \x7d\n" ++
    "template <p>\n#define macro B = takes(0) returns(0) \x7b x: <p> x \x7d\n" ++
    "#define macro MAIN = takes(0) returns(0) " ++
    "\x7b B<0x5b5b>() y __tablestart(T) __codesize(B<1>) y: \x7d").toList

/-- What it declares. -/
def landing : Registry where
  macros := [
    { name := "B", params := ["p"], takes := 0, returns := 0, body := " x: <p> x ".toList,
      ops := [⟨.jumpDest "x", 89⟩, ⟨.templateRef "p", 92⟩, ⟨.jumpRef "x", 96⟩], source := 49 },
    { name := "MAIN", params := [], takes := 0, returns := 0,
      body := " B<0x5b5b>() y __tablestart(T) __codesize(B<1>) y: ".toList,
      ops := [⟨.call "B" ["0x5b5b"], 143⟩, ⟨.jumpRef "y", 155⟩, ⟨.tableStart "T", 157⟩,
        ⟨.codeSize "B" ["1"], 173⟩, ⟨.jumpDest "y", 190⟩], source := 100 }]
  tables := [⟨"T", ["y", "x"], true, 0⟩]

/-- The tree of `B` with an argument that pushes `q`. -/
def landingChild (q : Push) : ExpansionTree :=
  .instr 89 (.dest "x") (.instr 92 (.push q) (.instr 96 (.jumpRef "x") .done))

/-- The tree of `MAIN`. -/
def landingTree : ExpansionTree :=
  .inlined (landingChild ⟨[0x5b, 0x5b]⟩) (.instr 155 (.jumpRef "y") (.instr 157 (.tableRef "T")
    (.measured 173 (landingChild ⟨[1]⟩) (.instr 190 (.dest "y") .done))))

theorem expands_landing : Expands landing ⟨"MAIN", []⟩ landingTree := by
  have hchild : ∀ arg q, action landing (landing.macros.head (by decide)) [arg]
      ⟨.templateRef "p", 92⟩ = .ok (.emit (.push q)) →
      Unfolds landing (landing.macros.head (by decide)) [arg] (landing.macros.head (by decide)).ops
        (landingChild q) :=
    fun arg q h => .instr rfl (.instr h (.instr rfl .done))
  exact ⟨_, rfl, rfl, .inlined rfl rfl rfl (hchild "0x5b5b" _ (by decide +kernel))
    (.instr rfl (.instr rfl (.measured rfl rfl rfl (hchild "1" _ (by decide +kernel))
      (.instr rfl .done))))⟩

theorem jumpsLand_landing :
    ∃ p, Declaration.parse landingText = .ok landing ∧ compile landing {} ⟨"MAIN", []⟩ = .ok p ∧
      p.bytes = [0x5b, 0x61, 0x5b, 0x5b, 0x61, 0, 0, 0x61, 0, 15, 0x61, 0, 16, 0x60, 6, 0x5b,
        0, 15, 0, 0] ∧
      NoBarePush (landingTree.layout 0 0) ∧ JumpsLand (landingTree.layout 0 0) p := by
  have hparse : Declaration.parse landingText = .ok landing := by decide +kernel
  have hcompile : compile landing {} ⟨"MAIN", []⟩ =
      .ok ((compile landing {} ⟨"MAIN", []⟩).toOption.getD ⟨[], .empty, []⟩) := by decide +kernel
  have hbare : NoBarePush (landingTree.layout 0 0) := by
    intro e he byte hi
    have hnone : (landingTree.layout 0 0).all fun e => e.instr ≠ .opcode byte := by
      simp [landingTree, landingChild, ExpansionTree.layout]
    exact absurd hi (by simpa using List.all_eq_true.1 hnone e he)
  exact ⟨_, hparse, hcompile, by decide +kernel, hbare,
    (jumpsLand_of_compile landingText landing {} ⟨"MAIN", []⟩ _ hparse (by decide) hcompile).2.2
      landingTree expands_landing hbare⟩

end Program

end MacroAssembler
