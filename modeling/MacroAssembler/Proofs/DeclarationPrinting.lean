/-
MacroAssembler/Proofs/DeclarationPrinting.lean

Macros and jump tables printed and read back.

Words are set apart by single spaces and counts are decimal.  A macro stands
behind a template header if it has parameters.  The lemmas follow the reader: a
piece that is printed is read, whatever stands behind it, and a declaration whose
names are identifiers, whose name is new and whose body can be read is read as
the declaration that was printed (`exists_declaration_macro`,
`exists_declaration_table`).  Only its place and its raw text are new.
-/
import MacroAssembler.Proofs.BodyPrinting
import MacroAssembler.Proofs.Declarations

namespace MacroAssembler

open Outcome

/-! ### Printing -/

/-- Words with single spaces between them. -/
def Text.words (ws : List Text) : Text := [' '].intercalate ws

/-- A stack count, as in `takes(2)`. -/
def Declaration.printCount (word : String) (n : Nat) : Text :=
  word.toList ++ '(' :: (Nat.toDigits 10 n ++ [')'])

namespace Macro

/-- The definition of a macro, without the template header. -/
def printDefinition (m : Macro) : Text :=
  Text.words ["#define".toList, "macro".toList, m.name.toList, ['='],
    Declaration.printCount "takes" m.takes, Declaration.printCount "returns" m.returns,
    '{' :: (Body.print (m.ops.map Operation.kind) ++ ['}'])]

/-- The template header of a macro with the given parameters. -/
def printHeader (params : List String) : Text :=
  Text.words ["template".toList, '<' :: (Argument.join (params.map String.toList) ++ ['>'])]

/-- A macro, on a line behind that of its template header if it has parameters. -/
def print (m : Macro) : Text :=
  (if m.params.isEmpty then [] else printHeader m.params ++ ['\n']) ++
    (m.printDefinition ++ ['\n'])

/-- A macro without its place and its raw text. -/
def bare (m : Macro) : Macro :=
  { m with body := [], ops := m.ops.map ({ · with source := 0 }), source := 0 }

end Macro

namespace JumpTable

/-- The keyword of a packed and of an unpacked jump table. -/
def keyword : Bool → Text
  | true => "jumptable__packed".toList
  | false => "jumptable".toList

/-- The definition of a jump table. -/
def printDefinition (t : JumpTable) : Text :=
  Text.words ("#define".toList :: keyword t.packed :: t.name.toList :: ['{'] ::
    (t.labels.map String.toList ++ [['}']]))

/-- A jump table on a line. -/
def print (t : JumpTable) : Text := t.printDefinition ++ ['\n']

/-- A jump table without its place. -/
def bare (t : JumpTable) : JumpTable := { t with source := 0 }

end JumpTable

theorem Text.words_singleton (w : Text) : words [w] = w := by
  simp [words]

theorem Text.words_cons_cons (w w' : Text) (ws : List Text) :
    words (w :: w' :: ws) = w ++ ' ' :: words (w' :: ws) := by
  simp [words, List.intercalate_cons_cons]

theorem Text.words_cons {ws : List Text} (h : ws ≠ []) (w : Text) :
    words (w :: ws) = w ++ ' ' :: words ws := by
  obtain ⟨w', ws, rfl⟩ := List.exists_cons_of_ne_nil h
  exact words_cons_cons w w' ws

/-! ### Pieces of declarations -/

namespace Cursor

variable {c d : Cursor} {t u : Text}

/-- A space in front of something else is skipped. -/
theorem Reads.skipSpace {ch : Char} (h : c.Reads (' ' :: ch :: t) d)
    (hch : Text.isBlank ch = false) : c.skipBlank.Reads (ch :: t) d := by
  obtain ⟨e, hspace, hrest⟩ := (Reads.append_iff (s := [' '])).1 h
  have hskip : c.skipBlank = e := by
    refine skipBlank_eq_iff.2 ⟨[' '], hspace, ?_, ?_⟩
    · exact List.forall_mem_singleton.2 rfl
    · rw [hrest.check_eq]
      exact hch
  rwa [hskip]

/-- A space in front of an identifier is skipped. -/
theorem Reads.skipSpace_ident (h : c.Reads (' ' :: (t ++ u)) d) (ht : Text.isIdent t = true) :
    c.skipBlank.Reads (t ++ u) d := by
  obtain ⟨hne, hall⟩ := Text.isIdent_iff.1 ht
  obtain ⟨ch, t, rfl⟩ := List.exists_cons_of_ne_nil hne
  exact h.skipSpace (Text.isBlank_of_isIdentChar (hall ch (by simp)))

/-- A word with a space behind it is a keyword. -/
theorem exists_eatKeyword? {ch : Char} (h : c.Reads (t ++ ch :: u) d)
    (hch : Text.isIdentChar ch = false) :
    ∃ e, c.eatKeyword? t = some e ∧ e.Reads (ch :: u) d := by
  obtain ⟨e, hword, hrest⟩ := Reads.append_iff.1 h
  refine ⟨e, eatKeyword?_eq_some_iff.2 ⟨hword, ?_⟩, hrest⟩
  rw [hrest.check_eq]
  exact hch

/-- A word is no other keyword. -/
theorem eatKeyword?_eq_none {s : Text} {ch : Char} (h : c.Reads (t ++ ch :: u) d)
    (ht : Text.isIdent t = true) (hch : Text.isIdentChar ch = false)
    (hs : Text.isIdent s = true) (hne : t ≠ s) : c.eatKeyword? s = none := by
  obtain ⟨e, hword, hrest⟩ := Reads.append_iff.1 h
  have hstop : e.check Text.isIdentChar = false := by
    rw [hrest.check_eq]
    exact hch
  refine Option.eq_none_iff_forall_ne_some.2 ?_
  intro e' he'
  obtain ⟨hread, hstop'⟩ := eatKeyword?_eq_some_iff.1 he'
  exact hne (ident_unique hword (Text.isIdent_iff.1 ht).2 hstop hread
    (Text.isIdent_iff.1 hs).2 hstop').1

end Cursor

namespace Declaration

open Cursor

variable {c d : Cursor} {t u : Text}

theorem exists_require {ch : Char} (what : Expected) (h : c.Reads (ch :: t) d) :
    ∃ e, require ch what c = .ok e ∧ e.Reads t d := by
  obtain ⟨e, hch, hrest⟩ := (Reads.append_iff (s := [ch])).1 h
  exact ⟨e, require_eq_ok_iff.2 hch, hrest⟩

theorem exists_name (what : Expected) (h : c.Reads (' ' :: (t ++ ' ' :: u)) d)
    (ht : Text.isIdent t = true) : ∃ e, name what c = .ok (t, e) ∧ e.Reads (' ' :: u) d := by
  obtain ⟨e, hname, hrest⟩ := Reads.append_iff.1 (h.skipSpace_ident ht)
  refine ⟨e, ?_, hrest⟩
  rw [name, eatIdent?_eq_some_iff.2 ⟨hname, ht, hrest.check_eq _⟩]

theorem exists_stackCount {word : String} {n : Nat}
    (h : c.Reads (' ' :: (printCount word n ++ u)) d) (hword : Text.isIdent word.toList = true)
    (hn : n < Numeral.wordBound) : ∃ e, stackCount word c = .ok (n, e) ∧ e.Reads u d := by
  simp only [printCount, List.append_assoc, List.cons_append, List.nil_append] at h
  obtain ⟨c₁, hkeyword, h₁⟩ := exists_eatKeyword? (h.skipSpace_ident hword) rfl
  obtain ⟨c₂, hopen, h₂⟩ := exists_require .parenOpen h₁
  obtain ⟨c₃, hread, h₃⟩ := Reads.append_iff.1 h₂
  obtain ⟨c₄, hclose, h₄⟩ := exists_require .parenClose h₃
  have hdigit : ∀ ch ∈ Nat.toDigits 10 n, Text.isDigit ch = true := fun ch hch =>
    Nat.isDigit_of_mem_toDigits (by decide) (by decide) hch
  have hident : Text.isIdent (Nat.toDigits 10 n) = true :=
    Text.isIdent_iff.2 ⟨Nat.toDigits_ne_nil, fun ch hch =>
      Token.isIdentChar_of_isDigit (hdigit ch hch)⟩
  have hdigits := eatWhile_eq_iff.2 ⟨hread, hdigit, h₃.check_eq _⟩
  -- no blanks stand between the parts of a count
  have hskip₁ : c₁.skipBlank = c₁ := skipBlank_of_check (h₁.check_eq _)
  have hskip₂ : c₂.skipBlank = c₂ := Token.skipBlank_of_ident h₂ hident
  have hskip₃ : c₃.skipBlank = c₃ := skipBlank_of_check (h₃.check_eq _)
  refine ⟨c₄, ?_, h₄⟩
  rw [stackCount, hkeyword]
  refine bind_eq_ok.2 ⟨c₂, by rw [hskip₁, hopen], ?_⟩
  simp only [hskip₂, hdigits, Numeral.count?_toDigits hn]
  exact bind_eq_ok.2 ⟨c₄, by rw [hskip₃, hclose], rfl⟩

/-- A definition begins with `#define` and its own keyword. -/
theorem exists_definition (h : c.Reads ("#define".toList ++ ' ' :: (t ++ u)) d)
    (ht : Text.isIdent t = true) (st : State) :
    ∃ e, declaration st c = definition st c.offset e ∧ e.Reads (t ++ u) d := by
  have hheader : c.eatKeyword? "template".toList = none := by
    rw [eatKeyword?, eatText?, checkText, h.rest]
    rfl
  obtain ⟨e, hdefine, hrest⟩ := exists_eatKeyword? h rfl
  refine ⟨e.skipBlank, ?_, hrest.skipSpace_ident ht⟩
  rw [declaration, hheader, hdefine]

/-! ### Template headers -/

/-- Identifiers make an argument list. -/
theorem separable_of_isIdent {names : List Text} (h : ∀ t ∈ names, Text.isIdent t = true) :
    Argument.Separable names := by
  have hchars : ∀ t ∈ names, ∀ ch ∈ t, Text.isIdentChar ch = true := fun t ht =>
    (Text.isIdent_iff.1 (h t ht)).2
  refine ⟨?_, ?_, ?_⟩
  · intro t ht
    exact Text.trim_of_forall fun ch hch => Text.isBlank_of_isIdentChar (hchars t ht ch hch)
  · intro t ht
    rw [← List.append_nil t, Argument.single_append_of_neutral]
    · rfl
    · exact fun ch hch => Argument.neutral_of_isIdentChar (hchars t ht ch hch)
  · rintro rfl
    exact absurd (h [] (by simp)) (by decide)

theorem templateParams_of_reads {params : List String}
    (h : c.Reads (' ' :: '<' :: (Argument.join (params.map String.toList) ++ ['>'])) d)
    (hparams : ∀ p ∈ params, Text.isIdent p.toList = true) :
    templateParams c = .ok (params, d) := by
  have hnames : ∀ t ∈ params.map String.toList, Text.isIdent t = true := by
    intro t ht
    obtain ⟨p, hp, rfl⟩ := List.mem_map.1 ht
    exact hparams p hp
  obtain ⟨c₁, hopen, h₁⟩ := exists_require .templateOpen (h.skipSpace rfl)
  obtain ⟨c₂, hread, h₂⟩ := Reads.append_iff.1 h₁
  have hinner : c₁.eatWhile (fun ch => ch != '>' && ch != '{' && ch != '}') =
      (Argument.join (params.map String.toList), c₂) := by
    refine eatWhile_eq_iff.2 ⟨hread, ?_, h₂.check_eq _⟩
    apply Argument.forall_mem_join
    · rfl
    · rfl
    · intro t ht ch hch
      have hident := (Text.isIdent_iff.1 (hnames t ht)).2 ch hch
      obtain ⟨-, hclose, -, hother⟩ := Argument.neutral_of_isIdentChar hident
      simp_all
  refine bind_eq_ok.2 ⟨c₁, hopen, ?_⟩
  simp only [hinner]
  refine bind_eq_ok.2 ⟨d, require_eq_ok_iff.2 h₂, ?_⟩
  have hfind : (params.map String.toList).find? (fun p => !Text.isIdent p) = none := by
    refine List.find?_eq_none.2 ?_
    intro t ht
    simp [hnames t ht]
  rw [Argument.splitText_join (separable_of_isIdent hnames), hfind, List.map_map]
  simp [Function.comp_def, pure, Except.pure]

/-- A template header is read. -/
theorem declaration_printHeader {params : List String} (h : c.Reads (Macro.printHeader params) d)
    (hparams : ∀ p ∈ params, Text.isIdent p.toList = true) (r : Registry) :
    declaration ⟨r, none⟩ c = .ok (⟨r, some params⟩, d) := by
  rw [Macro.printHeader, Text.words_cons_cons, Text.words_singleton] at h
  obtain ⟨e, hkeyword, hrest⟩ := exists_eatKeyword? h rfl
  rw [declaration, hkeyword]
  exact bind_eq_ok.2 ⟨(params, d), templateParams_of_reads hrest hparams, rfl⟩

/-! ### Macros -/

theorem exists_header {m : Macro}
    (h : c.Reads (' ' :: Text.words [m.name.toList, ['='], printCount "takes" m.takes,
      printCount "returns" m.returns, '{' :: (Body.print (m.ops.map Operation.kind) ++ ['}'])]) d)
    (hname : Text.isIdent m.name.toList = true) (htakes : m.takes < Numeral.wordBound)
    (hreturns : m.returns < Numeral.wordBound) (hbody : '}' ∉ Body.print (m.ops.map Operation.kind))
    (start : Nat) :
    ∃ offset, header start c =
      .ok (⟨m.name, m.takes, m.returns, ⟨offset, Body.print (m.ops.map Operation.kind)⟩⟩, d) := by
  simp only [Text.words_cons_cons, Text.words_singleton, List.cons_append, List.nil_append] at h
  obtain ⟨c₁, h₁, hrest⟩ := exists_name .macroName h hname
  obtain ⟨c₂, h₂, hrest⟩ := exists_require .equals (hrest.skipSpace rfl)
  obtain ⟨c₃, h₃, hrest⟩ := exists_stackCount hrest (by decide) htakes
  obtain ⟨c₄, h₄, hrest⟩ := exists_stackCount hrest (by decide) hreturns
  obtain ⟨c₅, h₅, hrest⟩ := exists_require .bodyOpen (hrest.skipSpace rfl)
  obtain ⟨c₆, hread, hclose⟩ := Reads.append_iff.1 hrest
  have h₆ : c₅.eatWhile (· != '}') = (Body.print (m.ops.map Operation.kind), c₆) := by
    refine eatWhile_eq_iff.2 ⟨hread, ?_, hclose.check_eq _⟩
    intro ch hch
    refine bne_iff_ne.2 ?_
    rintro rfl
    exact hbody hch
  refine ⟨c₅.offset, ?_⟩
  simp only [header, bind_eq_ok]
  refine ⟨_, h₁, _, h₂, _, h₃, _, h₄, _, h₅, ?_⟩
  simp only [h₆, eat?_eq_some_iff.2 hclose, String.ofList_toList]
  rfl

end Declaration

/-- A macro that can be printed behind macros of the given names. -/
structure Macro.Printable (known : List String) (m : Macro) : Prop where
  ident : Text.isIdent m.name.toList = true
  fresh : m.name ∉ known
  params : ∀ p ∈ m.params, Text.isIdent p.toList = true
  takes_lt : m.takes < Numeral.wordBound
  returns_lt : m.returns < Numeral.wordBound
  body : Body.Readable known [] (m.ops.map Operation.kind)

/-- A table that can be printed behind tables of the given names. -/
structure JumpTable.Printable (known : List String) (t : JumpTable) : Prop where
  named : t.Named
  fresh : t.name ∉ known

theorem Macro.bare_eq_of {m m' : Macro} (hname : m.name = m'.name) (hparams : m.params = m'.params)
    (htakes : m.takes = m'.takes) (hreturns : m.returns = m'.returns)
    (hops : m.ops.map Operation.kind = m'.ops.map Operation.kind) : m.bare = m'.bare := by
  have hbare : ∀ ops : List Operation, ops.map ({ · with source := 0 }) =
      (ops.map Operation.kind).map (Operation.mk · 0) := by
    intro ops
    rw [List.map_map]
    rfl
  rw [bare, bare, hbare, hbare, hname, hparams, htakes, hreturns, hops]

namespace Declaration

open Cursor

variable {c d : Cursor} {r : Registry} {m : Macro}

theorem addMacro_of_parse {st : State} {start : Nat} {h : Header} {ops : List Operation}
    (hops : Body.parse st.registry h.body = .ok ops)
    (hadd : st.registry.addMacro ⟨h.name, st.pending?.getD [], h.takes, h.returns, h.body.rest, ops,
      start⟩ = .ok r) : addMacro st start h = .ok ⟨r, none⟩ := by
  refine bind_eq_ok.2 ⟨ops, hops, ?_⟩
  simp only [hadd]
  rfl

theorem exists_addMacro (pending? : Option (List String))
    (hm : m.Printable (r.macros.map Macro.name)) (hparams : pending?.getD [] = m.params)
    (start offset : Nat) :
    ∃ m', m'.bare = m.bare ∧
      addMacro ⟨r, pending?⟩ start ⟨m.name, m.takes, m.returns,
        ⟨offset, Body.print (m.ops.map Operation.kind)⟩⟩ =
        .ok ⟨{ r with macros := r.macros ++ [m'] }, none⟩ := by
  obtain ⟨ops, hops, hkinds⟩ := Body.exists_parse_print hm.body offset
  let m' : Macro :=
    { m with body := Body.print (m.ops.map Operation.kind), ops := ops, source := start }
  have hadd : r.addMacro m' = .ok { r with macros := r.macros ++ [m'] } :=
    Registry.addMacro_eq_ok.2 ⟨Registry.hasMacro_eq_false_iff.2 hm.fresh, rfl⟩
  refine ⟨m', Macro.bare_eq_of rfl rfl rfl rfl hkinds, ?_⟩
  refine addMacro_of_parse hops ?_
  show r.addMacro ⟨m.name, pending?.getD [], _, _, _, _, _⟩ = _
  rw [hparams]
  exact hadd

/-- The definition of a macro is read. -/
theorem exists_declaration_macro (pending? : Option (List String))
    (h : c.Reads m.printDefinition d) (hm : m.Printable (r.macros.map Macro.name))
    (hparams : pending?.getD [] = m.params) :
    ∃ m', m'.bare = m.bare ∧ declaration ⟨r, pending?⟩ c =
      .ok (⟨{ r with macros := r.macros ++ [m'] }, none⟩, d) := by
  rw [Macro.printDefinition, Text.words_cons_cons, Text.words_cons_cons] at h
  obtain ⟨c₁, hdefinition, h₁⟩ := exists_definition h (by decide) ⟨r, pending?⟩
  obtain ⟨c₂, hkeyword, h₂⟩ := exists_eatKeyword? h₁ rfl
  obtain ⟨offset, hhead⟩ := exists_header h₂ hm.ident hm.takes_lt hm.returns_lt
    (Body.brace_not_mem_print hm.body) c.offset
  obtain ⟨m', hm', hadd⟩ := exists_addMacro pending? hm hparams c.offset offset
  refine ⟨m', hm', ?_⟩
  rw [hdefinition, definition, hkeyword]
  exact bind_eq_ok.2 ⟨_, hhead, bind_eq_ok.2 ⟨_, hadd, rfl⟩⟩

/-! ### Tables -/

section Tables

variable {table : String} {labels : List String}

theorem tableLabels_of_close (h : c.skipBlank.eat? '}' = some d) :
    tableLabels table c = .ok ([], d) := by
  rw [tableLabels, h]

theorem tableLabels_of_label {label : Text} {e : Cursor} (hclose : c.skipBlank.eat? '}' = none)
    (hlabel : c.skipBlank.eatIdent? = some (label, e))
    (hrest : tableLabels table e = .ok (labels, d)) :
    tableLabels table c = .ok (String.ofList label :: labels, d) := by
  rw [tableLabels, hclose]
  dsimp only
  split
  · rename_i h
    rw [hlabel] at h
    cases h
  · rename_i label' e' h
    obtain ⟨rfl, rfl⟩ : label' = label ∧ e' = e := by simpa [hlabel, eq_comm] using h
    rw [hrest]

theorem tableLabels_of_reads
    (h : c.Reads (' ' :: Text.words (labels.map String.toList ++ [['}']])) d)
    (hlabels : ∀ l ∈ labels, Text.isIdent l.toList = true) :
    tableLabels table c = .ok (labels, d) := by
  induction labels generalizing c with
  | nil => exact tableLabels_of_close (eat?_eq_some_iff.2 (h.skipSpace rfl))
  | cons l labels ih =>
    have hl := hlabels l (by simp)
    rw [List.map_cons, List.cons_append, Text.words_cons (by simp)] at h
    have hskip := h.skipSpace_ident hl
    obtain ⟨e, hread, hrest⟩ := Reads.append_iff.1 hskip
    have hclose : c.skipBlank.eat? '}' = none := hskip.eat?_eq_none_of_isIdent hl rfl
    have htail := ih hrest fun x hx => hlabels x (List.mem_cons_of_mem l hx)
    have hstep := tableLabels_of_label hclose
      (eatIdent?_eq_some_iff.2 ⟨hread, hl, hrest.check_eq _⟩) htail
    rwa [String.ofList_toList] at hstep

end Tables

theorem table_of_reads {t : JumpTable}
    (h : c.Reads (' ' :: Text.words (t.name.toList :: ['{'] ::
      (t.labels.map String.toList ++ [['}']]))) d) (ht : t.Named) (start : Nat) :
    table start t.packed c = .ok ({ t with source := start }, d) := by
  rw [Text.words_cons_cons, Text.words_cons (by simp)] at h
  obtain ⟨c₁, h₁, hrest⟩ := exists_name .tableName h ht.name
  obtain ⟨c₂, h₂, hrest⟩ := exists_require .tableOpen (hrest.skipSpace rfl)
  simp only [table, bind_eq_ok]
  refine ⟨_, h₁, _, h₂, _, tableLabels_of_reads hrest ht.labels, ?_⟩
  rw [String.ofList_toList]
  rfl

theorem isIdent_keyword (packed : Bool) : Text.isIdent (JumpTable.keyword packed) = true := by
  cases packed <;> decide

/-- The keyword of a table tells whether the table is packed. -/
theorem exists_definition_table {packed : Bool} {u : Text}
    (h : c.Reads (JumpTable.keyword packed ++ ' ' :: u) d) (st : State) (start : Nat) :
    ∃ e, definition st start c = tableDeclaration st start packed e ∧ e.Reads (' ' :: u) d := by
  have hother : ∀ s, Text.isIdent s = true → JumpTable.keyword packed ≠ s →
      c.eatKeyword? s = none := fun s => eatKeyword?_eq_none h (isIdent_keyword packed) rfl
  obtain ⟨e, hkeyword, hrest⟩ := exists_eatKeyword? h rfl
  refine ⟨e, ?_, hrest⟩
  cases packed with
  | true =>
    have hpacked : c.eatKeyword? "jumptable__packed".toList = some e := hkeyword
    rw [definition, hother "macro".toList (by decide) (by decide), hpacked]
  | false =>
    have hunpacked : c.eatKeyword? "jumptable".toList = some e := hkeyword
    rw [definition, hother "macro".toList (by decide) (by decide),
      hother "jumptable__packed".toList (by decide) (by decide), hunpacked]

/-- The definition of a table is read. -/
theorem exists_declaration_table {t : JumpTable} (h : c.Reads t.printDefinition d)
    (ht : t.Printable (r.tables.map JumpTable.name)) :
    ∃ t', t'.bare = t.bare ∧ declaration ⟨r, none⟩ c =
      .ok (⟨{ r with tables := r.tables ++ [t'] }, none⟩, d) := by
  rw [JumpTable.printDefinition, Text.words_cons_cons, Text.words_cons_cons] at h
  obtain ⟨c₁, hdefinition, h₁⟩ := exists_definition h (isIdent_keyword t.packed) ⟨r, none⟩
  obtain ⟨c₂, htableDeclaration, h₂⟩ := exists_definition_table h₁ ⟨r, none⟩ c.offset
  have htable := table_of_reads h₂ ht.named c.offset
  let t' : JumpTable := { t with source := c.offset }
  have hadd : r.addTable t' = .ok { r with tables := r.tables ++ [t'] } :=
    Registry.addTable_eq_ok.2 ⟨Registry.hasTable_eq_false_iff.2 ht.fresh, rfl⟩
  refine ⟨t', rfl, ?_⟩
  rw [hdefinition, htableDeclaration, tableDeclaration]
  refine bind_eq_ok.2 ⟨_, htable, bind_eq_ok.2 ⟨_, ?_, rfl⟩⟩
  show addTable ⟨r, none⟩ c.offset t' = _
  rw [addTable, hadd]

end Declaration

end MacroAssembler
