/-
MacroAssembler/Proofs/RegistryPrinting.lean

Registries printed and read back.

A registry is printed as one text: its macros in order, each behind a template
header if it has parameters, and then its tables in order, a declaration on a
line.

As for bodies, two halves meet at a description of the registries that can be
printed.  Every text is read into such a registry (`printable_of_parse`), and
such a registry is read back from its printed form, but for the places and the
raw texts that it keeps (`exists_parse_of_printable`).  Together: reading,
printing and reading again is reading (`parse_print_stable`).
-/
import Mathlib.Control.Monad.Basic
import MacroAssembler.Proofs.DeclarationPrinting

namespace MacroAssembler

open Outcome

namespace Registry

/-- The macros of a registry, and then its tables. -/
def print (r : Registry) : Text := r.macros.flatMap Macro.print ++ r.tables.flatMap JumpTable.print

/-- A registry without the places and raw texts of its declarations. -/
def bare (r : Registry) : Registry := ⟨r.macros.map Macro.bare, r.tables.map JumpTable.bare⟩

end Registry

/-! ### Lines -/

namespace Declaration

open Cursor

variable {c d : Cursor} {r : Registry} {m : Macro}
variable {st st' : State} {e : Cursor} {t : JumpTable} {u : Text}

/-- Blanks in front of declarations do not matter. -/
theorem declarations_of_blank {b : Text} (h : c.Reads b e)
    (hb : ∀ ch ∈ b, Text.isBlank ch = true) : declarations st c = declarations st e := by
  have hskip : c.skipBlank = e.skipBlank := by
    obtain ⟨b', hread, hb', hstop⟩ := skipBlank_eq_iff.1 (rfl : e.skipBlank = _)
    refine skipBlank_eq_iff.2 ⟨b ++ b', h.trans hread, ?_, hstop⟩
    intro ch hch
    exact (List.mem_append.1 hch).elim (hb ch) (hb' ch)
  rw [declarations, declarations, hskip]

theorem declarations_of_declaration (hc : c.check Text.isBlank = false)
    (h : declaration st c = .ok (st', d)) : declarations st c = declarations st' d := by
  have hne : c.isEof = false := by
    have hlt := declaration_rest_lt h
    cases hrest : c.rest with
    | nil => simp [hrest] at hlt
    | cons ch rest => simp [isEof, hrest]
  rw [declarations, skipBlank_of_check hc]
  simp only [hne]
  split
  · rename_i h'
    cases h'
  · split
    · rename_i h'
      rw [h] at h'
      cases h'
    · rename_i h'
      rw [h] at h'
      obtain ⟨rfl, rfl⟩ := Prod.mk.inj (Except.ok.inj h')
      rfl

theorem declarations_of_nil (h : c.rest = []) : declarations ⟨r, none⟩ c = .ok r := by
  have hskip : c.skipBlank = c := skipBlank_of_check (by simp [check, peek?, h])
  rw [declarations, hskip]
  simp [isEof, h]

/-- A declaration on a line is read, and the lines behind it are left. -/
theorem exists_declarations_line (hc : c.check Text.isBlank = false)
    (h : declaration st c = .ok (st', e)) (hline : e.Reads ('\n' :: u) d) :
    ∃ f, declarations st c = declarations st' f ∧ f.Reads u d := by
  obtain ⟨f, hnewline, hrest⟩ := (Reads.append_iff (s := ['\n'])).1 hline
  refine ⟨f, ?_, hrest⟩
  rw [declarations_of_declaration hc h, declarations_of_blank hnewline]
  exact List.forall_mem_singleton.2 rfl

theorem exists_declarations_definition (pending? : Option (List String))
    (h : c.Reads (m.printDefinition ++ '\n' :: u) d) (hm : m.Printable (r.macros.map Macro.name))
    (hparams : pending?.getD [] = m.params) :
    ∃ m' e, m'.bare = m.bare ∧ declarations ⟨r, pending?⟩ c =
      declarations ⟨{ r with macros := r.macros ++ [m'] }, none⟩ e ∧ e.Reads u d := by
  obtain ⟨c₁, hdef, hrest⟩ := Reads.append_iff.1 h
  obtain ⟨m', hm', hdecl⟩ := exists_declaration_macro pending? hdef hm hparams
  obtain ⟨e, he, hu⟩ := exists_declarations_line (hdef.check_eq _) hdecl hrest
  exact ⟨m', e, hm', he, hu⟩

/-- A macro is read, with the header in front of it if it has one. -/
theorem exists_declarations_macro (h : c.Reads (m.print ++ u) d)
    (hm : m.Printable (r.macros.map Macro.name)) :
    ∃ m' e, m'.bare = m.bare ∧ declarations ⟨r, none⟩ c =
      declarations ⟨{ r with macros := r.macros ++ [m'] }, none⟩ e ∧ e.Reads u d := by
  simp only [Macro.print, List.append_assoc, List.cons_append, List.nil_append] at h
  by_cases hparams : m.params = []
  · rw [if_pos (by simp [hparams]), List.nil_append] at h
    exact exists_declarations_definition none h hm hparams.symm
  · rw [if_neg (by simp [hparams]), List.append_assoc] at h
    obtain ⟨c₁, hheader, hrest⟩ := Reads.append_iff.1 h
    have hdecl := declaration_printHeader hheader hm.params r
    obtain ⟨c₂, hc₂, hdef⟩ := exists_declarations_line (hheader.check_eq _) hdecl hrest
    rw [hc₂]
    exact exists_declarations_definition (some m.params) hdef hm rfl

/-- A table is read. -/
theorem exists_declarations_table (h : c.Reads (t.print ++ u) d)
    (ht : t.Printable (r.tables.map JumpTable.name)) :
    ∃ t' e, t'.bare = t.bare ∧ declarations ⟨r, none⟩ c =
      declarations ⟨{ r with tables := r.tables ++ [t'] }, none⟩ e ∧ e.Reads u d := by
  rw [JumpTable.print, List.append_assoc] at h
  obtain ⟨c₁, hdef, hrest⟩ := Reads.append_iff.1 h
  obtain ⟨t', ht', hdecl⟩ := exists_declaration_table hdef ht
  obtain ⟨e, he, hu⟩ := exists_declarations_line (hdef.check_eq _) hdecl hrest
  exact ⟨t', e, ht', he, hu⟩

end Declaration

/-! ### Registries that can be printed -/

/-- Each member of a list satisfies `P`, which may speak of the names in front of
it. -/
def InOrder {α : Type} (name : α → String) (P : List String → α → Prop) (l : List α) : Prop :=
  ∀ before x after, l = before ++ x :: after → P (before.map name) x

theorem InOrder.concat {α : Type} {name : α → String} {P : List String → α → Prop} {l : List α}
    {y : α} (h : InOrder name P l) (hy : P (l.map name) y) : InOrder name P (l ++ [y]) := by
  intro before x after heq
  -- the last member is `y` itself, and every other one stands in `l`
  induction after using List.reverseRecOn with
  | nil =>
    obtain ⟨rfl, hx⟩ := List.append_inj' heq rfl
    obtain rfl := List.singleton_inj.1 hx
    exact hy
  | append_singleton after z _ =>
    rw [← List.cons_append, ← List.append_assoc] at heq
    exact h before x after (List.append_inj' heq rfl).1

/-- A registry whose declarations can be printed one after the other. -/
structure Registry.Printable (r : Registry) : Prop where
  macros : InOrder Macro.name Macro.Printable r.macros
  tables : InOrder JumpTable.name JumpTable.Printable r.tables

/-- A state whose registry can be printed, and so can a header that waits for its
macro. -/
structure Declaration.State.Printable (st : State) : Prop where
  registry : st.registry.Printable
  pending : ∀ p ∈ st.pending?.getD [], Text.isIdent p.toList = true

/-- Every declaration leaves a state that can be printed. -/
theorem Declaration.Declares.printable {c : Cursor} {st st' : State} (h : Declares c st st')
    (hst : st.Printable) : st'.Printable := by
  cases h with
  | template _ hparams => exact ⟨hst.registry, hparams⟩
  | addMacro hread hadd =>
    obtain ⟨hfresh, rfl⟩ := Registry.addMacro_eq_ok.1 hadd
    obtain ⟨_, e, f, -, -, -, -, hops⟩ := hread.window
    refine ⟨⟨hst.registry.macros.concat ?_, hst.registry.tables⟩, by simp⟩
    refine ⟨hread.ident, Registry.hasMacro_eq_false_iff.1 hfresh, ?_, hread.takes_lt,
      hread.returns_lt, Body.readable_of_parse hops⟩
    rw [hread.params]
    exact hst.pending
  | addTable _ hread hadd =>
    obtain ⟨hfresh, rfl⟩ := Registry.addTable_eq_ok.1 hadd
    refine ⟨⟨hst.registry.macros, hst.registry.tables.concat ?_⟩, by simp⟩
    exact ⟨hread.named, Registry.hasTable_eq_false_iff.1 hfresh⟩

theorem Declaration.State.printable_initial : State.initial.Printable := by
  refine ⟨⟨?_, ?_⟩, by simp [State.initial]⟩
  · intro before m after h
    simp [State.initial, Registry.empty] at h
  · intro before t after h
    simp [State.initial, Registry.empty] at h

/-- A text is read into a registry that can be printed. -/
theorem Registry.printable_of_parse {text : Text} {r : Registry}
    (h : Declaration.parse text = .ok r) : r.Printable := by
  have hstate := Declaration.parse_induction_within (P := Declaration.State.Printable)
    (fun _ hdecl => (Declaration.declares_of_declaration hdecl).2.printable)
    Declaration.State.printable_initial h
  exact hstate.registry

namespace Declaration

open Cursor

variable {c d : Cursor} {u : Text}

/-- Declarations of one kind are read one after the other, if each is. -/
theorem exists_declarations_inOrder {α : Type} {name : α → String} {P : List String → α → Prop}
    {print : α → Text} (bare : α → α) (hname : ∀ x, name (bare x) = name x)
    (registry : List α → Registry)
    (hstep : ∀ {l x c u}, P (l.map name) x → c.Reads (print x ++ u) d →
      ∃ x' e, bare x' = bare x ∧ declarations ⟨registry l, none⟩ c =
        declarations ⟨registry (l ++ [x']), none⟩ e ∧ e.Reads u d)
    (before read : List α) {xs : List α} (hxs : InOrder name P (before ++ xs))
    (hread : read.map bare = before.map bare) (h : c.Reads (xs.flatMap print ++ u) d) :
    ∃ read' e, read'.map bare = (before ++ xs).map bare ∧
      declarations ⟨registry read, none⟩ c = declarations ⟨registry read', none⟩ e ∧
      e.Reads u d := by
  induction xs generalizing before read c with
  | nil =>
    rw [List.append_nil]
    exact ⟨read, c, hread, rfl, h⟩
  | cons x xs ih =>
    have hnames : before.map name = read.map name := by
      have hmap := congrArg (List.map name) hread
      simpa [Function.comp_def, hname] using hmap.symm
    have hx : P (before.map name) x := hxs before x xs rfl
    rw [hnames] at hx
    rw [List.flatMap_cons, List.append_assoc] at h
    obtain ⟨x', e, hx', hdecl, hrest⟩ := hstep hx h
    have hsplit : before ++ x :: xs = (before ++ [x]) ++ xs := by simp
    rw [hsplit] at hxs ⊢
    rw [hdecl]
    refine ih _ _ hxs ?_ hrest
    rw [List.map_append, List.map_append, hread, List.map_singleton, hx', List.map_singleton]

theorem exists_declarations_macros {ms : List Macro} (hms : InOrder Macro.name Macro.Printable ms)
    (tables : List JumpTable) (h : c.Reads (ms.flatMap Macro.print ++ u) d) :
    ∃ ms' e, ms'.map Macro.bare = ms.map Macro.bare ∧
      declarations ⟨⟨[], tables⟩, none⟩ c = declarations ⟨⟨ms', tables⟩, none⟩ e ∧ e.Reads u d := by
  refine exists_declarations_inOrder Macro.bare (fun _ => rfl) (fun l => ⟨l, tables⟩) ?_
    [] [] hms rfl h
  intro l m c u hm h
  exact exists_declarations_macro (r := ⟨l, tables⟩) h hm

theorem exists_declarations_tables {ts : List JumpTable}
    (hts : InOrder JumpTable.name JumpTable.Printable ts) (macros : List Macro)
    (h : c.Reads (ts.flatMap JumpTable.print ++ u) d) :
    ∃ ts' e, ts'.map JumpTable.bare = ts.map JumpTable.bare ∧
      declarations ⟨⟨macros, []⟩, none⟩ c = declarations ⟨⟨macros, ts'⟩, none⟩ e ∧ e.Reads u d := by
  refine exists_declarations_inOrder JumpTable.bare (fun _ => rfl) (fun l => ⟨macros, l⟩) ?_
    [] [] hts rfl h
  intro l t c u ht h
  exact exists_declarations_table (r := ⟨macros, l⟩) h ht

end Declaration

namespace Registry

/-- **A registry that can be printed is read back**, but for places and raw
texts. -/
theorem exists_parse_of_printable {r : Registry} (h : r.Printable) :
    ∃ r', Declaration.parse r.print = .ok r' ∧ r'.bare = r.bare := by
  have hread : (Cursor.ofText r.print).Reads r.print ⟨Text.byteLength r.print, []⟩ :=
    ⟨(List.append_nil _).symm, (Nat.zero_add _).symm⟩
  obtain ⟨ms, c, hms, hc, hrest⟩ := Declaration.exists_declarations_macros h.macros [] hread
  rw [← List.append_nil (List.flatMap _ _)] at hrest
  obtain ⟨ts, e, hts, he, hend⟩ := Declaration.exists_declarations_tables h.tables ms hrest
  refine ⟨⟨ms, ts⟩, ?_, ?_⟩
  · calc Declaration.parse r.print = Declaration.declarations ⟨⟨ms, []⟩, none⟩ c := hc
      _ = Declaration.declarations ⟨⟨ms, ts⟩, none⟩ e := he
      _ = .ok ⟨ms, ts⟩ := Declaration.declarations_of_nil hend.rest
  · rw [bare, bare, hms, hts]

/-- **Reading, printing and reading again is reading.**  What is read from any
files is read again from its printed form as a single file, but for places and
raw texts. -/
theorem parse_print_stable {files : Listing} {r : Registry}
    (h : Declaration.parse files.text = .ok r) (name : String) :
    ∃ r', Declaration.parse (Listing.single name r.print).text = .ok r' ∧ r'.bare = r.bare := by
  have htext : (Listing.single name r.print).text = r.print := by
    simp [Listing.single, Listing.push, Listing.empty, Listing.text, ListedFile.ofText]
  rw [htext]
  exact exists_parse_of_printable (printable_of_parse h)

/-- Names that look like numbers and operators, nested and empty arguments, and a
table in front of the macro that measures it. -/
def unruly : Listing := .ofFiles
  [("first", "template <\tp,q >\n#define macro 7 = takes(007) returns( 0 )".toList ++
      "\x7b <p> <  q> l: l 0x 7: jump \x7d".toList),
   ("second", "#define jumptable__packed 0x \x7b l 7\n\x7d".toList ++
      "#define macro __codesize = takes(1) returns(2) \x7b\n7< a<b, c> , >() 7 ()".toList ++
      " 0x0 256 __tablesize(0x) __codesize(7<>) __tablestart( T ) \x7d".toList)]

/-- The printed form of what `unruly` declares. -/
def tidy : Text :=
  "template <p, q>\n#define macro 7 = takes(7) returns(0) ".toList ++
    "\x7b <p> <q> l: l 0x 7: jump \x7d\n".toList ++
    "#define macro __codesize = takes(1) returns(2) ".toList ++
    "\x7b 7<a<b, c>, >() 7() 0x00 0x0100 0x04 __codesize(7) __tablestart(T) \x7d\n".toList ++
    "#define jumptable__packed 0x \x7b l 7 \x7d\n".toList

theorem parse_print_unruly :
    ∃ r r', Declaration.parse unruly.text = .ok r ∧ r.print = tidy ∧
      Declaration.parse (Listing.single "tidy" r.print).text = .ok r' ∧ r'.bare = r.bare := by
  have hrun : (Declaration.parse unruly.text >>= fun r => pure r.print) = .ok tidy := by
    decide +kernel
  simp only [bind_eq_ok, pure_eq_ok] at hrun
  obtain ⟨r, hparse, hprint⟩ := hrun
  obtain ⟨r', hr', hbare⟩ := parse_print_stable hparse "tidy"
  exact ⟨r, r', hparse, hprint, hr', hbare⟩

end Registry

end MacroAssembler
