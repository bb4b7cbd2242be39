/-
MacroAssembler/Proofs/Declarations.lean

What a declaration is, and where it stands.

Every declaration that is read does one of three things (`Declares`): it leaves
the parameters of a template header, it adds a macro whose body is a window of
the text, or it adds a jump table.  All names in it are identifiers and all
counts are machine words.  A declaration is read at the place that it is
recorded for, so a property of states that every declaration in a text keeps
holds of what the text declares (`parse_induction_within`).  For a property of
registries it is enough that a macro with a body that is read and a jump table
keep it (`parse_induction`).
-/
import MacroAssembler.Declaration
import MacroAssembler.Proofs.Tokens

namespace MacroAssembler

open Outcome

/-- A jump table whose names are identifiers. -/
structure JumpTable.Named (t : JumpTable) : Prop where
  name : Text.isIdent t.name.toList = true
  labels : ∀ l ∈ t.labels, Text.isIdent l.toList = true

namespace Declaration

variable {c d : Cursor}

/-! ### Texts without an opening brace -/

/-- The text between two cursors has no opening brace. -/
def Unopened (c d : Cursor) : Prop := ∃ s, c.Reads s d ∧ '{' ∉ s

theorem Unopened.trans {e : Cursor} (h : Unopened c d) (h' : Unopened d e) : Unopened c e := by
  obtain ⟨s, hs, hsnot⟩ := h
  obtain ⟨t, ht, htnot⟩ := h'
  exact ⟨s ++ t, hs.trans ht, fun hmem => (List.mem_append.1 hmem).elim hsnot htnot⟩

theorem Unopened.reads (h : Unopened c d) : ∃ s, c.Reads s d := by
  obtain ⟨s, hs, -⟩ := h
  exact ⟨s, hs⟩

theorem unopened_of_class {p : Char → Bool} (hp : p '{' = false) {s : Text} (h : c.Reads s d)
    (hs : ∀ ch ∈ s, p ch = true) : Unopened c d := by
  refine ⟨s, h, fun hmem => ?_⟩
  simp [hs _ hmem] at hp

theorem unopened_skipBlank (c : Cursor) : Unopened c c.skipBlank := by
  obtain ⟨b, hb, hblank⟩ := Cursor.exists_reads_skipBlank c
  exact unopened_of_class rfl hb hblank

/-! ### Pieces of declarations -/

theorem require_eq_ok_iff {ch : Char} {what : Expected} :
    require ch what c = .ok d ↔ c.Reads [ch] d := by
  rw [require, ← Cursor.eat?_eq_some_iff]
  rcases c.eat? ch with - | e <;> simp

theorem unopened_of_name {what : Expected} {t : Text} (h : name what c = .ok (t, d)) :
    Unopened c d ∧ Text.isIdent t = true := by
  rw [name] at h
  split at h
  · rename_i r hr
    obtain rfl := Except.ok.inj h
    obtain ⟨hread, hident, -⟩ := Cursor.eatIdent?_eq_some_iff.1 hr
    have hchars := (Text.isIdent_iff.1 hident).2
    exact ⟨(unopened_skipBlank c).trans (unopened_of_class rfl hread hchars), hident⟩
  · cases h

theorem lt_wordBound_of_count? {t : Text} {n : Nat} (h : Numeral.count? t = some n) :
    n < Numeral.wordBound := by
  rw [Numeral.count?] at h
  split at h
  · split at h
    · obtain rfl := Option.some.inj h
      assumption
    · cases h
  · cases h

theorem unopened_of_stackCount {word : String} (hbrace : '{' ∉ word.toList) {n : Nat}
    (h : stackCount word c = .ok (n, d)) : Unopened c d ∧ n < Numeral.wordBound := by
  rw [stackCount] at h
  split at h
  · cases h
  · rename_i e he
    simp only [bind_eq_ok] at h
    obtain ⟨c₁, h₁, h⟩ := h
    split at h
    · cases h
    · rename_i m hm
      simp only [bind_eq_ok, pure_eq_ok] at h
      obtain ⟨c₂, h₂, h⟩ := h
      obtain ⟨rfl, rfl⟩ := Prod.mk.inj h
      have hword : Unopened c.skipBlank e := ⟨_, (Cursor.eatKeyword?_eq_some_iff.1 he).1, hbrace⟩
      have hopen : Unopened e.skipBlank c₁ := ⟨_, require_eq_ok_iff.1 h₁, by decide⟩
      obtain ⟨hdigits, hall, -⟩ := Cursor.eatWhile_eq_iff.1
        (rfl : c₁.skipBlank.eatWhile Text.isDigit = _)
      have hclose : Unopened _ c₂ := ⟨_, require_eq_ok_iff.1 h₂, by decide⟩
      have hhead := (((unopened_skipBlank c).trans hword).trans (unopened_skipBlank e)).trans hopen
      have hnumber := ((unopened_skipBlank c₁).trans (unopened_of_class rfl hdigits hall)).trans
        (unopened_skipBlank _)
      exact ⟨hhead.trans (hnumber.trans hclose), lt_wordBound_of_count? hm⟩

theorem reads_of_templateParams {params : List String}
    (h : templateParams c = .ok (params, d)) :
    (∃ s, c.Reads s d) ∧ ∀ p ∈ params, Text.isIdent p.toList = true := by
  simp only [templateParams, bind_eq_ok] at h
  obtain ⟨c₁, h₁, c₂, h₂, h⟩ := h
  split at h
  · cases h
  · rename_i hfind
    obtain ⟨rfl, rfl⟩ := Prod.mk.inj (pure_eq_ok.1 h)
    obtain ⟨b, hb, -⟩ := Cursor.exists_reads_skipBlank c
    have hopen := require_eq_ok_iff.1 h₁
    have hinner := Cursor.reads_eatWhile (fun ch => ch != '>' && ch != '{' && ch != '}') c₁
    have hclose := require_eq_ok_iff.1 h₂
    refine ⟨⟨_, ((hb.trans hopen).trans hinner).trans hclose⟩, ?_⟩
    intro p hp
    obtain ⟨t, ht, rfl⟩ := List.mem_map.1 hp
    simpa using List.find?_eq_none.1 hfind t ht

/-- What a header that is read between two cursors consists of. -/
structure HeaderRead (c : Cursor) (h : Header) (d : Cursor) : Prop where
  reads : ∃ s, c.Reads s d
  ident : Text.isIdent h.name.toList = true
  takes_lt : h.takes < Numeral.wordBound
  returns_lt : h.returns < Numeral.wordBound
  /-- The body is a window of the text, from the first brace that opens to the
  first one behind it that closes. -/
  window : ∃ s e f, c.Reads (s ++ ['{']) e ∧ '{' ∉ s ∧ e.Reads h.body.rest f ∧
    f.rest.head? = some '}' ∧ h.body = ⟨e.offset, h.body.rest⟩
  unclosed : '}' ∉ h.body.rest

theorem headerRead_of_header {start : Nat} {hd : Header} (h : header start c = .ok (hd, d)) :
    HeaderRead c hd d := by
  simp only [header, bind_eq_ok] at h
  obtain ⟨⟨nm, c₁⟩, h₁, c₂, h₂, ⟨n, c₃⟩, h₃, ⟨m, c₄⟩, h₄, c₅, h₅, h⟩ := h
  dsimp only at h₂ h₄ h₅
  split at h
  · cases h
  · rename_i e he
    obtain ⟨rfl, rfl⟩ := Prod.mk.inj (pure_eq_ok.1 h)
    obtain ⟨hname, hident⟩ := unopened_of_name h₁
    obtain ⟨htakes, htakesLt⟩ := unopened_of_stackCount (by decide) h₃
    obtain ⟨hreturns, hreturnsLt⟩ := unopened_of_stackCount (by decide) h₄
    have hequals : Unopened c₁.skipBlank c₂ := ⟨_, require_eq_ok_iff.1 h₂, by decide⟩
    have hcounts := ((hname.trans (unopened_skipBlank c₁)).trans hequals).trans
      (htakes.trans hreturns)
    obtain ⟨s, hs, hnot⟩ := hcounts.trans (unopened_skipBlank c₄)
    have hhead := hs.trans (require_eq_ok_iff.1 h₅)
    obtain ⟨hbody, hbodyAll, -⟩ := Cursor.eatWhile_eq_iff.1 (rfl : c₅.eatWhile (· != '}') = _)
    have hclose := Cursor.eat?_eq_some_iff.1 he
    refine ⟨⟨_, (hhead.trans hbody).trans hclose⟩, by simpa using hident, htakesLt, hreturnsLt,
      ⟨s, c₅, _, hhead, hnot, hbody, congrArg List.head? hclose.rest, rfl⟩, ?_⟩
    intro hmem
    simpa using hbodyAll _ hmem

theorem reads_of_tableLabels {table : String} {labels : List String}
    (h : tableLabels table c = .ok (labels, d)) :
    (∃ s, c.Reads s d) ∧ ∀ l ∈ labels, Text.isIdent l.toList = true := by
  fun_induction tableLabels table c generalizing labels d with
  | case1 c e he =>
    obtain ⟨rfl, rfl⟩ := Prod.mk.inj (Except.ok.inj h)
    obtain ⟨b, hb, -⟩ := Cursor.exists_reads_skipBlank c
    exact ⟨⟨_, hb.trans (Cursor.eat?_eq_some_iff.1 he)⟩, by simp⟩
  | case2 => cases h
  | case3 => cases h
  | case4 c _ label e he _ labels' f hf ih =>
    obtain ⟨rfl, rfl⟩ := Prod.mk.inj (Except.ok.inj h)
    obtain ⟨b, hb, -⟩ := Cursor.exists_reads_skipBlank c
    obtain ⟨hread, hident, -⟩ := Cursor.eatIdent?_eq_some_iff.1 he
    obtain ⟨⟨s, hs⟩, hlabels⟩ := ih hf
    refine ⟨⟨_, (hb.trans hread).trans hs⟩, ?_⟩
    intro l hl
    obtain rfl | hl := List.mem_cons.1 hl
    · simpa using hident
    · exact hlabels l hl

theorem reads_of_table {start : Nat} {packed : Bool} {t : JumpTable}
    (h : table start packed c = .ok (t, d)) :
    (∃ s, c.Reads s d) ∧ t.Named ∧ t.source = start := by
  simp only [table, bind_eq_ok, pure_eq_ok] at h
  obtain ⟨⟨nm, c₁⟩, h₁, c₂, h₂, ⟨labels, c₃⟩, h₃, h⟩ := h
  dsimp only at h₂ h
  obtain ⟨rfl, rfl⟩ := Prod.mk.inj h
  obtain ⟨hname, hident⟩ := unopened_of_name h₁
  obtain ⟨s₁, hs₁⟩ := (hname.trans (unopened_skipBlank c₁)).reads
  have hopen := require_eq_ok_iff.1 h₂
  obtain ⟨⟨s₃, hlabels⟩, hlabelsIdent⟩ := reads_of_tableLabels h₃
  exact ⟨⟨_, (hs₁.trans hopen).trans hlabels⟩,
    ⟨by simpa using hident, hlabelsIdent⟩, rfl⟩

/-! ### Declarations -/

/-- The macro `m` as it is declared at a cursor, after the declarations of a
state. -/
structure MacroRead (c : Cursor) (st : State) (m : Macro) : Prop where
  keyword : "#define".toList <+: c.rest
  source : m.source = c.offset
  ident : Text.isIdent m.name.toList = true
  params : m.params = st.pending?.getD []
  takes_lt : m.takes < Numeral.wordBound
  returns_lt : m.returns < Numeral.wordBound
  /-- The operations are read from a window behind the cursor, from the first
  brace that opens to the first one behind it that closes. -/
  window : ∃ s e f, c.Reads (s ++ ['{']) e ∧ '{' ∉ s ∧ e.Reads m.body f ∧
    f.rest.head? = some '}' ∧ Body.parse st.registry ⟨e.offset, m.body⟩ = .ok m.ops
  unclosed : '}' ∉ m.body

/-- The jump table `t` as it is declared at a cursor. -/
structure TableRead (c : Cursor) (t : JumpTable) : Prop where
  keyword : "#define".toList <+: c.rest
  source : t.source = c.offset
  named : t.Named

/-- What the declaration at a cursor does to a state. -/
inductive Declares (c : Cursor) (st : State) : State → Prop
  | template {params} : st.pending? = none → (∀ p ∈ params, Text.isIdent p.toList = true) →
      Declares c st ⟨st.registry, some params⟩
  | addMacro {m r} : MacroRead c st m → st.registry.addMacro m = .ok r → Declares c st ⟨r, none⟩
  | addTable {t r} : st.pending? = none → TableRead c t → st.registry.addTable t = .ok r →
      Declares c st ⟨r, none⟩

variable {st st' : State}

theorem declares_of_addMacro {h : Header} {e f : Cursor} (hread : Unopened c e)
    (hkeyword : "#define".toList <+: c.rest) (hhead : HeaderRead e h f)
    (hadd : addMacro st c.offset h = .ok st') : Declares c st st' := by
  rw [addMacro, bind_eq_ok] at hadd
  obtain ⟨ops, hops, hadd⟩ := hadd
  dsimp only at hadd
  split at hadd
  · cases hadd
  · rename_i r hr
    obtain rfl := pure_eq_ok.1 hadd
    obtain ⟨s', e', f', hs', hnot, hbody, hclose, hwindow⟩ := hhead.window
    obtain ⟨e₁, hs₁, hopen⟩ := Cursor.Reads.append_iff.1 hs'
    obtain ⟨s, hs, hsnot⟩ := hread.trans ⟨s', hs₁, hnot⟩
    rw [hwindow] at hops
    refine .addMacro ?_ hr
    exact ⟨hkeyword, rfl, hhead.ident, rfl, hhead.takes_lt, hhead.returns_lt,
      ⟨s, e', f', hs.trans hopen, hsnot, hbody, hclose, hops⟩, hhead.unclosed⟩

theorem declares_of_tableDeclaration {e f : Cursor} {packed : Bool}
    (hkeyword : "#define".toList <+: c.rest)
    (h : tableDeclaration st c.offset packed e = .ok (st', f)) :
    (∃ s, e.Reads s f) ∧ Declares c st st' := by
  rw [tableDeclaration] at h
  split at h
  · cases h
  · rename_i hpending
    simp only [bind_eq_ok, pure_eq_ok] at h
    obtain ⟨⟨t, e₁⟩, ht, st₁, hadd, h⟩ := h
    obtain ⟨rfl, rfl⟩ := Prod.mk.inj h
    obtain ⟨hread, hnamed, hsource⟩ := reads_of_table ht
    have hnone : st.pending? = none := by simpa using hpending
    rw [addTable] at hadd
    split at hadd
    · cases hadd
    · rename_i r hr
      obtain rfl := Except.ok.inj hadd
      rw [hnone]
      exact ⟨hread, .addTable hnone ⟨hkeyword, hsource, hnamed⟩ hr⟩

theorem declares_of_definition {e f : Cursor} (hread : Unopened c e)
    (hkeyword : "#define".toList <+: c.rest)
    (h : definition st c.offset e = .ok (st', f)) : (∃ s, e.Reads s f) ∧ Declares c st st' := by
  rw [definition] at h
  split at h
  · rename_i e₁ he₁
    simp only [bind_eq_ok, pure_eq_ok] at h
    obtain ⟨⟨hd, e₂⟩, hhead, st₁, hadd, h⟩ := h
    obtain ⟨rfl, rfl⟩ := Prod.mk.inj h
    have hword := (Cursor.eatKeyword?_eq_some_iff.1 he₁).1
    have hheader := headerRead_of_header hhead
    obtain ⟨s', hs'⟩ := hheader.reads
    exact ⟨⟨_, hword.trans hs'⟩,
      declares_of_addMacro (hread.trans ⟨_, hword, by decide⟩) hkeyword hheader hadd⟩
  · split at h
    · rename_i e₁ he₁
      obtain ⟨⟨s', hs'⟩, hdecl⟩ := declares_of_tableDeclaration hkeyword h
      exact ⟨⟨_, (Cursor.eatKeyword?_eq_some_iff.1 he₁).1.trans hs'⟩, hdecl⟩
    · split at h
      · rename_i e₁ he₁
        obtain ⟨⟨s', hs'⟩, hdecl⟩ := declares_of_tableDeclaration hkeyword h
        exact ⟨⟨_, (Cursor.eatKeyword?_eq_some_iff.1 he₁).1.trans hs'⟩, hdecl⟩
      · cases h

/-- A declaration leaves a template header, adds a macro or adds a table. -/
theorem declares_of_declaration (h : declaration st c = .ok (st', d)) :
    (∃ s, c.Reads s d) ∧ Declares c st st' := by
  rw [declaration] at h
  split at h
  · rename_i e he
    split at h
    · cases h
    · rename_i hpending
      simp only [bind_eq_ok, pure_eq_ok] at h
      obtain ⟨⟨params, e₁⟩, hparams, h⟩ := h
      obtain ⟨rfl, rfl⟩ := Prod.mk.inj h
      obtain ⟨⟨s, hs⟩, hident⟩ := reads_of_templateParams hparams
      exact ⟨⟨_, (Cursor.eatKeyword?_eq_some_iff.1 he).1.trans hs⟩,
        .template (by simpa using hpending) hident⟩
  · split at h
    · rename_i e he
      have hword := (Cursor.eatKeyword?_eq_some_iff.1 he).1
      have hhead : Unopened c e.skipBlank :=
        Unopened.trans ⟨_, hword, by decide⟩ (unopened_skipBlank e)
      obtain ⟨⟨s, hs⟩, hdecl⟩ := declares_of_definition hhead ⟨e.rest, hword.rest.symm⟩ h
      obtain ⟨s₁, hs₁⟩ := hhead.reads
      exact ⟨⟨_, hs₁.trans hs⟩, hdecl⟩
    · cases h

/-! ### Whole texts -/

theorem offset_lt_of_declaration (h : declaration st c = .ok (st', d)) : c.offset < d.offset := by
  obtain ⟨⟨s, hs⟩, -⟩ := declares_of_declaration h
  exact hs.offset_lt (declaration_rest_lt h)

/-- A property that may speak of the place up to which the text was read. -/
theorem declarations_keeps_at {text : Text} {P : Nat → State → Prop}
    (mono : ∀ {n n' st}, n ≤ n' → P n st → P n' st)
    (keeps : ∀ {c d st st'}, c.Within text → declaration st c = .ok (st', d) → P c.offset st →
      P d.offset st')
    {r : Registry} (hc : c.Within text) (hP : P c.offset st) (h : declarations st c = .ok r) :
    ∃ n, P n ⟨r, none⟩ := by
  fun_induction declarations st c with
  | case1 => cases h
  | case2 st c _ _ hpending =>
    obtain rfl := Except.ok.inj h
    have hnone : st.pending? = none := by simpa using hpending
    rw [← hnone]
    exact ⟨_, hP⟩
  | case3 => cases h
  | case4 st c e hne st' d hdecl _ ih =>
    -- one declaration behind the blanks, and the rest of the text after it
    obtain ⟨b, hb, -⟩ := Cursor.exists_reads_skipBlank c
    obtain ⟨⟨s, hs⟩, -⟩ := declares_of_declaration hdecl
    exact ih ((hb.trans hs).within hc) (keeps (hb.within hc) hdecl (mono hb.offset_le hP)) h

section Induction

variable {text : Text} {P : State → Prop}
  (keeps : ∀ {c d st st'}, c.Within text → declaration st c = .ok (st', d) → P st → P st')

include keeps

theorem declarations_keeps_within {r : Registry} (hc : c.Within text) (hP : P st)
    (h : declarations st c = .ok r) : P ⟨r, none⟩ := by
  obtain ⟨-, hend⟩ := declarations_keeps_at (P := fun _ => P) (fun _ hst => hst) keeps hc hP h
  exact hend

/-- What holds at first and is kept by every declaration at a place of the text
holds of what the text declares. -/
theorem parse_induction_within {r : Registry} (hinitial : P .initial) (h : parse text = .ok r) :
    P ⟨r, none⟩ :=
  declarations_keeps_within keeps (Cursor.within_ofText text) hinitial h

end Induction

/-- What holds of the empty registry and is kept by every macro and every table
that is added to one holds of what a text declares. -/
theorem parse_induction {P : Registry → Prop}
    (keepsMacro : ∀ {r window m r'}, P r → Body.parse r window = .ok m.ops →
      r.addMacro m = .ok r' → P r')
    (keepsTable : ∀ {r t r'}, P r → r.addTable t = .ok r' → P r')
    (hempty : P .empty) {text : Text} {r : Registry} (h : parse text = .ok r) : P r := by
  refine parse_induction_within (P := fun st => P st.registry) ?_ hempty h
  intro c d st st' _ hdecl hP
  obtain ⟨-, hdeclares⟩ := declares_of_declaration hdecl
  cases hdeclares with
  | template => exact hP
  | addMacro hread hadd =>
    obtain ⟨_, _, _, _, _, _, _, hbody⟩ := hread.window
    exact keepsMacro hP hbody hadd
  | addTable _ _ hadd => exact keepsTable hP hadd

end Declaration

end MacroAssembler
