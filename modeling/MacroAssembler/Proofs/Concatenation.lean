/-
MacroAssembler/Proofs/Concatenation.lean

Texts one behind the other.

Files are put together without a separator, so nothing but the reader itself
keeps a declaration of one file apart from the next file.  A declaration ends
with a brace or a bracket, and no step of the reader looks beyond it: what is
read with success is read in the same way when more text follows
(`declaration_extend`).  A step that stops at the end of a run, as names and
blanks do, needs a character there; inside a declaration there always is one.

The reader thus goes on behind a text as if it had just begun, with what the
text declared (`declarations_extend`).  Since it does not look at offsets
either (`declarations_moved`), the texts can be read one by one
(`readOn_of_parse`).
-/
import MacroAssembler.Proofs.Locating
import MacroAssembler.Proofs.Moving

namespace MacroAssembler

open Outcome

/-! ### Cursors with more text behind them -/

namespace Cursor

/-- The same place, with more text to read. -/
def extend (u : Text) (c : Cursor) : Cursor := ⟨c.offset, c.rest ++ u⟩

variable {c d : Cursor} {s t u : Text}

theorem Reads.extend (h : c.Reads t d) (u : Text) : (c.extend u).Reads t (d.extend u) := by
  refine ⟨?_, h.offset⟩
  rw [Cursor.extend, Cursor.extend, h.rest, List.append_assoc]

theorem check_extend (p : Char → Bool) (hne : c.rest ≠ []) : (c.extend u).check p = c.check p := by
  obtain ⟨ch, rest, hrest⟩ := List.exists_cons_of_ne_nil hne
  simp [check, peek?, extend, hrest]

theorem eat?_extend {ch : Char} (h : c.eat? ch = some d) :
    (c.extend u).eat? ch = some (d.extend u) :=
  eat?_eq_some_iff.2 ((eat?_eq_some_iff.1 h).extend u)

theorem eat?_extend_eq_none {ch : Char} (h : c.eat? ch = none) (hne : c.rest ≠ []) :
    (c.extend u).eat? ch = none := by
  obtain ⟨x, rest, hrest⟩ := List.exists_cons_of_ne_nil hne
  simpa [eat?, extend, hrest] using h

theorem eatWhile_extend {p : Char → Bool} (hne : (c.eatWhile p).2.rest ≠ []) :
    (c.extend u).eatWhile p = ((c.eatWhile p).1, (c.eatWhile p).2.extend u) := by
  obtain ⟨hread, hall, hstop⟩ := eatWhile_eq_iff.1 (rfl : c.eatWhile p = _)
  exact eatWhile_eq_iff.2 ⟨hread.extend u, hall, by rwa [check_extend p hne]⟩

theorem skipBlank_extend (hne : c.skipBlank.rest ≠ []) :
    (c.extend u).skipBlank = c.skipBlank.extend u := by
  rw [skipBlank, eatWhile_extend hne, skipBlank]

theorem eatIdent?_extend (h : c.eatIdent? = some (t, d)) (hne : d.rest ≠ []) :
    (c.extend u).eatIdent? = some (t, d.extend u) := by
  obtain ⟨hread, hident, hstop⟩ := eatIdent?_eq_some_iff.1 h
  exact eatIdent?_eq_some_iff.2 ⟨hread.extend u, hident, by rwa [check_extend _ hne]⟩

theorem eatKeyword?_extend (h : c.eatKeyword? s = some d) (hne : d.rest ≠ []) :
    (c.extend u).eatKeyword? s = some (d.extend u) := by
  obtain ⟨hread, hstop⟩ := eatKeyword?_eq_some_iff.1 h
  exact eatKeyword?_eq_some_iff.2 ⟨hread.extend u, by rwa [check_extend _ hne]⟩

/-- Where one keyword is read, another one is not, whatever follows. -/
theorem eatKeyword?_extend_eq_none (h : c.eatKeyword? t = some d) (hne : d.rest ≠ [])
    (ht : Text.isIdent t = true) (hs : Text.isIdent s = true) (hst : t ≠ s) :
    (c.extend u).eatKeyword? s = none := by
  obtain ⟨hread, hstop⟩ := eatKeyword?_eq_some_iff.1 h
  obtain ⟨ch, rest, hrest⟩ := List.exists_cons_of_ne_nil hne
  have hch : Text.isIdentChar ch = false := by simpa [check, peek?, hrest] using hstop
  have hall : d.Reads (ch :: rest) ⟨d.offset + Text.byteLength (ch :: rest), []⟩ :=
    ⟨by rw [hrest, List.append_nil], rfl⟩
  exact eatKeyword?_eq_none ((hread.trans hall).extend u) ht hch hs hst

theorem ne_nil_of_lt (h : d.rest.length < c.rest.length) : c.rest ≠ [] :=
  List.ne_nil_of_length_pos (Nat.zero_lt_of_lt h)

theorem Reads.ne_nil (h : c.Reads t d) (hne : d.rest ≠ []) : c.rest ≠ [] := by
  rw [h.rest]
  exact List.append_ne_nil_of_right_ne_nil t hne

theorem ne_nil_of_eatKeyword? (h : c.eatKeyword? s = some d) (hs : s ≠ []) : c.rest ≠ [] :=
  ne_nil_of_lt (eatText?_rest_lt hs (eatText?_of_eatKeyword? h))

theorem ne_nil_of_skipBlank (hne : c.skipBlank.rest ≠ []) : c.rest ≠ [] := by
  obtain ⟨b, hb, -⟩ := exists_reads_skipBlank c
  exact hb.ne_nil hne

end Cursor

/-! ### Declarations with more text behind them -/

namespace Declaration

open Cursor

variable {c d : Cursor}

theorem require_extend {ch : Char} {what : Expected} (h : require ch what c = .ok d) (u : Text) :
    require ch what (c.extend u) = .ok (d.extend u) :=
  require_eq_ok_iff.2 ((require_eq_ok_iff.1 h).extend u)

/-- A character behind blanks. -/
theorem require_skipBlank_extend {ch : Char} {what : Expected}
    (h : require ch what c.skipBlank = .ok d) (u : Text) :
    require ch what (c.extend u).skipBlank = .ok (d.extend u) := by
  rw [skipBlank_extend (ne_nil_of_lt (require_rest_lt h))]
  exact require_extend h u

theorem ne_nil_of_require {ch : Char} {what : Expected}
    (h : require ch what c.skipBlank = .ok d) : c.rest ≠ [] :=
  ne_nil_of_skipBlank (ne_nil_of_lt (require_rest_lt h))

theorem name_extend {what : Expected} {t : Text} (h : name what c = .ok (t, d))
    (hne : d.rest ≠ []) (u : Text) : name what (c.extend u) = .ok (t, d.extend u) := by
  rw [name] at h ⊢
  split at h
  · rename_i r hr
    obtain rfl := Except.ok.inj h
    rw [skipBlank_extend (ne_nil_of_lt (eatIdent?_rest_lt hr)), eatIdent?_extend hr hne]
  · cases h

theorem stackCount_extend {word : String} {n : Nat} (h : stackCount word c = .ok (n, d))
    (u : Text) : stackCount word (c.extend u) = .ok (n, d.extend u) := by
  rw [stackCount] at h
  split at h
  · cases h
  · rename_i e he
    simp only [bind_eq_ok] at h
    obtain ⟨c₁, h₁, h⟩ := h
    split at h
    · cases h
    · rename_i m hm
      simp only [bind_eq_ok, pure_eq_ok] at h
      obtain ⟨c₂, h₂, h⟩ := h
      obtain ⟨rfl, rfl⟩ := Prod.mk.inj h
      -- a parenthesis follows the keyword, and another one the digits
      have hword : e.rest ≠ [] := ne_nil_of_require h₁
      have hdigits : (c₁.skipBlank.eatWhile Text.isDigit).2.rest ≠ [] := ne_nil_of_require h₂
      have hkeyword : c.skipBlank.rest ≠ [] := (eatKeyword?_eq_some_iff.1 he).1.ne_nil hword
      have hcount : c₁.skipBlank.rest ≠ [] := (reads_eatWhile _ _).ne_nil hdigits
      rw [stackCount, skipBlank_extend hkeyword, eatKeyword?_extend he hword]
      refine bind_eq_ok.2 ⟨c₁.extend u, require_skipBlank_extend h₁ u, ?_⟩
      simp only [skipBlank_extend hcount, eatWhile_extend hdigits, hm]
      exact bind_eq_ok.2 ⟨c₂.extend u, require_skipBlank_extend h₂ u, rfl⟩

theorem templateParams_extend {params : List String} (h : templateParams c = .ok (params, d))
    (u : Text) : templateParams (c.extend u) = .ok (params, d.extend u) := by
  simp only [templateParams, bind_eq_ok] at h
  obtain ⟨c₁, h₁, c₂, h₂, h⟩ := h
  have hinner := ne_nil_of_lt (require_rest_lt h₂)
  refine bind_eq_ok.2 ⟨c₁.extend u, require_skipBlank_extend h₁ u, ?_⟩
  simp only [eatWhile_extend hinner]
  refine bind_eq_ok.2 ⟨c₂.extend u, require_extend h₂ u, ?_⟩
  split at h
  · cases h
  · obtain ⟨rfl, rfl⟩ := Prod.mk.inj (pure_eq_ok.1 h)
    rfl

theorem header_extend {start : Nat} {hd : Header} (h : header start c = .ok (hd, d)) (u : Text) :
    header start (c.extend u) = .ok (hd, d.extend u) := by
  simp only [header, bind_eq_ok] at h
  obtain ⟨⟨nm, c₁⟩, h₁, c₂, h₂, ⟨takes, c₃⟩, h₃, ⟨returns, c₄⟩, h₄, c₅, h₅, h⟩ := h
  dsimp only at h₂ h₄ h₅
  refine bind_eq_ok.2 ⟨(nm, c₁.extend u), name_extend h₁ (ne_nil_of_require h₂) u, ?_⟩
  refine bind_eq_ok.2 ⟨c₂.extend u, require_skipBlank_extend h₂ u, ?_⟩
  refine bind_eq_ok.2 ⟨(takes, c₃.extend u), stackCount_extend h₃ u, ?_⟩
  refine bind_eq_ok.2 ⟨(returns, c₄.extend u), stackCount_extend h₄ u, ?_⟩
  refine bind_eq_ok.2 ⟨c₅.extend u, require_skipBlank_extend h₅ u, ?_⟩
  split at h
  · cases h
  · rename_i e he
    obtain ⟨rfl, rfl⟩ := Prod.mk.inj (pure_eq_ok.1 h)
    have hbody := ne_nil_of_lt (eat?_rest_lt he)
    simp only [eatWhile_extend hbody, eat?_extend he]
    rfl

theorem ne_nil_of_tableLabels {table : String} {labels : List String}
    (h : tableLabels table c = .ok (labels, d)) : c.rest ≠ [] := by
  refine ne_nil_of_skipBlank ?_
  rcases hclose : c.skipBlank.eat? '}' with - | e
  · rcases hlabel : c.skipBlank.eatIdent? with - | ⟨label, e⟩
    · rw [tableLabels_of_none hclose hlabel] at h
      cases h
    · exact ne_nil_of_lt (eatIdent?_rest_lt hlabel)
  · exact ne_nil_of_lt (eat?_rest_lt hclose)

theorem tableLabels_extend {table : String} {labels : List String}
    (h : tableLabels table c = .ok (labels, d)) (u : Text) :
    tableLabels table (c.extend u) = .ok (labels, d.extend u) := by
  fun_induction tableLabels table c generalizing labels d with
  | case1 c e he =>
    obtain ⟨rfl, rfl⟩ := Prod.mk.inj (Except.ok.inj h)
    refine tableLabels_of_close ?_
    rw [skipBlank_extend (ne_nil_of_lt (eat?_rest_lt he)), eat?_extend he]
  | case2 => cases h
  | case3 => cases h
  | case4 c hclose label e he hlt labels' f hf ih =>
    obtain ⟨rfl, rfl⟩ := Prod.mk.inj (Except.ok.inj h)
    have hskip := skipBlank_extend (u := u) (ne_nil_of_lt hlt)
    refine tableLabels_of_label ?_ ?_ (ih hf)
    · rw [hskip, eat?_extend_eq_none hclose (ne_nil_of_lt hlt)]
    · rw [hskip, eatIdent?_extend he (ne_nil_of_tableLabels hf)]

theorem table_extend {start : Nat} {packed : Bool} {t : JumpTable}
    (h : table start packed c = .ok (t, d)) (u : Text) :
    table start packed (c.extend u) = .ok (t, d.extend u) := by
  simp only [table, bind_eq_ok, pure_eq_ok] at h
  obtain ⟨⟨nm, c₁⟩, h₁, c₂, h₂, ⟨labels, c₃⟩, h₃, h⟩ := h
  dsimp only at h₂ h
  obtain ⟨rfl, rfl⟩ := Prod.mk.inj h
  refine bind_eq_ok.2 ⟨(nm, c₁.extend u), name_extend h₁ (ne_nil_of_require h₂) u, ?_⟩
  refine bind_eq_ok.2 ⟨c₂.extend u, require_skipBlank_extend h₂ u, ?_⟩
  exact bind_eq_ok.2 ⟨(labels, c₃.extend u), tableLabels_extend h₃ u, rfl⟩

variable {st st' : State}

theorem tableDeclaration_extend {start : Nat} {packed : Bool}
    (h : tableDeclaration st start packed c = .ok (st', d)) (u : Text) :
    tableDeclaration st start packed (c.extend u) = .ok (st', d.extend u) := by
  rw [tableDeclaration] at h ⊢
  split at h
  · cases h
  · rename_i hpending
    simp only [bind_eq_ok, pure_eq_ok] at h
    obtain ⟨⟨t, c₁⟩, h₁, st₁, h₂, h⟩ := h
    obtain ⟨rfl, rfl⟩ := Prod.mk.inj h
    rw [if_neg hpending]
    refine bind_eq_ok.2 ⟨(t, c₁.extend u), table_extend h₁ u, ?_⟩
    exact bind_eq_ok.2 ⟨st₁, h₂, rfl⟩

theorem ne_nil_of_header {start : Nat} {hd : Header} (h : header start c = .ok (hd, d)) :
    c.rest ≠ [] := by
  simp only [header, bind_eq_ok] at h
  obtain ⟨⟨nm, c₁⟩, h₁, -⟩ := h
  exact ne_nil_of_lt (name_rest_lt h₁)

theorem ne_nil_of_tableDeclaration {start : Nat} {packed : Bool}
    (h : tableDeclaration st start packed c = .ok (st', d)) : c.rest ≠ [] := by
  rw [tableDeclaration] at h
  split at h
  · cases h
  · simp only [table, bind_eq_ok] at h
    obtain ⟨_, ⟨⟨nm, c₁⟩, h₁, -⟩, -⟩ := h
    exact ne_nil_of_lt (name_rest_lt h₁)

theorem definition_extend {start : Nat} (h : definition st start c = .ok (st', d)) (u : Text) :
    c.rest ≠ [] ∧ definition st start (c.extend u) = .ok (st', d.extend u) := by
  rw [definition] at h ⊢
  split at h
  · rename_i e he
    simp only [bind_eq_ok, pure_eq_ok] at h
    obtain ⟨⟨hd, e₁⟩, hhead, st₁, hadd, h⟩ := h
    obtain ⟨rfl, rfl⟩ := Prod.mk.inj h
    refine ⟨ne_nil_of_eatKeyword? he (by decide), ?_⟩
    rw [eatKeyword?_extend he (ne_nil_of_header hhead)]
    refine bind_eq_ok.2 ⟨(hd, e₁.extend u), header_extend hhead u, ?_⟩
    exact bind_eq_ok.2 ⟨st₁, hadd, rfl⟩
  · split at h
    · rename_i e he
      have hne := ne_nil_of_tableDeclaration h
      refine ⟨ne_nil_of_eatKeyword? he (by decide), ?_⟩
      rw [eatKeyword?_extend_eq_none he hne (by decide) (by decide) (by decide),
        eatKeyword?_extend he hne]
      exact tableDeclaration_extend h u
    · split at h
      · rename_i e he
        have hne := ne_nil_of_tableDeclaration h
        refine ⟨ne_nil_of_eatKeyword? he (by decide), ?_⟩
        rw [eatKeyword?_extend_eq_none he hne (by decide) (by decide) (by decide),
          eatKeyword?_extend_eq_none he hne (by decide) (by decide) (by decide),
          eatKeyword?_extend he hne]
        exact tableDeclaration_extend h u
      · cases h

/-- **A declaration is read in the same way whatever follows it.** -/
theorem declaration_extend (h : declaration st c = .ok (st', d)) (u : Text) :
    declaration st (c.extend u) = .ok (st', d.extend u) := by
  rw [declaration] at h ⊢
  split at h
  · rename_i e he
    split at h
    · cases h
    · rename_i hpending
      simp only [bind_eq_ok, pure_eq_ok] at h
      obtain ⟨⟨params, e₁⟩, hparams, h⟩ := h
      obtain ⟨rfl, rfl⟩ := Prod.mk.inj h
      have hne : e.rest ≠ [] := by
        simp only [templateParams, bind_eq_ok] at hparams
        obtain ⟨c₁, h₁, -⟩ := hparams
        exact ne_nil_of_require h₁
      simp only [eatKeyword?_extend he hne, if_neg hpending]
      exact bind_eq_ok.2 ⟨(params, e₁.extend u), templateParams_extend hparams u, rfl⟩
  · split at h
    · rename_i e he
      obtain ⟨hne, hdef⟩ := definition_extend h u
      have hheader : (c.extend u).eatKeyword? "template".toList = none := by
        rw [eatKeyword?, eatText?, checkText, ((eatKeyword?_eq_some_iff.1 he).1.extend u).rest]
        rfl
      rw [hheader, eatKeyword?_extend he (ne_nil_of_skipBlank hne)]
      dsimp only
      rw [skipBlank_extend hne]
      exact hdef
    · cases h

/-! ### Whole texts -/

/-- Behind a text that was read, reading goes on with what the text declared and
with no header waiting. -/
theorem declarations_extend {r : Registry} (h : declarations st c = .ok r) (u : Text) :
    declarations st (c.extend u) =
      declarations ⟨r, none⟩ ⟨c.offset + Text.byteLength c.rest, u⟩ := by
  fun_induction declarations st c with
  | case1 => cases h
  | case2 st c c' heof hpending =>
    -- nothing but blanks is left of the first text
    obtain rfl := Except.ok.inj h
    obtain ⟨b, hb, hblank⟩ := exists_reads_skipBlank c
    have hrest : c.rest = b := by rw [hb.rest, List.isEmpty_iff.1 heof, List.append_nil]
    have hread : (c.extend u).Reads b ⟨c.offset + Text.byteLength c.rest, u⟩ :=
      ⟨by rw [extend, hrest], by rw [hrest]; rfl⟩
    have hnone : st.pending? = none := by simpa using hpending
    rw [declarations_of_blank hread hblank, ← hnone]
  | case3 => cases h
  | case4 st c c' hne st₁ d hdecl hlt ih =>
    obtain ⟨b, hb, -⟩ := exists_reads_skipBlank c
    obtain ⟨⟨s, hs⟩, -⟩ := declares_of_declaration hdecl
    have hskip := skipBlank_extend (u := u) (ne_nil_of_lt hlt)
    rw [declarations_step (by rw [hskip]; exact declaration_extend hdecl u), ih h,
      (hb.trans hs).offset_add_byteLength]

theorem parse_append {t₁ : Text} {r₁ : Registry} (h : parse t₁ = .ok r₁) (t₂ : Text) :
    parse (t₁ ++ t₂) = declarations ⟨r₁, none⟩ ((Cursor.ofText t₂).move (Text.byteLength t₁)) := by
  calc parse (t₁ ++ t₂) = declarations .initial ((Cursor.ofText t₁).extend t₂) := rfl
    _ = declarations ⟨r₁, none⟩ ((Cursor.ofText t₂).move (Text.byteLength t₁)) :=
      declarations_extend h t₂

/-- The files hold the text `t₂` behind a text `t₁` that declares `r₁`, and are
read as `t₂` alone is with the declarations of `r₁`. -/
structure ReadOn (r₁ : Registry) (t₁ t₂ : Text) (files : Listing) : Prop where
  text : files.text = t₁ ++ t₂
  /-- All that `t₂` declares, and its fault, is as many bytes further on as `t₁`
  has. -/
  outcome : Moved (Text.byteLength t₁) (r₁.Resumed (Text.byteLength t₁))
    (declarations ⟨r₁, none⟩ (Cursor.ofText t₂)) (parse files.text)
  declared : ∀ r, parse files.text = .ok r → r₁.macros <+: r.macros ∧ r₁.tables <+: r.tables
  faulty : ∀ e, parse files.text = .error e → Text.byteLength t₁ ≤ e.offset

theorem readOn_of_text {t₁ t₂ : Text} {r₁ : Registry} (h : parse t₁ = .ok r₁) {files : Listing}
    (htext : files.text = t₁ ++ t₂) : ReadOn r₁ t₁ t₂ files := by
  have hstate : State.Resumed r₁ (Text.byteLength t₁) ⟨r₁, none⟩ ⟨r₁, none⟩ :=
    ⟨.refl r₁ _, rfl⟩
  have houtcome := declarations_moved hstate (Cursor.ofText t₂)
  rw [← parse_append h, ← htext] at houtcome
  refine ⟨htext, houtcome, ?_, ?_⟩
  · intro r hr
    rw [hr] at houtcome
    generalize declarations _ _ = alone at houtcome
    cases houtcome with
    | ok hresumed =>
      obtain ⟨new, -, rfl⟩ := hresumed
      exact ⟨List.prefix_append _ _, List.prefix_append _ _⟩
  · intro e he
    rw [he] at houtcome
    generalize declarations _ _ = alone at houtcome
    cases houtcome with
    | error e => exact Nat.le_add_left _ _

end Declaration

theorem Listing.locate_second {t₁ t₂ : Text} {index : Nat} (name₁ name₂ : String)
    (h : Text.byteLength t₁ ≤ index) :
    ((ofFiles [(name₁, t₁), (name₂, t₂)]).locate index).file = 1 := by
  rw [locate, files_ofFiles, filesFrom, owner?_cons_filesFrom (by simp) (by simpa using h)]
  rfl

namespace Declaration

/-- **Texts are read one by one.**  If `t₁` is read on its own, then a text `t₂`
behind it, in the same file or in the next one, is read with the declarations of
`t₁` and no header waiting, whatever the two texts are.  A fault then lies in the
second file. -/
theorem readOn_of_parse {t₁ : Text} {r₁ : Registry} (h : parse t₁ = .ok r₁) (t₂ : Text)
    (name₁ name₂ : String) :
    ReadOn r₁ t₁ t₂ (.single name₁ (t₁ ++ t₂)) ∧
      ReadOn r₁ t₁ t₂ (.ofFiles [(name₁, t₁), (name₂, t₂)]) ∧
      ∀ e, parse (Listing.ofFiles [(name₁, t₁), (name₂, t₂)]).text = .error e →
        ((Listing.ofFiles [(name₁, t₁), (name₂, t₂)]).locate e.offset).file = 1 := by
  have hone : ReadOn r₁ t₁ t₂ (.single name₁ (t₁ ++ t₂)) := by
    refine readOn_of_text h ?_
    simp [Listing.single, Listing.push, Listing.empty, Listing.text, ListedFile.ofText]
  have htwo : ReadOn r₁ t₁ t₂ (.ofFiles [(name₁, t₁), (name₂, t₂)]) := by
    refine readOn_of_text h ?_
    simp [Listing.text_ofFiles]
  refine ⟨hone, htwo, ?_⟩
  intro e he
  exact Listing.locate_second name₁ name₂ (htwo.faulty e he)

/-- A table and two macros, with nothing behind the last brace. -/
def leading : Text :=
  "#define jumptable__packed T \x7b a a \x7dtemplate<p>".toList ++
    "#define macro A = takes(0) returns(0) \x7b <p> \x7d".toList ++
    "#define macro B = takes(0) returns(0) \x7b A<é>() \x7d".toList

/-- A macro that uses them, with nothing in front of its header. -/
def following : Text :=
  "template <q>#define macro C = takes(0) returns(0)\x7b a: A<q>() __tablesize(T) \x7d".toList

/-- A keyword that is cut off. -/
def severed : Text := " #defin".toList

/-- Places count bytes, of which the argument in `leading` has two. -/
theorem readOn_leading :
    ∃ r₁ r, parse leading = .ok r₁ ∧ parse (leading ++ following) = .ok r ∧
      r.macros.map Macro.source = [46, 91, 152] ∧ r₁.macros <+: r.macros ∧
      ReadOn r₁ leading following (.ofFiles [("first", leading), ("second", following)]) ∧
      parse (leading ++ severed) = .error ⟨.notDeclaration, 141⟩ ∧
      ((Listing.ofFiles [("first", leading), ("second", severed)]).locate 141).file = 1 := by
  have hrun : (parse leading >>= fun r₁ => parse (leading ++ following) >>= fun r =>
      pure (r.macros.map Macro.source)) = .ok [46, 91, 152] := by
    decide +kernel
  have hsevered : parse (leading ++ severed) = .error ⟨.notDeclaration, 141⟩ := by
    decide +kernel
  simp only [bind_eq_ok, pure_eq_ok] at hrun
  obtain ⟨r₁, hleading, r, hboth, hsources⟩ := hrun
  obtain ⟨-, hread, -⟩ := readOn_of_parse hleading following "first" "second"
  obtain ⟨-, hfaulty, hfile⟩ := readOn_of_parse hleading severed "first" "second"
  refine ⟨r₁, r, hleading, hboth, hsources, ?_, hread, hsevered, ?_⟩
  · exact (hread.declared r (by rw [hread.text, hboth])).1
  · exact hfile ⟨.notDeclaration, 141⟩ (by rw [hfaulty.text, hsevered])

end Declaration

end MacroAssembler
