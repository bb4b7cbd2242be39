/-
MacroAssembler/Proofs/TokenRendering.lean

Tokens written down and read back.

`TokenKind.render` spells a token in the shortest way.  The recognizers are tried
in a fixed order and share the texts that they begin with, so a spelling is read
back only if every recognizer in front of its own refuses it, whatever follows
(`kind?_of_render`).  Behind an identifier the argument is always the same: two
readings of the longest run of identifier characters agree (`ident_unique`).

Main result: `lex_spell`.  Tokens with blanks between them are read back one by
one, each at the offset where it was written.
-/
import MacroAssembler.Proofs.Tokens

namespace MacroAssembler

/-- The shortest spelling of a token. -/
def TokenKind.render : TokenKind → Text
  | .call name args? => name.toList ++ (Token.bracketed args? ++ ['(', ')'])
  | .templateRef param => '<' :: (param.toList ++ ['>'])
  | .codeSize name args? =>
    "__codesize(".toList ++ (name.toList ++ (Token.bracketed args? ++ [')']))
  | .tableSize table => "__tablesize(".toList ++ (table.toList ++ [')'])
  | .tableStart table => "__tablestart(".toList ++ (table.toList ++ [')'])
  | .label name => name.toList ++ [':']
  | .decimal digits => digits.toList
  | .hex digits => "0x".toList ++ digits.toList
  | .word name => name.toList

theorem Text.isBlank_of_isIdentChar {ch : Char} (h : isIdentChar ch = true) :
    isBlank ch = false := by
  -- identifier characters lie in four ranges, and no blank does
  have hranges : ((65 ≤ ch.toNat ∧ ch.toNat ≤ 90 ∨ 97 ≤ ch.toNat ∧ ch.toNat ≤ 122) ∨
      48 ≤ ch.toNat ∧ ch.toNat ≤ 57) ∨ ch.toNat = 95 := by
    obtain (h | h) | rfl := isIdentChar_iff.1 h
    · exact .inl (.inl h)
    · exact .inl (.inr (by simpa [Char.isDigit, UInt32.le_iff_toNat_le] using h))
    · exact .inr rfl
  simp only [isBlank, Bool.or_eq_false_iff, Bool.and_eq_false_iff, decide_eq_false_iff_not,
    beq_eq_false_iff_ne]
  omega

/-! ### Characters ahead -/

namespace Cursor

variable {c d : Cursor} {t : Text} {ch : Char}

theorem Reads.check_eq (h : c.Reads (ch :: t) d) (p : Char → Bool) : c.check p = p ch := by
  simp [check, peek?, h.rest]

theorem eat?_eq_none_iff : c.eat? ch = none ↔ c.rest.head? ≠ some ch := by
  rw [eat?]
  cases c.rest with
  | nil => simp
  | cons x rest => by_cases h : x = ch <;> simp [h]

theorem Reads.eat?_eq_none {x : Char} (h : c.Reads (ch :: t) d) (hne : ch ≠ x) :
    c.eat? x = none := by
  rw [eat?_eq_none_iff, h.rest]
  simpa using hne

/-- An identifier begins with a character of its class. -/
theorem Reads.eat?_eq_none_of_isIdent {name : Text} (h : c.Reads (name ++ t) d)
    (hname : Text.isIdent name = true) (hch : Text.isIdentChar ch = false) : c.eat? ch = none := by
  obtain ⟨hne, hall⟩ := Text.isIdent_iff.1 hname
  obtain ⟨x, rest, rfl⟩ := List.exists_cons_of_ne_nil hne
  refine h.eat?_eq_none ?_
  rintro rfl
  rw [hall x (by simp)] at hch
  cases hch

/-- The longest run of identifier characters is one. -/
theorem ident_unique {s : Text} {e : Cursor} (ht : c.Reads t d)
    (htAll : ∀ ch ∈ t, Text.isIdentChar ch = true) (hd : d.check Text.isIdentChar = false)
    (hs : c.Reads s e) (hsAll : ∀ ch ∈ s, Text.isIdentChar ch = true)
    (he : e.check Text.isIdentChar = false) : t = s ∧ d = e := by
  have h₁ := eatWhile_eq_iff.2 ⟨ht, htAll, hd⟩
  have h₂ := eatWhile_eq_iff.2 ⟨hs, hsAll, he⟩
  exact Prod.mk.inj (h₁.symm.trans h₂)

end Cursor

namespace Token

open Cursor

variable {c d : Cursor} {name : Text}

/-! ### Refusals -/

/-- What follows an identifier: neither another character of it nor arguments. -/
structure EndsIdent (d : Cursor) : Prop where
  ident : d.check Text.isIdentChar = false
  angle : d.eat? '<' = none
  paren : d.skipBlank.eat? '(' = none

theorem eatAngle_eq_none (h : d.eat? '<' = none) : eatAngle d = (none, d) := by
  rw [eatAngle, h]

theorem call?_eq_none (hread : c.Reads name d) (hident : Text.isIdent name = true)
    (hd : EndsIdent d) : call? c = none := by
  have hname := eatIdent?_eq_some_iff.2 ⟨hread, hident, hd.ident⟩
  simp [call?, hname, eatAngle_eq_none hd.angle, hd.paren]

theorem templateRef?_eq_none (hread : c.Reads name d) (hident : Text.isIdent name = true) :
    templateRef? c = none := by
  rw [← List.append_nil name] at hread
  have hopen : c.eat? '<' = none := hread.eat?_eq_none_of_isIdent hident rfl
  simp [templateRef?, hopen]

/-- An operator is not opened by an identifier that no parenthesis follows. -/
theorem eatText?_eq_none (hread : c.Reads name d) (hident : Text.isIdent name = true)
    (hd : d.check Text.isIdentChar = false) (hparen : d.eat? '(' = none) (keyword : Text)
    (hkeyword : Text.isIdent keyword = true) :
    c.eatText? (keyword ++ ['(']) = none := by
  refine Option.eq_none_iff_forall_ne_some.2 ?_
  intro e he
  obtain ⟨e', hkey, hopen⟩ := Reads.append_iff.1 (eatText?_eq_some_iff.1 he)
  have hstop : e'.check Text.isIdentChar = false := by
    rw [hopen.check_eq]
    rfl
  obtain ⟨-, rfl⟩ := ident_unique hread (Text.isIdent_iff.1 hident).2 hd hkey
    (Text.isIdent_iff.1 hkeyword).2 hstop
  rw [eat?_eq_some_iff.2 hopen] at hparen
  cases hparen

theorem codeSize?_eq_none (h : c.eatText? "__codesize(".toList = none) : codeSize? c = none := by
  rw [codeSize?, h]
  rfl

theorem tableSize?_eq_none (h : c.eatText? "__tablesize(".toList = none) : tableSize? c = none := by
  rw [tableSize?, named?, h]
  rfl

theorem tableStart?_eq_none (h : c.eatText? "__tablestart(".toList = none) :
    tableStart? c = none := by
  rw [tableStart?, named?, h]
  rfl

theorem label?_eq_none (hread : c.Reads name d) (hident : Text.isIdent name = true)
    (hd : d.check Text.isIdentChar = false) (hcolon : d.eat? ':' = none) : label? c = none := by
  have hname := eatIdent?_eq_some_iff.2 ⟨hread, hident, hd⟩
  simp [label?, hname, hcolon]

theorem decimal?_eq_none (hread : c.Reads name d) (hident : Text.isIdent name = true)
    (hd : d.check Text.isIdentChar = false) (hdigits : ¬ ∀ ch ∈ name, Text.isDigit ch = true) :
    decimal? c = none := by
  refine Option.eq_none_iff_forall_ne_some.2 ?_
  rintro ⟨k, e⟩ he
  obtain ⟨digits, -, hread', -, hall, hstop⟩ := decimal?_eq_some_iff.1 he
  obtain ⟨rfl, -⟩ := ident_unique hread (Text.isIdent_iff.1 hident).2 hd hread'
    (fun ch hch => isIdentChar_of_isDigit (hall ch hch)) hstop
  exact hdigits hall

theorem isIdent_hex {digits : Text} (h : ∀ ch ∈ digits, Text.isHexDigit ch = true) :
    Text.isIdent ("0x".toList ++ digits) = true := by
  obtain ⟨-, hmark⟩ := Text.isIdent_iff.1 (rfl : Text.isIdent "0x".toList = true)
  refine Text.isIdent_iff.2 ⟨by simp, ?_⟩
  intro ch hch
  obtain hch | hch := List.mem_append.1 hch
  · exact hmark ch hch
  · exact isIdentChar_of_isHexDigit (h ch hch)

theorem hex?_eq_none (hread : c.Reads name d) (hident : Text.isIdent name = true)
    (hd : d.check Text.isIdentChar = false)
    (hdigits : ∀ digits, name = "0x".toList ++ digits → digits ≠ [] →
      ¬ ∀ ch ∈ digits, Text.isHexDigit ch = true) : hex? c = none := by
  refine Option.eq_none_iff_forall_ne_some.2 ?_
  rintro ⟨k, e⟩ he
  obtain ⟨digits, -, hread', hne, hall, hstop⟩ := hex?_eq_some_iff.1 he
  obtain ⟨rfl, -⟩ := ident_unique hread (Text.isIdent_iff.1 hident).2 hd hread'
    (Text.isIdent_iff.1 (isIdent_hex hall)).2 hstop
  exact hdigits digits rfl hne hall

/-- An identifier does not begin with a blank. -/
theorem skipBlank_of_ident {name t : Text} (hread : c.Reads (name ++ t) d)
    (hident : Text.isIdent name = true) : c.skipBlank = c := by
  obtain ⟨hne, hall⟩ := Text.isIdent_iff.1 hident
  obtain ⟨ch, rest, rfl⟩ := List.exists_cons_of_ne_nil hne
  refine skipBlank_of_check ?_
  rw [hread.check_eq]
  exact Text.isBlank_of_isIdentChar (hall ch (by simp))

/-- A call that has an operand between its parentheses is none. -/
theorem call?_eq_none_of_operand {keyword operand : Text} {e : Cursor}
    (hkeyword : Text.isIdent keyword = true) (hread : c.Reads (keyword ++ ['(']) d)
    (hoperand : d.Reads operand e) (hident : Text.isIdent operand = true) : call? c = none := by
  obtain ⟨d', hkey, hopen⟩ := Reads.append_iff.1 hread
  rw [← List.append_nil operand] at hoperand
  have hname := eatIdent?_eq_some_iff.2 ⟨hkey, hkeyword, hopen.check_eq _⟩
  have hangle : d'.eat? '<' = none := hopen.eat?_eq_none (by decide)
  have hskip : d'.skipBlank = d' := skipBlank_of_check (hopen.check_eq _)
  have hskip' : d.skipBlank = d := skipBlank_of_ident hoperand hident
  have hclose : d.eat? ')' = none := hoperand.eat?_eq_none_of_isIdent hident rfl
  simp [call?, hname, eatAngle_eq_none hangle, hskip, eat?_eq_some_iff.2 hopen, hskip', hclose]

/-! ### Spellings are read back -/

/-- Blanks or nothing follow a token, and no parenthesis behind them. -/
structure Apart (d : Cursor) : Prop where
  blank : ∀ ch ∈ d.rest.head?, Text.isBlank ch = true
  paren : d.skipBlank.eat? '(' = none

theorem Apart.eat?_eq_none (h : Apart d) {ch : Char} (hch : Text.isBlank ch = false) :
    d.eat? ch = none := by
  rw [eat?_eq_none_iff]
  intro hhead
  simp [h.blank ch hhead] at hch

theorem Apart.endsIdent (h : Apart d) : EndsIdent d := by
  refine ⟨?_, h.eat?_eq_none rfl, h.paren⟩
  rw [check_eq_false_iff]
  intro ch hch
  cases hident : Text.isIdentChar ch with
  | false => rfl
  | true =>
    have hblank := h.blank ch hch
    rw [Text.isBlank_of_isIdentChar hident] at hblank
    cases hblank

theorem eatAngle_of_reads {args? : Option String} (hargs : ArgsBalanced args?)
    (hread : c.Reads (bracketed args?) d) (hd : d.eat? '<' = none) : eatAngle c = (args?, d) := by
  cases args? with
  | none =>
    obtain rfl := hread.unique (.refl c)
    exact eatAngle_eq_none hd
  | some args =>
    obtain ⟨e, hopen, hrest⟩ :=
      (Reads.append_iff (s := ['<']) (t := args.toList ++ ['>'])).1 hread
    have hinner : e.rest = args.toList ++ '>' :: d.rest := by simpa using hrest.rest
    have hend : d = ⟨e.offset + Text.byteLength args.toList + 1, d.rest⟩ := by
      have hoffset := hrest.offset
      rw [Text.byteLength_append, ← Nat.add_assoc] at hoffset
      cases d
      simp_all
      rfl
    rw [eatAngle, eat?_eq_some_iff.2 hopen]
    simp only [hinner, scanAngle_append (hargs args rfl), String.ofList_toList, ← hend]

/-- A name with its arguments, up to a character that ends both. -/
theorem exists_eatIdent?_eatAngle {name : String} {args? : Option String} {ch : Char} {t : Text}
    (hread : c.Reads (name.toList ++ (bracketed args? ++ ch :: t)) d)
    (hident : Text.isIdent name.toList = true) (hargs : ArgsBalanced args?)
    (hch : Text.isIdentChar ch = false) (hangle : ch ≠ '<') :
    ∃ c₁ c₂, c.eatIdent? = some (name.toList, c₁) ∧ eatAngle c₁ = (args?, c₂) ∧
      c₂.Reads (ch :: t) d := by
  obtain ⟨c₁, hname, hrest⟩ := Reads.append_iff.1 hread
  obtain ⟨c₂, hbrackets, hend⟩ := Reads.append_iff.1 hrest
  have hstop : c₁.check Text.isIdentChar = false := by
    cases args? with
    | none =>
      rw [hrest.check_eq]
      exact hch
    | some args =>
      rw [hrest.check_eq]
      rfl
  exact ⟨c₁, c₂, eatIdent?_eq_some_iff.2 ⟨hname, hident, hstop⟩,
    eatAngle_of_reads hargs hbrackets (hend.eat?_eq_none hangle), hend⟩

theorem call?_of_render {name : String} {args? : Option String}
    (hread : c.Reads (TokenKind.call name args?).render d)
    (hk : (TokenKind.call name args?).WellFormed) : call? c = some (.call name args?, d) := by
  obtain ⟨c₁, c₂, hname, hangle, hparens⟩ :=
    exists_eatIdent?_eatAngle hread hk.1 hk.2 rfl (by decide)
  obtain ⟨c₃, hopen, hclose⟩ := (Reads.append_iff (s := ['('])).1 hparens
  have hskip : c₂.skipBlank = c₂ := skipBlank_of_check (hparens.check_eq _)
  have hskip' : c₃.skipBlank = c₃ := skipBlank_of_check (hclose.check_eq _)
  simp [call?, hname, hangle, hskip, eat?_eq_some_iff.2 hopen, hskip', eat?_eq_some_iff.2 hclose]

/-- An identifier, up to a character that ends it. -/
theorem exists_eatIdent? {name : String} {ch : Char} {t : Text}
    (hread : c.Reads (name.toList ++ ch :: t) d) (hident : Text.isIdent name.toList = true)
    (hch : Text.isIdentChar ch = false) :
    ∃ c₁, c.eatIdent? = some (name.toList, c₁) ∧ c₁.Reads (ch :: t) d := by
  obtain ⟨c₁, hname, hend⟩ := Reads.append_iff.1 hread
  refine ⟨c₁, eatIdent?_eq_some_iff.2 ⟨hname, hident, ?_⟩, hend⟩
  rw [hend.check_eq]
  exact hch

theorem templateRef?_of_render {param : String}
    (hread : c.Reads (TokenKind.templateRef param).render d)
    (hk : (TokenKind.templateRef param).WellFormed) :
    templateRef? c = some (.templateRef param, d) := by
  obtain ⟨c₁, hopen, hrest⟩ := (Reads.append_iff (s := ['<'])).1 hread
  obtain ⟨c₂, hname, hclose⟩ := exists_eatIdent? hrest hk rfl
  have hskip := skipBlank_of_ident hrest hk
  have hskip' : c₂.skipBlank = c₂ := skipBlank_of_check (hclose.check_eq _)
  simp [templateRef?, eat?_eq_some_iff.2 hopen, hskip, hname, hskip', eat?_eq_some_iff.2 hclose]

theorem codeSize?_of_render {name : String} {args? : Option String}
    (hread : c.Reads (TokenKind.codeSize name args?).render d)
    (hk : (TokenKind.codeSize name args?).WellFormed) :
    codeSize? c = some (.codeSize name args?, d) := by
  obtain ⟨c₁, hopen, hrest⟩ := Reads.append_iff.1 hread
  obtain ⟨c₂, c₃, hname, hangle, hclose⟩ :=
    exists_eatIdent?_eatAngle hrest hk.1 hk.2 rfl (by decide)
  have hskip := skipBlank_of_ident hrest hk.1
  have hskip' : c₃.skipBlank = c₃ := skipBlank_of_check (hclose.check_eq _)
  rw [codeSize?, eatText?_eq_some_iff.2 hopen]
  simp [hskip, hname, hangle, hskip', eat?_eq_some_iff.2 hclose]

theorem named?_of_reads {opening : Text} {name : String}
    (hread : c.Reads (opening ++ (name.toList ++ [')'])) d)
    (hident : Text.isIdent name.toList = true) : named? opening c = some (name, d) := by
  obtain ⟨c₁, hopen, hrest⟩ := Reads.append_iff.1 hread
  obtain ⟨c₂, hname, hclose⟩ := exists_eatIdent? hrest hident rfl
  have hskip := skipBlank_of_ident hrest hident
  have hskip' : c₂.skipBlank = c₂ := skipBlank_of_check (hclose.check_eq _)
  rw [named?, eatText?_eq_some_iff.2 hopen]
  simp [hskip, hname, hskip', eat?_eq_some_iff.2 hclose]

/-- What is tried before operators refuses an operator. -/
theorem refused_of_operator (keyword : Text) {operand t : Text}
    (hkeyword : Text.isIdent keyword = true)
    (hread : c.Reads (keyword ++ ['('] ++ (operand ++ t)) d)
    (hident : Text.isIdent operand = true) : call? c = none ∧ templateRef? c = none := by
  obtain ⟨c₁, hopen, hrest⟩ := Reads.append_iff.1 hread
  obtain ⟨c₂, hoperand, -⟩ := Reads.append_iff.1 hrest
  obtain ⟨c₃, hkey, -⟩ := Reads.append_iff.1 hopen
  exact ⟨call?_eq_none_of_operand hkeyword hopen hoperand hident,
    templateRef?_eq_none hkey hkeyword⟩

/-- What is tried before labels, literals and words refuses an identifier. -/
theorem refused_of_ident {name : Text} (hread : c.Reads name d)
    (hident : Text.isIdent name = true) (hd : EndsIdent d) (hparen : d.eat? '(' = none) :
    call? c = none ∧ templateRef? c = none ∧ codeSize? c = none ∧ tableSize? c = none ∧
      tableStart? c = none := by
  have hoperator := eatText?_eq_none hread hident hd.ident hparen
  refine ⟨call?_eq_none hread hident hd, templateRef?_eq_none hread hident,
    codeSize?_eq_none ?_, tableSize?_eq_none ?_, tableStart?_eq_none ?_⟩
  · exact hoperator "__codesize".toList rfl
  · exact hoperator "__tablesize".toList rfl
  · exact hoperator "__tablestart".toList rfl

theorem kind?_eq_or (c : Cursor) :
    kind? c = (call? c).or ((templateRef? c).or ((codeSize? c).or ((tableSize? c).or
      ((tableStart? c).or ((label? c).or ((decimal? c).or ((hex? c).or (word? c)))))))) := by
  simp only [kind?, Option.orElse_eq_orElse, Option.orElse_eq_or]

theorem kind?_of_templateRef {param : String}
    (hread : c.Reads (TokenKind.templateRef param).render d)
    (hk : (TokenKind.templateRef param).WellFormed) : kind? c = some (.templateRef param, d) := by
  have hident : c.eatIdent? = none := by
    rw [eatIdent?, if_neg]
    rw [hread.check_eq]
    decide
  have h₁ : call? c = none := by simp [call?, hident]
  rw [kind?_eq_or, h₁, templateRef?_of_render hread hk, Option.none_or, Option.some_or]

theorem kind?_of_codeSize {name : String} {args? : Option String}
    (hread : c.Reads (TokenKind.codeSize name args?).render d)
    (hk : (TokenKind.codeSize name args?).WellFormed) :
    kind? c = some (.codeSize name args?, d) := by
  obtain ⟨h₁, h₂⟩ := refused_of_operator "__codesize".toList rfl hread hk.1
  simp only [kind?_eq_or, h₁, h₂, codeSize?_of_render hread hk, Option.none_or, Option.some_or]

theorem kind?_of_tableSize {table : String}
    (hread : c.Reads (TokenKind.tableSize table).render d)
    (hk : (TokenKind.tableSize table).WellFormed) : kind? c = some (.tableSize table, d) := by
  obtain ⟨h₁, h₂⟩ := refused_of_operator "__tablesize".toList rfl hread hk
  have h₃ : codeSize? c = none := by
    refine codeSize?_eq_none ?_
    rw [eatText?, checkText, hread.rest]
    rfl
  have h₄ : tableSize? c = some (.tableSize table, d) := by
    rw [tableSize?, named?_of_reads hread hk, Option.map_some]
  simp only [kind?_eq_or, h₁, h₂, h₃, h₄, Option.none_or, Option.some_or]

theorem kind?_of_tableStart {table : String}
    (hread : c.Reads (TokenKind.tableStart table).render d)
    (hk : (TokenKind.tableStart table).WellFormed) : kind? c = some (.tableStart table, d) := by
  obtain ⟨h₁, h₂⟩ := refused_of_operator "__tablestart".toList rfl hread hk
  have h₃ : codeSize? c = none := by
    refine codeSize?_eq_none ?_
    rw [eatText?, checkText, hread.rest]
    rfl
  have h₄ : tableSize? c = none := by
    refine tableSize?_eq_none ?_
    rw [eatText?, checkText, hread.rest]
    rfl
  have h₅ : tableStart? c = some (.tableStart table, d) := by
    rw [tableStart?, named?_of_reads hread hk, Option.map_some]
  simp only [kind?_eq_or, h₁, h₂, h₃, h₄, h₅, Option.none_or, Option.some_or]

theorem kind?_of_label {name : String} (hread : c.Reads (TokenKind.label name).render d)
    (hk : (TokenKind.label name).WellFormed) : kind? c = some (.label name, d) := by
  obtain ⟨c₁, hname, hcolon⟩ := exists_eatIdent? hread hk rfl
  have hparen : c₁.eat? '(' = none := hcolon.eat?_eq_none (by decide)
  have hends : EndsIdent c₁ := by
    refine ⟨hcolon.check_eq _, hcolon.eat?_eq_none (by decide), ?_⟩
    rwa [skipBlank_of_check (hcolon.check_eq _)]
  obtain ⟨h₁, h₂, h₃, h₄, h₅⟩ :=
    refused_of_ident (eatIdent?_eq_some_iff.1 hname).1 hk hends hparen
  have h₆ : label? c = some (.label name, d) := by
    simp [label?, hname, eat?_eq_some_iff.2 hcolon]
  simp only [kind?_eq_or, h₁, h₂, h₃, h₄, h₅, h₆, Option.none_or, Option.some_or]

/-- An identifier that nothing but blanks follows is a literal or a word. -/
theorem kind?_of_ident {name : Text} (hread : c.Reads name d) (hident : Text.isIdent name = true)
    (hd : Apart d) : kind? c = (decimal? c).or ((hex? c).or (word? c)) := by
  have hparen : d.eat? '(' = none := hd.eat?_eq_none rfl
  obtain ⟨h₁, h₂, h₃, h₄, h₅⟩ := refused_of_ident hread hident hd.endsIdent hparen
  have h₆ := label?_eq_none hread hident hd.endsIdent.ident (hd.eat?_eq_none rfl)
  simp only [kind?_eq_or, h₁, h₂, h₃, h₄, h₅, h₆, Option.none_or]

theorem kind?_of_decimal {digits : String} (hread : c.Reads digits.toList d)
    (hk : (TokenKind.decimal digits).WellFormed) (hd : Apart d) :
    kind? c = some (.decimal digits, d) := by
  have hident : Text.isIdent digits.toList = true :=
    Text.isIdent_iff.2 ⟨hk.1, fun ch hch => isIdentChar_of_isDigit (hk.2 ch hch)⟩
  have hdecimal : decimal? c = some (.decimal digits, d) :=
    decimal?_eq_some_iff.2 ⟨digits.toList, by simp, hread, hk.1, hk.2, hd.endsIdent.ident⟩
  rw [kind?_of_ident hread hident hd, hdecimal, Option.some_or]

theorem kind?_of_hex {digits : String} (hread : c.Reads ("0x".toList ++ digits.toList) d)
    (hk : (TokenKind.hex digits).WellFormed) (hd : Apart d) :
    kind? c = some (.hex digits, d) := by
  have hident := isIdent_hex hk.2
  have hdecimal : decimal? c = none := by
    refine decimal?_eq_none hread hident hd.endsIdent.ident ?_
    intro hall
    exact absurd (hall 'x' (by simp)) (by decide)
  have hhex : hex? c = some (.hex digits, d) :=
    hex?_eq_some_iff.2 ⟨digits.toList, by simp, hread, hk.1, hk.2, hd.endsIdent.ident⟩
  rw [kind?_of_ident hread hident hd, hdecimal, hhex, Option.none_or, Option.some_or]

theorem kind?_of_word {name : String} (hread : c.Reads name.toList d)
    (hk : Text.IsWord name.toList) (hd : Apart d) : kind? c = some (.word name, d) := by
  have hword : word? c = some (.word name, d) := by
    rw [word?, eatIdent?_eq_some_iff.2 ⟨hread, hk.ident, hd.endsIdent.ident⟩]
    simp
  rw [kind?_of_ident hread hk.ident hd,
    decimal?_eq_none hread hk.ident hd.endsIdent.ident hk.not_decimal,
    hex?_eq_none hread hk.ident hd.endsIdent.ident hk.not_hex, hword]
  rfl

/-- **A token is read back from its spelling**, whatever follows behind a
blank. -/
theorem kind?_of_render {k : TokenKind} (hread : c.Reads k.render d) (hk : k.WellFormed)
    (hd : Apart d) : kind? c = some (k, d) := by
  cases k with
  | call name args? => rw [kind?_eq_or, call?_of_render hread hk, Option.some_or]
  | templateRef param => exact kind?_of_templateRef hread hk
  | codeSize name args? => exact kind?_of_codeSize hread hk
  | tableSize table => exact kind?_of_tableSize hread hk
  | tableStart table => exact kind?_of_tableStart hread hk
  | label name => exact kind?_of_label hread hk
  | decimal digits => exact kind?_of_decimal hread hk hd
  | hex digits => exact kind?_of_hex hread hk hd
  | word name => exact kind?_of_word hread hk hd

/-! ### Lists of tokens -/

/-- Tokens, each with the blanks in front of it, and blanks at the end. -/
def spell (items : List (Text × TokenKind)) (last : Text) : Text :=
  items.flatMap (fun i => i.1 ++ i.2.render) ++ last

/-- The tokens that are read back from their spellings, from an offset on. -/
def placed : Nat → List (Text × TokenKind) → List Token
  | _, [] => []
  | offset, (gap, k) :: items =>
    let start := offset + Text.byteLength gap
    ⟨k, k.render, start⟩ :: placed (start + Text.byteLength k.render) items

/-- Blanks between tokens, which keep any two of them apart. -/
def Spaced : List (Text × TokenKind) → Prop
  | [] => True
  | (gap, k) :: items =>
    (∀ ch ∈ gap, Text.isBlank ch = true) ∧ k.WellFormed ∧ (∀ i ∈ items.head?, i.1 ≠ []) ∧
      Spaced items

theorem lex_of_skipBlank_eq_nil (h : c.skipBlank.rest = []) : lex c = ([], none) := by
  rw [lex]
  simp [isEof, h]

theorem lex_of_token? {t : Token} {e : Cursor} (hskip : c.skipBlank = e)
    (htoken : token? e = some (t, d)) : lex c = (t :: (lex d).1, (lex d).2) := by
  have hne : e.isEof = false := by
    have hlt := token?_rest_lt htoken
    cases hrest : e.rest with
    | nil => simp [hrest] at hlt
    | cons ch rest => simp [isEof, hrest]
  subst hskip
  rw [lex]
  simp only [hne]
  split
  · rename_i h
    cases h
  · split
    · rename_i h
      simp [htoken] at h
    · rename_i t' d' h
      obtain ⟨rfl, rfl⟩ : t' = t ∧ d' = d := by simpa [htoken, eq_comm] using h
      rfl

/-- A spelling begins with an identifier character or a bracket. -/
theorem exists_render_eq_cons {k : TokenKind} (hk : k.WellFormed) :
    ∃ ch t, k.render = ch :: t ∧ (Text.isIdentChar ch = true ∨ ch = '<') := by
  have hident : ∀ {name : Text} (t : Text), Text.isIdent name = true →
      ∃ ch t', name ++ t = ch :: t' ∧ (Text.isIdentChar ch = true ∨ ch = '<') := by
    intro name t hname
    obtain ⟨hne, hall⟩ := Text.isIdent_iff.1 hname
    obtain ⟨ch, rest, rfl⟩ := List.exists_cons_of_ne_nil hne
    exact ⟨ch, rest ++ t, rfl, .inl (hall ch (by simp))⟩
  cases k with
  | call name args? => exact hident _ hk.1
  | templateRef param => exact ⟨'<', _, rfl, .inr rfl⟩
  | codeSize name args? => exact ⟨'_', _, rfl, .inl rfl⟩
  | tableSize table => exact ⟨'_', _, rfl, .inl rfl⟩
  | tableStart table => exact ⟨'_', _, rfl, .inl rfl⟩
  | label name => exact hident _ hk
  | decimal digits =>
    obtain ⟨ch, rest, hrest⟩ := List.exists_cons_of_ne_nil hk.1
    exact ⟨ch, rest, hrest, .inl (isIdentChar_of_isDigit (hk.2 ch (by simp [hrest])))⟩
  | hex digits => exact ⟨'0', _, rfl, .inl rfl⟩
  | word name =>
    have hword : Text.IsWord name.toList := hk
    have h := hident [] hword.ident
    rwa [List.append_nil] at h

/-- A spelling begins neither with a blank nor with a parenthesis. -/
theorem head?_render {k : TokenKind} (hk : k.WellFormed) (t : Text) :
    ∀ ch ∈ (k.render ++ t).head?, Text.isBlank ch = false ∧ ch ≠ '(' := by
  obtain ⟨x, rest, hrest, hx⟩ := exists_render_eq_cons hk
  intro ch hch
  obtain rfl : x = ch := by simpa [hrest] using hch
  obtain hx | rfl := hx
  · refine ⟨Text.isBlank_of_isIdentChar hx, ?_⟩
    rintro rfl
    exact absurd hx (by decide)
  · exact ⟨rfl, by decide⟩

theorem spell_cons (gap : Text) (k : TokenKind) (items : List (Text × TokenKind)) (last : Text) :
    spell ((gap, k) :: items) last = gap ++ (k.render ++ spell items last) := by
  simp [spell]

/-- What follows a token keeps it apart from the next one. -/
theorem apart_spell {items : List (Text × TokenKind)} {last : Text} (hitems : Spaced items)
    (hgap : ∀ i ∈ items.head?, i.1 ≠ []) (hlast : ∀ ch ∈ last, Text.isBlank ch = true)
    (offset : Nat) : Apart ⟨offset, spell items last⟩ := by
  cases items with
  | nil =>
    refine ⟨fun ch hch => hlast ch (List.mem_of_head? hch), ?_⟩
    show (Cursor.skipBlank ⟨offset, last⟩).eat? '(' = none
    rw [skipBlank_of_forall offset hlast, eat?_eq_none_iff]
    simp
  | cons i items =>
    obtain ⟨gap, k⟩ := i
    obtain ⟨hblank, hk, -, -⟩ := hitems
    have hhead := head?_render hk (spell items last)
    rw [spell_cons]
    refine ⟨?_, ?_⟩
    · intro ch hch
      obtain ⟨x, rest, rfl⟩ := List.exists_cons_of_ne_nil (hgap _ rfl)
      obtain rfl : x = ch := by simpa using hch
      exact hblank x (by simp)
    · rw [skipBlank_append offset hblank fun ch hch => (hhead ch hch).1, eat?_eq_none_iff]
      intro hparen
      exact (hhead '(' hparen).2 rfl

theorem token?_of_render {k : TokenKind} (hread : c.Reads k.render d) (hk : k.WellFormed)
    (hd : Apart d) : token? c = some (⟨k, k.render, c.offset⟩, d) := by
  rw [token?, kind?_of_render hread hk hd, Option.map_some]
  show some (Token.mk k (c.upTo d) c.offset, d) = _
  rw [hread.upTo]

/-- **Reading inverts spelling**: tokens with blanks around them are read back,
each where it was written. -/
theorem lex_spell {items : List (Text × TokenKind)} (hitems : Spaced items) {last : Text}
    (hlast : ∀ ch ∈ last, Text.isBlank ch = true) (offset : Nat) :
    lex ⟨offset, spell items last⟩ = (placed offset items, none) := by
  induction items generalizing offset with
  | nil =>
    refine lex_of_skipBlank_eq_nil ?_
    show (Cursor.skipBlank ⟨offset, last⟩).rest = []
    rw [skipBlank_of_forall offset hlast]
  | cons i items ih =>
    obtain ⟨gap, k⟩ := i
    obtain ⟨hblank, hk, hgap, htail⟩ := hitems
    have hskip := skipBlank_append offset hblank
      fun ch hch => (head?_render hk (spell items last) ch hch).1
    have hread : Cursor.Reads ⟨offset + Text.byteLength gap, k.render ++ spell items last⟩ k.render
        ⟨offset + Text.byteLength gap + Text.byteLength k.render, spell items last⟩ := ⟨rfl, rfl⟩
    have htoken := token?_of_render hread hk (apart_spell htail hgap hlast _)
    rw [spell_cons, lex_of_token? hskip htoken, ih htail]
    rfl

/-- A spelling on its own is one token. -/
theorem lex_render {k : TokenKind} (hk : k.WellFormed) :
    lex (.ofText k.render) = ([⟨k, k.render, 0⟩], none) := by
  have hspaced : Spaced [([], k)] := ⟨by simp, hk, by simp, trivial⟩
  have hlex := lex_spell hspaced (List.forall_mem_nil _) 0
  rw [spell_cons, spell] at hlex
  simpa [placed, ofText] using hlex

end Token

end MacroAssembler
