/-
MacroAssembler/Proofs/TokenSpacing.lean

Tokens under any spacing.

Spelled one after the other with blanks between them, tokens are read back, whatever the
blanks are and whatever the names: a name may be a keyword, begin with digits or have digits
only.  Each token is found at the bytes where it was written.

What the spelling asks of the parts of a token is said here without the reader
(`TokenKind.Spellable`): argument texts are judged by counting their brackets.  It is what
the reader asks for (`TokenKind.wellFormed_of_spellable`), so that reading inverts spelling
(`Token.lex_spell`).

Main result: `Token.lex_written`.
-/
import MacroAssembler.Proofs.CallShapes

namespace MacroAssembler

/-! ### Tokens that can be spelled -/

/-- The spelling of a token shows where its parts end. -/
def TokenKind.Spellable : TokenKind → Prop
  | .call name args? | .codeSize name args? =>
    Text.isIdent name.toList = true ∧
      ∀ args ∈ args?, Argument.Level 0 args.toList ∧
        ∀ ch ∈ args.toList, Argument.isParen ch = false
  | .templateRef name | .tableSize name | .tableStart name | .label name =>
    Text.isIdent name.toList = true
  | .decimal digits => digits.toList ≠ [] ∧ ∀ ch ∈ digits.toList, Text.isDigit ch = true
  | .hex digits => digits.toList ≠ [] ∧ ∀ ch ∈ digits.toList, Text.isHexDigit ch = true
  | .word name =>
    Text.isIdent name.toList = true ∧ (¬ ∀ ch ∈ name.toList, Text.isDigit ch = true) ∧
      ¬ ∃ digits, name.toList = '0' :: 'x' :: digits ∧ digits ≠ [] ∧
        ∀ ch ∈ digits, Text.isHexDigit ch = true

theorem TokenKind.wellFormed_of_spellable {k : TokenKind} (h : k.Spellable) : k.WellFormed := by
  have hargs : ∀ {args? : Option String},
      (∀ args ∈ args?, Argument.Level 0 args.toList ∧
        ∀ ch ∈ args.toList, Argument.isParen ch = false) → Token.ArgsBalanced args? := by
    intro args? h args hmem
    obtain ⟨hlevel, hparen⟩ := h args hmem
    refine Argument.balanced_iff_level.2 ⟨hlevel, fun ch hch => ?_⟩
    exact Argument.isParen_eq_false_iff.1 (hparen ch hch)
  cases k with
  | call name args? => exact ⟨h.1, hargs h.2⟩
  | codeSize name args? => exact ⟨h.1, hargs h.2⟩
  | templateRef name => exact h
  | tableSize name => exact h
  | tableStart name => exact h
  | label name => exact h
  | decimal digits => exact h
  | hex digits => exact h
  | word name =>
    obtain ⟨hident, hdecimal, hhex⟩ := h
    exact ⟨hident, hdecimal, fun digits ht hne hall => hhex ⟨digits, ht, hne, hall⟩⟩

namespace Token

/-- Tokens with blanks in front of each and behind the last: any blanks at both ends, and
some between two tokens. -/
structure Written (items : List (Text × TokenKind)) (last : Text) : Prop where
  spellable : ∀ i ∈ items, i.2.Spellable
  blank : ∀ i ∈ items, ∀ ch ∈ i.1, Text.isBlank ch = true
  apart : ∀ i ∈ items.tail, i.1 ≠ []
  blank_last : ∀ ch ∈ last, Text.isBlank ch = true

variable {items : List (Text × TokenKind)} {last : Text}

theorem Written.spaced (h : Written items last) : Spaced items := by
  obtain ⟨hspellable, hblank, hapart, -⟩ := h
  induction items with
  | nil => trivial
  | cons i items ih =>
    obtain ⟨gap, k⟩ := i
    obtain ⟨hk, hkinds⟩ := List.forall_mem_cons.1 hspellable
    obtain ⟨hgap, hgaps⟩ := List.forall_mem_cons.1 hblank
    refine ⟨hgap, TokenKind.wellFormed_of_spellable hk, ?_, ?_⟩
    · exact fun i hi => hapart i (List.mem_of_head? hi)
    · exact ih hkinds hgaps fun i hi => hapart i (List.mem_of_mem_tail hi)

/-! ### Where tokens are written -/

theorem map_kind_placed (offset : Nat) (items : List (Text × TokenKind)) :
    (placed offset items).map kind = items.map Prod.snd := by
  induction items generalizing offset with
  | nil => rfl
  | cons i items ih =>
    rw [placed, List.map_cons, List.map_cons, ih]

/-- A token is placed behind all that is written in front of it. -/
theorem getElem?_placed (offset : Nat) (before after : List (Text × TokenKind)) (gap : Text)
    (k : TokenKind) :
    (placed offset (before ++ (gap, k) :: after))[before.length]? =
      some ⟨k, k.render, offset + Text.byteLength (spell before gap)⟩ := by
  induction before generalizing offset with
  | nil => simp [placed, spell]
  | cons i before ih =>
    rw [List.cons_append, placed, List.length_cons, List.getElem?_cons_succ, ih, spell_cons]
    simp only [Text.byteLength_append, Nat.add_assoc]

/-- **Reading inverts spelling under any spacing**: the tokens come back in their order,
each at the bytes where it was written, and nothing is left. -/
theorem lex_written (h : Written items last) (offset : Nat) :
    (lex ⟨offset, spell items last⟩).2 = none ∧
      (lex ⟨offset, spell items last⟩).1.map kind = items.map Prod.snd ∧
      ∀ before gap k after, items = before ++ (gap, k) :: after →
        ∃ t, (lex ⟨offset, spell items last⟩).1[before.length]? = some t ∧ t.kind = k ∧
          t.start = offset + Text.byteLength (spell before gap) ∧
          t.stop = offset + Text.byteLength (spell before gap ++ k.render) := by
  rw [lex_spell h.spaced h.blank_last offset]
  refine ⟨rfl, map_kind_placed offset items, ?_⟩
  rintro before gap k after rfl
  refine ⟨_, getElem?_placed offset before after gap k, rfl, rfl, ?_⟩
  rw [stop, Text.byteLength_append, Nat.add_assoc]

/-- A call of a macro with the name of an operator, a label of digits, a word that begins like
a hexadecimal literal, a parameter and nested arguments, with blanks of several kinds. -/
def crowded : List (Text × TokenKind) :=
  [([], .call "__codesize" none), ([' '], .label "12"), (['\n'], .word "0xg"),
    (['\t', ' '], .templateRef "0"), ([' '], .codeSize "__tablesize" (some "A<b,1>, c"))]

theorem lex_written_crowded :
    Written crowded ['\n'] ∧
      spell crowded ['\n'] =
        "__codesize() 12:\n0xg\t <0> __codesize(__tablesize<A<b,1>, c>)\n".toList ∧
      ∃ t, (lex ⟨7, spell crowded ['\n']⟩).1[2]? = some t ∧ t.kind = .word "0xg" ∧
        t.start = 24 ∧ t.stop = 27 := by
  have hargs : Argument.Level 0 "A<b,1>, c".toList ∧
      ∀ ch ∈ "A<b,1>, c".toList, Argument.isParen ch = false := by
    have hbalanced : balanced 0 "A<b,1>, c".toList = true := by decide +kernel
    obtain ⟨hlevel, hparen⟩ := Argument.balanced_iff_level.1 hbalanced
    exact ⟨hlevel, fun ch hch => Argument.isParen_eq_false_iff.2 (hparen ch hch)⟩
  have hword : TokenKind.Spellable (.word "0xg") := by
    refine ⟨by decide +kernel, fun hall => absurd (hall 'x' (by decide +kernel)) (by decide), ?_⟩
    rintro ⟨digits, hdigits, -, hall⟩
    obtain rfl : ['g'] = digits := by simpa using hdigits
    exact absurd (hall 'g' (by simp)) (by decide)
  have hwritten : Written crowded ['\n'] := by
    refine ⟨?_, ?_, ?_, ?_⟩
    · have hcall : TokenKind.Spellable (.call "__codesize" none) :=
        ⟨by decide +kernel, fun _ hmem => by cases hmem⟩
      have hsize : TokenKind.Spellable (.codeSize "__tablesize" (some "A<b,1>, c")) := by
        refine ⟨by decide +kernel, fun args hmem => ?_⟩
        obtain rfl := Option.some.inj hmem
        exact hargs
      have hlabel : TokenKind.Spellable (.label "12") := by
        show Text.isIdent "12".toList = true
        decide +kernel
      have hparam : TokenKind.Spellable (.templateRef "0") := by
        show Text.isIdent "0".toList = true
        decide +kernel
      simp only [crowded, List.forall_mem_cons]
      exact ⟨hcall, hlabel, hword, hparam, hsize, by simp⟩
    · simp [crowded, Text.isBlank]
    · simp [crowded]
    · simp [Text.isBlank]
  obtain ⟨-, -, hplaces⟩ := lex_written hwritten 7
  refine ⟨hwritten, by decide +kernel, ?_⟩
  have hplace := hplaces (crowded.take 2) ['\n'] (.word "0xg") (crowded.drop 3) rfl
  have hstart : 7 + Text.byteLength (spell (crowded.take 2) ['\n']) = 24 := by decide +kernel
  have hstop : 7 + Text.byteLength (spell (crowded.take 2) ['\n'] ++
      TokenKind.render (.word "0xg")) = 27 := by decide +kernel
  rwa [hstart, hstop] at hplace

end Token

end MacroAssembler
