/-
MacroAssembler/Proofs/Tokens.lean

What the tokens of a body are, and where they come from.

Nine recognizers read tokens.  Whichever of them matches, it reads a text from
where it stands, and the token that it makes has parts of a fixed form: names
are identifiers, arguments have balanced brackets, literals have digits, and a
word is none of the things that are tried before it (`Recognized`).  So the
tokens of a window are read at places of the window (`reads_of_mem_lex`), and
each operation of a body goes back to one of them (`exists_token_of_parse`).
-/
import MacroAssembler.Body
import MacroAssembler.Proofs.Reading

namespace MacroAssembler

/-! ### Parts of tokens -/

namespace Token

/-- Angle brackets close what they open, when `depth` of them are open in front
of the text, and there are no parentheses and no braces. -/
def balanced : (depth : Nat) → Text → Bool
  | depth, [] => depth == 0
  | depth, c :: t =>
    if c = '<' then balanced (depth + 1) t
    else if c = '>' then
      match depth with
      | 0 => false
      | d + 1 => balanced d t
    else if c = '(' ∨ c = ')' ∨ c = '{' ∨ c = '}' then false
    else balanced depth t

theorem scanAngle_append {depth : Nat} {inner : Text} (h : balanced depth inner = true)
    (rest : Text) : scanAngle depth (inner ++ '>' :: rest) = some (inner, rest) := by
  fun_induction balanced depth inner with
  | case1 depth =>
    obtain rfl : depth = 0 := by simpa using h
    simp [scanAngle]
  | case2 depth t ih => simp [scanAngle, ih h]
  | case3 => cases h
  | case4 t _ d ih => simp [scanAngle, ih h]
  | case5 => cases h
  | case6 depth c t hopen hclose hother ih => simp [scanAngle, hopen, hclose, hother, ih h]

/-- What a scan that goes on behind a character finds. -/
theorem exists_of_map_cons {found : Option (Text × Text)} {c : Char} {inner rest : Text}
    (h : found.map (fun (inner, rest) => (c :: inner, rest)) = some (inner, rest)) :
    ∃ inner', inner = c :: inner' ∧ found = some (inner', rest) := by
  obtain ⟨⟨inner', rest'⟩, hfound, hpair⟩ := Option.map_eq_some_iff.1 h
  obtain ⟨rfl, rfl⟩ := Prod.mk.inj hpair
  exact ⟨inner', rfl, hfound⟩

theorem balanced_of_scanAngle {depth : Nat} {t inner rest : Text}
    (h : scanAngle depth t = some (inner, rest)) :
    t = inner ++ '>' :: rest ∧ balanced depth inner = true := by
  fun_induction scanAngle depth t generalizing inner with
  | case1 => cases h
  | case2 depth t ih =>
    obtain ⟨inner', rfl, hscan⟩ := exists_of_map_cons h
    obtain ⟨rfl, hbal⟩ := ih hscan
    exact ⟨rfl, by simpa [balanced] using hbal⟩
  | case3 t _ =>
    obtain ⟨rfl, rfl⟩ := Prod.mk.inj (Option.some.inj h)
    exact ⟨rfl, rfl⟩
  | case4 t _ d ih =>
    obtain ⟨inner', rfl, hscan⟩ := exists_of_map_cons h
    obtain ⟨rfl, hbal⟩ := ih hscan
    exact ⟨rfl, by simpa [balanced] using hbal⟩
  | case5 => cases h
  | case6 depth c t hopen hclose hother ih =>
    obtain ⟨inner', rfl, hscan⟩ := exists_of_map_cons h
    obtain ⟨rfl, hbal⟩ := ih hscan
    exact ⟨rfl, by simpa [balanced, hopen, hclose, hother] using hbal⟩

/-- An argument list with its brackets, if there is one. -/
def bracketed : Option String → Text
  | none => []
  | some args => '<' :: args.toList ++ ['>']

/-- The brackets in an argument list are balanced, if there is one. -/
def ArgsBalanced (args? : Option String) : Prop := ∀ args ∈ args?, balanced 0 args.toList = true

theorem reads_eatAngle (c : Cursor) :
    c.Reads (bracketed (eatAngle c).1) (eatAngle c).2 ∧ ArgsBalanced (eatAngle c).1 := by
  have hnone : c.Reads (bracketed none) c ∧ ArgsBalanced none :=
    ⟨.refl c, fun _ h => by cases h⟩
  rw [eatAngle]
  split
  · exact hnone
  · rename_i d hd
    split
    · exact hnone
    · rename_i inner rest hscan
      obtain ⟨hrest, hbal⟩ := balanced_of_scanAngle hscan
      have hopen := Cursor.eat?_eq_some_iff.1 hd
      refine ⟨⟨?_, ?_⟩, ?_⟩
      · simp [bracketed, hopen.rest, hrest]
      · simp only [bracketed, hopen.offset, Text.byteLength_append, Text.byteLength_cons,
          Text.byteLength_nil, String.toList_ofList, List.cons_append]
        have : '>'.utf8Size = 1 := rfl
        omega
      · intro args hargs
        obtain rfl := Option.some.inj hargs
        simpa using hbal

end Token

/-- An identifier that is neither a decimal nor a hexadecimal literal. -/
structure Text.IsWord (t : Text) : Prop where
  ident : isIdent t = true
  not_decimal : ¬ ∀ ch ∈ t, isDigit ch = true
  not_hex : ∀ digits, t = "0x".toList ++ digits → digits ≠ [] → ¬ ∀ ch ∈ digits, isHexDigit ch = true

/-- The parts of a token have the form that its kind asks for. -/
def TokenKind.WellFormed : TokenKind → Prop
  | .call name args? | .codeSize name args? =>
    Text.isIdent name.toList = true ∧ Token.ArgsBalanced args?
  | .templateRef name | .tableSize name | .tableStart name | .label name =>
    Text.isIdent name.toList = true
  | .decimal digits => digits.toList ≠ [] ∧ ∀ ch ∈ digits.toList, Text.isDigit ch = true
  | .hex digits => digits.toList ≠ [] ∧ ∀ ch ∈ digits.toList, Text.isHexDigit ch = true
  | .word name => Text.IsWord name.toList

namespace Token

/-! ### Recognizers -/

/-- A token of the given kind is read between two cursors. -/
structure Recognized (c : Cursor) (kind : TokenKind) (d : Cursor) : Prop where
  reads : ∃ t, c.Reads t d
  wellFormed : kind.WellFormed

variable {c d : Cursor} {k : TokenKind}

theorem recognized_of_call? (h : call? c = some (k, d)) : Recognized c k d := by
  simp only [call?, Option.bind_eq_bind, Option.bind_eq_some_iff] at h
  obtain ⟨⟨name, c₁⟩, h₁, c₂, h₂, c₃, h₃, h₄⟩ := h
  obtain ⟨rfl, rfl⟩ := Prod.mk.inj (Option.some.inj h₄)
  obtain ⟨hname, hident, -⟩ := Cursor.eatIdent?_eq_some_iff.1 h₁
  obtain ⟨hargs, hbal⟩ := reads_eatAngle c₁
  obtain ⟨b₁, hb₁, -⟩ := Cursor.exists_reads_skipBlank (eatAngle c₁).2
  obtain ⟨b₂, hb₂, -⟩ := Cursor.exists_reads_skipBlank c₂
  have hopen := Cursor.eat?_eq_some_iff.1 h₂
  have hclose := Cursor.eat?_eq_some_iff.1 h₃
  exact ⟨⟨_, ((((hname.trans hargs).trans hb₁).trans hopen).trans hb₂).trans hclose⟩,
    by simpa using hident, hbal⟩

theorem recognized_of_templateRef? (h : templateRef? c = some (k, d)) : Recognized c k d := by
  simp only [templateRef?, Option.bind_eq_bind, Option.bind_eq_some_iff] at h
  obtain ⟨c₁, h₁, ⟨name, c₂⟩, h₂, c₃, h₃, h₄⟩ := h
  obtain ⟨rfl, rfl⟩ := Prod.mk.inj (Option.some.inj h₄)
  obtain ⟨b₁, hb₁, -⟩ := Cursor.exists_reads_skipBlank c₁
  obtain ⟨b₂, hb₂, -⟩ := Cursor.exists_reads_skipBlank c₂
  have hopen := Cursor.eat?_eq_some_iff.1 h₁
  obtain ⟨hname, hident, -⟩ := Cursor.eatIdent?_eq_some_iff.1 h₂
  have hclose := Cursor.eat?_eq_some_iff.1 h₃
  refine ⟨⟨_, (((hopen.trans hb₁).trans hname).trans hb₂).trans hclose⟩, ?_⟩
  simpa [TokenKind.WellFormed] using hident

theorem recognized_of_codeSize? (h : codeSize? c = some (k, d)) : Recognized c k d := by
  simp only [codeSize?, Option.bind_eq_bind, Option.bind_eq_some_iff] at h
  obtain ⟨c₁, h₁, ⟨name, c₂⟩, h₂, c₃, h₃, h₄⟩ := h
  obtain ⟨rfl, rfl⟩ := Prod.mk.inj (Option.some.inj h₄)
  obtain ⟨hargs, hbal⟩ := reads_eatAngle c₂
  obtain ⟨b₁, hb₁, -⟩ := Cursor.exists_reads_skipBlank c₁
  obtain ⟨b₂, hb₂, -⟩ := Cursor.exists_reads_skipBlank (eatAngle c₂).2
  have hopen := Cursor.eatText?_eq_some_iff.1 h₁
  obtain ⟨hname, hident, -⟩ := Cursor.eatIdent?_eq_some_iff.1 h₂
  have hclose := Cursor.eat?_eq_some_iff.1 h₃
  exact ⟨⟨_, ((((hopen.trans hb₁).trans hname).trans hargs).trans hb₂).trans hclose⟩,
    by simpa using hident, hbal⟩

theorem reads_of_named? {opening : Text} {name : String} (h : named? opening c = some (name, d)) :
    (∃ t, c.Reads t d) ∧ Text.isIdent name.toList = true := by
  simp only [named?, Option.bind_eq_bind, Option.bind_eq_some_iff] at h
  obtain ⟨c₁, h₁, ⟨name, c₂⟩, h₂, c₃, h₃, h₄⟩ := h
  obtain ⟨rfl, rfl⟩ := Prod.mk.inj (Option.some.inj h₄)
  obtain ⟨b₁, hb₁, -⟩ := Cursor.exists_reads_skipBlank c₁
  obtain ⟨b₂, hb₂, -⟩ := Cursor.exists_reads_skipBlank c₂
  have hopen := Cursor.eatText?_eq_some_iff.1 h₁
  obtain ⟨hname, hident, -⟩ := Cursor.eatIdent?_eq_some_iff.1 h₂
  have hclose := Cursor.eat?_eq_some_iff.1 h₃
  exact ⟨⟨_, (((hopen.trans hb₁).trans hname).trans hb₂).trans hclose⟩, by simpa using hident⟩

theorem recognized_of_label? (h : label? c = some (k, d)) : Recognized c k d := by
  simp only [label?, Option.bind_eq_bind, Option.bind_eq_some_iff] at h
  obtain ⟨⟨name, c₁⟩, h₁, c₂, h₂, h₃⟩ := h
  obtain ⟨rfl, rfl⟩ := Prod.mk.inj (Option.some.inj h₃)
  obtain ⟨hname, hident, -⟩ := Cursor.eatIdent?_eq_some_iff.1 h₁
  have hcolon := Cursor.eat?_eq_some_iff.1 h₂
  refine ⟨⟨_, hname.trans hcolon⟩, ?_⟩
  simpa [TokenKind.WellFormed] using hident

/-- A literal is a run of digits with no identifier character behind it. -/
theorem literal_eq_some_iff {p : Char → Bool} (f : Text → TokenKind)
    (hp : ∀ ch, p ch = true → Text.isIdentChar ch = true) :
    (if (c.eatWhile p).1.isEmpty || (c.eatWhile p).2.check Text.isIdentChar then none
      else some (f (c.eatWhile p).1, (c.eatWhile p).2)) = some (k, d) ↔
    ∃ digits : Text, k = f digits ∧ c.Reads digits d ∧ digits ≠ [] ∧
      (∀ ch ∈ digits, p ch = true) ∧ d.check Text.isIdentChar = false := by
  constructor
  · intro h
    split at h
    · cases h
    · rename_i hne
      obtain ⟨hread, hall, -⟩ := Cursor.eatWhile_eq_iff.1 (rfl : c.eatWhile p = _)
      obtain ⟨rfl, rfl⟩ := Prod.mk.inj (Option.some.inj h)
      simp only [Bool.or_eq_true, not_or, Bool.not_eq_true] at hne
      exact ⟨_, rfl, hread, by simpa using hne.1, hall, hne.2⟩
  · rintro ⟨digits, rfl, hread, hne, hall, hstop⟩
    have hend : d.check p = false := by
      rw [Cursor.check_eq_false_iff] at hstop ⊢
      intro ch hch
      have := hstop ch hch
      cases hpch : p ch with
      | false => rfl
      | true => simp [hp ch hpch] at this
    rw [Cursor.eatWhile_eq_iff.2 ⟨hread, hall, hend⟩]
    simp [hne, hstop]

theorem isIdentChar_of_isDigit {ch : Char} (h : Text.isDigit ch = true) :
    Text.isIdentChar ch = true :=
  Text.isIdentChar_iff.2 (.inl (.inr h))

theorem isIdentChar_of_isHexDigit {ch : Char} (h : Text.isHexDigit ch = true) :
    Text.isIdentChar ch = true := by
  simp only [Text.isHexDigit, Bool.or_eq_true, Bool.and_eq_true, decide_eq_true_eq] at h
  refine Text.isIdentChar_iff.2 ?_
  obtain (h | ⟨ha, hf⟩) | ⟨ha, hf⟩ := h
  · exact .inl (.inr h)
  · exact .inl (.inl (.inr ⟨ha, Char.le_trans hf (by decide)⟩))
  · exact .inl (.inl (.inl ⟨ha, Char.le_trans hf (by decide)⟩))

theorem decimal?_eq_some_iff :
    decimal? c = some (k, d) ↔ ∃ digits : Text, k = .decimal (String.ofList digits) ∧
      c.Reads digits d ∧ digits ≠ [] ∧ (∀ ch ∈ digits, Text.isDigit ch = true) ∧
      d.check Text.isIdentChar = false :=
  literal_eq_some_iff (fun digits => .decimal (String.ofList digits))
    (@isIdentChar_of_isDigit)

theorem hex?_eq_some_iff :
    hex? c = some (k, d) ↔ ∃ digits : Text, k = .hex (String.ofList digits) ∧
      c.Reads ("0x".toList ++ digits) d ∧ digits ≠ [] ∧
      (∀ ch ∈ digits, Text.isHexDigit ch = true) ∧ d.check Text.isIdentChar = false := by
  have hrun := fun e => literal_eq_some_iff (c := e) (d := d) (k := k)
    (fun digits => .hex (String.ofList digits)) (@isIdentChar_of_isHexDigit)
  simp only [hex?, Option.bind_eq_bind, Option.bind_eq_some_iff, Cursor.eatText?_eq_some_iff,
    Cursor.Reads.append_iff]
  constructor
  · rintro ⟨e, he, h⟩
    obtain ⟨digits, hk, hread, hrest⟩ := (hrun e).1 h
    exact ⟨digits, hk, ⟨e, he, hread⟩, hrest⟩
  · rintro ⟨digits, hk, ⟨e, he, hread⟩, hrest⟩
    exact ⟨e, he, (hrun e).2 ⟨digits, hk, hread, hrest⟩⟩

/-- What is read as a word is no literal. -/
theorem recognized_of_word? (hdecimal : decimal? c = none) (hhex : hex? c = none)
    (h : word? c = some (k, d)) : Recognized c k d := by
  obtain ⟨⟨name, e⟩, he, hk⟩ := Option.map_eq_some_iff.1 h
  obtain ⟨rfl, rfl⟩ := Prod.mk.inj hk
  obtain ⟨hread, hident, hstop⟩ := Cursor.eatIdent?_eq_some_iff.1 he
  refine ⟨⟨name, hread⟩, ?_⟩
  rw [TokenKind.WellFormed, String.toList_ofList]
  refine ⟨hident, ?_, ?_⟩
  · intro hall
    have hne := (Text.isIdent_iff.1 hident).1
    simp [decimal?_eq_some_iff.2 ⟨name, rfl, hread, hne, hall, hstop⟩] at hdecimal
  · rintro digits rfl hne hall
    simp [hex?_eq_some_iff.2 ⟨digits, rfl, hread, hne, hall, hstop⟩] at hhex

/-- Every recognizer reads a token of the form that its kind asks for. -/
theorem recognized_of_kind? (h : kind? c = some (k, d)) : Recognized c k d := by
  simp only [kind?, Option.orElse_eq_orElse, Option.orElse_eq_or, Option.or_eq_some_iff] at h
  rcases h with h | ⟨-, h | ⟨-, h | ⟨-, h | ⟨-, h | ⟨-, h | ⟨-, h | ⟨hdecimal, h | ⟨hhex, h⟩⟩⟩⟩⟩⟩⟩⟩
  · exact recognized_of_call? h
  · exact recognized_of_templateRef? h
  · exact recognized_of_codeSize? h
  · obtain ⟨⟨name, e⟩, he, hk⟩ := Option.map_eq_some_iff.1 h
    obtain ⟨rfl, rfl⟩ := Prod.mk.inj hk
    exact ⟨(reads_of_named? he).1, (reads_of_named? he).2⟩
  · obtain ⟨⟨name, e⟩, he, hk⟩ := Option.map_eq_some_iff.1 h
    obtain ⟨rfl, rfl⟩ := Prod.mk.inj hk
    exact ⟨(reads_of_named? he).1, (reads_of_named? he).2⟩
  · exact recognized_of_label? h
  · obtain ⟨digits, rfl, hread, hne, hall, -⟩ := decimal?_eq_some_iff.1 h
    exact ⟨⟨digits, hread⟩, by simpa using hne, by simpa using hall⟩
  · obtain ⟨digits, rfl, hread, hne, hall, -⟩ := hex?_eq_some_iff.1 h
    exact ⟨⟨_, hread⟩, by simpa using hne, by simpa using hall⟩
  · exact recognized_of_word? hdecimal hhex h

/-- A token keeps the text that was read for it, and where that text starts. -/
structure ReadAt (c : Cursor) (t : Token) (d : Cursor) : Prop where
  reads : c.Reads t.lexeme d
  start : t.start = c.offset
  wellFormed : t.kind.WellFormed

theorem readAt_of_token? {t : Token} (h : token? c = some (t, d)) : ReadAt c t d := by
  obtain ⟨⟨k, e⟩, he, ht⟩ := Option.map_eq_some_iff.1 h
  obtain ⟨rfl, rfl⟩ := Prod.mk.inj ht
  obtain ⟨⟨s, hs⟩, hk⟩ := recognized_of_kind? he
  exact ⟨by simpa [hs.upTo] using hs, rfl, hk⟩

/-! ### Tokens of a window -/

/-- The tokens of a window are read at places of the window that are not blank. -/
theorem exists_token?_of_mem_lex {t : Token} (h : t ∈ (lex c).1) :
    ∃ s e d, c.Reads s e ∧ e.check Text.isBlank = false ∧ token? e = some (t, d) := by
  fun_induction lex c with
  | case1 => simp at h
  | case2 => simp at h
  | case3 c e hne u d hu hlt ts err hlex ih =>
    obtain ⟨b, hb, -, hstop⟩ := Cursor.skipBlank_eq_iff.1 (rfl : c.skipBlank = e)
    obtain rfl | h := List.mem_cons.1 h
    · exact ⟨b, e, d, hb, hstop, hu⟩
    · obtain ⟨s, e', d', hs, hstop', ht⟩ := ih (by simpa [hlex] using h)
      exact ⟨_, e', d', (hb.trans (readAt_of_token? hu).reads).trans hs, hstop', ht⟩

theorem wellFormed_of_mem_lex {t : Token} (h : t ∈ (lex c).1) : t.kind.WellFormed := by
  obtain ⟨s, e, d, -, -, ht⟩ := exists_token?_of_mem_lex h
  exact (readAt_of_token? ht).wellFormed

theorem offset_lt_of_token? {t : Token} (h : token? c = some (t, d)) : c.offset < d.offset :=
  (readAt_of_token? h).reads.offset_lt (token?_rest_lt h)

/-- Tokens start inside the window. -/
theorem start_of_mem_lex {t : Token} (h : t ∈ (lex c).1) :
    c.offset ≤ t.start ∧ t.start < c.offset + Text.byteLength c.rest := by
  obtain ⟨s, e, d, hread, -, ht⟩ := exists_token?_of_mem_lex h
  have hlt := offset_lt_of_token? ht
  have hend := (readAt_of_token? ht).reads.offset_add_byteLength
  rw [(readAt_of_token? ht).start, ← hread.offset_add_byteLength]
  exact ⟨hread.offset_le, by omega⟩

/-- Each token starts behind the ones before it. -/
theorem pairwise_start_lex (c : Cursor) :
    ((lex c).1.map Token.start).Pairwise (· < ·) := by
  fun_induction lex c with
  | case1 => exact .nil
  | case2 => exact .nil
  | case3 c e hne u d hu hlt ts err hlex ih =>
    rw [hlex] at ih
    refine .cons ?_ ih
    intro n hn
    obtain ⟨t, ht, rfl⟩ := List.mem_map.1 hn
    have hmem : t ∈ (lex d).1 := by simpa [hlex] using ht
    rw [(readAt_of_token? hu).start]
    exact Nat.lt_of_lt_of_le (offset_lt_of_token? hu) (start_of_mem_lex hmem).1

end Token

/-! ### Operations of a body -/

namespace Body

theorem exists_token_of_ofTokens {r : Registry} {labels : List String} {ts : List Token}
    {u : Option Unrecognized} {ops : List Operation} (h : ofTokens r labels ts u = .ok ops) :
    ∀ op ∈ ops, ∃ labels' t, t ∈ ts ∧ operation r labels' t = .ok op.kind ∧ op.source = t.start := by
  fun_induction ofTokens r labels ts u generalizing ops with
  | case1 =>
    obtain rfl := Except.ok.inj h
    simp
  | case2 => cases h
  | case3 => cases h
  | case4 => cases h
  | case5 labels t ts u kind hkind rest hrest ih =>
    obtain rfl := Except.ok.inj h
    intro op hop
    obtain rfl | hop := List.mem_cons.1 hop
    · exact ⟨labels, t, by simp, hkind, rfl⟩
    · obtain ⟨labels', t', ht', hop'⟩ := ih hrest op hop
      exact ⟨labels', t', by simp [ht'], hop'⟩

theorem sources_of_ofTokens {r : Registry} {labels : List String} {ts : List Token}
    {u : Option Unrecognized} {ops : List Operation} (h : ofTokens r labels ts u = .ok ops) :
    ops.map Operation.source = ts.map Token.start := by
  fun_induction ofTokens r labels ts u generalizing ops with
  | case1 =>
    obtain rfl := Except.ok.inj h
    rfl
  | case2 => cases h
  | case3 => cases h
  | case4 => cases h
  | case5 labels t ts u kind hkind rest hrest ih =>
    obtain rfl := Except.ok.inj h
    rw [List.map_cons, List.map_cons, ih hrest]

/-- Operations come from places of the window, each behind the ones before it. -/
theorem sources_of_parse {r : Registry} {window : Cursor} {ops : List Operation}
    (h : parse r window = .ok ops) :
    (ops.map Operation.source).Pairwise (· < ·) ∧
      ∀ op ∈ ops, window.offset ≤ op.source ∧
        op.source < window.offset + Text.byteLength window.rest := by
  have hsources := sources_of_ofTokens h
  constructor
  · rw [hsources]
    exact Token.pairwise_start_lex window
  · intro op hop
    have hmem := List.mem_map_of_mem (f := Operation.source) hop
    rw [hsources] at hmem
    obtain ⟨t, ht, hstart⟩ := List.mem_map.1 hmem
    rw [← hstart]
    exact Token.start_of_mem_lex ht

/-- Every operation of a body is what a token stands for that is read at a place
of the window. -/
theorem exists_token_of_parse {r : Registry} {window : Cursor} {ops : List Operation}
    (h : parse r window = .ok ops) {op : Operation} (hop : op ∈ ops) :
    ∃ labels t s e d, window.Reads s e ∧ e.check Text.isBlank = false ∧ e.offset = op.source ∧
      Token.token? e = some (t, d) ∧ operation r labels t = .ok op.kind := by
  obtain ⟨labels, t, ht, hkind, hsource⟩ := exists_token_of_ofTokens h op hop
  obtain ⟨s, e, d, hread, hstop, htoken⟩ := Token.exists_token?_of_mem_lex ht
  refine ⟨labels, t, s, e, d, hread, hstop, ?_, htoken, hkind⟩
  rw [hsource, (Token.readAt_of_token? htoken).start]

end Body

end MacroAssembler
