/-
MacroAssembler/Proofs/LiteralReaders.lean

The readers of number literals.

Four places decide whether a text is a number: the body reader when it cuts tokens,
the test for arithmetic in template arguments, the reader of numerals, and the
evaluator of operands.  They are compared with one description of literals,
`Text.IsLiteral`: decimal digits, or hexadecimal ones behind `0x`.

The body reader and the test take exactly the literals (`lex_number_iff`,
`Argument.isLiteral_iff`).  The reader of numerals takes underscores between
hexadecimal digits as well, and takes no more than that
(`Numeral.isSome_parse?_iff`).  The evaluator follows it, because it asks for a
numeral before it looks for a macro.  So a text with an underscore can be a jump
label on its own and a number in a sum (`underscored_label_and_number`).

Main result: `Template.literal_readers`.
-/
import MacroAssembler.Proofs.Decoding
import MacroAssembler.Proofs.ExpressionValues
import MacroAssembler.Proofs.WellFormedness

namespace MacroAssembler

open Text

variable {t : Text}

/-! ### Literals with and without a mark -/

namespace Text

theorem isLiteral_marked {digits : Text} :
    IsLiteral ('0' :: 'x' :: digits) ↔ digits ≠ [] ∧ ∀ ch ∈ digits, isHexDigit ch = true := by
  constructor
  · rintro (⟨-, hdigits⟩ | ⟨digits', heq, h⟩)
    · exact absurd (hdigits 'x' (by simp)) (by decide)
    · obtain rfl : digits = digits' := by simpa using heq
      exact h
  · intro h
    exact .inr ⟨digits, rfl, h⟩

theorem isLiteral_unmarked (hmark : ∀ digits, t = '0' :: 'x' :: digits → False) :
    IsLiteral t ↔ t ≠ [] ∧ ∀ ch ∈ t, isDigit ch = true := by
  refine or_iff_left ?_
  rintro ⟨digits, ht, -⟩
  exact hmark digits ht

theorem IsLiteral.underscore_not_mem (h : IsLiteral t) : '_' ∉ t := by
  obtain ⟨-, hdigits⟩ | ⟨digits, rfl, -, hdigits⟩ := h
  · exact fun hmem => absurd (hdigits '_' hmem) (by decide)
  · intro hmem
    exact absurd (hdigits '_' (by simpa using hmem)) (by decide)

end Text

/-! ### The reader of numerals -/

namespace Numeral

theorem isSome_hexValue?_iff {ch : Char} : (hexValue? ch).isSome = true ↔ isHexDigit ch = true := by
  simp only [hexValue?, isHexDigit, Bool.or_eq_true, Bool.and_eq_true, decide_eq_true_eq]
  split_ifs <;> simp_all

theorem isSome_mapM_hexValue?_iff :
    (t.mapM hexValue?).isSome = true ↔ ∀ ch ∈ t, isHexDigit ch = true := by
  induction t with
  | nil => simp
  | cons ch t ih =>
    rw [List.forall_mem_cons, ← ih, ← isSome_hexValue?_iff, List.mapM_cons]
    rcases hexValue? ch with - | n
    · simp
    · rcases t.mapM hexValue? with - | ns <;> simp

theorem isSome_decimal?_iff :
    (decimal? t).isSome = true ↔ t ≠ [] ∧ ∀ ch ∈ t, isDigit ch = true := by
  rw [decimal?]
  by_cases h : (t.isEmpty || !t.all isDigit) = true
  · rw [if_pos h]
    simpa [or_iff_not_imp_left] using h
  · rw [if_neg h]
    simpa using h

theorem parse?_unmarked (hmark : ∀ digits, t = '0' :: 'x' :: digits → False) :
    parse? t = decimal? t :=
  parse?.eq_2 t hmark

/-- **What the reader of numerals takes beside literals** has an underscore in it. -/
theorem isSome_parse?_iff (hplus : '+' ∉ t) (hunderscore : '_' ∉ t) :
    (parse? t).isSome = true ↔ IsLiteral t := by
  by_cases hmark : ∃ digits, t = '0' :: 'x' :: digits
  · obtain ⟨digits, rfl⟩ := hmark
    rw [parse?, isLiteral_marked]
    by_cases hne : digits = []
    · simp [hne, hex?, dropPlus]
    · rw [hex?_of_not_mem hne (by simp_all) (by simp_all), Option.isSome_map,
        isSome_mapM_hexValue?_iff, and_iff_right hne]
  · rw [not_exists] at hmark
    rw [parse?_unmarked hmark, isLiteral_unmarked hmark, isSome_decimal?_iff]

end Numeral

/-! ### The test for arithmetic -/

namespace Argument

/-- Without operators, the test takes literals. -/
theorem isLiteral_iff (htrim : trim t = t) (hop : ∀ ch ∈ t, isOperator ch = false) :
    isLiteral t = true ↔ IsLiteral t := by
  have hany : t.any isOperator = false := by simpa using hop
  simp only [isLiteral, htrim, hany, Bool.false_or]
  split
  · simp [isLiteral_marked]
  · next hmark => simp [isLiteral_unmarked hmark]

end Argument

/-! ### The body reader -/

namespace Token

variable {c d : Cursor} {k : TokenKind}

/-- A single token: it is read at the first character that is not blank, and blanks
follow. -/
theorem exists_of_lex_eq_singleton {tok : Token} (h : lex c = ([tok], none)) :
    ∃ d, token? c.skipBlank = some (tok, d) ∧ ∀ ch ∈ d.rest, isBlank ch = true := by
  rw [lex] at h
  split at h
  · cases h
  · split at h
    · cases h
    · next u d hu =>
      obtain ⟨htoks, hnone⟩ := Prod.mk.inj h
      obtain ⟨rfl, hnil⟩ := List.cons.inj htoks
      refine ⟨d, hu, ?_⟩
      have hend : d.skipBlank.rest = [] := by
        rw [lex] at hnil hnone
        split at hnil
        · next heof => simpa [Cursor.isEof] using heof
        · next heof =>
          rw [if_neg heof] at hnone
          split at hnil
          · next hstop =>
            split at hnone
            · cases hnone
            · next hu' => simp [hstop] at hu'
          · cases hnil
      obtain ⟨b, hread, hb⟩ := Cursor.exists_reads_skipBlank d
      rwa [hread.rest, hend, List.append_nil]

/-- A number is read by the recognizer of its notation. -/
theorem literal_of_kind? (h : kind? c = some (k, d))
    (hk : (∃ digits, k = .decimal digits) ∨ ∃ digits, k = .hex digits) :
    decimal? c = some (k, d) ∨ hex? c = some (k, d) := by
  -- every other recognizer makes a token of its own kind
  have hother : ∀ {k' : TokenKind}, k' = k → (∀ digits, k' ≠ .decimal digits) →
      (∀ digits, k' ≠ .hex digits) → False := by
    rintro k' rfl hdecimal hhex
    obtain ⟨digits, rfl⟩ | ⟨digits, rfl⟩ := hk
    · exact hdecimal digits rfl
    · exact hhex digits rfl
  simp only [kind?_eq_or, Option.or_eq_some_iff] at h
  rcases h with h | ⟨-, h | ⟨-, h | ⟨-, h | ⟨-, h | ⟨-, h | ⟨-, h | ⟨-, h | ⟨-, h⟩⟩⟩⟩⟩⟩⟩⟩
  · simp only [call?, Option.bind_eq_bind, Option.bind_eq_some_iff] at h
    obtain ⟨_, _, _, _, _, _, h⟩ := h
    exact (hother (Prod.mk.inj (Option.some.inj h)).1 (by simp) (by simp)).elim
  · simp only [templateRef?, Option.bind_eq_bind, Option.bind_eq_some_iff] at h
    obtain ⟨_, _, _, _, _, _, h⟩ := h
    exact (hother (Prod.mk.inj (Option.some.inj h)).1 (by simp) (by simp)).elim
  · simp only [codeSize?, Option.bind_eq_bind, Option.bind_eq_some_iff] at h
    obtain ⟨_, _, _, _, _, _, h⟩ := h
    exact (hother (Prod.mk.inj (Option.some.inj h)).1 (by simp) (by simp)).elim
  · obtain ⟨_, _, h⟩ := Option.map_eq_some_iff.1 h
    exact (hother (Prod.mk.inj h).1 (by simp) (by simp)).elim
  · obtain ⟨_, _, h⟩ := Option.map_eq_some_iff.1 h
    exact (hother (Prod.mk.inj h).1 (by simp) (by simp)).elim
  · simp only [label?, Option.bind_eq_bind, Option.bind_eq_some_iff] at h
    obtain ⟨_, _, _, _, h⟩ := h
    exact (hother (Prod.mk.inj (Option.some.inj h)).1 (by simp) (by simp)).elim
  · exact .inl h
  · exact .inr h
  · obtain ⟨_, _, h⟩ := Option.map_eq_some_iff.1 h
    exact (hother (Prod.mk.inj h).1 (by simp) (by simp)).elim

/-- The token that a literal is. -/
theorem exists_lex_of_isLiteral (h : IsLiteral t) :
    ∃ k : TokenKind, lex (.ofText t) = ([⟨k, t, 0⟩], none) ∧
      ((k = .decimal (String.ofList t) ∧ t ≠ [] ∧ ∀ ch ∈ t, isDigit ch = true) ∨
        ∃ digits, t = '0' :: 'x' :: digits ∧ k = .hex (String.ofList digits)) := by
  obtain ⟨hne, hdigits⟩ | ⟨digits, rfl, hne, hdigits⟩ := h
  · have hwell : (TokenKind.decimal (String.ofList t)).WellFormed :=
      ⟨by simpa using hne, by simpa using hdigits⟩
    have hrender : (TokenKind.decimal (String.ofList t)).render = t := String.toList_ofList
    have hlex := lex_render hwell
    rw [hrender] at hlex
    exact ⟨_, hlex, .inl ⟨rfl, hne, hdigits⟩⟩
  · have hwell : (TokenKind.hex (String.ofList digits)).WellFormed :=
      ⟨by simpa using hne, by simpa using hdigits⟩
    have hrender : (TokenKind.hex (String.ofList digits)).render = '0' :: 'x' :: digits := by
      show ['0', 'x'] ++ (String.ofList digits).toList = _
      rw [String.toList_ofList]
      rfl
    have hlex := lex_render hwell
    rw [hrender] at hlex
    exact ⟨_, hlex, .inr ⟨digits, rfl, rfl⟩⟩

/-- **The body reader takes exactly the literals as numbers.** -/
theorem lex_number_iff (htrim : trim t = t) :
    (∃ tok, lex (.ofText t) = ([tok], none) ∧
        ((∃ digits, tok.kind = .decimal digits) ∨ ∃ digits, tok.kind = .hex digits)) ↔
      IsLiteral t := by
  constructor
  · rintro ⟨tok, hlex, hnumber⟩
    obtain ⟨hfirst, hlast⟩ := trim_eq_self_iff.1 htrim
    obtain ⟨d, htoken, hblank⟩ := exists_of_lex_eq_singleton hlex
    rw [Cursor.skipBlank_of_check (Cursor.check_eq_false_iff.2 hfirst)] at htoken
    -- a trimmed text has no blanks behind its token
    have hwhole : ∀ {s : Text}, (Cursor.ofText t).Reads s d → t = s := by
      intro s hread
      have ht : t = s ++ d.rest := hread.rest
      rcases d.rest.eq_nil_or_concat' with hnil | ⟨b, ch, hconcat⟩
      · rw [ht, hnil, List.append_nil]
      · have hch := hlast ch (by rw [ht, hconcat]; simp)
        rw [hblank ch (by rw [hconcat]; simp)] at hch
        cases hch
    obtain ⟨⟨k, e⟩, hkind, htok⟩ := Option.map_eq_some_iff.1 htoken
    obtain ⟨rfl, rfl⟩ := Prod.mk.inj htok
    obtain h | h := literal_of_kind? hkind hnumber
    · obtain ⟨digits, -, hread, hne, hdigits, -⟩ := decimal?_eq_some_iff.1 h
      rw [hwhole hread]
      exact .inl ⟨hne, hdigits⟩
    · obtain ⟨digits, -, hread, hne, hdigits, -⟩ := hex?_eq_some_iff.1 h
      rw [hwhole hread]
      exact .inr ⟨digits, rfl, hne, hdigits⟩
  · intro h
    obtain ⟨k, hlex, ⟨rfl, -⟩ | ⟨digits, -, rfl⟩⟩ := exists_lex_of_isLiteral h
    · exact ⟨_, hlex, .inl ⟨_, rfl⟩⟩
    · exact ⟨_, hlex, .inr ⟨_, rfl⟩⟩

end Token

namespace Body

/-- A literal in a body is a push of the number that it denotes, if there is one. -/
theorem parse_of_isLiteral (h : IsLiteral t) {n : Nat} (hn : Numeral.parse? t = some n)
    (r : Registry) (ops : List Operation) :
    parse r (.ofText t) = .ok ops ↔ ∃ p, Push.encode n = .ok p ∧ ops = [⟨.push p, 0⟩] := by
  obtain ⟨k, hlex, hk⟩ := Token.exists_lex_of_isLiteral h
  have hop : operation r [] ⟨k, t, 0⟩ = pushOf t n := by
    obtain ⟨rfl, -, hdigits⟩ | ⟨digits, rfl, rfl⟩ := hk
    · have hmark : ∀ digits, t = '0' :: 'x' :: digits → False := by
        rintro digits rfl
        exact absurd (hdigits 'x' (by simp)) (by decide)
      rw [Numeral.parse?_unmarked hmark] at hn
      simp [operation, hn]
    · have hhex : Numeral.hex? digits = some n := hn
      simp [operation, hhex]
  simp only [parse, hlex, ofTokens, hop, pushOf]
  rcases Push.encode n with e | p
  · simp
  · simp [eq_comm]

end Body

/-! ### Operands -/

namespace Template

open Argument

theorem sign_not_mem (hop : ∀ ch ∈ t, isOperator ch = false) (op : Operator) : op.sign ∉ t := by
  intro hmem
  have hsign := hop _ hmem
  cases op <;> cases hsign

/-- Without operators there is one operand. -/
theorem evaluate_of_forall (hop : ∀ ch ∈ t, isOperator ch = false) (r : Registry) :
    evaluate r t = operand r t := by
  refine evaluate_of_first?_eq_none (List.find?_eq_none.2 fun op _ => ?_)
  simpa using sign_not_mem hop op

/-- A sum of an operand and zero. -/
def plusZero (t : Text) : Text := t ++ ['+', '0']

theorem trim_plusZero (htrim : trim t = t) : trim (plusZero t) = plusZero t := by
  obtain ⟨hfirst, -⟩ := trim_eq_self_iff.1 htrim
  refine trim_eq_self_iff.2 ⟨fun ch hch => ?_, fun ch hch => ?_⟩
  · cases t with
    | nil =>
      obtain rfl : '+' = ch := by simpa [plusZero] using hch
      rfl
    | cons x t => exact hfirst ch (by simpa [plusZero] using hch)
  · obtain rfl : '0' = ch := by simpa [plusZero] using hch
    rfl

/-- Adding zero evaluates the operand. -/
theorem evaluate_plusZero (hop : ∀ ch ∈ t, isOperator ch = false) (r : Registry) :
    evaluate r (plusZero t) = operand r t := by
  have hfirst : Operator.first? (plusZero t) = some .plus := by
    have hminus : '-' ∉ t := sign_not_mem hop .minus
    simp [Operator.first?, Operator.ranked, Operator.sign, plusZero, hminus]
  have hparts : splitOn Operator.plus.sign (plusZero t) = [t, ['0']] :=
    splitOn_append (sign_not_mem hop .plus) ['0']
  have hzero : evaluate r ['0'] = .ok 0 := by
    have hdigit : ∀ ch ∈ ['0'], isOperator ch = false := by
      intro ch hch
      obtain rfl := List.mem_singleton.1 hch
      rfl
    have hparse : Numeral.parse? (trim ['0']) = some 0 := by decide
    rw [evaluate_of_forall hdigit]
    simp [operand, hparse]
  rw [evaluate_of_first? hfirst, hparts, combine, evaluate_of_forall hop]
  rcases operand r t with e | n
  · rfl
  · show (evaluate r ['0'] >>= fun k => .ok (n + k)) >>= pure = _
    rw [hzero]
    rfl

/-- An operand that names no macro is a numeral. -/
theorem operand_eq_ok_iff {r : Registry} (htrim : trim t = t)
    (hr : r.hasMacro (String.ofList t) = false) {n : Nat} :
    operand r t = .ok n ↔ Numeral.parse? t = some n := by
  have hnone : r.getMacro? (String.ofList t) = none := by
    simpa [Registry.hasMacro] using hr
  simp only [operand, htrim, hnone]
  rcases Numeral.parse? t with - | k <;> simp

theorem operand_of_parse? (htrim : trim t = t) {n : Nat} (h : Numeral.parse? t = some n)
    (r : Registry) : operand r t = .ok n := by
  simp only [operand, htrim, h]

/-- **The readers of literals.**  For a trimmed text without operators, the test for
arithmetic and the body reader agree, and the reader of numerals agrees with them
unless there is an underscore.  A literal has one value, for all of them.  Without a
macro of that name, the text is pushed exactly if its sum with zero is and there is no
underscore, and then both push the same. -/
theorem literal_readers (htrim : trim t = t) (hop : ∀ ch ∈ t, isOperator ch = false) :
    (isLiteral t = true ↔ ∃ tok, Token.lex (.ofText t) = ([tok], none) ∧
      ((∃ digits, tok.kind = .decimal digits) ∨ ∃ digits, tok.kind = .hex digits)) ∧
    (isLiteral t = true ↔ (Numeral.parse? t).isSome = true ∧ '_' ∉ t) ∧
    (isLiteral t = true → ∃ n, Numeral.parse? t = some n ∧ ∀ r, evaluate r t = .ok n ∧
      ∀ ops, Body.parse r (.ofText t) = .ok ops ↔
        ∃ p, Push.encode n = .ok p ∧ p.value = n ∧ ops = [⟨.push p, 0⟩]) ∧
    ∀ r source, r.hasMacro (String.ofList t) = false → ∀ p,
      (resolve r (String.ofList t) source = .ok (.push p) ↔
        resolve r (String.ofList (plusZero t)) source = .ok (.push p) ∧ '_' ∉ t) := by
  have hplus : '+' ∉ t := fun hmem => by cases hop _ hmem
  have hliteral := isLiteral_iff htrim hop
  have hnumeral : isLiteral t = true ↔ (Numeral.parse? t).isSome = true ∧ '_' ∉ t := by
    rw [hliteral]
    constructor
    · intro h
      have hnot := h.underscore_not_mem
      exact ⟨(Numeral.isSome_parse?_iff hplus hnot).2 h, hnot⟩
    · rintro ⟨hsome, hnot⟩
      exact (Numeral.isSome_parse?_iff hplus hnot).1 hsome
  refine ⟨hliteral.trans (Token.lex_number_iff htrim).symm, hnumeral, fun h => ?_, ?_⟩
  · obtain ⟨n, hn⟩ := Option.isSome_iff_exists.1 (hnumeral.1 h).1
    refine ⟨n, hn, fun r => ⟨?_, fun ops => ?_⟩⟩
    · rw [evaluate_of_forall hop, operand_of_parse? htrim hn]
    · rw [Body.parse_of_isLiteral (hliteral.1 h) hn]
      constructor
      · rintro ⟨p, hp, hops⟩
        exact ⟨p, hp, Push.value_of_encode hp, hops⟩
      · rintro ⟨p, hp, -, hops⟩
        exact ⟨p, hp, hops⟩
  · intro r source hr p
    have hsum : isLiteral (plusZero t) = true := by
      have hany : (plusZero t).any isOperator = true := by simp [plusZero, isOperator]
      simp only [isLiteral, trim_plusZero htrim, hany, Bool.true_or]
    rw [resolve_eq_push_iff, resolve_eq_push_iff, String.toList_ofList, String.toList_ofList,
      htrim, trim_plusZero htrim, evaluate_of_forall hop, evaluate_plusZero hop, hnumeral]
    simp only [operand_eq_ok_iff htrim hr, hsum, true_and]
    constructor
    · rintro ⟨⟨-, hnot⟩, hpush⟩
      exact ⟨hpush, hnot⟩
    · rintro ⟨⟨n, hn, hp⟩, hnot⟩
      exact ⟨⟨by rw [hn]; rfl, hnot⟩, n, hn, hp⟩

/-- Hexadecimal digits of both cases behind a zero. -/
theorem literal_readers_hexadecimal :
    trim "0x0aF".toList = "0x0aF".toList ∧
      (∀ ch ∈ "0x0aF".toList, isOperator ch = false) ∧
      isLiteral "0x0aF".toList = true ∧
      (∃ n, Numeral.parse? "0x0aF".toList = some n ∧
        ∀ r, evaluate r "0x0aF".toList = .ok n ∧
          ∀ ops, Body.parse r (.ofText "0x0aF".toList) = .ok ops ↔
            ∃ p, Push.encode n = .ok p ∧ p.value = n ∧ ops = [⟨.push p, 0⟩]) ∧
      (resolve {} (String.ofList "0x0aF".toList) 7 = .ok (.push ⟨[0xaf]⟩) ↔
        resolve {} (String.ofList (plusZero "0x0aF".toList)) 7 = .ok (.push ⟨[0xaf]⟩) ∧
          '_' ∉ "0x0aF".toList) := by
  have htrim : trim "0x0aF".toList = "0x0aF".toList := by decide +kernel
  have hop : ∀ ch ∈ "0x0aF".toList, isOperator ch = false := by simp [isOperator]
  have hlit : isLiteral "0x0aF".toList = true := by decide +kernel
  have hreaders := literal_readers htrim hop
  exact ⟨htrim, hop, hlit, hreaders.2.2.1 hlit, hreaders.2.2.2 {} 7 rfl ⟨[0xaf]⟩⟩

/-- Digits with an underscore between them: a word in a body and a jump label as an
argument, and yet a numeral, which is pushed when zero is added. -/
theorem underscored_label_and_number :
    trim "0x1_0".toList = "0x1_0".toList ∧
      (∀ ch ∈ "0x1_0".toList, isOperator ch = false) ∧
      isLiteral "0x1_0".toList = false ∧
      Token.lex (.ofText "0x1_0".toList) = ([⟨.word "0x1_0", "0x1_0".toList, 0⟩], none) ∧
      Numeral.parse? "0x1_0".toList = some 16 ∧
      resolve {} "0x1_0" 0 = .ok (.jumpRef "0x1_0") ∧
      resolve {} "0x1_0+0" 0 = .ok (.push ⟨[16]⟩) := by
  have hword : IsWord "0x1_0".toList := by
    refine ⟨by decide +kernel, fun h => absurd (h 'x' (by simp)) (by decide), ?_⟩
    intro digits heq _ h
    obtain rfl : ['1', '_', '0'] = digits := by simpa using heq
    exact absurd (h '_' (by simp)) (by decide)
  have hkind : (TokenKind.word "0x1_0").WellFormed := hword
  refine ⟨by decide +kernel, by simp [isOperator], by decide +kernel, Token.lex_render hkind,
    by decide +kernel, ?_, ?_⟩
  · decide +kernel
  · decide +kernel

end Template

end MacroAssembler
