/-
MacroAssembler/Token/Lexer.lean

Reading a macro body as tokens.

At each position the recognizers are tried in a fixed order, and the first one
that matches decides:

1. macro call `NAME()` or `NAME<args>()`
2. template reference `<param>`
3. `__codesize(NAME)` or `__codesize(NAME<args>)`
4. `__tablesize(TABLE)`
5. `__tablestart(TABLE)`
6. jump label `label:`
7. decimal literal
8. hexadecimal literal
9. word

A recognizer that fails has consumed nothing.  Each token takes at least one
character, so reading ends (`token?_rest_lt`).
-/
import MacroAssembler.Text.Cursor
import MacroAssembler.Token.Basic

namespace MacroAssembler.Token

/-! ### Argument brackets -/

/-- Scan the inside of an angle bracket at the given depth: the text up to the
bracket that closes the outermost one, and what follows it.  Parentheses and
braces may not occur inside. -/
def scanAngle : (depth : Nat) → Text → Option (Text × Text)
  | _, [] => none
  | depth, c :: t =>
    if c = '<' then (scanAngle (depth + 1) t).map fun (inner, rest) => (c :: inner, rest)
    else if c = '>' then
      match depth with
      | 0 => some ([], t)
      | d + 1 => (scanAngle d t).map fun (inner, rest) => (c :: inner, rest)
    else if c = '(' ∨ c = ')' ∨ c = '{' ∨ c = '}' then none
    else (scanAngle depth t).map fun (inner, rest) => (c :: inner, rest)

/-- Read an optional argument list in balanced angle brackets.  Without a
well-formed one the cursor stays where it is. -/
def eatAngle (c : Cursor) : Option String × Cursor :=
  match c.eat? '<' with
  | none => (none, c)
  | some d =>
    match scanAngle 0 d.rest with
    | none => (none, c)
    | some (inner, rest) =>
      (some (String.ofList inner), ⟨d.offset + Text.byteLength inner + 1, rest⟩)

/-! ### Recognizers -/

/-- `NAME()` or `NAME<args>()`. -/
def call? (c : Cursor) : Option (TokenKind × Cursor) := do
  let (name, c) ← c.eatIdent?
  let (args?, c) := eatAngle c
  let c ← c.skipBlank.eat? '('
  let c ← c.skipBlank.eat? ')'
  return (.call (String.ofList name) args?, c)

/-- `<param>` -/
def templateRef? (c : Cursor) : Option (TokenKind × Cursor) := do
  let c ← c.eat? '<'
  let (name, c) ← c.skipBlank.eatIdent?
  let c ← c.skipBlank.eat? '>'
  return (.templateRef (String.ofList name), c)

/-- `__codesize(NAME)` or `__codesize(NAME<args>)`. -/
def codeSize? (c : Cursor) : Option (TokenKind × Cursor) := do
  let c ← c.eatText? "__codesize(".toList
  let (name, c) ← c.skipBlank.eatIdent?
  let (args?, c) := eatAngle c
  let c ← c.skipBlank.eat? ')'
  return (.codeSize (String.ofList name) args?, c)

/-- The opening text of an operator, a name and a closing parenthesis. -/
def named? (opening : Text) (c : Cursor) : Option (String × Cursor) := do
  let c ← c.eatText? opening
  let (name, c) ← c.skipBlank.eatIdent?
  let c ← c.skipBlank.eat? ')'
  return (String.ofList name, c)

/-- `__tablesize(TABLE)` -/
def tableSize? (c : Cursor) : Option (TokenKind × Cursor) :=
  (named? "__tablesize(".toList c).map fun (name, c) => (.tableSize name, c)

/-- `__tablestart(TABLE)` -/
def tableStart? (c : Cursor) : Option (TokenKind × Cursor) :=
  (named? "__tablestart(".toList c).map fun (name, c) => (.tableStart name, c)

/-- `label:` -/
def label? (c : Cursor) : Option (TokenKind × Cursor) := do
  let (name, c) ← c.eatIdent?
  let c ← c.eat? ':'
  return (.label (String.ofList name), c)

/-- Decimal digits that no other identifier character follows. -/
def decimal? (c : Cursor) : Option (TokenKind × Cursor) :=
  let (digits, d) := c.eatWhile Text.isDigit
  if digits.isEmpty || d.check Text.isIdentChar then none
  else some (.decimal (String.ofList digits), d)

/-- `0x` and hexadecimal digits that no other identifier character follows. -/
def hex? (c : Cursor) : Option (TokenKind × Cursor) := do
  let c ← c.eatText? "0x".toList
  let (digits, d) := c.eatWhile Text.isHexDigit
  if digits.isEmpty || d.check Text.isIdentChar then none
  else some (.hex (String.ofList digits), d)

/-- Any identifier. -/
def word? (c : Cursor) : Option (TokenKind × Cursor) :=
  c.eatIdent?.map fun (name, c) => (.word (String.ofList name), c)

/-- The kind of the token at the cursor and the cursor after it. -/
def kind? (c : Cursor) : Option (TokenKind × Cursor) :=
  call? c <|> templateRef? c <|> codeSize? c <|> tableSize? c <|> tableStart? c <|>
    label? c <|> decimal? c <|> hex? c <|> word? c

/-- Longest snippet of text that is shown for input that is no token. -/
def maxSnippet : Nat := 32

/-- The text at the cursor as an error shows it. -/
def unrecognized (c : Cursor) : Unrecognized :=
  ⟨c.offset, (c.rest.takeWhile fun ch => !Text.isBlank ch).take maxSnippet⟩

/-- Read the token at the cursor, which is not at a blank. -/
def token? (c : Cursor) : Option (Token × Cursor) :=
  (kind? c).map fun (kind, d) => (⟨kind, c.upTo d, c.offset⟩, d)

/-! ### Progress -/

theorem scanAngle_rest_lt {depth : Nat} {t inner rest : Text}
    (h : scanAngle depth t = some (inner, rest)) : rest.length < t.length := by
  induction t generalizing depth inner rest with
  | nil => simp [scanAngle] at h
  | cons c t ih =>
    -- every branch but the closing bracket scans on
    have step : ∀ {d : Nat},
        (scanAngle d t).map (fun (inner, rest) => (c :: inner, rest)) = some (inner, rest) →
          rest.length < (c :: t).length := by
      intro d hd
      obtain ⟨⟨i, r⟩, hi, hr⟩ := Option.map_eq_some_iff.1 hd
      obtain ⟨-, rfl⟩ := Prod.mk.inj hr
      exact Nat.lt_succ_of_lt (ih hi)
    unfold scanAngle at h
    split at h
    · exact step h
    · split at h
      · cases depth with
        | zero =>
          simp only [Option.some.injEq, Prod.mk.injEq] at h
          simp [← h.2]
        | succ d => exact step h
      · split at h
        · simp at h
        · exact step h

theorem eatAngle_rest_le (c : Cursor) : (eatAngle c).2.rest.length ≤ c.rest.length := by
  unfold eatAngle
  split
  · exact Nat.le_refl _
  · rename_i d hd
    split
    · exact Nat.le_refl _
    · rename_i inner rest hs
      have h₁ := Cursor.eat?_rest_lt hd
      have h₂ := scanAngle_rest_lt hs
      show rest.length ≤ _
      omega

theorem call?_rest_lt {c d : Cursor} {k : TokenKind} (h : call? c = some (k, d)) :
    d.rest.length < c.rest.length := by
  simp only [call?, Option.bind_eq_bind, Option.bind_eq_some_iff] at h
  obtain ⟨⟨name, c₁⟩, h₁, c₂, h₂, c₃, h₃, h₄⟩ := h
  dsimp only at h₂
  obtain ⟨-, rfl⟩ := Prod.mk.inj (Option.some.inj h₄)
  have := Cursor.eatIdent?_rest_lt h₁
  have := eatAngle_rest_le c₁
  have := Cursor.eat?_rest_lt h₂
  have := Cursor.skipBlank_rest_le (eatAngle c₁).2
  have := Cursor.eat?_rest_lt h₃
  have := Cursor.skipBlank_rest_le c₂
  omega

theorem templateRef?_rest_lt {c d : Cursor} {k : TokenKind} (h : templateRef? c = some (k, d)) :
    d.rest.length < c.rest.length := by
  simp only [templateRef?, Option.bind_eq_bind, Option.bind_eq_some_iff] at h
  obtain ⟨c₁, h₁, ⟨name, c₂⟩, h₂, c₃, h₃, h₄⟩ := h
  dsimp only at h₃
  obtain ⟨-, rfl⟩ := Prod.mk.inj (Option.some.inj h₄)
  have := Cursor.eat?_rest_lt h₁
  have := Cursor.skipBlank_rest_le c₁
  have := Cursor.eatIdent?_rest_lt h₂
  have := Cursor.skipBlank_rest_le c₂
  have := Cursor.eat?_rest_lt h₃
  omega

theorem codeSize?_rest_lt {c d : Cursor} {k : TokenKind} (h : codeSize? c = some (k, d)) :
    d.rest.length < c.rest.length := by
  simp only [codeSize?, Option.bind_eq_bind, Option.bind_eq_some_iff] at h
  obtain ⟨c₁, h₁, ⟨name, c₂⟩, h₂, c₃, h₃, h₄⟩ := h
  dsimp only at h₃
  obtain ⟨-, rfl⟩ := Prod.mk.inj (Option.some.inj h₄)
  have := Cursor.eatText?_rest_le h₁
  have := Cursor.skipBlank_rest_le c₁
  have := Cursor.eatIdent?_rest_lt h₂
  have := eatAngle_rest_le c₂
  have := Cursor.skipBlank_rest_le (eatAngle c₂).2
  have := Cursor.eat?_rest_lt h₃
  omega

theorem named?_rest_lt {opening : Text} {c d : Cursor} {name : String}
    (h : named? opening c = some (name, d)) : d.rest.length < c.rest.length := by
  simp only [named?, Option.bind_eq_bind, Option.bind_eq_some_iff] at h
  obtain ⟨c₁, h₁, ⟨name, c₂⟩, h₂, c₃, h₃, h₄⟩ := h
  dsimp only at h₃
  obtain ⟨-, rfl⟩ := Prod.mk.inj (Option.some.inj h₄)
  have := Cursor.eatText?_rest_le h₁
  have := Cursor.skipBlank_rest_le c₁
  have := Cursor.eatIdent?_rest_lt h₂
  have := Cursor.skipBlank_rest_le c₂
  have := Cursor.eat?_rest_lt h₃
  omega

theorem label?_rest_lt {c d : Cursor} {k : TokenKind} (h : label? c = some (k, d)) :
    d.rest.length < c.rest.length := by
  simp only [label?, Option.bind_eq_bind, Option.bind_eq_some_iff] at h
  obtain ⟨⟨name, c₁⟩, h₁, c₂, h₂, h₃⟩ := h
  dsimp only at h₂
  obtain ⟨-, rfl⟩ := Prod.mk.inj (Option.some.inj h₃)
  have := Cursor.eatIdent?_rest_lt h₁
  have := Cursor.eat?_rest_lt h₂
  omega

/-- A run that is not empty starts with a character of its class. -/
theorem check_of_eatWhile {p : Char → Bool} {c : Cursor} (h : (c.eatWhile p).1.isEmpty = false) :
    c.check p = true := by
  obtain ⟨o, rest⟩ := c
  cases rest with
  | nil => simp [Cursor.eatWhile] at h
  | cons ch t =>
    by_cases hp : p ch = true
    · simpa [Cursor.check, Cursor.peek?] using hp
    · simp [Cursor.eatWhile, hp] at h

theorem decimal?_rest_lt {c d : Cursor} {k : TokenKind} (h : decimal? c = some (k, d)) :
    d.rest.length < c.rest.length := by
  simp only [decimal?] at h
  split at h
  · simp at h
  · rename_i hne
    obtain ⟨-, rfl⟩ := Prod.mk.inj (Option.some.inj h)
    simp only [Bool.or_eq_true, not_or, Bool.not_eq_true] at hne
    exact Cursor.eatWhile_rest_lt (check_of_eatWhile hne.1)

theorem hex?_rest_lt {c d : Cursor} {k : TokenKind} (h : hex? c = some (k, d)) :
    d.rest.length < c.rest.length := by
  simp only [hex?, Option.bind_eq_bind, Option.bind_eq_some_iff] at h
  obtain ⟨c₁, h₁, h⟩ := h
  split at h
  · simp at h
  · rename_i hne
    obtain ⟨-, rfl⟩ := Prod.mk.inj (Option.some.inj h)
    simp only [Bool.or_eq_true, not_or, Bool.not_eq_true] at hne
    have := Cursor.eatWhile_rest_lt (check_of_eatWhile hne.1)
    have := Cursor.eatText?_rest_le h₁
    omega

/-- Every recognizer reads at least one character. -/
theorem kind?_rest_lt {c d : Cursor} {k : TokenKind} (h : kind? c = some (k, d)) :
    d.rest.length < c.rest.length := by
  simp only [kind?, Option.orElse_eq_orElse, Option.orElse_eq_or, Option.or_eq_some_iff] at h
  rcases h with h | ⟨-, h | ⟨-, h | ⟨-, h | ⟨-, h | ⟨-, h | ⟨-, h | ⟨-, h | ⟨-, h⟩⟩⟩⟩⟩⟩⟩⟩
  · exact call?_rest_lt h
  · exact templateRef?_rest_lt h
  · exact codeSize?_rest_lt h
  · obtain ⟨⟨name, e⟩, he, hk⟩ := Option.map_eq_some_iff.1 h
    obtain ⟨-, rfl⟩ := Prod.mk.inj hk
    exact named?_rest_lt he
  · obtain ⟨⟨name, e⟩, he, hk⟩ := Option.map_eq_some_iff.1 h
    obtain ⟨-, rfl⟩ := Prod.mk.inj hk
    exact named?_rest_lt he
  · exact label?_rest_lt h
  · exact decimal?_rest_lt h
  · exact hex?_rest_lt h
  · obtain ⟨⟨name, e⟩, he, hk⟩ := Option.map_eq_some_iff.1 h
    obtain ⟨-, rfl⟩ := Prod.mk.inj hk
    exact Cursor.eatIdent?_rest_lt he

theorem token?_rest_lt {c d : Cursor} {t : Token} (h : token? c = some (t, d)) :
    d.rest.length < c.rest.length := by
  obtain ⟨⟨k, e⟩, he, hk⟩ := Option.map_eq_some_iff.1 h
  obtain ⟨-, rfl⟩ := Prod.mk.inj hk
  exact kind?_rest_lt he

/-! ### The token list -/

/-- Read a window to its end: its tokens, and the place where reading stopped
short if it did. -/
def lex (c : Cursor) : List Token × Option Unrecognized :=
  let c' := c.skipBlank
  if c'.isEof then ([], none)
  else
    match h : token? c' with
    | none => ([], some (unrecognized c'))
    | some (t, d) =>
      have := token?_rest_lt h
      let (ts, e) := lex d
      (t :: ts, e)
termination_by c.rest.length
decreasing_by exact Nat.lt_of_lt_of_le this (Cursor.skipBlank_rest_le c)

end MacroAssembler.Token
