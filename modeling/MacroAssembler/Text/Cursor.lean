/-
MacroAssembler/Text/Cursor.lean

A reading position: the text still to be read, and the byte offset at which
it begins.

A cursor holds nothing but its remaining window, so no reading step can look
past the end of the window or behind its start.  Each step that may fail
returns `none` on failure and so leaves the cursor as it was.
-/
import MacroAssembler.Text.Basic
import MacroAssembler.Text.Blank

namespace MacroAssembler

/-- A reading position inside a text. -/
structure Cursor where
  /-- Byte offset of the next character. -/
  offset : Nat
  /-- The text from here to the end of the window. -/
  rest : Text
  deriving Repr, DecidableEq

namespace Cursor

/-- The start of a whole text. -/
def ofText (t : Text) : Cursor := ⟨0, t⟩

/-- The window of `t` between two byte offsets. -/
def ofRange (t : Text) (start stop : Nat) : Cursor := ⟨start, Text.slice t start stop⟩

/-- Whether the window is used up. -/
def isEof (c : Cursor) : Bool := c.rest.isEmpty

/-- The next character. -/
def peek? (c : Cursor) : Option Char := c.rest.head?

/-- Whether there is a next character and it satisfies `p`. -/
def check (p : Char → Bool) (c : Cursor) : Bool := c.peek?.any p

/-- Whether the remaining text starts with `s`. -/
def checkText (s : Text) (c : Cursor) : Bool := s.isPrefixOf c.rest

/-- Step over `n` characters. -/
def skip (n : Nat) (c : Cursor) : Cursor :=
  ⟨c.offset + Text.byteLength (c.rest.take n), c.rest.drop n⟩

/-- Read one character. -/
def advance? (c : Cursor) : Option (Char × Cursor) :=
  match c.rest with
  | [] => none
  | ch :: rest => some (ch, ⟨c.offset + ch.utf8Size, rest⟩)

/-- Read the character `ch`. -/
def eat? (ch : Char) (c : Cursor) : Option Cursor :=
  match c.rest with
  | [] => none
  | d :: rest => if d = ch then some ⟨c.offset + d.utf8Size, rest⟩ else none

/-- Read the text `s`. -/
def eatText? (s : Text) (c : Cursor) : Option Cursor :=
  if c.checkText s then some (c.skip s.length) else none

/-- Read the longest run of characters that satisfy `p`. -/
def eatWhile (p : Char → Bool) (c : Cursor) : Text × Cursor :=
  let run := c.rest.takeWhile p
  (run, ⟨c.offset + Text.byteLength run, c.rest.dropWhile p⟩)

/-- Skip blanks, newlines included. -/
def skipBlank (c : Cursor) : Cursor := (c.eatWhile Text.isBlank).2

/-- Read an identifier. -/
def eatIdent? (c : Cursor) : Option (Text × Cursor) :=
  if c.check Text.isIdentChar then some (c.eatWhile Text.isIdentChar) else none

/-- Read the word `s`, unless it is only the beginning of a longer one. -/
def eatKeyword? (s : Text) (c : Cursor) : Option Cursor :=
  match c.eatText? s with
  | none => none
  | some d => if d.check Text.isIdentChar then none else some d

/-- The text between the offset `start` of the whole source and the cursor. -/
def sliceFrom (source : Text) (start : Nat) (c : Cursor) : Text :=
  Text.slice source start c.offset

/-- The text read between `c` and the later cursor `d`. -/
def upTo (c d : Cursor) : Text := Text.takeBytes (d.offset - c.offset) c.rest

/-! ### Progress

Every step leaves at most as much to read as there was, and a step that must
read a character leaves less. -/

theorem skip_rest_le (n : Nat) (c : Cursor) : (c.skip n).rest.length ≤ c.rest.length := by
  simp [skip]

theorem eat?_rest_lt {ch : Char} {c d : Cursor} (h : c.eat? ch = some d) :
    d.rest.length < c.rest.length := by
  unfold eat? at h
  split at h
  · simp at h
  · rename_i e rest he
    split at h
    · obtain rfl := Option.some.inj h
      simp [he]
    · simp at h

theorem eatText?_rest_le {s : Text} {c d : Cursor} (h : c.eatText? s = some d) :
    d.rest.length ≤ c.rest.length := by
  unfold eatText? at h
  split at h
  · obtain rfl := Option.some.inj h
    exact skip_rest_le _ _
  · simp at h

theorem eatText?_rest_lt {s : Text} {c d : Cursor} (hs : s ≠ []) (h : c.eatText? s = some d) :
    d.rest.length < c.rest.length := by
  unfold eatText? at h
  split at h
  · rename_i hp
    obtain rfl := Option.some.inj h
    have hle : s.length ≤ c.rest.length := (List.isPrefixOf_iff_prefix.1 hp).length_le
    have hpos : 0 < s.length := List.length_pos_iff.2 hs
    simp only [skip, List.length_drop]
    omega
  · simp at h

theorem eatWhile_rest_le (p : Char → Bool) (c : Cursor) :
    (c.eatWhile p).2.rest.length ≤ c.rest.length :=
  (List.dropWhile_suffix p).length_le

theorem eatWhile_rest_lt {p : Char → Bool} {c : Cursor} (h : c.check p = true) :
    (c.eatWhile p).2.rest.length < c.rest.length := by
  obtain ⟨o, rest⟩ := c
  cases rest with
  | nil => simp [check, peek?] at h
  | cons ch t =>
    have hp : p ch = true := by simpa [check, peek?] using h
    have := (List.dropWhile_suffix p (l := t)).length_le
    simp only [eatWhile, List.dropWhile_cons, hp, if_true, List.length_cons]
    omega

theorem skipBlank_rest_le (c : Cursor) : c.skipBlank.rest.length ≤ c.rest.length :=
  eatWhile_rest_le _ _

theorem eatIdent?_rest_lt {c d : Cursor} {name : Text} (h : c.eatIdent? = some (name, d)) :
    d.rest.length < c.rest.length := by
  unfold eatIdent? at h
  split at h
  · rename_i hc
    have := eatWhile_rest_lt hc
    simp only [Option.some.injEq] at h
    simpa [h] using this
  · simp at h

theorem eatText?_of_eatKeyword? {s : Text} {c d : Cursor} (h : c.eatKeyword? s = some d) :
    c.eatText? s = some d := by
  unfold eatKeyword? at h
  split at h
  · simp at h
  · rename_i e he
    split at h
    · simp at h
    · obtain rfl := Option.some.inj h
      exact he

end Cursor

end MacroAssembler
