/-
MacroAssembler/Text/Basic.lean

Source text as a list of characters, measured in the bytes of its UTF-8
encoding.

Every offset of the assembler (a token start, an error position, the start
of a file) is a byte count, while every rule of the grammar is about
characters.  A text is therefore kept as its characters, and `byteLength`,
`takeBytes` and `dropBytes` move between the two views.

Main definitions:

* `byteLength t`      bytes that `t` occupies
* `slice t a b`       the part of `t` between two byte offsets
* `splitOn sep t`     the pieces of `t` between occurrences of `sep`

A cut at the end of a text that is followed by another gives the two back
(`takeBytes_append`, `dropBytes_append`), and so does a split at a character that
stands between the two (`splitOn_append`).
-/

namespace MacroAssembler

/-- A stretch of source text, as its characters. -/
abbrev Text := List Char

namespace Text

/-! ### Bytes -/

/-- Number of bytes of the UTF-8 encoding of a text. -/
def byteLength : Text → Nat
  | [] => 0
  | c :: t => c.utf8Size + byteLength t

@[simp] theorem byteLength_nil : byteLength [] = 0 := rfl

@[simp] theorem byteLength_cons (c : Char) (t : Text) :
    byteLength (c :: t) = c.utf8Size + byteLength t := rfl

@[simp] theorem byteLength_append (s t : Text) :
    byteLength (s ++ t) = byteLength s + byteLength t := by
  induction s with
  | nil => simp
  | cons c s ih => simp [ih, Nat.add_assoc]

/-- What is left of a text after its first `n` bytes. -/
def dropBytes : Nat → Text → Text
  | _, [] => []
  | 0, c :: t => c :: t
  | n + 1, c :: t => dropBytes (n + 1 - c.utf8Size) t

/-- The first `n` bytes of a text. -/
def takeBytes : Nat → Text → Text
  | _, [] => []
  | 0, _ :: _ => []
  | n + 1, c :: t => c :: takeBytes (n + 1 - c.utf8Size) t

/-- The part of a text between the byte offsets `start` and `stop`. -/
def slice (t : Text) (start stop : Nat) : Text :=
  takeBytes (stop - start) (dropBytes start t)

theorem dropBytes_append (s t : Text) : dropBytes (byteLength s) (s ++ t) = t := by
  induction s with
  | nil => cases t <;> rfl
  | cons c s ih =>
    have hc := c.utf8Size_pos
    obtain ⟨n, hn⟩ : ∃ n, c.utf8Size + byteLength s = n + 1 :=
      ⟨c.utf8Size + byteLength s - 1, by omega⟩
    rw [byteLength_cons, hn, List.cons_append, dropBytes, ← hn, Nat.add_sub_cancel_left, ih]

theorem takeBytes_append (s t : Text) : takeBytes (byteLength s) (s ++ t) = s := by
  induction s with
  | nil => cases t <;> rfl
  | cons c s ih =>
    have hc := c.utf8Size_pos
    obtain ⟨n, hn⟩ : ∃ n, c.utf8Size + byteLength s = n + 1 :=
      ⟨c.utf8Size + byteLength s - 1, by omega⟩
    rw [byteLength_cons, hn, List.cons_append, takeBytes, ← hn, Nat.add_sub_cancel_left, ih]

/-- As many spaces as the text has bytes. -/
def spaces (t : Text) : Text := List.replicate (byteLength t) ' '

/-! ### Splitting -/

/-- Put a character in front of the first piece. -/
def consHead (c : Char) : List Text → List Text
  | [] => [[c]]
  | p :: ps => (c :: p) :: ps

/-- The pieces of a text between occurrences of `sep`; there is always at
least one. -/
def splitOn (sep : Char) : Text → List Text
  | [] => [[]]
  | c :: t => if c = sep then [] :: splitOn sep t else consHead c (splitOn sep t)

theorem exists_splitOn_eq_cons (sep : Char) (t : Text) : ∃ p ps, splitOn sep t = p :: ps := by
  induction t with
  | nil => exact ⟨[], [], rfl⟩
  | cons c t ih =>
    obtain ⟨p, ps, hsplit⟩ := ih
    rw [splitOn, hsplit]
    by_cases hc : c = sep
    · rw [if_pos hc]
      exact ⟨_, _, rfl⟩
    · rw [if_neg hc]
      exact ⟨_, _, rfl⟩

theorem splitOn_of_not_mem {sep : Char} {t : Text} (h : sep ∉ t) : splitOn sep t = [t] := by
  induction t with
  | nil => rfl
  | cons c t ih =>
    rw [List.mem_cons, not_or] at h
    obtain ⟨hc, ht⟩ := h
    rw [splitOn, if_neg (Ne.symm hc), ih ht]
    rfl

theorem splitOn_append {sep : Char} {t : Text} (h : sep ∉ t) (u : Text) :
    splitOn sep (t ++ sep :: u) = t :: splitOn sep u := by
  induction t with
  | nil => simp [splitOn]
  | cons c t ih =>
    rw [List.mem_cons, not_or] at h
    obtain ⟨hc, ht⟩ := h
    rw [List.cons_append, splitOn, if_neg (Ne.symm hc), ih ht]
    rfl

/-- A piece is what is left of the text when characters are taken out, all those
at which it was cut among them. -/
theorem sublist_of_mem_splitOn {sep : Char} {t p : Text} (h : p ∈ splitOn sep t) :
    sep ∉ p ∧ p.Sublist t := by
  induction t generalizing p with
  | nil =>
    obtain rfl := List.mem_singleton.1 h
    exact ⟨List.not_mem_nil, List.Sublist.refl _⟩
  | cons c t ih =>
    rw [splitOn] at h
    by_cases hc : c = sep
    · rw [if_pos hc] at h
      obtain rfl | h := List.mem_cons.1 h
      · exact ⟨List.not_mem_nil, List.nil_sublist _⟩
      · exact ⟨(ih h).1, (ih h).2.cons c⟩
    · rw [if_neg hc] at h
      obtain ⟨q, qs, hsplit⟩ := exists_splitOn_eq_cons sep t
      rw [hsplit] at h ih
      obtain rfl | h := List.mem_cons.1 h
      · obtain ⟨hq, hsub⟩ := ih List.mem_cons_self
        exact ⟨by simp [Ne.symm hc, hq], hsub.cons_cons c⟩
      · obtain ⟨hp, hsub⟩ := ih (List.mem_cons_of_mem _ h)
        exact ⟨hp, hsub.cons c⟩

/-- Where there is a cut, every piece is shorter than the text. -/
theorem length_lt_of_mem_splitOn {sep : Char} {t p : Text} (hsep : sep ∈ t)
    (h : p ∈ splitOn sep t) : p.length < t.length := by
  obtain ⟨hp, hsub⟩ := sublist_of_mem_splitOn h
  refine Nat.lt_of_le_of_ne hsub.length_le fun heq => hp ?_
  rwa [hsub.eq_of_length heq]

/-! ### Up to a character -/

theorem takeWhile_append_cons {s t : Text} {ch : Char} (h : ch ∉ s) :
    (s ++ ch :: t).takeWhile (· != ch) = s := by
  rw [List.takeWhile_append_of_pos]
  · simp
  · rintro c hc
    simpa using fun heq : c = ch => h (heq ▸ hc)

/-- A word ends in front of a character that it does not have. -/
theorem prefix_of_prefix_append_cons {word s t : Text} {ch : Char} (h : word <+: s ++ ch :: t)
    (hword : ch ∉ word) : word <+: s := by
  obtain hlt | hle := Nat.lt_or_ge s.length word.length
  · -- a word that goes beyond `s` has the character behind `s` in it
    have hs : s ++ [ch] <+: s ++ ch :: t := ⟨t, by simp⟩
    have hin := List.prefix_of_prefix_length_le hs h (by simpa using Nat.succ_le_of_lt hlt)
    exact absurd (hin.subset (by simp)) hword
  · exact List.prefix_of_prefix_length_le h (List.prefix_append _ _) hle

/-! ### Identifiers -/

/-- Characters of an identifier.  An identifier may start with any of them,
a digit included. -/
def isIdentChar (c : Char) : Bool := c.isAlphanum || c == '_'

/-- Whether a text is an identifier. -/
def isIdent (t : Text) : Bool := !t.isEmpty && t.all isIdentChar

/-! ### Digits -/

/-- An ASCII decimal digit. -/
def isDigit (c : Char) : Bool := c.isDigit

/-- An ASCII hexadecimal digit of either case. -/
def isHexDigit (c : Char) : Bool :=
  c.isDigit || ('a' ≤ c && c ≤ 'f') || ('A' ≤ c && c ≤ 'F')

end Text

end MacroAssembler
