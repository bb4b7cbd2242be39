/-
MacroAssembler/Proofs/Reading.lean

What the steps of a cursor read.

`c.Reads t d` says that `t` is the text between the cursors `c` and `d`.  Every
step of a cursor is described by the text that it reads, in both directions:
what a step that succeeds has read, and which texts make it succeed.  A step
that reads the longest run of a class also looks at the character behind the
run, which must be outside the class.

A cursor is `Within` a text when what it has left to read stands in the text at
the offset that it keeps.  Reading does not leave the text (`Reads.within`).
-/
import MacroAssembler.Text.Cursor

namespace MacroAssembler

namespace Text

theorem byteLength_pos {t : Text} (h : t ≠ []) : 0 < byteLength t := by
  obtain ⟨c, t, rfl⟩ := List.exists_cons_of_ne_nil h
  have := c.utf8Size_pos
  rw [byteLength_cons]
  omega

theorem isIdent_iff {t : Text} : isIdent t = true ↔ t ≠ [] ∧ ∀ ch ∈ t, isIdentChar ch = true := by
  cases t <;> simp [isIdent]

/-- The classes of identifier characters, as ranges. -/
theorem isIdentChar_iff {ch : Char} :
    isIdentChar ch = true ↔
      ((('A' ≤ ch ∧ ch ≤ 'Z') ∨ ('a' ≤ ch ∧ ch ≤ 'z')) ∨ ch.isDigit = true) ∨ ch = '_' := by
  have hupper : ch.isUpper = true ↔ 'A' ≤ ch ∧ ch ≤ 'Z' := decide_eq_true_iff
  have hlower : ch.isLower = true ↔ 'a' ≤ ch ∧ ch ≤ 'z' :=
    Bool.and_eq_true_iff.trans (and_congr decide_eq_true_iff decide_eq_true_iff)
  rw [← hupper, ← hlower, ← Bool.or_eq_true, ← Bool.or_eq_true, ← beq_iff_eq (b := '_'),
    ← Bool.or_eq_true]
  rfl

/-- A run of a class ends in front of a character outside the class. -/
theorem eq_false_of_head?_dropWhile {p : Char → Bool} {t : Text} {ch : Char}
    (h : ch ∈ (t.dropWhile p).head?) : p ch = false := by
  have hstop := List.head?_dropWhile_not p t
  rw [Option.mem_def.1 h] at hstop
  exact hstop

end Text

namespace Cursor

/-- The text `t` is read between two cursors. -/
structure Reads (c : Cursor) (t : Text) (d : Cursor) : Prop where
  rest : c.rest = t ++ d.rest
  offset : d.offset = c.offset + Text.byteLength t

namespace Reads

variable {c d e : Cursor} {s t : Text}

theorem refl (c : Cursor) : c.Reads [] c := ⟨rfl, rfl⟩

theorem trans (h : c.Reads s d) (h' : d.Reads t e) : c.Reads (s ++ t) e := by
  refine ⟨?_, ?_⟩
  · rw [h.rest, h'.rest, List.append_assoc]
  · rw [h'.offset, h.offset, Text.byteLength_append, Nat.add_assoc]

/-- A text is read by reading its parts. -/
theorem append_iff : c.Reads (s ++ t) e ↔ ∃ d, c.Reads s d ∧ d.Reads t e := by
  constructor
  · intro h
    refine ⟨⟨c.offset + Text.byteLength s, t ++ e.rest⟩, ⟨?_, rfl⟩, ⟨rfl, ?_⟩⟩
    · rw [h.rest, List.append_assoc]
    · rw [h.offset, Text.byteLength_append, Nat.add_assoc]
  · rintro ⟨d, h, h'⟩
    exact h.trans h'

/-- The text decides where reading ends. -/
theorem unique (h : c.Reads t d) (h' : c.Reads t e) : d = e := by
  have hrest : d.rest = e.rest := List.append_cancel_left (h.rest.symm.trans h'.rest)
  have hoffset : d.offset = e.offset := by rw [h.offset, h'.offset]
  cases d
  cases e
  simp_all

/-- What is read up to an earlier and up to a later cursor. -/
theorem upTo (h : c.Reads t d) : c.upTo d = t := by
  rw [Cursor.upTo, h.offset, Nat.add_sub_cancel_left, h.rest, Text.takeBytes_append]

theorem offset_le (h : c.Reads t d) : c.offset ≤ d.offset := by
  rw [h.offset]
  exact Nat.le_add_right _ _

/-- Reading a character moves the cursor. -/
theorem offset_lt (h : c.Reads t d) (hlt : d.rest.length < c.rest.length) :
    c.offset < d.offset := by
  cases t with
  | nil =>
    rw [h.rest] at hlt
    exact absurd hlt (Nat.lt_irrefl _)
  | cons ch t =>
    have := ch.utf8Size_pos
    rw [h.offset, Text.byteLength_cons]
    omega

/-- A cursor behind something read stands inside the window or at its end. -/
theorem offset_add_byteLength (h : c.Reads t d) :
    d.offset + Text.byteLength d.rest = c.offset + Text.byteLength c.rest := by
  rw [h.offset, h.rest, Text.byteLength_append, Nat.add_assoc]

end Reads

/-! ### Single characters and fixed texts -/

theorem eat?_eq_some_iff {ch : Char} {c d : Cursor} : c.eat? ch = some d ↔ c.Reads [ch] d := by
  obtain ⟨offset, rest⟩ := c
  cases rest with
  | nil =>
    constructor
    · intro h
      cases h
    · intro h
      cases h.rest
  | cons x rest =>
    constructor
    · intro h
      simp only [eat?] at h
      split at h
      · rename_i hx
        obtain rfl := Option.some.inj h
        subst hx
        exact ⟨rfl, rfl⟩
      · cases h
    · intro h
      obtain ⟨rfl, hrest⟩ := List.cons.inj h.rest
      simp only [eat?, if_true]
      have hoffset : d.offset = offset + x.utf8Size := h.offset
      cases d
      simp_all

/-- Stepping over a text reads it. -/
theorem reads_skip {s : Text} {c : Cursor} (h : s <+: c.rest) : c.Reads s (c.skip s.length) := by
  obtain ⟨t, ht⟩ := h
  refine ⟨?_, ?_⟩
  · simp [skip, ← ht]
  · simp [skip, ← ht]

theorem eatText?_eq_some_iff {s : Text} {c d : Cursor} :
    c.eatText? s = some d ↔ c.Reads s d := by
  rw [eatText?]
  constructor
  · intro h
    split at h
    · rename_i hs
      obtain rfl := Option.some.inj h
      exact reads_skip (List.isPrefixOf_iff_prefix.1 hs)
    · cases h
  · intro h
    have hs : s <+: c.rest := ⟨d.rest, h.rest.symm⟩
    rw [checkText, if_pos (List.isPrefixOf_iff_prefix.2 hs), (reads_skip hs).unique h]

/-! ### Runs of a class -/

theorem check_eq_false_iff {p : Char → Bool} {c : Cursor} :
    c.check p = false ↔ ∀ ch ∈ c.rest.head?, p ch = false := by
  rw [check, peek?]
  cases c.rest <;> simp

theorem eatWhile_eq_iff {p : Char → Bool} {c d : Cursor} {t : Text} :
    c.eatWhile p = (t, d) ↔ c.Reads t d ∧ (∀ ch ∈ t, p ch = true) ∧ d.check p = false := by
  rw [check_eq_false_iff]
  constructor
  · intro h
    obtain ⟨rfl, rfl⟩ := Prod.mk.inj h
    refine ⟨⟨List.takeWhile_append_dropWhile.symm, rfl⟩, ?_, ?_⟩
    · exact List.all_eq_true.1 List.all_takeWhile
    · exact fun ch hch => Text.eq_false_of_head?_dropWhile hch
  · rintro ⟨hread, hall, hstop⟩
    have htake : d.rest.takeWhile p = [] := by
      cases hd : d.rest with
      | nil => rfl
      | cons ch rest => simp [hstop ch (by simp [hd])]
    have hrun : c.rest.takeWhile p = t := by
      rw [hread.rest, List.takeWhile_append_of_pos hall, htake, List.append_nil]
    have hread' : c.Reads t (c.eatWhile p).2 := by
      refine ⟨?_, ?_⟩
      · rw [← hrun]
        exact List.takeWhile_append_dropWhile.symm
      · rw [← hrun]
        rfl
    exact Prod.ext hrun (hread'.unique hread)

theorem reads_eatWhile (p : Char → Bool) (c : Cursor) :
    c.Reads (c.eatWhile p).1 (c.eatWhile p).2 :=
  (eatWhile_eq_iff.1 rfl).1

/-- Blanks that are skipped, up to a character that is none. -/
theorem skipBlank_eq_iff {c d : Cursor} :
    c.skipBlank = d ↔
      ∃ t, c.Reads t d ∧ (∀ ch ∈ t, Text.isBlank ch = true) ∧ d.check Text.isBlank = false := by
  constructor
  · rintro rfl
    exact ⟨_, eatWhile_eq_iff.1 rfl⟩
  · rintro ⟨t, h⟩
    rw [skipBlank, eatWhile_eq_iff.2 h]

theorem exists_reads_skipBlank (c : Cursor) :
    ∃ t, c.Reads t c.skipBlank ∧ ∀ ch ∈ t, Text.isBlank ch = true := by
  obtain ⟨t, hread, hall, -⟩ := skipBlank_eq_iff.1 (rfl : c.skipBlank = _)
  exact ⟨t, hread, hall⟩

theorem skipBlank_append (offset : Nat) {b t : Text} (hb : ∀ ch ∈ b, Text.isBlank ch = true)
    (ht : ∀ ch ∈ t.head?, Text.isBlank ch = false) :
    (⟨offset, b ++ t⟩ : Cursor).skipBlank = ⟨offset + Text.byteLength b, t⟩ :=
  skipBlank_eq_iff.2 ⟨b, ⟨rfl, rfl⟩, hb, check_eq_false_iff.2 ht⟩

theorem skipBlank_of_forall (offset : Nat) {b : Text} (hb : ∀ ch ∈ b, Text.isBlank ch = true) :
    (⟨offset, b⟩ : Cursor).skipBlank = ⟨offset + Text.byteLength b, []⟩ := by
  have h := skipBlank_append offset (t := []) hb (by simp)
  rwa [List.append_nil] at h

theorem skipBlank_of_check {c : Cursor} (h : c.check Text.isBlank = false) : c.skipBlank = c :=
  skipBlank_eq_iff.2 ⟨[], .refl c, by simp, h⟩

theorem eatIdent?_eq_some_iff {c d : Cursor} {t : Text} :
    c.eatIdent? = some (t, d) ↔
      c.Reads t d ∧ Text.isIdent t = true ∧ d.check Text.isIdentChar = false := by
  rw [eatIdent?, Text.isIdent_iff]
  constructor
  · intro h
    split at h
    · rename_i hc
      obtain ⟨hread, hall, hstop⟩ := eatWhile_eq_iff.1 (Option.some.inj h)
      refine ⟨hread, ⟨?_, hall⟩, hstop⟩
      -- an empty run would leave the first character, which is of the class
      rintro rfl
      obtain rfl := hread.unique (.refl c)
      simp [hc] at hstop
    · cases h
  · rintro ⟨hread, ⟨hne, hall⟩, hstop⟩
    obtain ⟨ch, s, rfl⟩ := List.exists_cons_of_ne_nil hne
    have hc : c.check Text.isIdentChar = true := by
      simp [check, peek?, hread.rest, hall]
    rw [if_pos hc, eatWhile_eq_iff.2 ⟨hread, hall, hstop⟩]

theorem eatKeyword?_eq_some_iff {s : Text} {c d : Cursor} :
    c.eatKeyword? s = some d ↔ c.Reads s d ∧ d.check Text.isIdentChar = false := by
  rw [← eatText?_eq_some_iff, eatKeyword?]
  rcases c.eatText? s with - | e
  · simp
  · by_cases he : e.check Text.isIdentChar = true
    · simp only [if_pos he]
      constructor
      · intro h
        cases h
      · rintro ⟨hd, h⟩
        obtain rfl := Option.some.inj hd
        simp [he] at h
    · simp only [if_neg he]
      constructor
      · intro h
        obtain rfl := Option.some.inj h
        exact ⟨rfl, by simpa using he⟩
      · exact And.left

/-! ### Positions in a text -/

/-- What is left to read stands in the text, at the offset of the cursor. -/
def Within (text : Text) (c : Cursor) : Prop :=
  ∃ before after, text = before ++ c.rest ++ after ∧ c.offset = Text.byteLength before

theorem within_ofText (text : Text) : (ofText text).Within text :=
  ⟨[], [], by simp [ofText], rfl⟩

theorem Reads.within {text t : Text} {c d : Cursor} (h : c.Reads t d) (hc : c.Within text) :
    d.Within text := by
  obtain ⟨before, after, htext, hoffset⟩ := hc
  refine ⟨before ++ t, after, ?_, ?_⟩
  · rw [htext, h.rest]
    simp
  · rw [h.offset, hoffset, Text.byteLength_append]

/-- A window that ends before the end of what is left to read. -/
theorem Reads.within_window {text t : Text} {c d : Cursor} (h : c.Reads t d) (hc : c.Within text) :
    (⟨c.offset, t⟩ : Cursor).Within text := by
  obtain ⟨before, after, htext, hoffset⟩ := hc
  refine ⟨before, d.rest ++ after, ?_, hoffset⟩
  rw [htext, h.rest]
  simp

end Cursor

end MacroAssembler
