/-
MacroAssembler/Proofs/CharBoundaries.lean

Boundaries of characters, seen in the bytes of a text.

A text may be cut at a byte offset when the byte there begins a character, or when there is
no byte left.  These are the boundaries between its characters (`Text.cutsAt_iff`), so a
slice that is refused elsewhere (`Text.slice?`) is given exactly where the text has it
(`Text.slice?_eq_some_iff`).

What is asked of the bytes in front agrees with what is asked of the characters: a first
byte below 128 is the first character (`Text.first?_eq_head?`), and a text is in front when
its bytes are (`Text.utf8_prefix_iff`).
-/
import MacroAssembler.Proofs.TextBytes
import MacroAssembler.Proofs.Tiling

namespace MacroAssembler

namespace Text

/-! ### Cuts -/

/-- Whether a byte offset is the end of a text, or has a byte that begins a character. -/
def cutsAt (t : Text) (n : Nat) : Bool :=
  n == byteLength t || t.utf8[n]?.any fun b => decide b.IsUTF8FirstByte

/-- Of the bytes of a character only the first one begins it. -/
theorem any_isUTF8FirstByte_utf8EncodeChar {c : Char} {n : Nat} (h : n < c.utf8Size) :
    ((String.utf8EncodeChar c)[n]?.any fun b => decide b.IsUTF8FirstByte) = (n == 0) := by
  rw [← String.length_utf8EncodeChar] at h
  rw [List.getElem?_eq_getElem h, Option.any_some, Bool.eq_iff_iff, decide_eq_true_iff,
    UInt8.isUTF8FirstByte_getElem_utf8EncodeChar, beq_iff_eq]

theorem cutsAt_cons_of_lt {c : Char} (t : Text) {n : Nat} (h : n < c.utf8Size) :
    cutsAt (c :: t) n = (n == 0) := by
  have hne : (n == byteLength (c :: t)) = false := by
    rw [byteLength_cons]
    exact beq_false_of_ne (by omega)
  rw [cutsAt, hne, Bool.false_or, utf8_cons, List.getElem?_append_left
    (by rwa [String.length_utf8EncodeChar]), any_isUTF8FirstByte_utf8EncodeChar h]

theorem cutsAt_cons_add (c : Char) (t : Text) (n : Nat) :
    cutsAt (c :: t) (c.utf8Size + n) = cutsAt t n := by
  have hend : (c.utf8Size + n == byteLength (c :: t)) = (n == byteLength t) := by
    rw [byteLength_cons, Bool.eq_iff_iff, beq_iff_eq, beq_iff_eq, Nat.add_left_cancel_iff]
  have hlength := String.length_utf8EncodeChar c
  rw [cutsAt, hend, utf8_cons, List.getElem?_append_right (by omega), hlength,
    Nat.add_sub_cancel_left, cutsAt]

theorem isBoundary_zero (t : Text) : t.IsBoundary 0 := ⟨[], t, rfl, rfl⟩

/-- No boundary stands inside the first character. -/
theorem isBoundary_cons_of_lt {c : Char} {t : Text} {n : Nat} (h : n < c.utf8Size) :
    IsBoundary (c :: t) n ↔ n = 0 := by
  constructor
  · rintro ⟨s, u, hs, rfl⟩
    cases s with
    | nil => rfl
    | cons d s =>
      obtain ⟨rfl, -⟩ := List.cons.inj hs
      rw [byteLength_cons] at h
      omega
  · rintro rfl
    exact isBoundary_zero _

theorem isBoundary_cons_add {c : Char} {t : Text} {n : Nat} :
    IsBoundary (c :: t) (c.utf8Size + n) ↔ IsBoundary t n := by
  constructor
  · rintro ⟨s, u, hs, hlength⟩
    cases s with
    | nil =>
      have := c.utf8Size_pos
      rw [byteLength_nil] at hlength
      omega
    | cons d s =>
      obtain ⟨rfl, ht⟩ := List.cons.inj hs
      exact ⟨s, u, ht, Nat.add_left_cancel hlength⟩
  · rintro ⟨s, u, rfl, rfl⟩
    exact ⟨c :: s, u, rfl, rfl⟩

/-- **The bytes show the boundaries of characters.** -/
theorem cutsAt_iff {t : Text} {n : Nat} : t.cutsAt n = true ↔ t.IsBoundary n := by
  induction t generalizing n with
  | nil =>
    rw [cutsAt, utf8_nil, List.getElem?_nil, Option.any_none, Bool.or_false, beq_iff_eq]
    constructor
    · rintro rfl
      exact isBoundary_zero []
    · rintro ⟨s, u, hs, rfl⟩
      rw [(List.append_eq_nil_iff.1 hs.symm).1]
  | cons c t ih =>
    obtain hlt | hle := Nat.lt_or_ge n c.utf8Size
    · rw [cutsAt_cons_of_lt t hlt, isBoundary_cons_of_lt hlt, beq_iff_eq]
    · obtain ⟨m, rfl⟩ := Nat.exists_eq_add_of_le hle
      rw [cutsAt_cons_add, isBoundary_cons_add, ih]

instance (t : Text) (n : Nat) : Decidable (t.IsBoundary n) :=
  decidable_of_iff _ cutsAt_iff

/-! ### Slices that may be refused -/

/-- The part of a text between two byte offsets, unless they are out of order or one of them
is not a place to cut. -/
def slice? (t : Text) (start stop : Nat) : Option Text :=
  if start ≤ stop ∧ t.cutsAt start = true ∧ t.cutsAt stop = true then some (slice t start stop)
  else none

theorem slice?_of_isBoundary {t : Text} {start stop : Nat} (hstart : t.IsBoundary start)
    (hstop : t.IsBoundary stop) (hle : start ≤ stop) :
    t.slice? start stop = some (slice t start stop) :=
  if_pos ⟨hle, cutsAt_iff.2 hstart, cutsAt_iff.2 hstop⟩

/-- A slice is given exactly where the text has it. -/
theorem slice?_eq_some_iff {t s : Text} {start stop : Nat} :
    t.slice? start stop = some s ↔
      ∃ before after, t = before ++ s ++ after ∧ byteLength before = start ∧
        start + byteLength s = stop := by
  constructor
  · intro h
    rw [slice?] at h
    split at h
    · rename_i hcuts
      obtain ⟨hle, hstart, hstop⟩ := hcuts
      obtain rfl := Option.some.inj h
      exact exists_eq_append_slice (cutsAt_iff.1 hstart) (cutsAt_iff.1 hstop) hle
    · cases h
  · rintro ⟨before, after, rfl, rfl, rfl⟩
    rw [slice?_of_isBoundary ⟨before, s ++ after, List.append_assoc _ _ _, rfl⟩
      ⟨before ++ s, after, rfl, byteLength_append _ _⟩ (Nat.le_add_right _ _), slice_append]

/-! ### What is in front -/

/-- The first character of a text, by its first byte where that is enough. -/
def first? (t : Text) : Option Char :=
  t.utf8.head?.bind fun b => if b < 0x80 then some (Char.ofNat b.toNat) else t.head?

theorem head?_utf8EncodeChar_of_le {c : Char} (h : c.val.toNat ≤ 127) :
    (String.utf8EncodeChar c).head? = some (UInt8.ofNat c.val.toNat) := by
  rw [String.utf8EncodeChar]
  exact congrArg List.head? (if_pos h)

/-- A character of several bytes has a first byte of 128 or more. -/
theorem exists_head?_utf8EncodeChar {c : Char} (h : 127 < c.val.toNat) :
    ∃ b, (String.utf8EncodeChar c).head? = some b ∧ ¬ b < 0x80 := by
  have hbyte : ∀ n, 128 ≤ n % 256 → ¬ UInt8.ofNat n < 0x80 := by
    intro n hn hlt
    rw [UInt8.lt_iff_toNat_lt, UInt8.toNat_ofNat'] at hlt
    exact Nat.not_lt.2 hn hlt
  rw [String.utf8EncodeChar, if_neg (Nat.not_le.2 h)]
  split
  · exact ⟨_, rfl, hbyte _ (by omega)⟩
  split
  · exact ⟨_, rfl, hbyte _ (by omega)⟩
  · exact ⟨_, rfl, hbyte _ (by omega)⟩

theorem first?_eq_head? (t : Text) : t.first? = t.head? := by
  cases t with
  | nil => rfl
  | cons c t =>
    have hne : String.utf8EncodeChar c ≠ [] := by
      intro hnil
      have := String.length_utf8EncodeChar c
      have := c.utf8Size_pos
      simp_all
    rw [first?, utf8_cons, List.head?_append_of_ne_nil _ hne]
    obtain hlt | hle := Nat.lt_or_ge 127 c.val.toNat
    · obtain ⟨b, hb, hhigh⟩ := exists_head?_utf8EncodeChar hlt
      rw [hb, Option.bind_some, if_neg hhigh]
    · have hnat : (UInt8.ofNat c.val.toNat).toNat = c.val.toNat := by
        rw [UInt8.toNat_ofNat']
        omega
      rw [head?_utf8EncodeChar_of_le hle, Option.bind_some, if_pos, hnat]
      · exact congrArg some (Char.ofNat_toNat c)
      · rw [UInt8.lt_iff_toNat_lt, hnat]
        exact Nat.lt_succ_of_le hle

/-- The bytes in front decide the character in front. -/
theorem eq_of_utf8EncodeChar_append_eq {c d : Char} {u v : List UInt8}
    (h : String.utf8EncodeChar c ++ u = String.utf8EncodeChar d ++ v) : c = d := by
  have hdecode := congrArg (fun l : List UInt8 => l.toByteArray.utf8DecodeChar? 0) h
  simp only [List.toByteArray_append, ByteArray.utf8DecodeChar?_utf8EncodeChar_append] at hdecode
  exact Option.some.inj hdecode

theorem utf8_prefix_iff {s t : Text} : s.utf8 <+: t.utf8 ↔ s <+: t := by
  constructor
  · intro h
    induction s generalizing t with
    | nil => exact List.nil_prefix
    | cons c s ih =>
      obtain ⟨u, hu⟩ := h
      rw [utf8_cons, List.append_assoc] at hu
      cases t with
      | nil =>
        have hlength := congrArg List.length hu
        have := c.utf8Size_pos
        simp only [List.length_append, String.length_utf8EncodeChar, utf8_nil,
          List.length_nil] at hlength
        omega
      | cons d t =>
        rw [utf8_cons] at hu
        obtain rfl := eq_of_utf8EncodeChar_append_eq hu
        exact List.cons_prefix_cons.2 ⟨rfl, ih ⟨u, List.append_cancel_left hu⟩⟩
  · rintro ⟨u, rfl⟩
    exact ⟨utf8 u, (utf8_append s u).symm⟩

end Text

/-- What is read between two cursors is a slice that is given. -/
theorem Cursor.Reads.slice?_eq {source s : Text} {c d : Cursor} (h : c.Reads s d)
    (hc : c.Within source) : source.slice? c.offset d.offset = some s := by
  rw [← h.slice_eq hc]
  exact Text.slice?_of_isBoundary hc.isBoundary (h.within hc).isBoundary h.offset_le

end MacroAssembler
