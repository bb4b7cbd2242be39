/-
MacroAssembler/Proofs/TextBytes.lean

A text as its bytes.

Offsets count the bytes of the UTF-8 encoding of a text, and may stand inside a character.
`Text.utf8` lists these bytes.  No byte of another character is a newline
(`Text.newline_notMem`), so the lines of a text can be counted byte by byte
(`Text.count_newline_utf8`), and blanking characters leaves every newline at its byte
(`Blanks.newline_iff`).
-/
import MacroAssembler.Proofs.Blanking

namespace MacroAssembler

namespace Text

/-- The bytes of the UTF-8 encoding of a text. -/
def utf8 (t : Text) : List UInt8 := t.flatMap String.utf8EncodeChar

/-- The byte that ends a line. -/
def newline : UInt8 := 0x0a

/-- The byte that stands for what is blanked. -/
def space : UInt8 := 0x20

@[simp] theorem utf8_nil : utf8 [] = [] := rfl

@[simp] theorem utf8_cons (c : Char) (t : Text) :
    utf8 (c :: t) = String.utf8EncodeChar c ++ utf8 t := rfl

@[simp] theorem utf8_append (s t : Text) : utf8 (s ++ t) = utf8 s ++ utf8 t :=
  List.flatMap_append

@[simp] theorem length_utf8 (t : Text) : (utf8 t).length = byteLength t := by
  induction t with
  | nil => rfl
  | cons c t ih => rw [utf8_cons, List.length_append, String.length_utf8EncodeChar, ih,
      byteLength_cons]

/-! ### Newlines -/

theorem utf8EncodeChar_newline : String.utf8EncodeChar '\n' = [newline] := rfl

/-- A newline byte is a newline. -/
theorem newline_notMem {c : Char} (h : c ≠ '\n') : newline ∉ String.utf8EncodeChar c := by
  have hval : c.val.toNat ≠ 10 := fun hval => h (Char.ext (UInt32.toNat_inj.1 hval))
  have hbyte : ∀ n, n % 256 ≠ 10 → newline ≠ UInt8.ofNat n := by
    intro n hn heq
    have hnat := congrArg UInt8.toNat heq
    rw [UInt8.toNat_ofNat'] at hnat
    exact hn hnat.symm
  rw [String.utf8EncodeChar]
  split
  · exact fun hmem => hbyte _ (by omega) (List.mem_singleton.1 hmem)
  -- every byte of a longer character is 128 or more
  split
  · simp only [List.mem_cons, List.not_mem_nil, or_false, not_or]
    exact ⟨hbyte _ (by omega), hbyte _ (by omega)⟩
  split
  · simp only [List.mem_cons, List.not_mem_nil, or_false, not_or]
    exact ⟨hbyte _ (by omega), hbyte _ (by omega), hbyte _ (by omega)⟩
  · simp only [List.mem_cons, List.not_mem_nil, or_false, not_or]
    exact ⟨hbyte _ (by omega), hbyte _ (by omega), hbyte _ (by omega), hbyte _ (by omega)⟩

theorem count_take_utf8EncodeChar (c : Char) (n : Nat) :
    ((String.utf8EncodeChar c).take n).count newline = if c = '\n' ∧ 0 < n then 1 else 0 := by
  by_cases hc : c = '\n'
  · subst hc
    rw [utf8EncodeChar_newline]
    cases n <;> simp
  · rw [if_neg fun h => hc h.1, List.count_eq_zero]
    exact fun hmem => newline_notMem hc (List.mem_of_mem_take hmem)

theorem count_newline_utf8 (t : Text) : t.utf8.count newline = t.count '\n' := by
  induction t with
  | nil => rfl
  | cons c t ih =>
    have hchar := count_take_utf8EncodeChar c c.utf8Size
    rw [← String.length_utf8EncodeChar, List.take_length, String.length_utf8EncodeChar] at hchar
    rw [utf8_cons, List.count_append, hchar, ih, List.count_cons, Nat.add_comm]
    simp [c.utf8Size_pos]

/-- Blanks take as many bytes as what they stand for. -/
theorem utf8_spaces (t : Text) : utf8 (spaces t) = List.replicate (byteLength t) space := by
  rw [spaces]
  induction byteLength t with
  | zero => rfl
  | succ n ih =>
    rw [List.replicate_succ, utf8_cons, ih]
    rfl

end Text

/-- Blanking characters moves no newline. -/
theorem Blanks.newline_iff {s t : Text} (h : Blanks s t) (i : Nat) :
    t.utf8[i]? = some Text.newline ↔ s.utf8[i]? = some Text.newline := by
  have hmap : t.utf8.map (· == Text.newline) = s.utf8.map (· == Text.newline) := by
    induction h with
    | nil => rfl
    | keep c _ ih => rw [Text.utf8_cons, Text.utf8_cons, List.map_append, List.map_append, ih]
    | @blank c s t hc _ ih =>
      have hchar : (String.utf8EncodeChar c).map (· == Text.newline) =
          List.replicate c.utf8Size false := by
        rw [← String.length_utf8EncodeChar]
        refine List.eq_replicate_iff.2 ⟨List.length_map _, ?_⟩
        intro b hb
        obtain ⟨byte, hbyte, rfl⟩ := List.mem_map.1 hb
        exact beq_false_of_ne fun heq => Text.newline_notMem hc (heq ▸ hbyte)
      rw [Text.utf8_append, Text.utf8_spaces, Text.utf8_cons, List.map_append, List.map_append, ih,
        hchar, List.map_replicate]
      rfl
  have hbyte : ∀ b? : Option UInt8, b? = some Text.newline ↔
      b?.map (· == Text.newline) = some true := by
    intro b?
    cases b? <;> simp
  rw [hbyte, hbyte, ← List.getElem?_map, ← List.getElem?_map, hmap]

end MacroAssembler
