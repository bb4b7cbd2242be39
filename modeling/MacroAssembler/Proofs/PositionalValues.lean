/-
MacroAssembler/Proofs/PositionalValues.lean

What digits denote, and which numbers a push can carry.

`Numeral.denoted base t` is the number that the digits of `t` denote in positional notation:
a digit counts for its place in the alphabet `0` to `f`, times the power of the base that its
position gives.  Both readers of literals give that number (`decimal?_of_isDigit`,
`hex?_eq_denoted`).

The shortest byte string of a number is as long as its logarithm says
(`length_minimalBytes`), so that a push carries exactly the numbers below `2 ^ 256`
(`Push.encode_of_lt`, `Push.encode_of_le`).
-/
import Mathlib.Data.Nat.Digits.Defs
import Mathlib.Data.Nat.Log
import MacroAssembler.Proofs.Numerals

namespace MacroAssembler

namespace Numeral

/-! ### Digits -/

/-- The digits up to base 16. -/
def alphabet : Text := "0123456789abcdef".toList

/-- What a digit of either case counts for. -/
def digitOf (ch : Char) : Nat := alphabet.idxOf ch.toLower

/-- The number that digits denote in positional notation. -/
def denoted (base : Nat) (t : Text) : Nat := Nat.ofDigits base (t.map digitOf).reverse

theorem lt_of_isHexDigit {ch : Char} (h : Text.isHexDigit ch = true) : ch.toNat < 128 := by
  simp only [Text.isHexDigit, Char.isDigit, Bool.or_eq_true, Bool.and_eq_true, decide_eq_true_eq,
    Char.le_def, UInt32.le_iff_toNat_le] at h
  show ch.val.toNat < 128
  obtain (⟨-, h⟩ | ⟨-, h⟩) | ⟨-, h⟩ := h
  · exact Nat.lt_of_le_of_lt h (by decide)
  · exact Nat.lt_of_le_of_lt h (by decide)
  · exact Nat.lt_of_le_of_lt h (by decide)

/-- Both readers count a digit for its place in the alphabet. -/
theorem digit_values :
    ∀ n < 128, Text.isHexDigit (Char.ofNat n) = true →
      hexValue? (Char.ofNat n) = some (digitOf (Char.ofNat n)) ∧
        (Text.isDigit (Char.ofNat n) = true →
          (Char.ofNat n).toNat - '0'.toNat = digitOf (Char.ofNat n)) := by
  decide +kernel

theorem hexValue?_of_isHexDigit {ch : Char} (h : Text.isHexDigit ch = true) :
    hexValue? ch = some (digitOf ch) := by
  have hvalue := digit_values ch.toNat (lt_of_isHexDigit h)
  rw [Char.ofNat_toNat] at hvalue
  exact (hvalue h).1

theorem sub_of_isDigit {ch : Char} (h : Text.isDigit ch = true) :
    ch.toNat - '0'.toNat = digitOf ch := by
  have hhex : Text.isHexDigit ch = true := by
    have hdigit : ch.isDigit = true := h
    simp [Text.isHexDigit, hdigit]
  have hvalue := digit_values ch.toNat (lt_of_isHexDigit hhex)
  rw [Char.ofNat_toNat] at hvalue
  exact (hvalue hhex).2 h

/-- Reading digits from the left gives their positional value. -/
theorem ofDigits_eq (base : Nat) (digits : List Nat) :
    ofDigits base digits = Nat.ofDigits base digits.reverse := by
  rw [Nat.ofDigits_eq_foldr, List.foldr_reverse, ofDigits]
  congr 1
  funext n d
  rw [Nat.cast_id, Nat.mul_comm, Nat.add_comm]

theorem decimal?_of_isDigit {t : Text} (hne : t ≠ []) (h : ∀ ch ∈ t, Text.isDigit ch = true) :
    decimal? t = some (denoted 10 t) := by
  have hall : t.all Text.isDigit = true := List.all_eq_true.2 h
  have hvalues : t.map (fun ch => ch.toNat - '0'.toNat) = t.map digitOf :=
    List.map_congr_left fun ch hch => sub_of_isDigit (h ch hch)
  rw [decimal?, if_neg (by simp [hne, hall]), hvalues, ofDigits_eq, denoted]

theorem mapM_hexValue?_of_isHexDigit {t : Text} (h : ∀ ch ∈ t, Text.isHexDigit ch = true) :
    t.mapM hexValue? = some (t.map digitOf) := by
  induction t with
  | nil => rfl
  | cons ch t ih =>
    obtain ⟨hch, ht⟩ := List.forall_mem_cons.1 h
    simp [List.mapM_cons, hexValue?_of_isHexDigit hch, ih ht]

theorem hex?_eq_denoted {t : Text} (hne : t ≠ []) (h : ∀ ch ∈ t, Text.isHexDigit ch = true) :
    hex? t = some (denoted 16 t) := by
  rw [hex?_of_isHexDigit hne h, mapM_hexValue?_of_isHexDigit h, Option.map_some, ofDigits_eq,
    denoted]

/-! ### Widths -/

/-- The bytes that a number needs. -/
theorem length_minimalBytes (n : Nat) : (minimalBytes n).length = Nat.log 256 n + 1 := by
  fun_induction minimalBytes n with
  | case1 n hlt => rw [Nat.log_of_lt hlt, List.length_singleton]
  | case2 n hge ih =>
    rw [List.length_append, ih, Nat.log_of_one_lt_of_le (by decide) (Nat.not_lt.1 hge),
      List.length_singleton]

theorem length_minimalBytes_pos (n : Nat) : 1 ≤ (minimalBytes n).length := by
  rw [length_minimalBytes]
  exact Nat.le_add_left 1 _

/-- A byte string of a given length holds the numbers below a power of 256. -/
theorem length_minimalBytes_le_iff {n width : Nat} (hwidth : 0 < width) :
    (minimalBytes n).length ≤ width ↔ n < 256 ^ width := by
  rw [length_minimalBytes, Nat.add_one_le_iff]
  rcases Nat.eq_zero_or_pos n with rfl | hpos
  · simp [hwidth]
  · exact Nat.log_lt_iff_lt_pow (by decide) (Nat.pos_iff_ne_zero.1 hpos)

end Numeral

namespace Push

theorem length_minimalBytes_le_maxPushWidth_iff {n : Nat} :
    (Numeral.minimalBytes n).length ≤ Opcode.maxPushWidth ↔ n < 2 ^ 256 := by
  have hbound : (2 : Nat) ^ 256 = 256 ^ Opcode.maxPushWidth := pow_mul 2 8 32
  rw [hbound]
  exact Numeral.length_minimalBytes_le_iff (by decide)

/-- Numbers below `2 ^ 256` can be pushed. -/
theorem encode_of_lt {n : Nat} (h : n < 2 ^ 256) : encode n = .ok ⟨Numeral.minimalBytes n⟩ := by
  have hwidth := length_minimalBytes_le_maxPushWidth_iff.2 h
  have hsome : Opcode.push? (Numeral.minimalBytes n).length =
      some (Opcode.pushBase + UInt8.ofNat (Numeral.minimalBytes n).length) :=
    if_pos ⟨Numeral.length_minimalBytes_pos n, hwidth⟩
  rw [encode, hsome]

/-- Larger numbers cannot; the report says how many bytes they need. -/
theorem encode_of_le {n : Nat} (h : 2 ^ 256 ≤ n) :
    encode n = .error (.tooWide (Nat.log 256 n + 1)) := by
  have hnone : Opcode.push? (Numeral.minimalBytes n).length = none := by
    refine if_neg fun hwidth => ?_
    exact absurd (length_minimalBytes_le_maxPushWidth_iff.1 hwidth.2) (Nat.not_lt.2 h)
  rw [encode, hnone, Numeral.length_minimalBytes]

end Push

end MacroAssembler
