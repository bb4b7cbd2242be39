/-
MacroAssembler/Proofs/PushEncoding.lean

Numbers and the immediates that push them.

A byte string without a leading zero is the shortest one of the number that it denotes
(`Numeral.minimalBytes_ofBytes`): no string of that number is shorter
(`Numeral.isLeast_minimalBytes`).  So the numbers below `2 ^ 256` and the byte strings of 1 to
32 bytes without a leading zero are the same thing twice: `Push.encode` goes from the one to
the other, and `Push.value` goes back.

Main result: `Push.encode_minimal`.
-/
import MacroAssembler.Proofs.WellFormedness

namespace MacroAssembler

namespace Numeral

/-! ### Byte strings of a number -/

theorem ofBytes_append_singleton (bytes : List UInt8) (b : UInt8) :
    ofBytes (bytes ++ [b]) = ofBytes bytes * 256 + b.toNat := by
  rw [ofBytes, List.map_append, List.map_singleton, ofDigits_append_singleton, ← ofBytes]

theorem ofBytes_lt (bytes : List UInt8) : ofBytes bytes < 256 ^ bytes.length := by
  have hbytes : ∀ n ∈ (bytes.map UInt8.toNat).reverse, n < 256 := by
    intro n hn
    obtain ⟨b, -, rfl⟩ := List.mem_map.1 (List.mem_reverse.1 hn)
    exact b.toNat_lt
  have hlt := Nat.ofDigits_lt_base_pow_length (by decide) hbytes
  rwa [List.length_reverse, List.length_map, ← ofDigits_eq] at hlt

/-- The lengths of the byte strings of a number.  The empty string denotes zero, but does not
count: a push has at least one byte. -/
def widths (n : Nat) : Set Nat := {k | ∃ bytes, bytes ≠ [] ∧ ofBytes bytes = n ∧ bytes.length = k}

theorem isLeast_minimalBytes (n : Nat) : IsLeast (widths n) (minimalBytes n).length := by
  constructor
  · exact ⟨minimalBytes n, List.length_pos_iff.1 (length_minimalBytes_pos n),
      ofBytes_minimalBytes n, rfl⟩
  · rintro k ⟨bytes, hne, rfl, rfl⟩
    exact (length_minimalBytes_le_iff (List.length_pos_iff.2 hne)).2 (ofBytes_lt bytes)

/-- The empty string is shorter than the shortest immediate of zero; nothing else is. -/
theorem eq_nil_of_length_lt {bytes : List UInt8}
    (h : bytes.length < (minimalBytes (ofBytes bytes)).length) : bytes = [] := by
  by_contra hne
  exact absurd ((isLeast_minimalBytes _).2 ⟨bytes, hne, rfl, rfl⟩) (Nat.not_le.2 h)

theorem minimalBytes_zero : minimalBytes 0 = [0] := by
  rw [minimalBytes]
  rfl

/-- A byte string without a leading zero is the shortest one of its number. -/
theorem minimalBytes_ofBytes {bytes : List UInt8} (hne : bytes ≠ [])
    (hlead : bytes.head? = some 0 → bytes = [0]) : minimalBytes (ofBytes bytes) = bytes := by
  induction bytes using List.reverseRecOn with
  | nil => exact absurd rfl hne
  | append_singleton init b ih =>
    have hb := b.toNat_lt
    rw [ofBytes_append_singleton]
    rcases eq_or_ne init [] with rfl | hinit
    · have hzero : ofBytes [] = 0 := rfl
      rw [hzero, Nat.zero_mul, Nat.zero_add, minimalBytes, if_pos hb, UInt8.ofNat_toNat,
        List.nil_append]
    · have hhead : init.head? ≠ some 0 := by
        intro hhead
        have hlen := congrArg List.length
          (hlead (by rw [List.head?_append_of_ne_nil _ hinit, hhead]))
        have := List.length_pos_iff.2 hinit
        rw [List.length_append, List.length_singleton, List.length_singleton] at hlen
        omega
      have hbytes := ih hinit fun h => absurd h hhead
      -- so the bytes in front denote no zero, and the last byte is what division leaves over
      have hpos : ofBytes init ≠ 0 := by
        intro hzero
        rw [hzero, minimalBytes_zero] at hbytes
        exact hhead (by rw [← hbytes]; rfl)
      have hdiv : (ofBytes init * 256 + b.toNat) / 256 = ofBytes init := by omega
      have hmod : (ofBytes init * 256 + b.toNat) % 256 = b.toNat := by omega
      rw [minimalBytes, if_neg (by omega), hdiv, hmod, hbytes, UInt8.ofNat_toNat]

end Numeral

namespace Push

/-- The push of a number: it carries the number, no byte more than that takes, and the opcode of
its width. -/
structure Represents (p : Push) (n : Nat) : Prop extends Shortest p where
  value : p.value = n
  /-- The opcode is the push of as many bytes. -/
  push : Opcode.push? p.immediate.length = some p.opcode
  /-- A shorter string of the number has no bytes at all. -/
  shorter : ∀ bytes, Numeral.ofBytes bytes = n → bytes.length < p.immediate.length →
    n = 0 ∧ bytes = []
  zero : n = 0 → p.immediate = [0]

theorem represents_of_encode {n : Nat} {p : Push} (h : encode n = .ok p) : p.Represents n := by
  have himm := immediate_of_encode h
  refine ⟨shortest_of_encode h, value_of_encode h, if_pos (encodable_of_encode h), ?_, ?_⟩
  · rintro bytes rfl hlt
    rw [himm] at hlt
    obtain rfl := Numeral.eq_nil_of_length_lt hlt
    exact ⟨rfl, rfl⟩
  · rintro rfl
    rw [himm, Numeral.minimalBytes_zero]

theorem exists_encode_iff {n : Nat} : (∃ p, encode n = .ok p) ↔ n < 2 ^ 256 := by
  constructor
  · rintro ⟨p, hp⟩
    by_contra hge
    rw [encode_of_le (Nat.not_lt.1 hge)] at hp
    cases hp
  · exact fun hlt => ⟨_, encode_of_lt hlt⟩

/-- Every immediate without a leading zero encodes the number that it denotes, and no other. -/
theorem encode_eq_ok_iff {bytes : List UInt8} {n : Nat} (hpos : 1 ≤ bytes.length)
    (hle : bytes.length ≤ 32) (hlead : bytes.head? = some 0 → bytes = [0]) :
    encode n = .ok ⟨bytes⟩ ↔ n = Numeral.ofBytes bytes := by
  constructor
  · exact fun h => (value_of_encode h).symm
  · rintro rfl
    have hbytes := Numeral.minimalBytes_ofBytes (List.length_pos_iff.1 hpos) hlead
    have hlt : Numeral.ofBytes bytes < 2 ^ 256 := by
      rw [← length_minimalBytes_le_maxPushWidth_iff, hbytes]
      exact hle
    rw [encode_of_lt hlt, hbytes]

theorem encode_of_lt_wordBound {n : Nat} (h : n < Numeral.wordBound) : encode n = .ok (ofSize n) :=
  encode_of_lt (Nat.lt_trans h (by decide))

/-- **Pushes are a minimal encoding.**  The numbers below `2 ^ 256` are pushed, each by the
shortest immediate that denotes it, and every immediate without a leading zero pushes the number
that it denotes; for larger numbers, the bytes that they would take are reported.  Sizes are
pushed as numbers are.  Digits of a literal, and those that a byte string is written with, denote
numbers by their positions. -/
theorem encode_minimal (n : Nat) (bytes : List UInt8) (digits : Text) :
    ((∃ p, encode n = .ok p) ↔ n < 2 ^ 256) ∧
      (∀ p, encode n = .ok p → p.Represents n) ∧
      (2 ^ 256 ≤ n → ∃ width, encode n = .error (.tooWide width) ∧
        IsLeast (Numeral.widths n) width) ∧
      (1 ≤ bytes.length → bytes.length ≤ 32 → (bytes.head? = some 0 → bytes = [0]) →
        (encode n = .ok ⟨bytes⟩ ↔ n = Numeral.ofBytes bytes)) ∧
      (n < Numeral.wordBound → encode n = .ok (ofSize n)) ∧
      (digits ≠ [] → (∀ ch ∈ digits, Text.isDigit ch = true) →
        Numeral.decimal? digits = some (Numeral.denoted 10 digits)) ∧
      (digits ≠ [] → (∀ ch ∈ digits, Text.isHexDigit ch = true) →
        Numeral.hex? digits = some (Numeral.denoted 16 digits)) ∧
      Numeral.hex? (Numeral.hexOfBytes (Numeral.minimalBytes n)) = some n := by
  refine ⟨exists_encode_iff, fun _ => represents_of_encode, ?_, encode_eq_ok_iff,
    encode_of_lt_wordBound, Numeral.decimal?_of_isDigit, Numeral.hex?_eq_denoted, ?_⟩
  · intro hge
    refine ⟨_, encode_of_le hge, ?_⟩
    rw [← Numeral.length_minimalBytes]
    exact Numeral.isLeast_minimalBytes n
  · rw [Numeral.hex?_hexOfBytes (List.length_pos_iff.1 (Numeral.length_minimalBytes_pos n)),
      Numeral.ofBytes_minimalBytes]

/-- An immediate that ends with a zero byte, and digits of both cases. -/
theorem encode_minimal_trailing :
    encode 0x0c00 = .ok ⟨[0x0c, 0x00]⟩ ∧ Represents ⟨[0x0c, 0x00]⟩ 0x0c00 ∧
      encode 0x0c00 = .ok (ofSize 0x0c00) ∧ Numeral.hex? "0fF".toList = some 0xff := by
  obtain ⟨-, hrepresents, -, hbytes, hsize, -, hdigits, -⟩ :=
    encode_minimal 0x0c00 [0x0c, 0x00] "0fF".toList
  have hencode := (hbytes (by decide) (by decide) (by decide)).2 (by decide)
  have hhex : ∀ ch ∈ "0fF".toList, Text.isHexDigit ch = true := List.all_eq_true.1 (by decide)
  exact ⟨hencode, hrepresents _ hencode, hsize (by decide), hdigits (by decide) hhex⟩

end Push

end MacroAssembler
