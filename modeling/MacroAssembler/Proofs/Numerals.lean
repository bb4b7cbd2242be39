/-
MacroAssembler/Proofs/Numerals.lean

Numbers written down and read back.

A byte string is read back from its hexadecimal digits, and the shortest byte
string of a number denotes that number.  So the digits of a shortest push denote
the number that it was made for (`Push.hex?_immediate`).  Counts are read back
from their decimal digits (`count?_toDigits`).
-/
import MacroAssembler.Proofs.Pushes

namespace MacroAssembler

namespace Numeral

theorem ofDigits_append_singleton (base : Nat) (digits : List Nat) (d : Nat) :
    ofDigits base (digits ++ [d]) = ofDigits base digits * base + d := by
  simp [ofDigits, List.foldl_append]

/-! ### Hexadecimal -/

theorem hexValue?_hexDigit : ∀ n < 16, hexValue? (hexDigit n) = some n := by
  decide

theorem isHexDigit_hexDigit : ∀ n < 16, Text.isHexDigit (hexDigit n) = true := by
  decide

/-- The digits of a byte string, by value. -/
def nibbles (bytes : List UInt8) : List Nat :=
  bytes.flatMap fun b => [b.toNat / 16, b.toNat % 16]

theorem lt_of_mem_nibbles {bytes : List UInt8} {n : Nat} (h : n ∈ nibbles bytes) : n < 16 := by
  obtain ⟨b, -, hb⟩ := List.mem_flatMap.1 h
  have := b.toNat_lt
  simp only [List.mem_cons, List.not_mem_nil, or_false] at hb
  omega

theorem hexOfBytes_eq_map (bytes : List UInt8) :
    hexOfBytes bytes = (nibbles bytes).map hexDigit := by
  rw [hexOfBytes, nibbles, List.map_flatMap]
  rfl

/-- Two digits at a time, the digits of a byte string denote its number. -/
theorem ofDigits_nibbles (bytes : List UInt8) : ofDigits 16 (nibbles bytes) = ofBytes bytes := by
  have hfold : ∀ n, (nibbles bytes).foldl (fun n d => n * 16 + d) n =
      (bytes.map UInt8.toNat).foldl (fun n d => n * 256 + d) n := by
    induction bytes with
    | nil => intro n; rfl
    | cons b bytes ih =>
      intro n
      have hstep : (n * 16 + b.toNat / 16) * 16 + b.toNat % 16 = n * 256 + b.toNat := by omega
      show (nibbles bytes).foldl _ ((n * 16 + b.toNat / 16) * 16 + b.toNat % 16) = _
      rw [hstep, ih]
      rfl
  exact hfold 0

theorem isHexDigit_of_mem_hexOfBytes {bytes : List UInt8} {ch : Char} (h : ch ∈ hexOfBytes bytes) :
    Text.isHexDigit ch = true := by
  rw [hexOfBytes_eq_map] at h
  obtain ⟨n, hn, rfl⟩ := List.mem_map.1 h
  exact isHexDigit_hexDigit n (lt_of_mem_nibbles hn)

theorem hexOfBytes_ne_nil {bytes : List UInt8} (h : bytes ≠ []) : hexOfBytes bytes ≠ [] := by
  obtain ⟨b, bytes, rfl⟩ := List.exists_cons_of_ne_nil h
  simp [hexOfBytes, hexOfByte]

theorem dropPlus_of_not_mem {t : Text} (h : '+' ∉ t) : dropPlus t = t := by
  rw [dropPlus.eq_3]
  · rintro t rfl
    exact h (by simp)
  · rintro t rfl
    exact h (by simp)

/-- Without a plus sign and underscores, none of the freedoms of the reader is used. -/
theorem hex?_of_not_mem {t : Text} (hne : t ≠ []) (hplus : '+' ∉ t) (hunderscore : '_' ∉ t) :
    hex? t = (t.mapM hexValue?).map (ofDigits 16) := by
  have hhead : t.head? ≠ some '_' := fun hhead => hunderscore (List.mem_of_head? hhead)
  have hfilter : t.filter (· != '_') = t := by
    refine List.filter_eq_self.2 ?_
    intro ch hch
    refine bne_iff_ne.2 ?_
    rintro rfl
    exact hunderscore hch
  rw [hex?, dropPlus_of_not_mem hplus, hfilter, if_neg]
  simp [hne, hhead]

theorem hex?_of_isHexDigit {t : Text} (hne : t ≠ []) (h : ∀ ch ∈ t, Text.isHexDigit ch = true) :
    hex? t = (t.mapM hexValue?).map (ofDigits 16) :=
  hex?_of_not_mem hne (fun hmem => absurd (h '+' hmem) (by decide))
    fun hmem => absurd (h '_' hmem) (by decide)

theorem mapM_hexValue?_map_hexDigit {digits : List Nat} (h : ∀ n ∈ digits, n < 16) :
    (digits.map hexDigit).mapM hexValue? = some digits := by
  induction digits with
  | nil => rfl
  | cons n digits ih =>
    have htail := ih fun k hk => h k (List.mem_cons_of_mem n hk)
    simp [List.mapM_cons, hexValue?_hexDigit n (h n (by simp)), htail]

/-- A byte string is read back from its hexadecimal digits. -/
theorem hex?_hexOfBytes {bytes : List UInt8} (h : bytes ≠ []) :
    hex? (hexOfBytes bytes) = some (ofBytes bytes) := by
  rw [hex?_of_isHexDigit (hexOfBytes_ne_nil h) (fun _ => isHexDigit_of_mem_hexOfBytes),
    hexOfBytes_eq_map, mapM_hexValue?_map_hexDigit fun _ => lt_of_mem_nibbles,
    Option.map_some, ofDigits_nibbles]

/-! ### Shortest byte strings -/

theorem ofBytes_minimalBytes (n : Nat) : ofBytes (minimalBytes n) = n := by
  fun_induction minimalBytes n with
  | case1 n h =>
    simp [ofBytes, ofDigits]
    omega
  | case2 n h ih =>
    rw [ofBytes, List.map_append, List.map_singleton, ofDigits_append_singleton, ← ofBytes, ih]
    simp
    omega

/-! ### Decimal -/

theorem decimal?_toDigits (n : Nat) : decimal? (Nat.toDigits 10 n) = some n := by
  have hne : Nat.toDigits 10 n ≠ [] := Nat.toDigits_ne_nil
  have hall : (Nat.toDigits 10 n).all Text.isDigit = true := by
    refine List.all_eq_true.2 ?_
    intro ch hch
    exact Nat.isDigit_of_mem_toDigits (by decide) (by decide) hch
  have hvalue : ofDigits 10 ((Nat.toDigits 10 n).map fun ch => ch.toNat - '0'.toNat) = n := by
    have h := Nat.ofDigitChars_toDigits (b := 10) (n := n) (by decide) (by decide)
    rw [Nat.ofDigitChars] at h
    rw [ofDigits, List.foldl_map]
    simpa only [Nat.mul_comm] using h
  rw [decimal?, if_neg (by simp [hne, hall]), hvalue]

/-- A count is read back from its decimal digits. -/
theorem count?_toDigits {n : Nat} (h : n < wordBound) : count? (Nat.toDigits 10 n) = some n := by
  rw [count?, decimal?_toDigits]
  exact if_pos h

end Numeral

namespace Push

theorem immediate_of_encode {n : Nat} {p : Push} (h : encode n = .ok p) :
    p.immediate = Numeral.minimalBytes n := by
  rw [encode] at h
  split at h
  · obtain rfl := Except.ok.inj h
    rfl
  · cases h

/-- The shortest push of a number pushes that number. -/
theorem value_of_encode {n : Nat} {p : Push} (h : encode n = .ok p) : p.value = n := by
  rw [value, immediate_of_encode h, Numeral.ofBytes_minimalBytes]

/-- **A push is read back from its digits**: they denote the number that it was
made for. -/
theorem hex?_immediate {n : Nat} {p : Push} (h : encode n = .ok p) :
    Numeral.hex? (Numeral.hexOfBytes p.immediate) = some n := by
  have hne : p.immediate ≠ [] := List.length_pos_iff.1 (encodable_of_encode h).1
  rw [Numeral.hex?_hexOfBytes hne]
  exact congrArg some (value_of_encode h)

end Push

end MacroAssembler
