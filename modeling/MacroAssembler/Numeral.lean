/-
MacroAssembler/Numeral.lean

Number literals and byte strings.

A literal is decimal digits or `0x` and hexadecimal digits, and denotes a
natural number of any size.  The hexadecimal reader is the more liberal of the
two: it takes one plus sign in front and underscores between digits.

A byte string is read and written most significant byte first.  `minimalBytes`
is the shortest non-empty string for a number.
-/
import MacroAssembler.Text.Basic

namespace MacroAssembler.Numeral

/-! ### Reading literals -/

/-- The value of a hexadecimal digit of either case. -/
def hexValue? (c : Char) : Option Nat :=
  if c.isDigit then some (c.toNat - '0'.toNat)
  else if 'a' ≤ c ∧ c ≤ 'f' then some (c.toNat - 'a'.toNat + 10)
  else if 'A' ≤ c ∧ c ≤ 'F' then some (c.toNat - 'A'.toNat + 10)
  else none

/-- The number written by a list of digit values in the given base. -/
def ofDigits (base : Nat) (digits : List Nat) : Nat :=
  digits.foldl (fun n d => n * base + d) 0

/-- Read decimal digits. -/
def decimal? (t : Text) : Option Nat :=
  if t.isEmpty || !t.all Text.isDigit then none
  else some (ofDigits 10 (t.map fun c => c.toNat - '0'.toNat))

/-- Drop one plus sign, unless a second one follows it. -/
def dropPlus : Text → Text
  | '+' :: '+' :: t => '+' :: '+' :: t
  | '+' :: t => t
  | t => t

/-- Read hexadecimal digits.  One plus sign may come first, and underscores
may stand anywhere but in front. -/
def hex? (t : Text) : Option Nat :=
  let t := dropPlus t
  if t.isEmpty || t.head? == some '_' then none
  else (t.filter (· != '_')).mapM hexValue? |>.map (ofDigits 16)

/-- Read a literal: hexadecimal after `0x`, else decimal. -/
def parse? (t : Text) : Option Nat :=
  match t with
  | '0' :: 'x' :: digits => hex? digits
  | t => decimal? t

/-- Counts are machine words: they stay below this bound. -/
def wordBound : Nat := 0x10000000000000000

/-- Read decimal digits that make a count. -/
def count? (t : Text) : Option Nat :=
  match decimal? t with
  | some n => if n < wordBound then some n else none
  | none => none

/-! ### Byte strings -/

/-- The shortest non-empty byte string for `n`. -/
def minimalBytes (n : Nat) : List UInt8 :=
  if n < 256 then [UInt8.ofNat n] else minimalBytes (n / 256) ++ [UInt8.ofNat (n % 256)]
termination_by n
decreasing_by omega

/-- The number that a byte string denotes. -/
def ofBytes (bytes : List UInt8) : Nat := ofDigits 256 (bytes.map UInt8.toNat)

/-- A number as two bytes, of which it must fill no more. -/
def twoBytes (n : Nat) : UInt8 × UInt8 := (UInt8.ofNat (n / 256), UInt8.ofNat (n % 256))

/-! ### Writing -/

/-- A hexadecimal digit, in lower case. -/
def hexDigit (n : Nat) : Char :=
  if n < 10 then Char.ofNat ('0'.toNat + n) else Char.ofNat ('a'.toNat + (n - 10))

/-- A byte as two hexadecimal digits. -/
def hexOfByte (b : UInt8) : Text := [hexDigit (b.toNat / 16), hexDigit (b.toNat % 16)]

/-- A byte string in lower-case hexadecimal. -/
def hexOfBytes (bytes : List UInt8) : Text := bytes.flatMap hexOfByte

/-- A number in lower-case hexadecimal, without leading zeros. -/
def hexDigits (n : Nat) : Text :=
  if n < 16 then [hexDigit n] else hexDigits (n / 16) ++ [hexDigit (n % 16)]
termination_by n
decreasing_by omega

end MacroAssembler.Numeral
