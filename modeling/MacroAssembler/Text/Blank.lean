/-
MacroAssembler/Text/Blank.lean

Blank characters and trimming.

A character is blank when it has the Unicode property White_Space.  The
property is stable, and its members are few enough to be listed.
-/
import MacroAssembler.Text.Basic

namespace MacroAssembler.Text

/-- Unicode white space. -/
def isBlank (c : Char) : Bool :=
  let n := c.toNat
  (0x09 ≤ n && n ≤ 0x0d) || n == 0x20 || n == 0x85 || n == 0xa0 || n == 0x1680 ||
  (0x2000 ≤ n && n ≤ 0x200a) || n == 0x2028 || n == 0x2029 || n == 0x202f ||
  n == 0x205f || n == 0x3000

/-- Remove blanks at the front. -/
def trimStart (t : Text) : Text := t.dropWhile isBlank

/-- Remove blanks at the back. -/
def trimEnd (t : Text) : Text := (t.reverse.dropWhile isBlank).reverse

/-- Remove blanks at both ends. -/
def trim (t : Text) : Text := trimEnd (trimStart t)

end MacroAssembler.Text
