/-
MacroAssembler/Comment.lean

Blanking comments.

A `//` comment runs to the end of its line and a block comment to the first
closing mark after its opening mark.  A comment is replaced by one space per
byte, newlines excepted, so every other byte keeps its offset and its line.
-/
import MacroAssembler.Text.Basic

namespace MacroAssembler.Comment

/-- Where a reader of the text is. -/
inductive Mode where
  /-- Outside all comments. -/
  | code
  /-- In a comment that ends with its line. -/
  | line
  /-- In a block comment that was opened on the given line. -/
  | block (opened : Nat)
  deriving Repr, DecidableEq

/-- Blank the comments of a text that starts in the given mode and on the
given line.  Fails with the line of a block comment that is never closed. -/
def blankFrom : Mode → (line : Nat) → Text → Except Nat Text
  | .block opened, _, [] => .error opened
  | _, _, [] => .ok []
  | .code, n, '/' :: '/' :: t => do return ' ' :: ' ' :: (← blankFrom .line n t)
  | .code, n, '/' :: '*' :: t => do return ' ' :: ' ' :: (← blankFrom (.block n) n t)
  | .block _, n, '*' :: '/' :: t => do return ' ' :: ' ' :: (← blankFrom .code n t)
  | .block opened, n, '\n' :: t => do return '\n' :: (← blankFrom (.block opened) (n + 1) t)
  | _, n, '\n' :: t => do return '\n' :: (← blankFrom .code (n + 1) t)
  | .code, n, c :: t => do return c :: (← blankFrom .code n t)
  | mode, n, c :: t => do return Text.spaces [c] ++ (← blankFrom mode n t)

/-- Blank the comments of a whole text. -/
def strip (t : Text) : Except Nat Text := blankFrom .code 1 t

end MacroAssembler.Comment
