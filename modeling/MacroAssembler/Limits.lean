/-
MacroAssembler/Limits.lean

Bounds on the work of a compilation.

Calls are expanded in place, so a short text can stand for a very long
program.  Each limit turns such growth into an error.
-/

namespace MacroAssembler

/-- Bounds on the expansion of macros. -/
structure Limits where
  /-- Deepest nesting of macros; the entry macro is at depth 1. -/
  depth : Nat := 256
  /-- Most macros expanded, measurements included. -/
  expansions : Nat := 1000000
  /-- Most bytes of code, jump tables included. -/
  bytes : Nat := 1048576
  deriving Repr, DecidableEq

/-- The limits when none are given. -/
def Limits.default : Limits := {}

end MacroAssembler
