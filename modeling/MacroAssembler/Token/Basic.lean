/-
MacroAssembler/Token/Basic.lean

The tokens of a macro body.
-/
import MacroAssembler.Text.Basic

namespace MacroAssembler

/-- What a token of a macro body is. -/
inductive TokenKind where
  /-- `NAME()` or `NAME<args>()`, with the raw text between the brackets. -/
  | call (name : String) (args? : Option String)
  /-- `<param>` -/
  | templateRef (param : String)
  /-- `__codesize(NAME)` or `__codesize(NAME<args>)`. -/
  | codeSize (name : String) (args? : Option String)
  /-- `__tablesize(TABLE)` -/
  | tableSize (table : String)
  /-- `__tablestart(TABLE)` -/
  | tableStart (table : String)
  /-- `label:` -/
  | label (name : String)
  /-- Decimal digits. -/
  | decimal (digits : String)
  /-- Hexadecimal digits, without the `0x` in front of them. -/
  | hex (digits : String)
  /-- Any other identifier: a mnemonic or a reference to a jump label. -/
  | word (name : String)
  deriving Repr, DecidableEq

/-- A token at its place in the source. -/
structure Token where
  kind : TokenKind
  /-- The source text of the token. -/
  lexeme : Text
  /-- Byte offset of its first character. -/
  start : Nat
  deriving Repr, DecidableEq

/-- A place where no token can be read. -/
structure Unrecognized where
  /-- Byte offset of the offending text. -/
  offset : Nat
  /-- The offending text up to the next blank, cut after 32 characters. -/
  snippet : Text
  deriving Repr, DecidableEq

namespace TokenKind

/-- What a token is called in messages. -/
def describe : TokenKind → String
  | call _ _ => "macro call"
  | templateRef _ => "template reference"
  | codeSize _ _ => "__codesize"
  | tableSize _ => "__tablesize"
  | tableStart _ => "__tablestart"
  | label _ => "jump label"
  | decimal _ => "decimal literal"
  | hex _ => "hex literal"
  | word _ => "word"

end TokenKind

namespace Token

/-- Byte offset after the last character. -/
def stop (t : Token) : Nat := t.start + Text.byteLength t.lexeme

/-- A token as messages show it. -/
def describe (t : Token) : String := s!"{t.kind.describe} '{String.ofList t.lexeme}'"

end Token

end MacroAssembler
