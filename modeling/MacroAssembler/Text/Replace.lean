/-
MacroAssembler/Text/Replace.lean

Replacing a word by a text.

A position of a text is a *word boundary* when exactly one of the characters
beside it is a word character.  `replaceWord param value t` replaces every
occurrence of `param` that has a boundary on both sides, from left to right
and without overlap.  An empty `param` occurs at every boundary.
-/
import MacroAssembler.Text.Basic
import MacroAssembler.Text.WordChar

namespace MacroAssembler.Text

/-- Whether a text starts with a word character. -/
def startsWord (t : Text) : Bool := t.head?.any isWordChar

/-- Whether a text ends with a word character, where an empty text ends like
the text `before` it. -/
def endsWord (before : Bool) (t : Text) : Bool :=
  match t.getLast? with
  | none => before
  | some c => isWordChar c

/-- Whether `param` stands at the front of `t` with a word boundary on both
sides.  `before` tells whether a word character precedes `t`. -/
def wordHere (param : Text) (before : Bool) (t : Text) : Bool :=
  param.isPrefixOf t && (before != startsWord t) &&
    (endsWord before param != startsWord (t.drop param.length))

/-- Replace the occurrences of `param` in `t` that start at or after the first
`skip` characters; the skipped ones are dropped, being part of an occurrence
already replaced. -/
def replaceFrom (param value : Text) (skip : Nat) (before : Bool) : Text → Text
  | [] =>
    if skip == 0 && wordHere param before [] then value else []
  | c :: t =>
    match skip with
    | k + 1 => replaceFrom param value k (isWordChar c) t
    | 0 =>
      if wordHere param before (c :: t) then
        match param.length with
        | 0 => value ++ c :: replaceFrom param value 0 (isWordChar c) t
        | k + 1 => value ++ replaceFrom param value k (isWordChar c) t
      else c :: replaceFrom param value 0 (isWordChar c) t

/-- Replace every occurrence of the word `param` in `t` by `value`. -/
def replaceWord (param value t : Text) : Text := replaceFrom param value 0 false t

end MacroAssembler.Text
