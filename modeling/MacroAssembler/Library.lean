/-
MacroAssembler/Library.lean

Source files, and the single text that a program and its includes make.

A file may begin with directives `#include "name"`.  Flattening places each
included file before the one that includes it, once, the first time it is
reached, and blanks the directive.  Comments are blanked before directives are
looked for.

A library is whatever gives file texts by name.  It also bounds how many files
can be reached, which is what makes flattening end: an include that goes deeper
than the library has files cannot name one of them.
-/
import MacroAssembler.Comment
import MacroAssembler.Listing
import MacroAssembler.Text.Cursor

namespace MacroAssembler

/-- Why a file cannot be read or written. -/
inductive FileFault where
  /-- There is no such file. -/
  | missing
  /-- A directory stands where a file should. -/
  | isDirectory
  /-- A file stands where a directory should. -/
  | notDirectory
  /-- The name, or a part of it, is too long. -/
  | nameTooLong
  /-- The name holds a NUL character. -/
  | nulInName
  /-- The bytes are not UTF-8. -/
  | notText
  /-- Anything else, in the words of the system. -/
  | other (text : String)
  deriving Repr, DecidableEq

/-- The wording of a file fault. -/
def FileFault.message : FileFault → String
  | missing => "No such file or directory (os error 2)"
  | isDirectory => "Is a directory (os error 21)"
  | notDirectory => "Not a directory (os error 20)"
  | nameTooLong => "File name too long (os error 36)"
  | nulInName => "file name contained an unexpected NUL byte"
  | notText => "stream did not contain valid UTF-8"
  | other text => text

/-- Why source files cannot be put together. -/
inductive SourceError where
  /-- A file could not be read. -/
  | unreadable (path : String) (fault : FileFault)
  /-- An included file does not exist. -/
  | includeNotFound (path : String) (includer : String)
  /-- A block comment is never closed. -/
  | unterminatedComment (file : String) (line : Nat)
  deriving Repr, DecidableEq

/-- The wording of a source error. -/
def SourceError.message : SourceError → String
  | unreadable path fault => s!"failed to read '{path}': {fault.message}"
  | includeNotFound path includer =>
    s!"cannot find included file '{path}' (included from '{includer}')"
  | unterminatedComment file line => s!"unterminated block comment in '{file}' at line {line}"

/-! ### Include directives -/

/-- An include directive at the head of a file. -/
structure Include where
  /-- The name between the quotes. -/
  path : String
  /-- The blanks in front of the directive. -/
  blanks : Text
  /-- The directive itself. -/
  directive : Text
  deriving Repr, DecidableEq

namespace Include

/-- Read one directive, after any blanks. -/
def read? (c : Cursor) : Option (Include × Cursor) := do
  let start := c.skipBlank
  let d ← start.eatText? "#include".toList
  let d := (d.eatWhile fun ch => ch == ' ' || ch == '\t').2
  let d ← d.eat? '"'
  let (path, d) := d.eatWhile fun ch => ch != '"' && ch != '\n'
  let d ← d.eat? '"'
  return (⟨String.ofList path, c.upTo start, start.upTo d⟩, d)

theorem read?_rest_lt {c d : Cursor} {i : Include} (h : read? c = some (i, d)) :
    d.rest.length < c.rest.length := by
  simp only [read?, Option.bind_eq_bind, Option.bind_eq_some_iff] at h
  obtain ⟨c₁, h₁, c₂, h₂, c₃, h₃, h₄⟩ := h
  obtain ⟨-, rfl⟩ := Prod.mk.inj (Option.some.inj h₄)
  have := Cursor.skipBlank_rest_le c
  have := Cursor.eatText?_rest_le h₁
  have := Cursor.eatWhile_rest_le (fun ch => ch == ' ' || ch == '\t') c₁
  have := Cursor.eat?_rest_lt h₂
  have := Cursor.eatWhile_rest_le (fun ch => ch != '"' && ch != '\n') c₂
  have := Cursor.eat?_rest_lt h₃
  omega

/-- The directives at the head of a text, and the text after them. -/
def leading (c : Cursor) : List Include × Text :=
  match h : read? c with
  | none => ([], c.rest)
  | some (i, d) =>
    have := read?_rest_lt h
    let (is, rest) := leading d
    (i :: is, rest)
termination_by c.rest.length

/-- The names that a file includes.  A file that cannot be read as text without
comments includes none. -/
def names (raw : Text) : List String :=
  match Comment.strip raw with
  | .error _ => []
  | .ok text => (leading (Cursor.ofText text)).1.map Include.path

/-- A text whose leading directives are replaced by spaces. -/
def blankLeading (includes : List Include) (rest : Text) : Text :=
  includes.flatMap (fun i => i.blanks ++ Text.spaces i.directive) ++ rest

end Include

/-! ### Libraries -/

/-- A set of source files. -/
structure Library where
  /-- The text of a file, for the file that includes it if there is one. -/
  load : (path : String) → (includer : Option String) → Except SourceError Text
  /-- No chain of includes reaches more files than this. -/
  size : Nat

namespace Library

/-- The name that stands for the includer of an entry file. -/
def entryName : String := "<entry>"

/-- Files by name; a later file replaces an earlier one of the same name. -/
def ofFiles (files : List (String × Text)) : Library where
  load path includer :=
    match files.reverse.lookup path with
    | some text => .ok text
    | none => .error (.includeNotFound path (includer.getD entryName))
  size := files.length

/-- Files that are read one by one.  A missing file that is included is reported
as such, any other fault with the full name `full path` of the file. -/
def ofReader (full : String → String) (read : String → Except FileFault Text) (size : Nat) :
    Library where
  load path includer :=
    match read (full path), includer with
    | .ok text, _ => .ok text
    | .error .missing, some name => .error (.includeNotFound path name)
    | .error fault, _ => .error (.unreadable (full path) fault)
  size := size

/-- A state of flattening: the names met so far, and the files finished. -/
structure Progress where
  seen : List String
  files : List (String × Text)

/-- Visit each include that was not met before. -/
def visitAll (visit : String → Progress → Except SourceError Progress) :
    List Include → Progress → Except SourceError Progress
  | [], p => .ok p
  | i :: is, p =>
    if i.path ∈ p.seen then visitAll visit is p
    else do visitAll visit is (← visit i.path { p with seen := i.path :: p.seen })

/-- Visit a file: first the files it includes, then the file itself.  `depth`
bounds the length of the chain of includes from here on. -/
def visit (lib : Library) : (depth : Nat) → (includer : Option String) → String → Progress →
    Except SourceError Progress
  | 0, includer, path, _ => .error (.includeNotFound path (includer.getD entryName))
  | depth + 1, includer, path, p => do
    let raw ← lib.load path includer
    match Comment.strip raw with
    | .error line => .error (.unterminatedComment path line)
    | .ok text =>
      let (includes, rest) := Include.leading (Cursor.ofText text)
      let p ← visitAll (visit lib depth (some path)) includes p
      return { p with files := p.files ++ [(path, Include.blankLeading includes rest)] }

/-- Put an entry file and everything it includes into one listing. -/
def flatten (lib : Library) (entry : String) : Except SourceError Listing := do
  let p ← visit lib (lib.size + 1) none entry ⟨[entry], []⟩
  return Listing.ofFiles p.files

end Library

end MacroAssembler
