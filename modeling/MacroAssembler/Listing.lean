/-
MacroAssembler/Listing.lean

A program text made of several files, and the way back from a byte offset to
a file and a line.

Files are put one after the other without a separator.  The file of an offset
is the last one that starts at or before it, so an empty file owns no byte
that another file holds.  Lines count from 1; a newline at the very end of a
file opens no further line.

Main definitions:

* `Listing.push`      add a file at the end
* `Listing.locate`    the file number and line of an offset
* `Listing.place`     the same with the file name and the text of the line
-/
import MacroAssembler.Text.Basic
import MacroAssembler.Text.Blank

namespace MacroAssembler

/-- Where a byte of code comes from: a file by its number, and a line. -/
structure Origin where
  file : Nat
  line : Nat
  deriving Repr, DecidableEq, Inhabited

/-- A place to show to a reader. -/
structure Place where
  /-- Name of the file. -/
  file : String
  /-- Line number, from 1. -/
  line : Nat
  /-- The line without blanks at its end. -/
  text : Text
  deriving Repr, DecidableEq

/-- A place as `file:line`. -/
def Place.describe (p : Place) : String := s!"{p.file}:{p.line}"

/-! ### Files -/

/-- Byte offsets at which the lines after the first begin, for a text that
starts at `pos`.  A newline that ends the text begins no line. -/
def laterLines (pos : Nat) : Text → List Nat
  | [] => []
  | c :: t =>
    let next := pos + c.utf8Size
    if c = '\n' ∧ t ≠ [] then next :: laterLines next t else laterLines next t

/-- A file of a listing. -/
structure ListedFile where
  name : String
  /-- Byte offset of the first character in the whole listing. -/
  start : Nat
  text : Text
  /-- Byte offsets at which the lines begin. -/
  lines : List Nat
  lines_eq : lines = start :: laterLines start text := by rfl

namespace ListedFile

/-- A file that starts at a given offset. -/
def ofText (name : String) (start : Nat) (text : Text) : ListedFile where
  name := name
  start := start
  text := text
  lines := start :: laterLines start text

/-- Byte offset after the last character. -/
def stop (f : ListedFile) : Nat := f.start + Text.byteLength f.text

/-- The line of an offset: as many lines as begin at or before it, and at
least one. -/
def lineOf (f : ListedFile) (index : Nat) : Nat := max 1 (f.lines.countP (· ≤ index))

/-- The number, from 0, of the last line that begins at or before an offset, and
of the first line if none does. -/
def lineIndex (f : ListedFile) (index : Nat) : Nat := f.lines.countP (· ≤ index) - 1

/-- The text of line number `k`, from 0, without blanks at its end. -/
def lineText (f : ListedFile) (k : Nat) : Text :=
  let start := f.lines.getD k f.start
  Text.trimEnd ((Text.dropBytes (start - f.start) f.text).takeWhile (· != '\n'))

end ListedFile

/-! ### Listings -/

/-- Files put one after the other. -/
structure Listing where
  files : List ListedFile := []

namespace Listing

/-- The listing without files. -/
def empty : Listing := {}

/-- The text of all files. -/
def text (l : Listing) : Text := l.files.flatMap ListedFile.text

/-- Bytes of all files. -/
def length (l : Listing) : Nat := Text.byteLength l.text

/-- Add a file at the end. -/
def push (l : Listing) (name : String) (text : Text) : Listing :=
  ⟨l.files ++ [ListedFile.ofText name l.length text]⟩

/-- A listing of the given files. -/
def ofFiles (files : List (String × Text)) : Listing :=
  files.foldl (fun l f => l.push f.1 f.2) empty

/-- A listing of one file. -/
def single (name : String) (text : Text) : Listing := empty.push name text

/-- The name that stands for a file the listing does not have. -/
def unknownName : String := "<unknown>"

/-- The name of a file. -/
def fileName (l : Listing) (file : Nat) : String :=
  match l.files[file]? with
  | some f => f.name
  | none => unknownName

/-- The last file that starts at or before an offset, with its number.  The
first file stands in when there is none. -/
def owner? (index : Nat) : List ListedFile → Option (Nat × ListedFile)
  | [] => none
  | [f] => some (0, f)
  | f :: g :: rest =>
    if g.start ≤ index then (owner? index (g :: rest)).map fun (n, h) => (n + 1, h)
    else some (0, f)

/-- The file and line of an offset. -/
def locate (l : Listing) (index : Nat) : Origin :=
  match owner? index l.files with
  | none => ⟨0, 0⟩
  | some (n, f) => ⟨n, f.lineOf index⟩

/-- The file, line and line text of an offset.  The line is counted anew, from
where it begins. -/
def place (l : Listing) (index : Nat) : Place :=
  match owner? index l.files with
  | none => ⟨unknownName, 0, []⟩
  | some (_, f) =>
    let k := f.lineIndex index
    ⟨f.name, k + 1, f.lineText k⟩

/-- An origin as `file:line`. -/
def describe (l : Listing) (o : Origin) : String := s!"{l.fileName o.file}:{o.line}"

end Listing

end MacroAssembler
