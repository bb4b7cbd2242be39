/-
MacroAssembler/CommandLine/Report.lean

What the command line prints, and what it logs.
-/
import MacroAssembler.CommandLine.Settings
import MacroAssembler.CompilationUnit

namespace MacroAssembler.CommandLine

/-! ### Listings -/

/-- An offset as `0x` and at least four hexadecimal digits. -/
def offsetText (n : Nat) : String :=
  let digits := Numeral.hexDigits n
  "0x" ++ String.ofList (List.replicate (4 - digits.length) '0' ++ digits)

/-- Lines, each with its newline. -/
def unlines (lines : List String) : String := String.join (lines.map fun l => l ++ "\n")

/-- The labels and jump tables of a program. -/
def labelLines (p : Program) : List String :=
  let labels := p.labels.sorted.map fun (label, site) => s!"  {offsetText site.offset}  {label}"
  let tables := p.tables.map fun t =>
    let form := if t.table.packed then "packed" else "word"
    s!"  {offsetText t.offset}  {t.table.name} ({form}, {t.table.size} bytes): " ++
      " ".intercalate t.table.labels
  "labels:" :: labels ++ if tables.isEmpty then [] else "tables:" :: tables

/-- The source of each byte of a program. -/
def sourceLines (u : CompilationUnit) (p : Program) : List String :=
  let byteLine := fun ((c, offset) : Cell × Nat) =>
    let byte := String.ofList (Numeral.hexOfByte c.byte)
    s!"  {offsetText offset}  {byte}  {u.listing.describe (u.listing.locate c.source)}"
  "source map:" :: p.cells.zipIdx.map byteLine

/-- The text printed for a program: its bytes, unless they go to a file, and
the listings that are asked for. -/
def output (s : Settings) (u : CompilationUnit) (p : Program) : String :=
  let code := if s.output?.isSome then [] else [String.ofList (Numeral.hexOfBytes p.bytes)]
  let labels := if s.labels then labelLines p else []
  let sources := if s.sourceMap then sourceLines u p else []
  unlines (code ++ labels ++ sources)

/-! ### Log -/

/-- The name under which the tool logs. -/
def logName : String := "huffc"

/-- A character of a logged message.  Control characters that a terminal would
act on are spelled out. -/
def logChar (c : Char) : Text :=
  let n := c.toNat
  if n = 0x07 ∨ n = 0x08 ∨ n = 0x0c ∨ n = 0x1b ∨ n = 0x7f then
    ['\\', 'x'] ++ Numeral.hexOfByte (UInt8.ofNat n)
  else if 0x80 ≤ n ∧ n ≤ 0x9f then "\\u\x7b".toList ++ Numeral.hexDigits n ++ ['}']
  else [c]

/-- A message as it is logged. -/
def logText (message : String) : String := String.ofList (message.toList.flatMap logChar)

/-- The log entry of a program that was compiled. -/
def compiledEntry (s : Settings) (p : Program) : String :=
  let message := logText s!"compiled {s.input}"
  s!"INFO {logName}: {message} entry={s.entry} bytes={p.size}"

/-- The log entry of an error. -/
def errorEntry (message : String) : String := s!"ERROR {logName}: {logText message}"

/-- The text logged for a failure.  The fault of a file that cannot be read is
named once more at the end. -/
def failureText : Failure → String
  | .source (.unreadable path fault) =>
    s!"{(SourceError.unreadable path fault).message}: {fault.message}"
  | .parse d => d.render
  | f => f.message

/-- The text logged for a file that cannot be written. -/
def writeFailureText (path : String) (fault : FileFault) : String :=
  s!"failed to write {path}: {fault.message}"

/-- A short reminder of the arguments. -/
def usageText : String :=
  "Usage: huffc <input> [--macro NAME] [--template-arg ARG]... [-o FILE]\n"

end MacroAssembler.CommandLine
