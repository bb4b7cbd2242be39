/-
MacroAssembler/CommandLine/Settings.lean

The arguments of the command line.

    <input> [--macro NAME] [--template-arg ARG]... [--max-depth N]
            [--max-expansions N] [--max-output-bytes N]
            [--source-map] [--labels] [-o FILE | --output FILE]

The value of a long option follows it or is attached by `=`; that of the short
one follows it or is attached with or without `=`.  A value that follows may
not start with a dash, unless it is a single dash.  Nothing but
`--template-arg` may be given twice.  After `--` everything is an input.
-/
import MacroAssembler.Limits
import MacroAssembler.Numeral

namespace MacroAssembler.CommandLine

/-- Why arguments give no settings. -/
inductive Usage where
  /-- The arguments are wrong. -/
  | invalid
  /-- Help is asked for. -/
  | help
  deriving Repr, DecidableEq

/-- Arguments as they are read. -/
structure Arguments where
  input? : Option String := none
  entry? : Option String := none
  templateArgs : List String := []
  depth? : Option Nat := none
  expansions? : Option Nat := none
  bytes? : Option Nat := none
  sourceMap : Bool := false
  labels : Bool := false
  output? : Option String := none
  deriving Repr, DecidableEq

/-- What a run is asked to do. -/
structure Settings where
  input : String
  entry : String
  templateArgs : List String
  limits : Limits
  sourceMap : Bool
  labels : Bool
  output? : Option String
  deriving Repr, DecidableEq

/-! ### Options -/

/-- Options that take a value. -/
inductive ValueOption where
  | entry
  | templateArg
  | depth
  | expansions
  | bytes
  | output
  deriving Repr, DecidableEq

/-- Options that take none. -/
inductive FlagOption where
  | sourceMap
  | labels
  | help
  deriving Repr, DecidableEq

/-- Option names without their dashes. -/
def valueOptions : List (String × ValueOption) :=
  [("macro", .entry), ("template-arg", .templateArg), ("max-depth", .depth),
   ("max-expansions", .expansions), ("max-output-bytes", .bytes), ("output", .output)]

/-- Flag names without their dashes. -/
def flagOptions : List (String × FlagOption) :=
  [("source-map", .sourceMap), ("labels", .labels), ("help", .help)]

/-- The macro that is compiled when none is named. -/
def defaultEntry : String := "MAIN"

/-- A count: decimal digits, after a plus sign or none. -/
def count? (value : String) : Option Nat :=
  match value.toList with
  | '+' :: t => Numeral.count? t
  | t => Numeral.count? t

/-- Give an option that was not given before its value. -/
def setOnce {α : Type} (old : Option α) (new? : Option α) : Except Usage (Option α) :=
  match old, new? with
  | none, some a => .ok (some a)
  | _, _ => .error .invalid

/-- A file name, which is not empty. -/
def file? (value : String) : Option String := if value.isEmpty then none else some value

namespace Arguments

/-- Take the value of an option. -/
def setValue (a : Arguments) (o : ValueOption) (value : String) : Except Usage Arguments :=
  match o with
  | .entry => do return { a with entry? := ← setOnce a.entry? (some value) }
  | .templateArg => .ok { a with templateArgs := a.templateArgs ++ [value] }
  | .depth => do return { a with depth? := ← setOnce a.depth? (count? value) }
  | .expansions => do return { a with expansions? := ← setOnce a.expansions? (count? value) }
  | .bytes => do return { a with bytes? := ← setOnce a.bytes? (count? value) }
  | .output => do return { a with output? := ← setOnce a.output? (file? value) }

/-- Take a flag. -/
def setFlag (a : Arguments) (o : FlagOption) : Except Usage Arguments :=
  match o with
  | .sourceMap => if a.sourceMap then .error .invalid else .ok { a with sourceMap := true }
  | .labels => if a.labels then .error .invalid else .ok { a with labels := true }
  | .help => .error .help

/-- Take an input. -/
def setInput (a : Arguments) (value : String) : Except Usage Arguments := do
  return { a with input? := ← setOnce a.input? (file? value) }

end Arguments

/-! ### Reading -/

/-- How one argument reads. -/
inductive Word where
  /-- `--` -/
  | endOfOptions
  /-- A long option, with the value attached to it if there is one. -/
  | long (name : String) (value? : Option String)
  /-- A short option with what follows it. -/
  | short (letter : Char) (rest : Text)
  /-- Anything else. -/
  | plain (value : String)
  deriving Repr, DecidableEq

/-- Read one argument. -/
def Word.ofString (s : String) : Word :=
  match s.toList with
  | ['-', '-'] => .endOfOptions
  | '-' :: '-' :: t =>
    let name := String.ofList (t.takeWhile (· != '='))
    match t.dropWhile (· != '=') with
    | [] => .long name none
    | _ :: value => .long name (some (String.ofList value))
  | '-' :: c :: t => .short c t
  | _ => .plain s

/-- The value attached to a short option. -/
def attached? : Text → Option String
  | [] => none
  | '=' :: t => some (String.ofList t)
  | t => some (String.ofList t)

/-- Read arguments in order.  `waiting?` is an option whose value comes next. -/
def readFrom (a : Arguments) (waiting? : Option ValueOption) (onlyInputs : Bool) :
    List String → Except Usage Arguments
  | [] => if waiting?.isSome then .error .invalid else .ok a
  | s :: rest =>
    if onlyInputs then do readFrom (← a.setInput s) none true rest
    else
      match Word.ofString s, waiting? with
      | .plain value, some o => do readFrom (← a.setValue o value) none false rest
      | _, some _ => .error .invalid
      | .plain value, none => do readFrom (← a.setInput value) none false rest
      | .endOfOptions, none => readFrom a none true rest
      | .long name value?, none =>
        match valueOptions.lookup name, flagOptions.lookup name, value? with
        | some o, _, some value => do readFrom (← a.setValue o value) none false rest
        | some o, _, none => readFrom a (some o) false rest
        | none, some o, none => do readFrom (← a.setFlag o) none false rest
        | _, _, _ => .error .invalid
      | .short 'o' t, none =>
        match attached? t with
        | some value => do readFrom (← a.setValue .output value) none false rest
        | none => readFrom a (some .output) false rest
      | .short 'h' _, none => .error .help
      | .short _ _, none => .error .invalid

/-- The settings that arguments ask for. -/
def Settings.parse (argv : List String) : Except Usage Settings := do
  let a ← readFrom {} none false argv
  match a.input? with
  | none => .error .invalid
  | some input =>
    let d := Limits.default
    return {
      input := input
      entry := a.entry?.getD defaultEntry
      templateArgs := a.templateArgs
      limits := ⟨a.depth?.getD d.depth, a.expansions?.getD d.expansions, a.bytes?.getD d.bytes⟩
      sourceMap := a.sourceMap
      labels := a.labels
      output? := a.output? }

end MacroAssembler.CommandLine
