/-
MacroAssembler/FileName.lean

Names of files.

A name is a sequence of steps divided by slashes.  Empty steps and `.` stay
where they are and `..` goes up.  A name that starts with a slash starts at the
root of the system, any other at the working directory.
-/
import MacroAssembler.Library

namespace MacroAssembler

namespace FileName

/-! ### Parts -/

/-- The steps of a name. -/
def steps (name : String) : List String :=
  (Text.splitOn '/' name.toList).map String.ofList

/-- A name made of steps. -/
def ofSteps : List String → String
  | [] => ""
  | [""] => "/"
  | steps => "/".intercalate steps

/-- Whether a step stays where it is. -/
def stays (step : String) : Bool := step == "" || step == "."

/-- Steps without those at the end that stay where they are.  The first step is
kept: it tells an absolute name, or is a `.` that was written on purpose. -/
def trimSteps : List String → List String
  | [] => []
  | first :: rest => first :: (rest.reverse.dropWhile stays).reverse

/-- The directory part of a name; empty when the name has none. -/
def directory (name : String) : String :=
  match trimSteps (steps name) with
  | [] | [""] => ""
  | trimmed => ofSteps (trimSteps trimmed.dropLast)

/-- The last part of a name; empty when the name leads to no entry of a
directory. -/
def entry (name : String) : String :=
  match (trimSteps (steps name)).getLast? with
  | none => ""
  | some last => if last == "." || last == ".." then "" else last

/-- Whether a name starts at the root of the system. -/
def isAbsolute (name : String) : Bool := name.toList.head? == some '/'

/-- A name seen from a directory. -/
def join (dir name : String) : String :=
  if isAbsolute name || dir.isEmpty then name
  else if dir.toList.getLast? == some '/' then dir ++ name
  else dir ++ "/" ++ name

/-! ### Limits -/

/-- Most bytes of one step. -/
def maxStep : Nat := 255

/-- Most bytes of a whole name. -/
def maxName : Nat := 4095

/-- Whether a step is too long to name anything. -/
def stepTooLong (step : String) : Bool := maxStep < Text.byteLength step.toList

/-- What is wrong with a name before anything is looked up. -/
def fault? (name : String) : Option FileFault :=
  let t := name.toList
  if t.contains '\x00' then some .nulInName
  else if t.isEmpty then some .missing
  else if maxName < Text.byteLength t then some .nameTooLong
  else none

end FileName

end MacroAssembler
