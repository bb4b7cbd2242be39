/-
MacroAssembler/Registry.lean

The macros and jump tables of a program, in the order of declaration.

Names are unique among macros and among tables; a macro and a table may share
one.  Registering under a name that is taken fails and changes nothing.
-/
import MacroAssembler.Operation

namespace MacroAssembler

/-- Why a declaration is refused. -/
inductive RegistrationError where
  | duplicateMacro (name : String)
  | duplicateTable (name : String)
  deriving Repr, DecidableEq

/-- The wording of a registration error. -/
def RegistrationError.message : RegistrationError → String
  | duplicateMacro name => s!"duplicate macro: {name}"
  | duplicateTable name => s!"duplicate jump table: {name}"

/-- Declared macros and jump tables. -/
structure Registry where
  macros : List Macro := []
  tables : List JumpTable := []
  deriving Repr, DecidableEq

namespace Registry

/-- The registry without declarations. -/
def empty : Registry := {}

/-- The macro of a name. -/
def getMacro? (r : Registry) (name : String) : Option Macro := r.macros.find? (·.name == name)

/-- The jump table of a name. -/
def getTable? (r : Registry) (name : String) : Option JumpTable := r.tables.find? (·.name == name)

/-- Whether a macro has the name. -/
def hasMacro (r : Registry) (name : String) : Bool := (r.getMacro? name).isSome

/-- Whether a jump table has the name. -/
def hasTable (r : Registry) (name : String) : Bool := (r.getTable? name).isSome

/-- Declare a macro. -/
def addMacro (r : Registry) (m : Macro) : Except RegistrationError Registry :=
  if r.hasMacro m.name then .error (.duplicateMacro m.name)
  else .ok { r with macros := r.macros ++ [m] }

/-- Declare a jump table. -/
def addTable (r : Registry) (t : JumpTable) : Except RegistrationError Registry :=
  if r.hasTable t.name then .error (.duplicateTable t.name)
  else .ok { r with tables := r.tables ++ [t] }

end Registry

end MacroAssembler
