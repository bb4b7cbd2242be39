/-
MacroAssembler/Template/Substitution.lean

Handing template arguments on to inner calls.

Inside a macro, the argument texts of its calls may mention its parameters as
words.  Each parameter in turn is replaced by its value, and the text that
comes out is what the next parameter is looked for in.  A word of a value that
is spelled like a later parameter is therefore replaced too.

Every text can be looked for, however long it is, so replacing always gives a
text: no parameter is refused here, and no compile error speaks of one that is.
-/
import MacroAssembler.Text.Replace

namespace MacroAssembler.Template

/-- Replace parameters by values, one after the other. -/
def substituteText (bindings : List (Text × Text)) (t : Text) : Text :=
  bindings.foldl (fun t b => Text.replaceWord b.1 b.2 t) t

/-- Replace parameters by values in a string.  Parameters without a value and
values without a parameter are left aside. -/
def substitute (params values : List String) (s : String) : String :=
  let bindings := (params.zip values).map fun (p, v) => (p.toList, v.toList)
  String.ofList (substituteText bindings s.toList)

/-- Replace parameters by values in each argument of a call. -/
def substituteAll (params values args : List String) : List String :=
  args.map (substitute params values)

end MacroAssembler.Template
