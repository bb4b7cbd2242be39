/-
MacroAssembler/Proofs/RegistryIndexes.lean

What a registry holds after any calls, and the same store with indexes.

A registry serves calls that register macros and tables.  A call that fails leaves it as it
was (`Registry.serve`), so macros and tables each grow by what is new to them (`addNew`), and
the first call under a name decides what is found there, whatever calls were refused in
between.

Macros and tables can also be stored twice (`IndexedRegistry`): macros in a map by name, with
their names in order, and tables in order, with a map from names to positions.  Each call
changes both parts.  `Represents` relates such a store to a registry; every call keeps it
(`Represents.register`), so the two parts never disagree, and no position leads out of the list.

Main result: `Registry.recorded_serveAll`.
-/
import MacroAssembler.Proofs.Linking
import MacroAssembler.Proofs.Registration

namespace MacroAssembler

/-- A call that registers a macro or a jump table. -/
inductive Registration where
  | ofMacro (m : Macro)
  | ofTable (t : JumpTable)

namespace Registration

/-- The macro of a call, if it has one. -/
def toMacro? : Registration → Option Macro
  | ofMacro m => some m
  | ofTable _ => none

/-- The table of a call, if it has one. -/
def toTable? : Registration → Option JumpTable
  | ofMacro _ => none
  | ofTable t => some t

/-- Why a call is refused. -/
def refusal : Registration → RegistrationError
  | ofMacro m => .duplicateMacro m.name
  | ofTable t => .duplicateTable t.name

end Registration

/-! ### Lists without a name twice -/

section AddNew

variable {α : Type} (name : α → String)

/-- Add an item behind the others, unless one of them has its name. -/
def addNew (l : List α) (x : α) : List α :=
  if (l.find? (name · == name x)).isSome then l else l ++ [x]

variable {name}

theorem addNew_of_isSome {l : List α} {x : α} (h : (l.find? (name · == name x)).isSome = true) :
    addNew name l x = l := by
  rw [addNew, if_pos h]

theorem addNew_of_isNone {l : List α} {x : α} (h : (l.find? (name · == name x)).isSome = false) :
    addNew name l x = l ++ [x] := by
  rw [addNew, if_neg (by simp [h])]

/-- What is found under a name is not replaced. -/
theorem find?_addNew (l : List α) (x : α) (key : String) :
    (addNew name l x).find? (name · == key) =
      (l.find? (name · == key)).or ([x].find? (name · == key)) := by
  rcases h : (l.find? (name · == name x)).isSome with - | -
  · rw [addNew_of_isNone h, List.find?_append]
  · rw [addNew_of_isSome h]
    by_cases hx : name x = key
    · obtain ⟨y, hy⟩ := Option.isSome_iff_exists.1 h
      rw [hx] at hy
      rw [hy]
      rfl
    · have hnone : [x].find? (name · == key) = none := by simp [hx]
      rw [hnone, Option.or_none]

theorem find?_foldl_addNew (l xs : List α) (key : String) :
    (xs.foldl (addNew name) l).find? (name · == key) =
      (l.find? (name · == key)).or (xs.find? (name · == key)) := by
  induction xs generalizing l with
  | nil => exact Option.or_none.symm
  | cons x xs ih =>
    rw [List.foldl_cons, ih, find?_addNew, Option.or_assoc, ← List.find?_append]
    rfl

end AddNew

/-! ### Calls -/

namespace Registry

/-- What a call makes of a registry. -/
def register (r : Registry) : Registration → Except RegistrationError Registry
  | .ofMacro m => r.addMacro m
  | .ofTable t => r.addTable t

/-- The registry after a call.  One that fails leaves it as it was. -/
def serve (r : Registry) (d : Registration) : Registry := (r.register d).toOption.getD r

/-- The registry after some calls. -/
def serveFrom (r : Registry) (ds : List Registration) : Registry := ds.foldl serve r

/-- A new registry after some calls. -/
def serveAll (ds : List Registration) : Registry := empty.serveFrom ds

/-- Of the calls that a registry serves in order, those that succeed. -/
def accepted (r : Registry) : List Registration → List Registration
  | [] => []
  | d :: ds =>
    match r.register d with
    | .ok r' => d :: accepted r' ds
    | .error _ => accepted r ds

/-- An item of the same kind has the name already. -/
def Holds (r : Registry) : Registration → Prop
  | .ofMacro m => ∃ m' ∈ r.macros, m'.name = m.name
  | .ofTable t => ∃ t' ∈ r.tables, t'.name = t.name

/-- The registry with the item of a call behind the others of its kind. -/
def push (r : Registry) : Registration → Registry
  | .ofMacro m => { r with macros := r.macros ++ [m] }
  | .ofTable t => { r with tables := r.tables ++ [t] }

@[simp] theorem macros_push (r : Registry) (d : Registration) :
    (r.push d).macros = r.macros ++ d.toMacro?.toList := by
  cases d with
  | ofMacro m => rfl
  | ofTable t => exact (List.append_nil _).symm

@[simp] theorem tables_push (r : Registry) (d : Registration) :
    (r.push d).tables = r.tables ++ d.toTable?.toList := by
  cases d with
  | ofMacro m => exact (List.append_nil _).symm
  | ofTable t => rfl

/-- A call is refused for a name that is held, and else adds its item. -/
theorem register_cases (r : Registry) (d : Registration) :
    (r.Holds d ∧ r.register d = .error d.refusal) ∨
      ¬ r.Holds d ∧ r.register d = .ok (r.push d) := by
  cases d with
  | ofMacro m =>
    rw [register, addMacro, Holds, ← hasMacro_iff]
    cases h : r.hasMacro m.name with
    | true => exact .inl ⟨rfl, rfl⟩
    | false => exact .inr ⟨Bool.false_ne_true, rfl⟩
  | ofTable t =>
    rw [register, addTable, Holds, ← hasTable_iff]
    cases h : r.hasTable t.name with
    | true => exact .inl ⟨rfl, rfl⟩
    | false => exact .inr ⟨Bool.false_ne_true, rfl⟩

theorem exists_error_iff {r : Registry} {d : Registration} :
    (∃ e, r.register d = .error e) ↔ r.Holds d := by
  obtain ⟨hholds, hcall⟩ | ⟨hfree, hcall⟩ := register_cases r d
  · exact ⟨fun _ => hholds, fun _ => ⟨_, hcall⟩⟩
  · constructor
    · rintro ⟨e, he⟩
      rw [hcall] at he
      cases he
    · exact fun hholds => absurd hholds hfree

theorem serve_of_error {r : Registry} {d : Registration} {e : RegistrationError}
    (h : r.register d = .error e) : r.serve d = r := by
  rw [serve, h]
  rfl

theorem serve_of_ok {r r' : Registry} {d : Registration} (h : r.register d = .ok r') :
    r.serve d = r' := by
  rw [serve, h]
  rfl

/-! ### Runs of calls -/

theorem serveFrom_cons (r : Registry) (d : Registration) (ds : List Registration) :
    r.serveFrom (d :: ds) = (r.serve d).serveFrom ds := rfl

theorem serveAll_concat (ds : List Registration) (d : Registration) :
    serveAll (ds ++ [d]) = (serveAll ds).serve d := by
  rw [serveAll, serveFrom, List.foldl_append]
  rfl

/-- A registry holds, behind what it held, the items of the calls that succeeded. -/
theorem serveFrom_eq_accepted (r : Registry) (ds : List Registration) :
    (r.serveFrom ds).macros = r.macros ++ (r.accepted ds).filterMap Registration.toMacro? ∧
      (r.serveFrom ds).tables = r.tables ++ (r.accepted ds).filterMap Registration.toTable? := by
  induction ds generalizing r with
  | nil => exact ⟨(List.append_nil _).symm, (List.append_nil _).symm⟩
  | cons d ds ih =>
    rw [serveFrom_cons, accepted]
    obtain ⟨-, hcall⟩ | ⟨-, hcall⟩ := register_cases r d
    · rw [serve_of_error hcall, hcall]
      exact ih r
    · rw [serve_of_ok hcall, hcall]
      obtain ⟨hmacros, htables⟩ := ih (r.push d)
      rw [hmacros, htables, macros_push, tables_push, List.append_assoc, List.append_assoc]
      cases d with
      | ofMacro m => exact ⟨rfl, rfl⟩
      | ofTable t => exact ⟨rfl, rfl⟩

theorem serve_ofMacro (r : Registry) (m : Macro) :
    r.serve (.ofMacro m) = { r with macros := addNew Macro.name r.macros m } := by
  rw [serve, register, addMacro]
  cases h : r.hasMacro m.name with
  | true => rw [addNew_of_isSome h]; rfl
  | false => rw [addNew_of_isNone h]; rfl

theorem serve_ofTable (r : Registry) (t : JumpTable) :
    r.serve (.ofTable t) = { r with tables := addNew JumpTable.name r.tables t } := by
  rw [serve, register, addTable]
  cases h : r.hasTable t.name with
  | true => rw [addNew_of_isSome h]; rfl
  | false => rw [addNew_of_isNone h]; rfl

/-- Macros and tables do not get in each other's way. -/
theorem serveFrom_eq_foldl (r : Registry) (ds : List Registration) :
    r.serveFrom ds =
      ⟨(ds.filterMap Registration.toMacro?).foldl (addNew Macro.name) r.macros,
        (ds.filterMap Registration.toTable?).foldl (addNew JumpTable.name) r.tables⟩ := by
  induction ds generalizing r with
  | nil => rfl
  | cons d ds ih =>
    rw [serveFrom_cons, ih]
    cases d with
    | ofMacro m => rw [serve_ofMacro]; rfl
    | ofTable t => rw [serve_ofTable]; rfl

/-- The first call under a name decides what is found there. -/
theorem getMacro?_serveAll (ds : List Registration) (name : String) :
    (serveAll ds).getMacro? name =
      (ds.filterMap Registration.toMacro?).find? (·.name == name) := by
  rw [serveAll, serveFrom_eq_foldl, getMacro?, find?_foldl_addNew]
  rfl

theorem getTable?_serveAll (ds : List Registration) (name : String) :
    (serveAll ds).getTable? name =
      (ds.filterMap Registration.toTable?).find? (·.name == name) := by
  rw [serveAll, serveFrom_eq_foldl, getTable?, find?_foldl_addNew]
  rfl

theorem Built.serve {r : Registry} (h : r.Built) (d : Registration) : (r.serve d).Built := by
  obtain ⟨-, hcall⟩ | ⟨-, hcall⟩ := register_cases r d
  · rw [serve_of_error hcall]
    exact h
  · rw [serve_of_ok hcall]
    cases d with
    | ofMacro m => exact h.addMacro hcall
    | ofTable t => exact h.addTable hcall

theorem built_serveAll (ds : List Registration) : (serveAll ds).Built := by
  induction ds using List.reverseRecOn with
  | nil => exact .empty
  | append_singleton ds d ih =>
    rw [serveAll_concat]
    exact ih.serve d

theorem Built.getMacro?_of_mem {r : Registry} (h : r.Built) {m : Macro} (hm : m ∈ r.macros) :
    r.getMacro? m.name = some m := by
  have hsome : (r.getMacro? m.name).isSome = true := hasMacro_iff.2 ⟨m, hm, rfl⟩
  obtain ⟨m', hm'⟩ := Option.isSome_iff_exists.1 hsome
  have hname : m'.name = m.name := by simpa using List.find?_some hm'
  rw [hm', List.inj_on_of_nodup_map h.nodup.1 (List.mem_of_find?_eq_some hm') hm hname]

/-- The linker searches the tables in order, and finds what the registry finds. -/
theorem find?_layOut {r : Registry} {labels : LabelTable} {pos : Nat} {cells : List Cell}
    {linked : List LinkedTable}
    (h : Program.layOut (σ := Nat) labels pos r.tables = .ok (cells, linked)) (name : String) :
    (linked.find? fun t => t.table.name == name).map LinkedTable.table = r.getTable? name := by
  rw [getTable?, ← (Program.laidOut_of_layOut h).tables, List.find?_map]
  rfl

end Registry

/-! ### Two indexes -/

/-- Macros and tables, each stored in order and in a map by name. -/
structure IndexedRegistry where
  /-- Macros by name. -/
  byName : Std.HashMap String Macro
  /-- Names of the macros, in the order of their calls. -/
  order : List String
  /-- Tables, in the order of their calls. -/
  tables : List JumpTable
  /-- Where a table is in the list, by name. -/
  position : Std.HashMap String Nat

namespace IndexedRegistry

def empty : IndexedRegistry := ⟨∅, [], [], ∅⟩

/-- The macros in order, each looked up by its name. -/
def macros (x : IndexedRegistry) : List Macro := x.order.filterMap fun name => x.byName[name]?

/-- Number of macros. -/
def count (x : IndexedRegistry) : Nat := x.byName.size

def getMacro? (x : IndexedRegistry) (name : String) : Option Macro := x.byName[name]?

/-- The table at the position of a name. -/
def getTable? (x : IndexedRegistry) (name : String) : Option JumpTable :=
  x.position[name]?.bind fun i => x.tables[i]?

/-- Both parts of a kind change in a call that succeeds. -/
def register (x : IndexedRegistry) : Registration → Except RegistrationError IndexedRegistry
  | .ofMacro m =>
    if x.byName.contains m.name then .error (.duplicateMacro m.name)
    else .ok { x with order := x.order ++ [m.name], byName := x.byName.insert m.name m }
  | .ofTable t =>
    if x.position.contains t.name then .error (.duplicateTable t.name)
    else .ok
      { x with position := x.position.insert t.name x.tables.length, tables := x.tables ++ [t] }

/-- The store after a call.  One that fails leaves it as it was. -/
def serve (x : IndexedRegistry) (d : Registration) : IndexedRegistry :=
  (x.register d).toOption.getD x

/-- A new store after some calls. -/
def serveAll (ds : List Registration) : IndexedRegistry := ds.foldl serve empty

theorem serveAll_concat (ds : List Registration) (d : Registration) :
    serveAll (ds ++ [d]) = (serveAll ds).serve d := by
  rw [serveAll, List.foldl_append]
  rfl

/-- Both parts of each kind say what a registry says. -/
structure Represents (x : IndexedRegistry) (r : Registry) : Prop where
  order : x.order = r.macros.map Macro.name
  byName : ∀ name, x.byName[name]? = r.getMacro? name
  count : x.byName.size = r.macros.length
  tables : x.tables = r.tables
  position : ∀ name, x.position[name]? = r.tables.findIdx? (·.name == name)

theorem represents_empty : Represents empty .empty :=
  ⟨rfl, fun _ => Std.HashMap.getElem?_empty, rfl, rfl, fun _ => Std.HashMap.getElem?_empty⟩

/-- A new name does not change what is found under the others. -/
theorem getElem?_insert_of_none {β : Type} {map : Std.HashMap String β} {key : String}
    (h : map[key]? = none) (value : β) (name : String) :
    (map.insert key value)[name]? = map[name]?.or (if key == name then some value else none) := by
  rw [Std.HashMap.getElem?_insert]
  by_cases hkey : (key == name) = true
  · obtain rfl := beq_iff_eq.1 hkey
    rw [if_pos hkey, if_pos hkey, h]
    rfl
  · rw [if_neg hkey, if_neg hkey, Option.or_none]

namespace Represents

variable {x : IndexedRegistry} {r : Registry}

theorem contains_byName (h : Represents x r) (name : String) :
    x.byName.contains name = r.hasMacro name := by
  rw [Std.HashMap.contains_eq_isSome_getElem?, h.byName, Registry.hasMacro]

theorem contains_position (h : Represents x r) (name : String) :
    x.position.contains name = r.hasTable name := by
  rw [Std.HashMap.contains_eq_isSome_getElem?, h.position, List.findIdx?_isSome, Registry.hasTable,
    Registry.getTable?, List.isSome_find?]

theorem pushMacro (h : Represents x r) {m : Macro} (hm : r.hasMacro m.name = false) :
    Represents { x with order := x.order ++ [m.name], byName := x.byName.insert m.name m }
      (r.push (.ofMacro m)) := by
  have hnew : x.byName.contains m.name = false := (h.contains_byName m.name).trans hm
  have hnone := Std.HashMap.getElem?_eq_none_of_contains_eq_false hnew
  refine ⟨?_, fun name => ?_, ?_, h.tables, h.position⟩
  · rw [h.order, Registry.macros_push, List.map_append]
    rfl
  · show _ = (r.macros ++ [m]).find? (·.name == name)
    rw [getElem?_insert_of_none hnone, h.byName, List.find?_append, List.find?_singleton]
    rfl
  · rw [Std.HashMap.size_insert, if_neg (by simpa using hnew), h.count, Registry.macros_push,
      List.length_append]
    rfl

theorem pushTable (h : Represents x r) {t : JumpTable} (ht : r.hasTable t.name = false) :
    Represents
      { x with position := x.position.insert t.name x.tables.length, tables := x.tables ++ [t] }
      (r.push (.ofTable t)) := by
  have hnew : x.position.contains t.name = false := (h.contains_position t.name).trans ht
  have hnone := Std.HashMap.getElem?_eq_none_of_contains_eq_false hnew
  refine ⟨h.order, h.byName, h.count, ?_, fun name => ?_⟩
  · rw [h.tables, Registry.tables_push]
    rfl
  · show _ = (r.tables ++ [t]).findIdx? (·.name == name)
    rw [getElem?_insert_of_none hnone, h.position, h.tables, List.findIdx?_append,
      List.findIdx?_singleton]
    split
    · rw [Option.map_some, Nat.zero_add]
    · rfl

/-- A call has the same answer from both, and keeps them alike. -/
theorem register (h : Represents x r) (d : Registration) :
    (∃ e, x.register d = .error e ∧ r.register d = .error e) ∨
      ∃ x' r', x.register d = .ok x' ∧ r.register d = .ok r' ∧ Represents x' r' := by
  cases d with
  | ofMacro m =>
    rw [IndexedRegistry.register, h.contains_byName, Registry.register, Registry.addMacro]
    cases hm : r.hasMacro m.name with
    | true => exact .inl ⟨_, rfl, rfl⟩
    | false => exact .inr ⟨_, _, rfl, rfl, h.pushMacro hm⟩
  | ofTable t =>
    rw [IndexedRegistry.register, h.contains_position, Registry.register, Registry.addTable]
    cases ht : r.hasTable t.name with
    | true => exact .inl ⟨_, rfl, rfl⟩
    | false => exact .inr ⟨_, _, rfl, rfl, h.pushTable ht⟩

theorem serve (h : Represents x r) (d : Registration) : Represents (x.serve d) (r.serve d) := by
  rw [IndexedRegistry.serve, Registry.serve]
  obtain ⟨e, hx, hr⟩ | ⟨x', r', hx, hr, hsame⟩ := h.register d
  · rw [hx, hr]
    exact h
  · rw [hx, hr]
    exact hsame

end Represents

theorem represents_serveAll (ds : List Registration) :
    Represents (serveAll ds) (Registry.serveAll ds) := by
  induction ds using List.reverseRecOn with
  | nil => exact represents_empty
  | append_singleton ds d ih =>
    rw [serveAll_concat, Registry.serveAll_concat]
    exact ih.serve d

/-- What a store with indexes answers is what a registry answers, and its two parts agree. -/
structure Agrees (x : IndexedRegistry) (r : Registry) : Prop where
  macros : x.macros = r.macros
  tables : x.tables = r.tables
  count : x.count = x.macros.length
  getMacro? : ∀ name, x.getMacro? name = r.getMacro? name
  getTable? : ∀ name, x.getTable? name = r.getTable? name
  inside : ∀ (name : String) (i : Nat), x.position[name]? = some i → i < x.tables.length
  register : ∀ d e, x.register d = .error e ↔ r.register d = .error e

theorem Represents.agrees {x : IndexedRegistry} {r : Registry} (h : Represents x r)
    (hr : r.Built) : Agrees x r := by
  have hmacros : x.macros = r.macros := by
    have hfound : ∀ m ∈ r.macros, x.byName[m.name]? = some m := fun m hm =>
      (h.byName m.name).trans (hr.getMacro?_of_mem hm)
    rw [IndexedRegistry.macros, h.order, List.filterMap_map]
    exact (List.filterMap_congr hfound).trans List.filterMap_some
  refine ⟨hmacros, h.tables, ?_, h.byName, fun name => ?_, fun name i hi => ?_, fun d e => ?_⟩
  · rw [hmacros]
    exact h.count
  · rw [IndexedRegistry.getTable?, h.position, h.tables, Registry.getTable?,
      List.find?_eq_bind_findIdx?_getElem?]
  · rw [h.position] at hi
    obtain ⟨hlt, -⟩ := List.findIdx?_eq_some_iff_getElem.1 hi
    rwa [h.tables]
  · obtain ⟨e', hx, hr⟩ | ⟨x', r', hx, hr, -⟩ := h.register d
    · rw [hx, hr, Except.error.injEq, Except.error.injEq]
    · rw [hx, hr]
      exact ⟨fun he => (by cases he), fun he => (by cases he)⟩

end IndexedRegistry

/-! ### Any calls -/

namespace Registry

/-- The registry `r` is what a new registry becomes that serves the calls `ds` in order. -/
structure Recorded (ds : List Registration) (r : Registry) : Prop where
  /-- All that was registered, and nothing else, in order. -/
  macros : r.macros = (accepted empty ds).filterMap Registration.toMacro?
  tables : r.tables = (accepted empty ds).filterMap Registration.toTable?
  macroNames : (r.macros.map Macro.name).Nodup
  tableNames : (r.tables.map JumpTable.name).Nodup
  /-- Found is the first item that came under the name. -/
  getMacro? : ∀ name, r.getMacro? name =
    (ds.filterMap Registration.toMacro?).find? (·.name == name)
  getTable? : ∀ name, r.getTable? name =
    (ds.filterMap Registration.toTable?).find? (·.name == name)
  /-- The search of the linker finds the same table. -/
  linked : ∀ labels pos cells linked,
    Program.layOut (σ := Nat) labels pos r.tables = .ok (cells, linked) →
      ∀ name, (linked.find? fun t => t.table.name == name).map LinkedTable.table =
        r.getTable? name
  /-- The next call fails if and only if its kind holds the name, and then changes nothing. -/
  fails : ∀ d, (∃ e, r.register d = .error e) ↔ r.Holds d
  refused : ∀ d, r.Holds d → serveAll (ds ++ [d]) = r

/-- **A registry answers for its calls**, however those that succeed and those that fail follow
each other; and so does one that stores every kind twice. -/
theorem recorded_serveAll (ds : List Registration) :
    Recorded ds (serveAll ds) ∧ (IndexedRegistry.serveAll ds).Agrees (serveAll ds) := by
  have hbuilt := built_serveAll ds
  obtain ⟨hmacros, htables⟩ := serveFrom_eq_accepted empty ds
  obtain ⟨hmacroNames, htableNames⟩ := hbuilt.nodup
  refine ⟨⟨hmacros, htables, hmacroNames, htableNames, getMacro?_serveAll ds,
    getTable?_serveAll ds, ?_, fun d => exists_error_iff, ?_⟩,
    (IndexedRegistry.represents_serveAll ds).agrees hbuilt⟩
  · intro labels pos cells linked h
    exact find?_layOut h
  · intro d hholds
    obtain ⟨e, he⟩ := exists_error_iff.2 hholds
    rw [serveAll_concat, serve_of_error he]

end Registry

end MacroAssembler
