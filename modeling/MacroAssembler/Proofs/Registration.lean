/-
MacroAssembler/Proofs/Registration.lean

Registries as they come about.

A registry starts empty and grows by one declaration at a time.  `Built` says
that a registry came about that way, with no other condition, and what holds of
all registries is stated for those that are built.  Every text is read into
such a registry (`built_of_parse`).
-/
import Mathlib.Data.List.Induction
import Mathlib.Data.List.Nodup
import MacroAssembler.Proofs.Declarations

namespace MacroAssembler.Registry

/-- Registries that declarations lead to. -/
inductive Built : Registry → Prop
  | empty : Built .empty
  | addMacro {r r' m} : Built r → r.addMacro m = .ok r' → Built r'
  | addTable {r r' t} : Built r → r.addTable t = .ok r' → Built r'

/-! ### One declaration -/

theorem hasMacro_iff {r : Registry} {name : String} :
    r.hasMacro name = true ↔ ∃ m ∈ r.macros, m.name = name := by
  simp [hasMacro, getMacro?]

theorem hasTable_iff {r : Registry} {name : String} :
    r.hasTable name = true ↔ ∃ t ∈ r.tables, t.name = name := by
  simp [hasTable, getTable?]

theorem addMacro_eq_ok {r r' : Registry} {m : Macro} :
    r.addMacro m = .ok r' ↔
      r.hasMacro m.name = false ∧ r' = { r with macros := r.macros ++ [m] } := by
  rw [addMacro]
  rcases r.hasMacro m.name <;> simp [eq_comm]

theorem addTable_eq_ok {r r' : Registry} {t : JumpTable} :
    r.addTable t = .ok r' ↔
      r.hasTable t.name = false ∧ r' = { r with tables := r.tables ++ [t] } := by
  rw [addTable]
  rcases r.hasTable t.name <;> simp [eq_comm]

/-! ### Names -/

theorem hasMacro_eq_false_iff {r : Registry} {name : String} :
    r.hasMacro name = false ↔ name ∉ r.macros.map Macro.name := by
  rw [← Bool.not_eq_true, hasMacro_iff, List.mem_map]

theorem hasTable_eq_false_iff {r : Registry} {name : String} :
    r.hasTable name = false ↔ name ∉ r.tables.map JumpTable.name := by
  rw [← Bool.not_eq_true, hasTable_iff, List.mem_map]

/-- No two macros share a name, and no two tables. -/
theorem Built.nodup {r : Registry} (h : r.Built) :
    (r.macros.map Macro.name).Nodup ∧ (r.tables.map JumpTable.name).Nodup := by
  induction h with
  | empty => exact ⟨List.nodup_nil, List.nodup_nil⟩
  | addMacro _ hadd ih =>
    obtain ⟨hnew, rfl⟩ := addMacro_eq_ok.1 hadd
    rw [List.map_append]
    exact ⟨ih.1.append (List.nodup_singleton _)
      (List.disjoint_singleton.2 (hasMacro_eq_false_iff.1 hnew)), ih.2⟩
  | addTable _ hadd ih =>
    obtain ⟨hnew, rfl⟩ := addTable_eq_ok.1 hadd
    rw [List.map_append]
    exact ⟨ih.1, ih.2.append (List.nodup_singleton _)
      (List.disjoint_singleton.2 (hasTable_eq_false_iff.1 hnew))⟩

/-- Different names are all that declarations ask for. -/
theorem built_of_nodup {r : Registry} (hm : (r.macros.map Macro.name).Nodup)
    (ht : (r.tables.map JumpTable.name).Nodup) : r.Built := by
  obtain ⟨macros, tables⟩ := r
  dsimp only at hm ht
  induction tables using List.reverseRecOn with
  | nil =>
    induction macros using List.reverseRecOn with
    | nil => exact .empty
    | append_singleton ms m ih =>
      rw [List.map_append, List.nodup_append'] at hm
      refine (ih hm.1).addMacro (addMacro_eq_ok.2 ⟨?_, rfl⟩)
      exact hasMacro_eq_false_iff.2 (List.disjoint_singleton.1 hm.2.2)
  | append_singleton ts t ih =>
    rw [List.map_append, List.nodup_append'] at ht
    refine (ih ht.1).addTable (addTable_eq_ok.2 ⟨?_, rfl⟩)
    exact hasTable_eq_false_iff.2 (List.disjoint_singleton.1 ht.2.2)

/-- A text is read into a registry that its declarations lead to. -/
theorem built_of_parse {text : Text} {r : Registry} (h : Declaration.parse text = .ok r) :
    r.Built :=
  Declaration.parse_induction (fun hr _ hadd => hr.addMacro hadd) (fun hr hadd => hr.addTable hadd)
    .empty h

end MacroAssembler.Registry
