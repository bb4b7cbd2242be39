/-
MacroAssembler/Proofs/UnrelatedMacro.lean

A further macro does not change what compiles without it.

Names are looked up in many places, and nearly all of them need the macro to be
there: a call of an unknown macro fails, and so does an operand that is neither
a literal nor a constant.  If the program compiles without the macro, these never
asked for it.  One place is different: a template argument that is an identifier
refers to a label unless it is the name of a macro.  There a further macro could
change the meaning of an argument without any failure.

Arguments are made from argument texts by substitution and by taking calls
apart, and no word arises in that way (`Text.SetOff`), provided that parameters
begin and end with a word character, as those of every text do
(`Registry.keepsWords_of_parse`).  So if the name does not occur in the argument
texts of the program, no argument is ever that name, and the whole tree of the
entry carries over.

Main result: `CompilationUnit.compile_addMacro`.  Where a parameter is not of
that kind, its value can be joined to what stands next to it, and the result
fails (`CompilationUnit.compile_gluing`).
-/
import MacroAssembler.CompilationUnit
import MacroAssembler.Proofs.ExpansionCost
import MacroAssembler.Proofs.RegistryPrinting
import MacroAssembler.Proofs.StaticCycles
import MacroAssembler.Proofs.Transport
import MacroAssembler.Proofs.Words

namespace MacroAssembler

open Text

/-- The argument texts of a call or a measurement. -/
def OperationKind.argTexts : OperationKind → List String
  | .call _ args => args
  | .codeSize _ args => args
  | _ => []

/-- No parameter of the macro joins words when it is replaced in an argument
that is handed on. -/
def Macro.KeepsWords (m : Macro) : Prop :=
  ∀ op ∈ m.ops, op.kind.argTexts ≠ [] → ∀ p ∈ m.params, Bordered p.toList

/-! ### Arguments of what is invoked -/

/-- A word that no argument has set off. -/
def Invocation.Lacks (w : Text) (inv : Invocation) : Prop := ∀ a ∈ inv.args, ¬ SetOff w a.toList

namespace Template

/-- What an argument expands is in the argument. -/
theorem exists_of_resolve_eq_expansion {r : Registry} {arg : String} {source : Nat}
    {inv : Invocation} (h : resolve r arg source = .ok (.expansion inv)) :
    ∃ target, Argument.CallTarget.parse? (Text.trim arg.toList) = some target ∧
      inv.args = target.arguments := by
  simp only [resolve] at h
  split at h
  · split at h <;> cases h
  · split at h
    · cases h
    · unfold resolveName at h
      rcases htarget : Argument.CallTarget.parse? (Text.trim arg.toList) with - | target
      · simp only [htarget] at h
        split at h <;> cases h
      · simp only [htarget] at h
        split at h
        · cases h
          exact ⟨target, rfl, rfl⟩
        · split at h
          · cases h
          · split at h <;> cases h

end Template

namespace Expansion

variable {r : Registry} {w : Text}

theorem mem_of_lookup_zip {params values : List String} {param arg : String}
    (h : (params.zip values).lookup param = some arg) : arg ∈ values := by
  induction params generalizing values with
  | nil => simp at h
  | cons p params ih =>
    cases values with
    | nil => simp at h
    | cons v values =>
      rw [List.zip_cons_cons, List.lookup_cons] at h
      split at h
      · obtain rfl := Option.some.inj h
        exact List.mem_cons_self
      · exact List.mem_cons_of_mem _ (ih h)

/-- No word arises when parameters are replaced in the arguments of a call. -/
theorem not_setOff_callArgs (hw : ∀ ch ∈ w, isWordChar ch = true) (hne : w ≠ []) {m : Macro}
    {values args : List String} (hp : args ≠ [] → ∀ p ∈ m.params, Bordered p.toList)
    (hvalues : ∀ v ∈ values, ¬ SetOff w v.toList) (hargs : ∀ a ∈ args, ¬ SetOff w a.toList) :
    ∀ a ∈ callArgs m values args, ¬ SetOff w a.toList := by
  intro a ha h
  rw [callArgs] at ha
  split at ha
  · exact hargs a ha h
  · obtain ⟨a', ha', rfl⟩ := List.mem_map.1 ha
    obtain h | ⟨v, hv, h⟩ :=
      Template.setOff_substitute hw hne (hp (List.ne_nil_of_mem ha')) h
    · exact hargs a' ha' h
    · exact hvalues v hv h

/-- A word that is set off in no argument text is set off in no argument of an
expansion, at whatever depth. -/
theorem lacks_of_invokes (hw : ∀ ch ∈ w, isWordChar ch = true) (hne : w ≠ [])
    (hparams : ∀ m ∈ r.macros, m.KeepsWords)
    (hops : ∀ m ∈ r.macros, ∀ op ∈ m.ops, ∀ a ∈ op.kind.argTexts, ¬ SetOff w a.toList)
    {inv inv' : Invocation} (hinv : inv.Lacks w) (h : Invokes r inv inv') : inv'.Lacks w := by
  obtain ⟨m, ⟨kind, source⟩, a, hm, hop, ha, htarget⟩ := h
  have hmem : m ∈ r.macros := List.mem_of_find?_eq_some hm
  have htexts := hops m hmem _ hop
  cases kind with
  | call name args | codeSize name args =>
    cases ha
    cases htarget
    exact not_setOff_callArgs hw hne (hparams m hmem _ hop) hinv htexts
  | templateRef param =>
    simp only [action] at ha
    rcases hlookup : (m.params.zip inv.args).lookup param with - | arg
    · simp [hlookup] at ha
    · rcases hres : Template.resolve r arg source with e | x
      · simp [hlookup, hres, Except.map] at ha
      · obtain rfl : Action.ofResolved x = a := by simpa [hlookup, hres, Except.map] using ha
        cases x with
        | expansion inv'' =>
          cases htarget
          -- the arguments are cut from one argument of the outer invocation
          obtain ⟨target, hparse, hargs⟩ := Template.exists_of_resolve_eq_expansion hres
          intro b hb hset
          rw [hargs] at hb
          have hin := (Argument.setOff_of_parse? hparse).2.2 b hb
          exact hinv arg (mem_of_lookup_zip hlookup) ((hset.trans hin).trans (setOff_trim _))
        | _ => cases htarget
  | _ =>
    cases ha
    cases htarget

end Expansion

/-! ### A registry with one macro more -/

namespace Registry

/-- Parameters that are read from a text are identifiers. -/
theorem keepsWords_of_parse {text : Text} {r : Registry} (h : Declaration.parse text = .ok r) :
    ∀ m ∈ r.macros, m.KeepsWords := by
  intro m hm op _ _ p hp
  obtain ⟨before, after, heq⟩ := List.append_of_mem hm
  exact bordered_of_isIdent (((printable_of_parse h).macros before m after heq).params p hp)

variable {r r' : Registry} {m : Macro}

theorem getMacro?_of_addMacro (h : r.addMacro m = .ok r') {name : String} {m' : Macro}
    (hm : r.getMacro? name = some m') : r'.getMacro? name = some m' := by
  obtain ⟨-, rfl⟩ := addMacro_eq_ok.1 h
  rw [getMacro?, List.find?_append]
  rw [getMacro?] at hm
  rw [hm]
  rfl

theorem hasMacro_of_addMacro_of_ne (h : r.addMacro m = .ok r') {name : String}
    (hne : name ≠ m.name) : r'.hasMacro name = r.hasMacro name := by
  obtain ⟨-, rfl⟩ := addMacro_eq_ok.1 h
  have hother : (m.name == name) = false := by simpa using hne.symm
  simp [hasMacro, getMacro?, List.find?_append, hother]

theorem keepsConstants_of_addMacro (h : r.addMacro m = .ok r') : r.KeepsConstants r' :=
  fun _ m' _ hm hn => ⟨m', getMacro?_of_addMacro h hm, hn⟩

/-- An argument that does not have the name of the new macro as a word means the
same with it. -/
theorem sameTarget_of_addMacro (h : r.addMacro m = .ok r') {arg : String}
    (harg : isIdent m.name.toList = true → ¬ SetOff m.name.toList arg.toList) :
    Template.SameTarget r r' arg := by
  intro target htarget
  obtain ⟨hident, hname, -⟩ := Argument.setOff_of_parse? htarget
  refine hasMacro_of_addMacro_of_ne h fun heq => ?_
  have htext : target.name = m.name.toList := by rw [← heq, String.toList_ofList]
  rw [htext] at hident hname
  exact harg hident (hname.trans (setOff_trim _))

end Registry

/-- The tree of an invocation carries over to a registry with a further macro
whose name is in no argument text. -/
theorem Expands.addMacro {r r' : Registry} {m : Macro} (hadd : r.addMacro m = .ok r')
    (hparams : ∀ m' ∈ r.macros, m'.KeepsWords)
    (hops : ∀ m' ∈ r.macros, ∀ op ∈ m'.ops, ∀ a ∈ op.kind.argTexts,
      ¬ m.name.toList <:+: a.toList)
    {inv : Invocation} (hargs : ∀ a ∈ inv.args, ¬ m.name.toList <:+: a.toList)
    {t : ExpansionTree} (ht : Expands r inv t) : Expands r' inv t := by
  -- only an identifier can be taken for a label
  refine Expands.transport
    (Q := fun inv => isIdent m.name.toList = true → inv.Lacks m.name.toList) ?_ ?_ ?_ ?_ ht
  · intro inv inv' hinv hinvokes hident
    obtain ⟨hne, hchars⟩ := isIdent_iff.1 hident
    refine Expansion.lacks_of_invokes (fun ch hch => isWordChar_of_isIdentChar (hchars ch hch)) hne
      hparams ?_ (hinv hident) hinvokes
    exact fun m' hm' op hop a ha hset => hops m' hm' op hop a ha hset.isInfix
  · rintro inv t - ⟨m', hm', -⟩
    rw [hm', Registry.getMacro?_of_addMacro hadd hm']
  · intro inv m' op a hinv _ _ ha
    refine Expansion.action_mono (Registry.keepsConstants_of_addMacro hadd) rfl ?_ ha
    intro param arg hlookup
    refine Registry.sameTarget_of_addMacro hadd fun hident => ?_
    exact hinv hident arg (Expansion.mem_of_lookup_zip hlookup)
  · exact fun _ a ha hset => hargs a ha hset.isInfix

/-! ### Compiling -/

namespace Program

/-- A program is compiled when the call graph shows no cycle, the entry is
expanded with no reference left open, and the tables can be linked. -/
theorem compile_eq_ok_iff {r : Registry} {limits : Limits} {entry : Invocation} {p : Program} :
    compile r limits entry = .ok p ↔
      r.hasMacro entry.name = true ∧ (CallGraph.ofRegistry r).findCycle entry.name = none ∧
        ∃ s n, Expansion.run (Expansion.expand r limits entry 0) 0 = (.ok s, n) ∧ s.jumps = [] ∧
          link (σ := Nat) r limits s = .ok p := by
  rw [compile]
  rcases r.hasMacro entry.name
  · simp
  · rcases (CallGraph.ofRegistry r).findCycle entry.name with - | chain
    · rcases Expansion.run (Expansion.expand r limits entry 0) 0 with ⟨e | s, n⟩
      · simp [bind, Except.bind]
      · rcases hjumps : s.jumps with - | ⟨j, js⟩ <;> simp [bind, Except.bind, hjumps]
    · simp

end Program

theorem Registry.findCycle_eq_none_of_expands {r : Registry} (hr : r.Built) {inv : Invocation}
    {t : ExpansionTree} (ht : Expands r inv t) :
    (CallGraph.ofRegistry r).findCycle inv.name = none := by
  by_contra hfound
  obtain ⟨v, hreach, hcycle⟩ :=
    (CallGraph.findCycle_ne_none_iff (CallGraph.wellFormed_ofRegistry hr)).1 hfound
  exact Expansion.not_expands_of_cycle hcycle hreach t ht

namespace CompilationUnit

theorem compile_eq_ok_iff {u : CompilationUnit} {entry : Invocation} {p : Program} :
    u.compile entry = .ok p ↔ Program.compile u.registry u.limits entry = .ok p := by
  rw [compile]
  rcases Program.compile u.registry u.limits entry with e | q <;> simp

/-- What compiles still compiles to the same program when a macro is declared
whose name occurs in no argument text of the program and in no argument of the
entry, if parameters keep words.  The new macro may have any parameters and
operations. -/
theorem compile_addMacro {listing : Listing} {limits : Limits} {r r' : Registry} {m : Macro}
    {entry : Invocation} {p : Program} (hr : r.Built)
    (hparams : ∀ m' ∈ r.macros, m'.KeepsWords) (hadd : r.addMacro m = .ok r')
    (hops : ∀ m' ∈ r.macros, ∀ op ∈ m'.ops, ∀ a ∈ op.kind.argTexts,
      ¬ m.name.toList <:+: a.toList)
    (hentry : ∀ a ∈ entry.args, ¬ m.name.toList <:+: a.toList)
    (h : compile ⟨listing, r, limits⟩ entry = .ok p) :
    compile ⟨listing, r', limits⟩ entry = .ok p := by
  rw [compile_eq_ok_iff, Program.compile_eq_ok_iff] at h ⊢
  obtain ⟨-, -, s, n, hrun, hjumps, hlink⟩ := h
  obtain ⟨t, ht, hcost⟩ := Expansion.run_expand_eq_ok_iff.1 hrun
  have ht' : Expands r' entry t := ht.addMacro hadd hparams hops hentry
  refine ⟨?_, Registry.findCycle_eq_none_of_expands (hr.addMacro hadd) ht', s, n, ?_, hjumps, ?_⟩
  · obtain ⟨m', hm', -⟩ := ht'
    rw [Registry.hasMacro, hm', Option.isSome_some]
  · exact Expansion.run_expand_eq_ok_iff.2 ⟨t, ht', hcost⟩
  · -- linking reads the tables only
    obtain ⟨-, rfl⟩ := Registry.addMacro_eq_ok.1 hadd
    exact hlink

/-- `GO` hands on a label, and `MAIN` has another label `OTHER`. -/
def forwarded : Text :=
  ("template <to> #define macro GO = takes(0) returns(0) \x7b <to> \x7d " ++
    "#define macro MAIN = takes(0) returns(0) \x7b GO<end>() OTHER OTHER: end: \x7d").toList

@[inherit_doc forwarded]
def forwardedRegistry : Registry where
  macros := [
    { Macro.ofName "GO" with
      params := ["to"], body := " <to> ".toList, ops := [⟨.templateRef "to", 55⟩], source := 14 },
    { Macro.ofName "MAIN" with
      body := " GO<end>() OTHER OTHER: end: ".toList,
      ops := [⟨.call "GO" ["end"], 105⟩, ⟨.jumpRef "OTHER", 115⟩, ⟨.jumpDest "OTHER", 121⟩,
        ⟨.jumpDest "end", 128⟩],
      source := 62 }]

theorem compile_addMacro_forwarded :
    Declaration.parse forwarded = .ok forwardedRegistry ∧
      ∃ r' p, forwardedRegistry.addMacro
          { Macro.ofName "OTHER" with params := ["end"], ops := [⟨.call "OTHER" ["end"], 0⟩] } =
            .ok r' ∧
        p.bytes = [0x61, 0, 7, 0x61, 0, 6, 0x5b, 0x5b] ∧
        compile ⟨.empty, forwardedRegistry, .default⟩ ⟨"MAIN", []⟩ = .ok p ∧
        compile ⟨.empty, r', .default⟩ ⟨"MAIN", []⟩ = .ok p := by
  have hparse : Declaration.parse forwarded = .ok forwardedRegistry := by decide +kernel
  have hcheck : (compile ⟨.empty, forwardedRegistry, .default⟩ ⟨"MAIN", []⟩).map Program.bytes =
      .ok [0x61, 0, 7, 0x61, 0, 6, 0x5b, 0x5b] := by
    decide +kernel
  rcases hcompile : compile ⟨.empty, forwardedRegistry, .default⟩ ⟨"MAIN", []⟩ with e | p
  · rw [hcompile] at hcheck
    cases hcheck
  · rw [hcompile] at hcheck
    have hadd : forwardedRegistry.addMacro
        { Macro.ofName "OTHER" with params := ["end"], ops := [⟨.call "OTHER" ["end"], 0⟩] } =
          .ok _ := rfl
    refine ⟨hparse, _, p, hadd, Except.ok.inj hcheck, rfl, ?_⟩
    exact compile_addMacro (Registry.built_of_parse hparse) (Registry.keepsWords_of_parse hparse)
      hadd (by decide +kernel) (by decide) hcompile

/-- `F` hands on `ab`, and has an empty parameter, which stands at both ends of
this word.  With the value `X` it hands on `XabX`. -/
def gluing : Registry where
  macros := [
    { Macro.ofName "G" with params := ["y"], ops := [⟨.templateRef "y", 1⟩] },
    { Macro.ofName "F" with
      params := [""], ops := [⟨.call "G" ["ab"], 2⟩, ⟨.jumpDest "XabX", 3⟩] }]

/-- The name of a macro that occurs in no argument text can come about when an
empty parameter is replaced.  The macro is then expanded in place of a reference
to a label. -/
theorem compile_gluing :
    gluing.Built ∧
      (∀ m ∈ gluing.macros, ∀ op ∈ m.ops, ∀ a ∈ op.kind.argTexts,
        ¬ "XabX".toList <:+: a.toList) ∧
      (∀ a ∈ ["X"], ¬ "XabX".toList <:+: a.toList) ∧
      ∃ r' p p', gluing.addMacro (Macro.ofName "XabX") = .ok r' ∧
        compile ⟨.empty, gluing, .default⟩ ⟨"F", ["X"]⟩ = .ok p ∧
        compile ⟨.empty, r', .default⟩ ⟨"F", ["X"]⟩ = .ok p' ∧
        p.bytes = [0x61, 0, 3, 0x5b] ∧ p'.bytes = [0x5b] := by
  refine ⟨Registry.built_of_nodup (by decide) (by decide), by decide +kernel, by decide, ?_⟩
  exact ⟨_, _, _, rfl, rfl, rfl, by decide +kernel, by decide +kernel⟩

end CompilationUnit

end MacroAssembler
