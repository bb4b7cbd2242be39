/-
MacroAssembler/Proofs/Transport.lean

The same tree in another registry.

An expansion looks names up in four places: a call or a measurement enters a
macro, a template argument may be the name of one, and an operand of an
expression may be the name of a constant.  Where these answers carry over from
one registry to another, so do actions (`action_mono`), and where they carry
over for everything that an invocation leads to, so does its tree
(`Expands.transport`).

Evaluation is monotone only: an operand that has a value keeps it, and one that
has none may get one.  A tree needs no more, because an expression without a
value stops the expansion.
-/
import MacroAssembler.Proofs.Descent
import MacroAssembler.Proofs.ExpressionValues

namespace MacroAssembler

/-! ### Expressions -/

/-- Every constant of the first registry is a constant of the second. -/
def Registry.KeepsConstants (r r' : Registry) : Prop :=
  ∀ name m n, r.getMacro? name = some m → m.constant? = some n →
    ∃ m', r'.getMacro? name = some m' ∧ m'.constant? = some n

namespace Template

variable {r r' : Registry}

theorem operand_mono (hc : r.KeepsConstants r') {t : Text} {n : Nat}
    (h : operand r t = .ok n) : operand r' t = .ok n := by
  unfold operand at h ⊢
  rcases hnum : Numeral.parse? (Text.trim t) with - | k
  · simp only [hnum] at h ⊢
    rcases hm : r.getMacro? (String.ofList (Text.trim t)) with - | m
    · simp [hm] at h
    · rcases hconst : m.constant? with - | k
      · simp [hm, hconst] at h
      · obtain rfl : k = n := by simpa [hm, hconst] using h
        obtain ⟨m', hm', hconst'⟩ := hc _ m k hm hconst
        simp [hm', hconst']
  · simpa only [hnum] using h

theorem foldlM_mono {value value' : Text → Except LiteralError Nat}
    (hv : ∀ t n, value t = .ok n → value' t = .ok n) (op : Operator) {ps : List Text} {acc n : Nat}
    (h : ps.foldlM (fun acc q => do op.apply acc (← value q)) acc = .ok n) :
    ps.foldlM (fun acc q => do op.apply acc (← value' q)) acc = .ok n := by
  induction ps generalizing acc with
  | nil => exact h
  | cons p ps ih =>
    rw [List.foldlM_cons] at h ⊢
    -- the part has a value, so the same value goes into the sum in both
    rcases hp : value p with e | k
    · rw [hp] at h
      cases h
    · rw [hp] at h
      rw [hv p k hp]
      rcases happ : op.apply acc k with e | acc'
      · simp only [bind, Except.bind, happ] at h
        cases h
      · simp only [bind, Except.bind, happ] at h ⊢
        exact ih h

theorem combine_mono {value value' : Text → Except LiteralError Nat}
    (hv : ∀ t n, value t = .ok n → value' t = .ok n) (op : Operator) {ps : List Text} {n : Nat}
    (h : combine op value ps = .ok n) : combine op value' ps = .ok n := by
  cases ps with
  | nil => cases h
  | cons p ps =>
    rw [combine] at h ⊢
    rcases hp : value p with e | k
    · rw [hp] at h
      cases h
    · rw [hp] at h
      rw [hv p k hp]
      exact foldlM_mono hv op h

theorem evaluateWith_mono (hc : r.KeepsConstants r') {ops : List Operator} {t : Text} {n : Nat}
    (h : evaluateWith r ops t = .ok n) : evaluateWith r' ops t = .ok n := by
  induction ops generalizing t n with
  | nil => exact operand_mono hc h
  | cons op ops ih =>
    rw [evaluateWith] at h ⊢
    exact combine_mono (fun _ _ => ih) op h

/-- An expression that has a value keeps it. -/
theorem evaluate_mono (hc : r.KeepsConstants r') {t : Text} {n : Nat}
    (h : evaluate r t = .ok n) : evaluate r' t = .ok n := by
  rw [evaluate_eq] at h ⊢
  exact evaluateWith_mono hc h

/-! ### Template arguments -/

/-- The name in an argument that has the form of a call is a macro of both
registries or of neither. -/
def SameTarget (r r' : Registry) (arg : String) : Prop :=
  ∀ target, Argument.CallTarget.parse? (Text.trim arg.toList) = some target →
    r'.hasMacro (String.ofList target.name) = r.hasMacro (String.ofList target.name)

theorem resolve_mono (hc : r.KeepsConstants r') {arg : String} (ht : SameTarget r r' arg)
    {source : Nat} {x : Resolved} (h : resolve r arg source = .ok x) :
    resolve r' arg source = .ok x := by
  unfold resolve at h ⊢
  by_cases hlit : Argument.isLiteral (Text.trim arg.toList)
  · simp only [if_pos hlit] at h ⊢
    rcases heval : evaluate r (Text.trim arg.toList) with e | n
    · simp [resolveLiteral, heval, bind, Except.bind] at h
    · have heval' : evaluate r' (Text.trim arg.toList) = .ok n := evaluate_mono hc heval
      simp only [resolveLiteral, heval, heval'] at h ⊢
      exact h
  · simp only [if_neg hlit] at h ⊢
    rcases hop : Opcode.ofMnemonic? (String.ofList (Text.trim arg.toList)) with - | byte
    · simp only [hop] at h ⊢
      unfold resolveName at h ⊢
      rcases htarget : Argument.CallTarget.parse? (Text.trim arg.toList) with - | target
      · simpa only [htarget] using h
      · simpa only [htarget, ht target htarget] using h
    · simpa only [hop] using h

end Template

/-! ### Actions -/

namespace Expansion

variable {r r' : Registry}

/-- An action is the same for any macro with these parameters, in a registry
where the arguments mean the same. -/
theorem action_mono (hc : r.KeepsConstants r') {m m' : Macro} (hp : m.params = m'.params)
    {values : List String} {op : Operation}
    (hargs : ∀ param arg, (m.params.zip values).lookup param = some arg →
      Template.SameTarget r r' arg)
    {a : Action} (h : action r m values op = .ok a) : action r' m' values op = .ok a := by
  obtain ⟨kind, source⟩ := op
  cases kind with
  | templateRef param =>
    simp only [action, ← hp] at h ⊢
    rcases hlookup : (m.params.zip values).lookup param with - | arg
    · simp [hlookup] at h
    · simp only [hlookup] at h ⊢
      rcases hres : Template.resolve r arg source with e | x
      · rw [hres] at h
        cases h
      · rw [hres] at h
        rw [Template.resolve_mono hc (hargs param arg hlookup) hres]
        exact h
  | call name args | codeSize name args =>
    simpa only [action, callArgs, hp] using h
  | _ => exact h

end Expansion

/-! ### Trees -/

variable {r r' : Registry}

open Expansion

/-- Relations between trees that hold of two nodes of one kind when they hold of
what the nodes are made of. -/
structure ExpansionTree.Congruence (R : ExpansionTree → ExpansionTree → Prop) : Prop where
  done : R .done .done
  instr {source i t t'} : R t t' → R (.instr source i t) (.instr source i t')
  inlined {c c' t t'} : R c c' → R t t' → R (.inlined c t) (.inlined c' t')
  measured {source c c' t t'} :
    R c c' → R t t' → R (.measured source c t) (.measured source c' t')

theorem ExpansionTree.Congruence.eq : Congruence Eq where
  done := rfl
  instr h := by rw [h]
  inlined hc h := by rw [hc, h]
  measured hc h := by rw [hc, h]

/-- One level of a tree carries over to a related tree if the actions are the same
and the trees inside carry over. -/
theorem Unfolds.relate {R : ExpansionTree → ExpansionTree → Prop}
    (hR : ExpansionTree.Congruence R) {m m' : Macro} {values : List String} {ops : List Operation}
    {t : ExpansionTree} (ht : Unfolds r m values ops t)
    (hact : ∀ op ∈ ops, ∀ a, action r m values op = .ok a → action r' m' values op = .ok a)
    (hinner : ∀ op ∈ ops, ∀ a inv, action r m values op = .ok a → a.target? = some inv →
      ∀ u, Expands r inv u → ∃ u', Expands r' inv u' ∧ R u u') :
    ∃ t', Unfolds r' m' values ops t' ∧ R t t' := by
  induction ht with
  | done => exact ⟨.done, .done, hR.done⟩
  | instr ha _ ih =>
    obtain ⟨t', ht', hrel⟩ := ih (fun op hop => hact op (List.mem_cons_of_mem _ hop))
      fun op hop => hinner op (List.mem_cons_of_mem _ hop)
    exact ⟨_, .instr (hact _ List.mem_cons_self _ ha) ht', hR.instr hrel⟩
  | inlined ha hm harity hc _ _ ih =>
    obtain ⟨t', ht', hrel⟩ := ih (fun op hop => hact op (List.mem_cons_of_mem _ hop))
      fun op hop => hinner op (List.mem_cons_of_mem _ hop)
    obtain ⟨c', ⟨m'', hm'', harity', hc'⟩, hchild⟩ :=
      hinner _ List.mem_cons_self _ _ ha rfl _ ⟨_, hm, harity, hc⟩
    exact ⟨_, .inlined (hact _ List.mem_cons_self _ ha) hm'' harity' hc' ht',
      hR.inlined hchild hrel⟩
  | measured ha hm harity hc _ _ ih =>
    obtain ⟨t', ht', hrel⟩ := ih (fun op hop => hact op (List.mem_cons_of_mem _ hop))
      fun op hop => hinner op (List.mem_cons_of_mem _ hop)
    obtain ⟨c', ⟨m'', hm'', harity', hc'⟩, hchild⟩ :=
      hinner _ List.mem_cons_self _ _ ha rfl _ ⟨_, hm, harity, hc⟩
    exact ⟨_, .measured (hact _ List.mem_cons_self _ ha) hm'' harity' hc' ht',
      hR.measured hchild hrel⟩

/-- One level of a tree carries over if the actions do and the trees inside
do. -/
theorem Unfolds.transport {m m' : Macro} {values : List String} {ops : List Operation}
    {t : ExpansionTree} (ht : Unfolds r m values ops t)
    (hact : ∀ op ∈ ops, ∀ a, action r m values op = .ok a → action r' m' values op = .ok a)
    (hinner : ∀ op ∈ ops, ∀ a inv, action r m values op = .ok a → a.target? = some inv →
      ∀ u, Expands r inv u → Expands r' inv u) :
    Unfolds r' m' values ops t := by
  obtain ⟨t', ht', rfl⟩ := ht.relate ExpansionTree.Congruence.eq hact
    fun op hop a inv ha hinv u hu => ⟨u, hinner op hop a inv ha hinv u hu, rfl⟩
  exact ht'

/-- A tree carries over to a registry that answers alike for all invocations of
`Q`, if `Q` holds of the invocation and goes down with what it invokes. -/
theorem Expands.transport {Q : Invocation → Prop} (hstep : ∀ {a b}, Q a → Invokes r a b → Q b)
    (hget : ∀ {a t}, Q a → Expands r a t → r'.getMacro? a.name = r.getMacro? a.name)
    (hact : ∀ {a m op x}, Q a → r.getMacro? a.name = some m → op ∈ m.ops →
      action r m a.args op = .ok x → action r' m a.args op = .ok x)
    {inv : Invocation} {t : ExpansionTree} (hQ : Q inv) (ht : Expands r inv t) :
    Expands r' inv t := by
  induction hd : t.depth using Nat.strongRecOn generalizing inv t with
  | _ d ih =>
    obtain ⟨m, hm, harity, hops⟩ := id ht
    refine ⟨m, (hget hQ ht).trans hm, harity, hops.transport ?_ ?_⟩
    · exact fun op hop a ha => hact hQ hm hop ha
    · intro op hop a inv' ha hinv' u hu
      have hinvokes : Invokes r inv inv' := ⟨m, op, a, hm, hop, ha, hinv'⟩
      obtain ⟨u', hu', hlt⟩ := ht.inner hinvokes
      obtain rfl : u = u' := hu.unique hu'
      exact ih _ (hd ▸ hlt) (hstep hQ hinvokes) hu rfl

end MacroAssembler
