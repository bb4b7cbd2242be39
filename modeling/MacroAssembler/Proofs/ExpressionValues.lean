/-
MacroAssembler/Proofs/ExpressionValues.lean

The value of an expression.

The evaluator looks for an operator, cuts and folds, looks through each part
again, and stops at the first fault.  No part has an operator left at which it was
cut, nor one that was looked for in vain before, so all expressions can be cut
level by level, at every operator in turn (`evaluateWith`, `evaluate_eq`).

The reference looks at all pieces at once: an expression has segments between its
minus signs, a segment has terms, and a term has operands.  A segment amounts to
the sum of the products of its operands, and the value is what is left of the
first segment when the others have been taken off.

Sums and products cannot fail by themselves.  So up to a segment, evaluation is
a check of all operands in front of one computation on their values
(`checked`, `evaluateWith_segment`).  Only subtraction can fail in between, and
then a later operand that denotes nothing is never looked at.

Main result: `Template.evaluate_eq_reference`.
-/
import Mathlib.Control.Monad.Basic
import MacroAssembler.Template.Expression

namespace MacroAssembler.Template

/-! ### Level by level -/

/-- The value of an expression over the given operators. -/
def evaluateWith (r : Registry) : List Operator → Text → Except LiteralError Nat
  | [], t => operand r t
  | op :: ops, t => combine op (evaluateWith r ops) (Text.splitOn op.sign t)

/-- An operator that an expression does not have makes no level. -/
theorem evaluateWith_cons {r : Registry} {op : Operator} {ops : List Operator} {t : Text}
    (h : op.sign ∉ t) : evaluateWith r (op :: ops) t = evaluateWith r ops t := by
  rw [evaluateWith, Text.splitOn_of_not_mem h, combine]
  rcases evaluateWith r ops t with e | n <;> rfl

theorem evaluateWith_append {r : Registry} {before after : List Operator} {t : Text}
    (h : ∀ op ∈ before, op.sign ∉ t) :
    evaluateWith r (before ++ after) t = evaluateWith r after t := by
  induction before with
  | nil => rfl
  | cons op before ih =>
    obtain ⟨hop, hbefore⟩ := List.forall_mem_cons.1 h
    rw [List.cons_append, evaluateWith_cons hop, ih hbefore]

theorem combine_map {α β : Type} (op : Operator) (value : β → Except LiteralError Nat) (f : α → β)
    (ps : List α) : combine op value (ps.map f) = combine op (fun p => value (f p)) ps := by
  cases ps with
  | nil => rfl
  | cons p ps => simp only [List.map_cons, combine, List.foldlM_map]

theorem combine_congr {α : Type} {op : Operator} {f g : α → Except LiteralError Nat} {ps : List α}
    (h : ∀ p ∈ ps, f p = g p) : combine op f ps = combine op g ps := by
  have hvalues := congrArg (combine op id) (List.map_congr_left h)
  rw [combine_map, combine_map] at hvalues
  exact hvalues

variable {r : Registry}

theorem evaluate_of_first?_eq_none {t : Text} (h : Operator.first? t = none) :
    evaluate r t = operand r t := by
  rw [evaluate]
  split
  · rfl
  · simp_all

/-- An expression that has an operator is the combination of its parts. -/
theorem evaluate_of_first? {t : Text} {op : Operator} (h : Operator.first? t = some op) :
    evaluate r t = combine op (evaluate r) (Text.splitOn op.sign t) := by
  have hpart : ∀ p, (if (Operator.first? p).isSome then evaluate r p else operand r p) =
      evaluate r p := by
    intro p
    rcases hp : Operator.first? p with - | op'
    · exact (evaluate_of_first?_eq_none hp).symm
    · rfl
  rw [evaluate]
  split
  · simp_all
  · next op' h' =>
    obtain rfl : op = op' := Option.some.inj (h.symm.trans h')
    simp only [hpart]
    rw [← combine_map op (evaluate r) Subtype.val, List.attach_map_subtype_val]

/-- Cutting at the first operator that is there, again and again, is cutting level
by level. -/
theorem evaluate_eq (r : Registry) (t : Text) :
    evaluate r t = evaluateWith r Operator.ranked t := by
  rcases hfirst : Operator.first? t with - | op
  · have habsent : ∀ op ∈ Operator.ranked, op.sign ∉ t := by
      intro op hop
      simpa using List.find?_eq_none.1 hfirst op hop
    rw [evaluate_of_first?_eq_none hfirst, ← List.append_nil Operator.ranked,
      evaluateWith_append habsent, evaluateWith]
  · obtain ⟨-, before, after, hranked, hbefore⟩ := List.find?_eq_some_iff_append.1 hfirst
    have habsent : ∀ op' ∈ before, op'.sign ∉ t := by
      intro op' hop'
      simpa using hbefore op' hop'
    rw [evaluate_of_first? hfirst, hranked, evaluateWith_append habsent, evaluateWith]
    refine combine_congr fun p hp => ?_
    have hlt := Text.length_lt_of_mem_splitOn (Operator.sign_mem_of_first? hfirst) hp
    obtain ⟨hop, hsub⟩ := Text.sublist_of_mem_splitOn hp
    -- the part has neither this operator nor one that comes before it
    have hpart : ∀ op' ∈ before ++ [op], op'.sign ∉ p := by
      intro op' hop'
      obtain hop' | hop' := List.mem_append.1 hop'
      · exact fun hmem => habsent op' hop' (hsub.subset hmem)
      · rwa [List.mem_singleton.1 hop']
    rw [evaluate_eq r p, hranked, List.append_cons, evaluateWith_append hpart]
termination_by t.length

/-! ### The reference -/

/-- What an operand denotes: the literal, or else the constant of that name. -/
def denotes? (r : Registry) (o : Text) : Option Nat :=
  (Numeral.parse? (Text.trim o)).or
    ((r.getMacro? (String.ofList (Text.trim o))).bind Macro.constant?)

/-- What is reported of an operand that denotes nothing. -/
def operandFault (r : Registry) (o : Text) : LiteralError :=
  if r.hasMacro (String.ofList (Text.trim o)) then .notConstant (String.ofList (Text.trim o))
  else .notLiteral

/-- The first operand that denotes nothing. -/
def faulty? (r : Registry) (os : List Text) : Option Text :=
  os.find? fun o => (denotes? r o).isNone

/-- The number that an operand denotes. -/
def value (r : Registry) (o : Text) : Nat := (denotes? r o).getD 0

/-- The sum of some values. -/
def sumOf (val : Text → Nat) (ps : List Text) : Nat := ps.foldr (fun p n => val p + n) 0

/-- The product of some values. -/
def productOf (val : Text → Nat) (ps : List Text) : Nat := ps.foldr (fun p n => val p * n) 1

/-- The operands of a segment. -/
def operands (segment : Text) : List Text :=
  (Text.splitOn '+' segment).flatMap (Text.splitOn '*')

/-- What a segment amounts to: the sum of its terms, each the product of its
operands. -/
def amount (r : Registry) (segment : Text) : Nat :=
  sumOf (fun term => productOf (value r) (Text.splitOn '*' term)) (Text.splitOn '+' segment)

/-- All operands of a segment denote a value. -/
def Denotes (r : Registry) (segment : Text) : Prop :=
  ∀ o ∈ operands segment, (denotes? r o).isSome = true

/-- The segments of an expression. -/
def segments (t : Text) : List Text := Text.splitOn '-' t

/-- The segment that the others are taken off. -/
def minuend (t : Text) : Text := (segments t).headD []

/-- The segments that are taken off. -/
def subtrahends (t : Text) : List Text := (segments t).tail

/-! ### Checked operands -/

/-- A number, if all operands denote a value. -/
def checked (r : Registry) (os : List Text) (n : Nat) : Except LiteralError Nat :=
  match faulty? r os with
  | none => .ok n
  | some o => .error (operandFault r o)

theorem evaluateWith_operand (o : Text) : evaluateWith r [] o = checked r [o] (value r o) := by
  simp only [evaluateWith, operand, checked, faulty?, value, denotes?, operandFault,
    Registry.hasMacro, List.find?_cons, List.find?_nil]
  rcases Numeral.parse? (Text.trim o) with - | n
  · rcases hm : r.getMacro? (String.ofList (Text.trim o)) with - | m
    · simp [hm]
    · rcases hconst : m.constant? with - | n <;> simp [hm, hconst]
  · rfl

/-- Operands that are checked one after the other are checked together. -/
theorem checked_bind (os os' : List Text) (n : Nat) (f : Nat → Nat) :
    (checked r os n >>= fun k => checked r os' (f k)) = checked r (os ++ os') (f n) := by
  simp only [checked, faulty?, List.find?_append]
  rcases os.find? fun o => (denotes? r o).isNone with - | o <;> rfl

theorem faulty?_eq_none_iff {segment : Text} :
    faulty? r (operands segment) = none ↔ Denotes r segment := by
  simp [faulty?, Denotes, Option.isSome_iff_ne_none]

/-! ### Operators that cannot fail -/

/-- Parts that are combined without a fault of their own are checked together. -/
theorem foldlM_checked {op : Operator} {f : Nat → Nat → Nat}
    (hop : ∀ a b, op.apply a b = .ok (f a b)) {part : Text → Except LiteralError Nat}
    {os : Text → List Text} {val : Text → Nat} (hpart : ∀ p, part p = checked r (os p) (val p))
    (ps : List Text) (before : List Text) (acc : Nat) :
    (checked r before acc >>= ps.foldlM fun acc q => do op.apply acc (← part q)) =
      checked r (before ++ ps.flatMap os) (ps.foldl (fun acc q => f acc (val q)) acc) := by
  induction ps generalizing before acc with
  | nil =>
    rw [List.flatMap_nil, List.append_nil, List.foldl_nil]
    rcases checked r before acc with e | n <;> rfl
  | cons p ps ih =>
    -- the first part joins what has been checked before
    have hfirst : (checked r before acc >>= fun acc => part p >>= op.apply acc) =
        checked r (before ++ os p) (f acc (val p)) := by
      rw [← checked_bind before (os p) acc fun acc => f acc (val p)]
      refine congrArg _ (funext fun acc => ?_)
      rw [hpart p, checked, checked]
      rcases faulty? r (os p) with - | o
      · exact hop _ _
      · rfl
    rw [List.flatMap_cons, ← List.append_assoc, List.foldl_cons, ← ih, ← hfirst, bind_assoc]
    rfl

theorem combine_checked {op : Operator} {f : Nat → Nat → Nat}
    (hop : ∀ a b, op.apply a b = .ok (f a b)) {part : Text → Except LiteralError Nat}
    {os : Text → List Text} {val : Text → Nat} (hpart : ∀ p, part p = checked r (os p) (val p))
    (p : Text) (ps : List Text) :
    combine op part (p :: ps) =
      checked r ((p :: ps).flatMap os) (ps.foldl (fun acc q => f acc (val q)) (val p)) := by
  rw [combine, hpart p, List.flatMap_cons]
  exact foldlM_checked hop hpart ps (os p) (val p)

theorem foldl_add_eq_sumOf (val : Text → Nat) (ps : List Text) (acc : Nat) :
    ps.foldl (fun acc q => acc + val q) acc = acc + sumOf val ps := by
  induction ps generalizing acc with
  | nil => rfl
  | cons p ps ih => rw [List.foldl_cons, ih, Nat.add_assoc, sumOf, sumOf, List.foldr_cons]

theorem foldl_mul_eq_productOf (val : Text → Nat) (ps : List Text) (acc : Nat) :
    ps.foldl (fun acc q => acc * val q) acc = acc * productOf val ps := by
  induction ps generalizing acc with
  | nil => rw [List.foldl_nil, productOf, List.foldr_nil, Nat.mul_one]
  | cons p ps ih => rw [List.foldl_cons, ih, Nat.mul_assoc, productOf, productOf, List.foldr_cons]

/-- A term is the product of its operands, if they denote values. -/
theorem evaluateWith_term (term : Text) :
    evaluateWith r [.times] term =
      checked r (Text.splitOn '*' term) (productOf (value r) (Text.splitOn '*' term)) := by
  obtain ⟨p, ps, hsplit⟩ := Text.exists_splitOn_eq_cons '*' term
  have hsingle : (p :: ps).flatMap (fun o => [o]) = p :: ps := by simp
  rw [evaluateWith, show Operator.times.sign = '*' from rfl, hsplit,
    combine_checked (fun _ _ => rfl) evaluateWith_operand p ps, hsingle, foldl_mul_eq_productOf]
  rfl

/-- A segment is the sum of its terms, if its operands denote values. -/
theorem evaluateWith_segment (segment : Text) :
    evaluateWith r [.plus, .times] segment = checked r (operands segment) (amount r segment) := by
  obtain ⟨p, ps, hsplit⟩ := Text.exists_splitOn_eq_cons '+' segment
  rw [evaluateWith, show Operator.plus.sign = '+' from rfl, operands, amount, hsplit,
    combine_checked (fun _ _ => rfl) evaluateWith_term p ps, foldl_add_eq_sumOf]
  rfl

/-! ### Subtraction -/

/-- Take segments off a number, one after the other. -/
def takeOff (r : Registry) (acc : Nat) (ss : List Text) : Except LiteralError Nat :=
  ss.foldlM (fun acc s => do Operator.minus.apply acc (← evaluateWith r [.plus, .times] s)) acc

theorem evaluate_eq_takeOff (t : Text) :
    evaluate r t = (checked r (operands (minuend t)) (amount r (minuend t)) >>=
      fun acc => takeOff r acc (subtrahends t)) := by
  obtain ⟨s, ss, hsplit⟩ := Text.exists_splitOn_eq_cons '-' t
  have hminuend : minuend t = s := by rw [minuend, segments, hsplit, List.headD_cons]
  have hsubtrahends : subtrahends t = ss := by rw [subtrahends, segments, hsplit, List.tail_cons]
  rw [hminuend, hsubtrahends, ← evaluateWith_segment, evaluate_eq, Operator.ranked, evaluateWith,
    show Operator.minus.sign = '-' from rfl, hsplit]
  rfl

variable {acc : Nat} {s : Text} {ss : List Text}

theorem takeOff_of_denotes (h : Denotes r s) :
    takeOff r acc (s :: ss) =
      if acc < amount r s then .error .negative else takeOff r (acc - amount r s) ss := by
  rw [takeOff, List.foldlM_cons, evaluateWith_segment, checked, faulty?_eq_none_iff.2 h]
  show (Operator.minus.apply acc (amount r s) >>= _) = _
  rw [Operator.apply]
  by_cases hlt : acc < amount r s
  · rw [if_pos hlt, if_pos hlt]
    rfl
  · rw [if_neg hlt, if_neg hlt]
    rfl

theorem takeOff_of_faulty {o : Text} (h : faulty? r (operands s) = some o) :
    takeOff r acc (s :: ss) = .error (operandFault r o) := by
  rw [takeOff, List.foldlM_cons, evaluateWith_segment, checked, h]
  rfl

theorem not_denotes_of_faulty {o : Text} (h : faulty? r (operands s) = some o) : ¬ Denotes r s := by
  rw [← faulty?_eq_none_iff, h]
  exact Option.some_ne_none o

theorem operandFault_ne_negative (o : Text) : operandFault r o ≠ .negative := by
  rw [operandFault]
  split <;> exact LiteralError.noConfusion

@[simp] theorem sumOf_cons (val : Text → Nat) (p : Text) (ps : List Text) :
    sumOf val (p :: ps) = val p + sumOf val ps := rfl

@[simp] theorem sumOf_nil (val : Text → Nat) : sumOf val [] = 0 := rfl

theorem sumOf_take_le (val : Text → Nat) (ps : List Text) {j k : Nat} (h : j ≤ k) :
    sumOf val (ps.take j) ≤ sumOf val (ps.take k) := by
  induction ps generalizing j k with
  | nil => simp
  | cons p ps ih =>
    cases j with
    | zero => exact Nat.zero_le _
    | succ j =>
      obtain ⟨k, rfl⟩ : ∃ i, k = i + 1 := ⟨k - 1, by omega⟩
      exact Nat.add_le_add_left (ih (Nat.le_of_succ_le_succ h)) _

theorem takeOff_eq_ok_iff {v : Nat} :
    takeOff r acc ss = .ok v ↔
      (∀ s ∈ ss, Denotes r s) ∧ sumOf (amount r) ss ≤ acc ∧ v = acc - sumOf (amount r) ss := by
  induction ss generalizing acc with
  | nil =>
    show Except.ok acc = Except.ok v ↔ _
    simp [eq_comm]
  | cons s ss ih =>
    rw [List.forall_mem_cons, sumOf_cons]
    rcases hf : faulty? r (operands s) with - | o
    · have hs := faulty?_eq_none_iff.1 hf
      rw [takeOff_of_denotes hs, and_iff_right hs]
      by_cases hlt : acc < amount r s
      · rw [if_pos hlt]
        refine iff_of_false (by simp) ?_
        rintro ⟨-, hle, -⟩
        omega
      · rw [if_neg hlt, ih]
        have harith : (sumOf (amount r) ss ≤ acc - amount r s ∧
            v = acc - amount r s - sumOf (amount r) ss) ↔
            amount r s + sumOf (amount r) ss ≤ acc ∧
              v = acc - (amount r s + sumOf (amount r) ss) := by
          omega
        rw [harith]
    · rw [takeOff_of_faulty hf]
      refine iff_of_false (by simp) ?_
      exact fun h => not_denotes_of_faulty hf h.1.1

theorem takeOff_eq_negative_iff :
    takeOff r acc ss = .error .negative ↔
      ∃ k < ss.length, (∀ s ∈ ss.take (k + 1), Denotes r s) ∧
        acc < sumOf (amount r) (ss.take (k + 1)) ∧ sumOf (amount r) (ss.take k) ≤ acc := by
  induction ss generalizing acc with
  | nil =>
    refine iff_of_false (fun h => by cases h) ?_
    rintro ⟨k, hk, -⟩
    exact Nat.not_lt_zero k hk
  | cons s ss ih =>
    rcases hf : faulty? r (operands s) with - | o
    · have hs := faulty?_eq_none_iff.1 hf
      rw [takeOff_of_denotes hs]
      by_cases hlt : acc < amount r s
      · -- the first segment is already too much
        rw [if_pos hlt]
        refine iff_of_true rfl ⟨0, Nat.succ_pos _, ?_, ?_, Nat.zero_le _⟩
        · simpa using hs
        · simpa using hlt
      · rw [if_neg hlt, ih]
        constructor
        · rintro ⟨k, hk, hall, hover, hunder⟩
          refine ⟨k + 1, Nat.succ_lt_succ hk, ?_, ?_, ?_⟩
          · rw [List.take_succ_cons]
            exact List.forall_mem_cons.2 ⟨hs, hall⟩
          · rw [List.take_succ_cons, sumOf_cons]
            omega
          · rw [List.take_succ_cons, sumOf_cons]
            omega
        · rintro ⟨k, hk, hall, hover, hunder⟩
          cases k with
          | zero =>
            simp only [Nat.zero_add, List.take_succ_cons, List.take_zero, sumOf_cons, sumOf_nil] at hover
            omega
          | succ k =>
            rw [List.take_succ_cons] at hall
            rw [List.take_succ_cons, sumOf_cons] at hover hunder
            exact ⟨k, Nat.lt_of_succ_lt_succ hk, (List.forall_mem_cons.1 hall).2, by omega, by omega⟩
    · rw [takeOff_of_faulty hf]
      refine iff_of_false (fun h => operandFault_ne_negative o (Except.error.inj h)) ?_
      rintro ⟨k, -, hall, -⟩
      rw [List.take_succ_cons] at hall
      exact not_denotes_of_faulty hf (List.forall_mem_cons.1 hall).1

theorem takeOff_eq_error {e : LiteralError} (h : takeOff r acc ss = .error e) :
    e = .negative ∨ ∃ o, faulty? r (ss.flatMap operands) = some o ∧ e = operandFault r o := by
  induction ss generalizing acc with
  | nil => cases h
  | cons s ss ih =>
    rw [List.flatMap_cons, faulty?, List.find?_append, ← faulty?]
    rcases hf : faulty? r (operands s) with - | o
    · rw [takeOff_of_denotes (faulty?_eq_none_iff.1 hf)] at h
      split at h
      · cases h
        exact .inl rfl
      · exact ih h
    · rw [takeOff_of_faulty hf] at h
      cases h
      exact .inr ⟨o, rfl, rfl⟩

/-! ### Whole expressions -/

theorem segments_eq_cons (t : Text) : segments t = minuend t :: subtrahends t := by
  obtain ⟨s, ss, hsplit⟩ := Text.exists_splitOn_eq_cons '-' t
  rw [minuend, subtrahends, segments, hsplit]
  rfl

theorem evaluate_of_denotes {t : Text} (h : Denotes r (minuend t)) :
    evaluate r t = takeOff r (amount r (minuend t)) (subtrahends t) := by
  rw [evaluate_eq_takeOff, checked, faulty?_eq_none_iff.2 h]
  rfl

/-- Where the first segment is at fault, the others are not looked at. -/
theorem evaluate_of_faulty {t o : Text} (h : faulty? r (operands (minuend t)) = some o) :
    evaluate r t = .error (operandFault r o) := by
  rw [evaluate_eq_takeOff, checked, h]
  rfl

theorem evaluate_eq_ok_iff {t : Text} {v : Nat} :
    evaluate r t = .ok v ↔
      (∀ s ∈ segments t, Denotes r s) ∧
      sumOf (amount r) (subtrahends t) ≤ amount r (minuend t) ∧
      v = amount r (minuend t) - sumOf (amount r) (subtrahends t) := by
  rw [segments_eq_cons, List.forall_mem_cons]
  rcases hf : faulty? r (operands (minuend t)) with - | o
  · have hm := faulty?_eq_none_iff.1 hf
    rw [evaluate_of_denotes hm, takeOff_eq_ok_iff, and_iff_right hm]
  · rw [evaluate_of_faulty hf]
    refine iff_of_false (by simp) ?_
    exact fun h => not_denotes_of_faulty hf h.1.1

theorem evaluate_eq_negative_iff {t : Text} :
    evaluate r t = .error .negative ↔
      ∃ k < (segments t).length, (∀ s ∈ (segments t).take (k + 1), Denotes r s) ∧
        amount r (minuend t) < sumOf (amount r) ((subtrahends t).take k) ∧
        ∀ j < k, sumOf (amount r) ((subtrahends t).take j) ≤ amount r (minuend t) := by
  simp only [segments_eq_cons t, List.take_succ_cons, List.forall_mem_cons, List.length_cons]
  rcases hf : faulty? r (operands (minuend t)) with - | o
  · have hm := faulty?_eq_none_iff.1 hf
    rw [evaluate_of_denotes hm, takeOff_eq_negative_iff]
    constructor
    · rintro ⟨k, hk, hall, hover, hunder⟩
      refine ⟨k + 1, Nat.succ_lt_succ hk, ⟨hm, hall⟩, hover, fun j hj => ?_⟩
      exact Nat.le_trans (sumOf_take_le _ _ (Nat.le_of_lt_succ hj)) hunder
    · rintro ⟨k, hk, ⟨-, hall⟩, hover, hunder⟩
      -- nothing has been taken off at index 0
      cases k with
      | zero => exact absurd hover (Nat.not_lt_zero _)
      | succ k =>
        exact ⟨k, Nat.lt_of_succ_lt_succ hk, hall, hover, hunder k (Nat.lt_succ_self k)⟩
  · rw [evaluate_of_faulty hf]
    refine iff_of_false (fun h => operandFault_ne_negative o (Except.error.inj h)) ?_
    rintro ⟨k, -, hall, -⟩
    exact not_denotes_of_faulty hf hall.1

/-- An error other than that of a negative number is that of the first operand
that denotes nothing. -/
theorem evaluate_eq_error {t : Text} {e : LiteralError} (h : evaluate r t = .error e) :
    e = .negative ∨
      ∃ o, faulty? r ((segments t).flatMap operands) = some o ∧ e = operandFault r o := by
  rw [segments_eq_cons, List.flatMap_cons, faulty?, List.find?_append, ← faulty?]
  rcases hf : faulty? r (operands (minuend t)) with - | o
  · rw [evaluate_of_denotes (faulty?_eq_none_iff.1 hf)] at h
    exact takeOff_eq_error h
  · rw [evaluate_of_faulty hf] at h
    cases h
    exact .inr ⟨o, rfl, rfl⟩

/-- An expression has a value exactly when all its operands denote one and the
later segments amount to no more than the first; the value is the difference.
Subtraction fails exactly when it does so at some segment, with all operands up
to there denoting values.  Otherwise the fault is that of the first operand that
denotes nothing. -/
theorem evaluate_eq_reference (r : Registry) (t : Text) :
    (∀ v, evaluate r t = .ok v ↔
      (∀ s ∈ segments t, Denotes r s) ∧
      sumOf (amount r) (subtrahends t) ≤ amount r (minuend t) ∧
      v = amount r (minuend t) - sumOf (amount r) (subtrahends t)) ∧
    (evaluate r t = .error .negative ↔
      ∃ k < (segments t).length, (∀ s ∈ (segments t).take (k + 1), Denotes r s) ∧
        amount r (minuend t) < sumOf (amount r) ((subtrahends t).take k) ∧
        ∀ j < k, sumOf (amount r) ((subtrahends t).take j) ≤ amount r (minuend t)) ∧
    ((∃ v, evaluate r t = .ok v) ∨ evaluate r t = .error .negative ∨
      ∃ o, faulty? r ((segments t).flatMap operands) = some o ∧
        evaluate r t = .error (operandFault r o)) := by
  refine ⟨fun v => evaluate_eq_ok_iff, evaluate_eq_negative_iff, ?_⟩
  rcases heval : evaluate r t with e | v
  · obtain rfl | ⟨o, ho, rfl⟩ := evaluate_eq_error heval
    · exact .inr (.inl rfl)
    · exact .inr (.inr ⟨o, ho, rfl⟩)
  · exact .inl ⟨v, rfl⟩

/-- Later signs do not pull apart what an earlier one has cut, and a fault behind a
negative difference is not reported. -/
example :
    evaluate .empty "10-2+3*2".toList = .ok 2 ∧
      evaluate .empty "1-2-x".toList = .error .negative ∧
      evaluate .empty "2-1-x*y".toList = .error .notLiteral := by
  decide +kernel

end MacroAssembler.Template
