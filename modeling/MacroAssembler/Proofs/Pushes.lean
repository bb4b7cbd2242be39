/-
MacroAssembler/Proofs/Pushes.lean

Every push that a body is read into has an immediate that some push opcode
carries (`pushesEncodable_of_parse`).

Literals and table sizes are the only tokens that stand for a push, and each of
them goes through the one place where a number is encoded.
-/
import MacroAssembler.Proofs.Registration

namespace MacroAssembler

/-- Some push opcode carries the immediate. -/
def Push.Encodable (p : Push) : Prop := 1 ≤ p.immediate.length ∧ p.immediate.length ≤ 32

/-- Every push in a body can be encoded. -/
def Registry.PushesEncodable (r : Registry) : Prop :=
  ∀ m ∈ r.macros, ∀ op ∈ m.ops, ∀ p, op.kind = .push p → p.Encodable

theorem Push.encodable_of_encode {n : Nat} {p : Push} (h : Push.encode n = .ok p) :
    p.Encodable := by
  simp only [Push.encode, Opcode.push?] at h
  by_cases hlen : 1 ≤ (Numeral.minimalBytes n).length ∧
      (Numeral.minimalBytes n).length ≤ Opcode.maxPushWidth
  · rw [if_pos hlen] at h
    obtain rfl := Except.ok.inj h
    exact hlen
  · rw [if_neg hlen] at h
    cases h

namespace Body

theorem encodable_of_pushOf {lexeme : Text} {value : Nat} {p : Push}
    (h : pushOf lexeme value = .ok (.push p)) : p.Encodable := by
  rw [pushOf] at h
  split at h
  · rename_i q hq
    obtain rfl : q = p := by simpa using h
    exact Push.encodable_of_encode hq
  · cases h

theorem encodable_of_operation {r : Registry} {labels : List String} {t : Token} {p : Push}
    (h : operation r labels t = .ok (.push p)) : p.Encodable := by
  obtain ⟨kind, lexeme, start⟩ := t
  -- only three kinds of token stand for a push, and all of them go through `pushOf`
  cases kind with
  | tableSize name =>
    simp only [operation] at h
    split at h
    · exact encodable_of_pushOf h
    · cases h
  | decimal digits =>
    simp only [operation] at h
    split at h
    · exact encodable_of_pushOf h
    · cases h
  | hex digits =>
    simp only [operation] at h
    split at h
    · exact encodable_of_pushOf h
    · cases h
  | call name args? =>
    simp only [operation] at h
    split at h <;> cases h
  | label name =>
    simp only [operation] at h
    split at h <;> cases h
  | word name =>
    simp only [operation] at h
    split at h <;> cases h
  | _ => cases h

theorem encodable_of_ofTokens {r : Registry} {labels : List String} {ts : List Token}
    {u : Option Unrecognized} {ops : List Operation} (h : ofTokens r labels ts u = .ok ops) :
    ∀ op ∈ ops, ∀ p, op.kind = .push p → p.Encodable := by
  fun_induction ofTokens r labels ts u generalizing ops with
  | case1 =>
    obtain rfl := Except.ok.inj h
    simp
  | case2 => cases h
  | case3 => cases h
  | case4 => cases h
  | case5 labels t ts u kind hkind rest hrest ih =>
    obtain rfl := Except.ok.inj h
    intro op hop p hp
    obtain rfl | hop := List.mem_cons.1 hop
    · obtain rfl : kind = .push p := hp
      exact encodable_of_operation hkind
    · exact ih hrest op hop p hp

end Body

/-- Every push that a text is read into can be encoded. -/
theorem pushesEncodable_of_parse {text : Text} {r : Registry}
    (h : Declaration.parse text = .ok r) : r.PushesEncodable := by
  refine Declaration.parse_induction ?_ ?_ (fun m hm => by cases hm) h
  · intro r window m r' hr hbody hadd
    obtain ⟨-, rfl⟩ := Registry.addMacro_eq_ok.1 hadd
    intro m' hm'
    obtain hm' | hm' := List.mem_append.1 hm'
    · exact hr m' hm'
    · obtain rfl := List.mem_singleton.1 hm'
      exact Body.encodable_of_ofTokens hbody
  · intro r t r' hr hadd
    obtain ⟨-, rfl⟩ := Registry.addTable_eq_ok.1 hadd
    exact hr

end MacroAssembler
