/-
MacroAssembler/Proofs/CallShapes.lean

Calls with arguments, as the expander and as the body reader see them.

Both take `NAME<inner>` apart into a name and the text between the brackets.  The
body reader counts brackets and stops where the first one is closed.  The expander
takes the first opening bracket and asks for a closing one at the end, whatever
stands between them.

Which texts the count lets pass is said by a grammar (`Argument.Nested`): every
closing bracket belongs to an opening one in front of it, and brackets nest.
`Argument.balanced_iff_nested` compares the two.  A text with `depth` brackets open
in front of it is cut at the closing brackets that belong to those
(`Argument.Closes`), so the count goes through the text one character at a time and
the grammar follows.

Main result: `Argument.CallTarget.lex_call_iff_nested`.  The expander takes every
inner text, the body reader exactly the nested ones.
-/
import MacroAssembler.Proofs.Arguments
import MacroAssembler.Proofs.TokenRendering
import MacroAssembler.Template.Resolution

namespace MacroAssembler

namespace Argument

/-! ### Nested brackets -/

/-- Angle brackets nest, and each one that is opened is closed. -/
inductive Nested : Text → Prop
  | nil : Nested []
  | plain {c : Char} {t : Text} : c ≠ '<' → c ≠ '>' → Nested t → Nested (c :: t)
  | bracket {s t : Text} : Nested s → Nested t → Nested ('<' :: (s ++ '>' :: t))

/-- Parentheses and braces, which end an argument list. -/
def isParen (c : Char) : Bool := c == '(' || c == ')' || c == '{' || c == '}'

variable {depth : Nat} {c : Char} {s t u : Text}

theorem isParen_eq_false_iff :
    isParen c = false ↔ ¬ (c = '(' ∨ c = ')' ∨ c = '{' ∨ c = '}') := by
  simp [isParen, and_assoc]

/-- A nested text leaves the count of open brackets as it is. -/
theorem Nested.balanced_append (hs : Nested s) (hparen : ∀ ch ∈ s, isParen ch = false) (u : Text) :
    Token.balanced depth (s ++ u) = Token.balanced depth u := by
  induction hs generalizing depth u with
  | nil => rfl
  | @plain c t hopen hclose _ ih =>
    obtain ⟨hc, ht⟩ := List.forall_mem_cons.1 hparen
    have hstep : Token.balanced depth (c :: (t ++ u)) = Token.balanced depth (t ++ u) := by
      simp [Token.balanced, hopen, hclose, isParen_eq_false_iff.1 hc]
    rw [List.cons_append, hstep, ih ht]
  | @bracket s t _ _ ihs iht =>
    obtain ⟨hs, ht⟩ := List.forall_mem_append.1 (List.forall_mem_cons.1 hparen).2
    have hclose : Token.balanced (depth + 1) ('>' :: (t ++ u)) = Token.balanced depth (t ++ u) :=
      rfl
    calc Token.balanced depth ('<' :: (s ++ '>' :: t) ++ u)
        = Token.balanced (depth + 1) (s ++ '>' :: (t ++ u)) := by simp [Token.balanced]
      _ = Token.balanced depth u := by
        rw [ihs hs, hclose, iht (List.forall_mem_cons.1 ht).2]

/-- Nested texts with the closing brackets between them that belong to `depth`
brackets in front. -/
def Closes : (depth : Nat) → Text → Prop
  | 0, t => Nested t
  | depth + 1, t => ∃ s u, t = s ++ '>' :: u ∧ Nested s ∧ Closes depth u

theorem Closes.plain (hopen : c ≠ '<') (hclose : c ≠ '>') (h : Closes depth t) :
    Closes depth (c :: t) := by
  cases depth with
  | zero => exact Nested.plain hopen hclose h
  | succ depth =>
    obtain ⟨s, u, rfl, hs, hu⟩ := h
    exact ⟨c :: s, u, rfl, .plain hopen hclose hs, hu⟩

/-- A bracket in front is closed by the first of the closing brackets. -/
theorem Closes.opening (h : Closes (depth + 1) t) : Closes depth ('<' :: t) := by
  obtain ⟨s, u, rfl, hs, hu⟩ := h
  cases depth with
  | zero => exact Nested.bracket hs hu
  | succ depth =>
    obtain ⟨s', u', rfl, hs', hu'⟩ := hu
    exact ⟨'<' :: (s ++ '>' :: s'), u', by simp, .bracket hs hs', hu'⟩

theorem closes_of_balanced (h : Token.balanced depth t = true) : Closes depth t := by
  fun_induction Token.balanced depth t with
  | case1 depth =>
    obtain rfl : depth = 0 := by simpa using h
    exact Nested.nil
  | case2 depth t ih => exact (ih h).opening
  | case3 => cases h
  | case4 t _ d ih => exact ⟨[], t, rfl, .nil, ih h⟩
  | case5 => cases h
  | case6 depth c t hopen hclose _ ih => exact (ih h).plain hopen hclose

/-- **Counting brackets decides whether they nest.** -/
theorem balanced_iff_nested (hparen : ∀ ch ∈ t, isParen ch = false) :
    Token.balanced 0 t = true ↔ Nested t := by
  refine ⟨closes_of_balanced, fun h => ?_⟩
  rw [← List.append_nil t, h.balanced_append hparen]
  rfl

namespace CallTarget

/-! ### Both readers -/

variable {name inner : Text}

/-- A call with arguments, as a template argument. -/
def spelled (name inner : Text) : Text := name ++ '<' :: (inner ++ ['>'])

theorem ne_of_isIdent {ch : Char} (hname : Text.isIdent name = true) (hch : ch ∈ name)
    {x : Char} (hx : Text.isIdentChar x = false) : ch ≠ x := by
  rintro rfl
  rw [(Text.isIdent_iff.1 hname).2 ch hch] at hx
  cases hx

/-- Neither end of a call is blank. -/
theorem trim_spelled (hname : Text.isIdent name = true) (inner : Text) :
    Text.trim (spelled name inner) = spelled name inner := by
  obtain ⟨hne, hall⟩ := Text.isIdent_iff.1 hname
  obtain ⟨x, name, rfl⟩ := List.exists_cons_of_ne_nil hne
  refine Text.trim_eq_self_iff.2 ⟨fun ch hch => ?_, fun ch hch => ?_⟩
  · obtain rfl : x = ch := by simpa [spelled] using hch
    exact Text.isBlank_of_isIdentChar (hall x List.mem_cons_self)
  · obtain rfl : '>' = ch := by simpa [spelled, List.getLast?_cons] using hch
    rfl

/-- The expander asks nothing of what stands between the brackets. -/
theorem parse?_spelled (hname : Text.isIdent name = true) (inner : Text) :
    parse? (spelled name inner) = some ⟨name, some inner⟩ := by
  have hstop : ∀ ch ∈ name, (ch != '<') = true := fun ch hch =>
    bne_iff_ne.2 (ne_of_isIdent hname hch rfl)
  have hdrop : (spelled name inner).dropWhile (· != '<') = '<' :: (inner ++ ['>']) := by
    rw [spelled, List.dropWhile_append_of_pos hstop]
    rfl
  have htake : (spelled name inner).takeWhile (· != '<') = name := by
    rw [spelled, List.takeWhile_append_of_pos hstop]
    simp
  have hblank : Text.trimEnd name = name := by
    refine List.rdropWhile_eq_self_iff.2 fun hne => ?_
    rw [Text.isBlank_of_isIdentChar ((Text.isIdent_iff.1 hname).2 _ (List.getLast_mem hne))]
    exact Bool.false_ne_true
  simp [parse?, trim_spelled hname, hdrop, htake, hblank, hname]

theorem render_call (name inner : Text) :
    (TokenKind.call (String.ofList name) (some (String.ofList inner))).render =
      spelled name inner ++ ['(', ')'] := by
  show (String.ofList name).toList ++ ('<' :: (String.ofList inner).toList ++ ['>'] ++ ['(', ')']) = _
  rw [String.toList_ofList, String.toList_ofList]
  simp [spelled]

/-- The body reader asks for balanced brackets. -/
theorem lex_call_iff_balanced (hname : Text.isIdent name = true) :
    (∃ tok, Token.lex (.ofText (spelled name inner ++ ['(', ')'])) = ([tok], none) ∧
        tok.kind = .call (String.ofList name) (some (String.ofList inner))) ↔
      Token.balanced 0 inner = true := by
  constructor
  · rintro ⟨tok, hlex, hkind⟩
    have hmem : tok ∈ (Token.lex (.ofText (spelled name inner ++ ['(', ')']))).1 := by
      rw [hlex]
      exact List.mem_singleton_self tok
    have hwell := Token.wellFormed_of_mem_lex hmem
    rw [hkind] at hwell
    simpa using hwell.2 _ rfl
  · intro hbal
    have hwell : (TokenKind.call (String.ofList name) (some (String.ofList inner))).WellFormed := by
      refine ⟨by simpa using hname, fun args hargs => ?_⟩
      obtain rfl := Option.some.inj hargs
      simpa using hbal
    have hlex := Token.lex_render hwell
    rw [render_call] at hlex
    exact ⟨_, hlex, rfl⟩

/-- **The two readers of calls.**  As a template argument `NAME<inner>` is a call
whatever stands between the brackets; in a body, with `()` behind it, it is that call
exactly if the brackets nest. -/
theorem lex_call_iff_nested (hname : Text.isIdent name = true)
    (hinner : ∀ ch ∈ inner, isParen ch = false) :
    parse? (spelled name inner) = some ⟨name, some inner⟩ ∧
      ((∃ tok, Token.lex (.ofText (spelled name inner ++ ['(', ')'])) = ([tok], none) ∧
          tok.kind = .call (String.ofList name) (some (String.ofList inner))) ↔
        Nested inner) :=
  ⟨parse?_spelled hname inner, (lex_call_iff_balanced hname).trans (balanced_iff_nested hinner)⟩

/-- Two levels of brackets, side by side and inside each other. -/
theorem lex_call_iff_nested_levels :
    Text.isIdent "X".toList = true ∧ (∀ ch ∈ "A<B<1>>,C<>".toList, isParen ch = false) ∧
      parse? (spelled "X".toList "A<B<1>>,C<>".toList) =
        some ⟨"X".toList, some "A<B<1>>,C<>".toList⟩ ∧
      ∃ tok, Token.lex (.ofText (spelled "X".toList "A<B<1>>,C<>".toList ++ ['(', ')'])) =
          ([tok], none) ∧
        tok.kind = .call (String.ofList "X".toList) (some (String.ofList "A<B<1>>,C<>".toList)) := by
  have hinner : ∀ ch ∈ "A<B<1>>,C<>".toList, isParen ch = false := by
    have hall : "A<B<1>>,C<>".toList.all (fun ch => !isParen ch) = true := by decide +kernel
    intro ch hch
    simpa using List.all_eq_true.1 hall ch hch
  have hreaders := lex_call_iff_nested (rfl : Text.isIdent "X".toList = true) hinner
  refine ⟨rfl, hinner, hreaders.1, hreaders.2.2 ?_⟩
  exact (balanced_iff_nested hinner).1 (by decide +kernel)

/-- Brackets that close before they open: a call for the expander, which expands `X`,
and no call for the body reader. -/
theorem unnested_call :
    (∀ ch ∈ ['>', '<'], isParen ch = false) ∧
      parse? (spelled ['X'] ['>', '<']) = some ⟨['X'], some ['>', '<']⟩ ∧
      (∀ (r : Registry) (source : Nat), r.hasMacro "X" = true →
        ∃ args, Template.resolve r "X<><>" source = .ok (.expansion ⟨"X", args⟩)) ∧
      ¬ ∃ tok, Token.lex (.ofText (spelled ['X'] ['>', '<'] ++ ['(', ')'])) = ([tok], none) ∧
        tok.kind = .call (String.ofList ['X']) (some (String.ofList ['>', '<'])) := by
  have hname : Text.isIdent ['X'] = true := rfl
  have hparse : parse? (spelled ['X'] ['>', '<']) = some ⟨['X'], some ['>', '<']⟩ :=
    parse?_spelled hname ['>', '<']
  refine ⟨by simp [isParen], hparse, fun r source hknown => ?_, ?_⟩
  · have htrim : Text.trim "X<><>".toList = spelled ['X'] ['>', '<'] := by decide +kernel
    have hliteral : isLiteral (spelled ['X'] ['>', '<']) = false := by decide +kernel
    have hmnemonic : Opcode.ofMnemonic? (String.ofList (spelled ['X'] ['>', '<'])) = none := by
      decide +kernel
    refine ⟨arguments ⟨['X'], some ['>', '<']⟩, ?_⟩
    simp only [Template.resolve, htrim, hliteral, hmnemonic, Template.resolveName, hparse]
    simp [hknown]
  · rw [lex_call_iff_balanced hname]
    decide

end CallTarget

end Argument

end MacroAssembler
