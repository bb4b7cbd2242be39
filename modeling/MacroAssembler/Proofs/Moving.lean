/-
MacroAssembler/Proofs/Moving.lean

The same text at another place.

A cursor carries a byte offset that no reading step looks at: steps copy it to
tokens, operations, declarations and faults, and add to it what they read.
Reading a text `n` bytes further on therefore gives the same outcome, with `n`
added to every place in it.

For the steps that return an option this is an equation; it says that the step
commutes with `Cursor.move`.  For those that may report a fault it is `Moved`,
which also moves the fault.  What was declared before stays where it is, so
registries are compared over a common beginning `r`, and only the declarations
behind it move (`Registry.Resumed`).  The main result is
`declarations_moved`.
-/
import MacroAssembler.Proofs.RegistryPrinting

namespace MacroAssembler

/-! ### Cursors -/

namespace Cursor

/-- The same text `n` bytes further on. -/
def move (n : Nat) (c : Cursor) : Cursor := ⟨c.offset + n, c.rest⟩

variable {n : Nat} {c : Cursor}

theorem eat?_move (ch : Char) : (c.move n).eat? ch = (c.eat? ch).map (move n) := by
  obtain ⟨offset, rest⟩ := c
  cases rest with
  | nil => rfl
  | cons x rest =>
    by_cases hx : x = ch <;> simp [eat?, move, hx, Nat.add_right_comm]

theorem eatText?_move (s : Text) : (c.move n).eatText? s = (c.eatText? s).map (move n) := by
  by_cases hs : c.checkText s = true
  · have hmoved : (c.move n).checkText s = true := hs
    rw [eatText?, eatText?, if_pos hs, if_pos hmoved]
    simp [skip, move, Nat.add_right_comm]
  · have hmoved : ¬ (c.move n).checkText s = true := hs
    rw [eatText?, eatText?, if_neg hs, if_neg hmoved]
    rfl

theorem eatWhile_move (p : Char → Bool) :
    (c.move n).eatWhile p = ((c.eatWhile p).1, (c.eatWhile p).2.move n) := by
  simp [eatWhile, move, Nat.add_right_comm]

theorem skipBlank_move : (c.move n).skipBlank = c.skipBlank.move n := by
  rw [skipBlank, eatWhile_move, skipBlank]

theorem eatIdent?_move : (c.move n).eatIdent? = c.eatIdent?.map (Prod.map id (move n)) := by
  have hcheck : (c.move n).check Text.isIdentChar = c.check Text.isIdentChar := rfl
  rw [eatIdent?, eatIdent?, hcheck, eatWhile_move]
  split <;> rfl

theorem eatKeyword?_move (s : Text) :
    (c.move n).eatKeyword? s = (c.eatKeyword? s).map (move n) := by
  rw [eatKeyword?, eatKeyword?, eatText?_move]
  rcases c.eatText? s with - | d
  · rfl
  · have hcheck : (d.move n).check Text.isIdentChar = d.check Text.isIdentChar := rfl
    simp only [Option.map_some, hcheck]
    split <;> rfl

theorem upTo_move (c d : Cursor) : (c.move n).upTo (d.move n) = c.upTo d := by
  simp [upTo, move, Nat.add_sub_add_right]

end Cursor

/-! ### Tokens -/

/-- Steps that commute with a change of place do so one after the other. -/
theorem bind_move {α β : Type} {m : α → α} {m' : β → β} {f g : α → Option β}
    (h : ∀ a, g (m a) = (f a).map m') (x : Option α) : (x.map m >>= g) = (x >>= f).map m' := by
  cases x with
  | none => rfl
  | some a => exact h a

namespace Token

open Cursor

variable {n : Nat} {c : Cursor}

theorem eatAngle_move : eatAngle (c.move n) = ((eatAngle c).1, (eatAngle c).2.move n) := by
  rw [eatAngle, eatAngle, eat?_move]
  rcases c.eat? '<' with - | d
  · rfl
  · have hrest : (d.move n).rest = d.rest := rfl
    simp only [Option.map_some, hrest]
    rcases scanAngle 0 d.rest with - | ⟨inner, rest⟩
    · rfl
    · simp [move, Nat.add_right_comm]

theorem call?_move : call? (c.move n) = (call? c).map (Prod.map id (move n)) := by
  rw [call?, call?, eatIdent?_move]
  refine bind_move ?_ _
  rintro ⟨name, c₁⟩
  simp only [Prod.map_apply, id, eatAngle_move, skipBlank_move, eat?_move]
  refine bind_move (fun c₂ => ?_) _
  rw [skipBlank_move, eat?_move]
  refine bind_move (fun _ => ?_) _
  rfl

theorem templateRef?_move :
    templateRef? (c.move n) = (templateRef? c).map (Prod.map id (move n)) := by
  rw [templateRef?, templateRef?, eat?_move]
  refine bind_move (fun c₁ => ?_) _
  rw [skipBlank_move, eatIdent?_move]
  refine bind_move ?_ _
  rintro ⟨name, c₂⟩
  simp only [Prod.map_apply, id, skipBlank_move, eat?_move]
  refine bind_move (fun _ => ?_) _
  rfl

theorem codeSize?_move : codeSize? (c.move n) = (codeSize? c).map (Prod.map id (move n)) := by
  rw [codeSize?, codeSize?, eatText?_move]
  refine bind_move (fun c₁ => ?_) _
  rw [skipBlank_move, eatIdent?_move]
  refine bind_move ?_ _
  rintro ⟨name, c₂⟩
  simp only [Prod.map_apply, id, eatAngle_move, skipBlank_move, eat?_move]
  refine bind_move (fun _ => ?_) _
  rfl

theorem named?_move (opening : Text) :
    named? opening (c.move n) = (named? opening c).map (Prod.map id (move n)) := by
  rw [named?, named?, eatText?_move]
  refine bind_move (fun c₁ => ?_) _
  rw [skipBlank_move, eatIdent?_move]
  refine bind_move ?_ _
  rintro ⟨name, c₂⟩
  simp only [Prod.map_apply, id, skipBlank_move, eat?_move]
  refine bind_move (fun _ => ?_) _
  rfl

theorem tableSize?_move : tableSize? (c.move n) = (tableSize? c).map (Prod.map id (move n)) := by
  rw [tableSize?, tableSize?, named?_move]
  rcases named? "__tablesize(".toList c with - | ⟨name, d⟩ <;> rfl

theorem tableStart?_move :
    tableStart? (c.move n) = (tableStart? c).map (Prod.map id (move n)) := by
  rw [tableStart?, tableStart?, named?_move]
  rcases named? "__tablestart(".toList c with - | ⟨name, d⟩ <;> rfl

theorem label?_move : label? (c.move n) = (label? c).map (Prod.map id (move n)) := by
  rw [label?, label?, eatIdent?_move]
  refine bind_move ?_ _
  rintro ⟨name, c₁⟩
  simp only [Prod.map_apply, id, eat?_move]
  refine bind_move (fun _ => ?_) _
  rfl

theorem decimal?_move : decimal? (c.move n) = (decimal? c).map (Prod.map id (move n)) := by
  simp only [decimal?, eatWhile_move]
  have hcheck : ((c.eatWhile Text.isDigit).2.move n).check Text.isIdentChar =
    (c.eatWhile Text.isDigit).2.check Text.isIdentChar := rfl
  rw [hcheck]
  split <;> rfl

theorem hex?_move : hex? (c.move n) = (hex? c).map (Prod.map id (move n)) := by
  rw [hex?, hex?, eatText?_move]
  refine bind_move (fun d => ?_) _
  have hcheck : ((d.eatWhile Text.isHexDigit).2.move n).check Text.isIdentChar =
    (d.eatWhile Text.isHexDigit).2.check Text.isIdentChar := rfl
  simp only [eatWhile_move, hcheck]
  split <;> rfl

theorem word?_move : word? (c.move n) = (word? c).map (Prod.map id (move n)) := by
  rw [word?, word?, eatIdent?_move]
  rcases c.eatIdent? with - | ⟨name, d⟩ <;> rfl

/-- The first recognizer that matches is the same one at both places. -/
theorem kind?_move : kind? (c.move n) = (kind? c).map (Prod.map id (move n)) := by
  have horElse : ∀ x y : Option (TokenKind × Cursor),
      (x <|> y).map (Prod.map id (move n)) =
        (x.map (Prod.map id (move n)) <|> y.map (Prod.map id (move n))) := by
    intro x y
    cases x <;> rfl
  simp only [kind?, horElse, call?_move, templateRef?_move, codeSize?_move, tableSize?_move,
    tableStart?_move, label?_move, decimal?_move, hex?_move, word?_move]

/-- A token `n` bytes further on. -/
def move (n : Nat) (t : Token) : Token := { t with start := t.start + n }

theorem token?_move : token? (c.move n) = (token? c).map (Prod.map (move n) (Cursor.move n)) := by
  rw [token?, token?, kind?_move]
  rcases kind? c with - | ⟨kind, d⟩
  · rfl
  · simp only [Option.map_some, Prod.map_apply, id, upTo_move]
    rfl

end Token

/-- A place `n` bytes further on. -/
def Unrecognized.move (n : Nat) (u : Unrecognized) : Unrecognized :=
  { u with offset := u.offset + n }

namespace Token

theorem lex_of_token?_eq_none {c : Cursor} (hne : c.skipBlank.isEof = false)
    (h : token? c.skipBlank = none) : lex c = ([], some (unrecognized c.skipBlank)) := by
  rw [lex]
  simp only [hne]
  split
  · rename_i heof
    cases heof
  · split
    · rfl
    · rename_i h'
      simp [h] at h'

theorem lex_move {n : Nat} {c : Cursor} :
    lex (c.move n) = ((lex c).1.map (move n), (lex c).2.map (Unrecognized.move n)) := by
  fun_induction lex c with
  | case1 c c' heof =>
    rw [lex_of_skipBlank_eq_nil]
    · rfl
    · rw [Cursor.skipBlank_move]
      exact List.isEmpty_iff.1 heof
  | case2 c c' hne hnone =>
    rw [lex_of_token?_eq_none]
    · rw [Cursor.skipBlank_move]
      rfl
    · rw [Cursor.skipBlank_move]
      exact Bool.eq_false_iff.2 hne
    · rw [Cursor.skipBlank_move, token?_move, hnone]
      rfl
  | case3 c c' hne t d ht hlt ts e hlex ih =>
    have hmoved : token? (c'.move n) = some (move n t, d.move n) := by
      rw [token?_move, ht]
      rfl
    rw [lex_of_token? Cursor.skipBlank_move hmoved, ih, hlex]
    rfl

end Token

/-! ### Outcomes -/

/-- A fault `n` bytes further on. -/
def ParseError.move (n : Nat) (e : ParseError) : ParseError := { e with offset := e.offset + n }

/-- The outcomes of reading at two places `n` bytes apart: results that `R`
relates, or the same fault that much further on. -/
inductive Moved (n : Nat) {α β : Type} (R : α → β → Prop) :
    Except ParseError α → Except ParseError β → Prop
  | ok {a b} : R a b → Moved n R (.ok a) (.ok b)
  | error (e : ParseError) : Moved n R (.error e) (.error (e.move n))

theorem Moved.of_ok {n : Nat} {α β : Type} {R : α → β → Prop} {a : α} {y : Except ParseError β}
    (h : Moved n R (.ok a) y) : ∃ b, y = .ok b ∧ R a b := by
  cases h with
  | ok hab => exact ⟨_, rfl, hab⟩

theorem Moved.of_error {n : Nat} {α β : Type} {R : α → β → Prop} {e : ParseError}
    {y : Except ParseError β} (h : Moved n R (.error e) y) : y = .error (e.move n) := by
  cases h with
  | error => rfl

theorem Moved.bind {n : Nat} {α β γ δ : Type} {R : α → β → Prop} {S : γ → δ → Prop}
    {x : Except ParseError α} {y : Except ParseError β} {f : α → Except ParseError γ}
    {g : β → Except ParseError δ} (h : Moved n R x y)
    (hfg : ∀ a b, R a b → Moved n S (f a) (g b)) : Moved n S (x >>= f) (y >>= g) := by
  cases h with
  | ok hab => exact hfg _ _ hab
  | error e => exact .error e

/-- A value read, and the cursor behind it further on. -/
def MovedRead (n : Nat) {α : Type} (x y : α × Cursor) : Prop := y = (x.1, x.2.move n)

/-! ### Registries -/

/-- An operation `n` bytes further on. -/
def Operation.move (n : Nat) (op : Operation) : Operation := { op with source := op.source + n }

/-- A macro `n` bytes further on. -/
def Macro.move (n : Nat) (m : Macro) : Macro :=
  { m with ops := m.ops.map (Operation.move n), source := m.source + n }

/-- A jump table `n` bytes further on. -/
def JumpTable.move (n : Nat) (t : JumpTable) : JumpTable := { t with source := t.source + n }

namespace Registry

/-- Declarations `n` bytes further on. -/
def move (n : Nat) (r : Registry) : Registry :=
  ⟨r.macros.map (Macro.move n), r.tables.map (JumpTable.move n)⟩

/-- The declarations of one registry behind those of another. -/
def append (r s : Registry) : Registry := ⟨r.macros ++ s.macros, r.tables ++ s.tables⟩

/-- Two registries that begin with `r`.  Behind it the second has the
declarations of the first, `n` bytes further on. -/
def Resumed (r : Registry) (n : Nat) (s s' : Registry) : Prop :=
  ∃ new, s = r.append new ∧ s' = r.append (new.move n)

theorem Resumed.refl (r : Registry) (n : Nat) : Resumed r n r r :=
  ⟨empty, by simp [append, empty], by simp [append, move, empty]⟩

namespace Resumed

variable {r s s' : Registry} {n : Nat} (h : Resumed r n s s')

include h

theorem hasMacro_eq (name : String) : s'.hasMacro name = s.hasMacro name := by
  obtain ⟨new, rfl, rfl⟩ := h
  simp [hasMacro, getMacro?, append, move, Macro.move, List.find?_append, Function.comp_def]

/-- Names and sizes of tables do not depend on places. -/
theorem size_getTable? (name : String) :
    (s'.getTable? name).map JumpTable.size = (s.getTable? name).map JumpTable.size := by
  obtain ⟨new, rfl, rfl⟩ := h
  have hsize : JumpTable.size ∘ JumpTable.move n = JumpTable.size := rfl
  have hname : ((·.name == name) ∘ JumpTable.move n) = (·.name == name) := rfl
  rw [getTable?, getTable?, append, append, move, List.find?_append, List.find?_append,
    List.find?_map, hname, Option.map_or, Option.map_or, Option.map_map, hsize]

theorem hasTable_eq (name : String) : s'.hasTable name = s.hasTable name := by
  have hsize := congrArg Option.isSome (h.size_getTable? name)
  simpa [hasTable] using hsize

theorem addMacro (m : Macro) :
    Resumed r n ⟨s.macros ++ [m], s.tables⟩ ⟨s'.macros ++ [m.move n], s'.tables⟩ := by
  obtain ⟨new, rfl, rfl⟩ := h
  exact ⟨⟨new.macros ++ [m], new.tables⟩, by simp [append], by simp [append, move]⟩

theorem addTable (t : JumpTable) :
    Resumed r n ⟨s.macros, s.tables ++ [t]⟩ ⟨s'.macros, s'.tables ++ [t.move n]⟩ := by
  obtain ⟨new, rfl, rfl⟩ := h
  exact ⟨⟨new.macros, new.tables ++ [t]⟩, by simp [append], by simp [append, move]⟩

end Resumed

end Registry

/-! ### Bodies -/

namespace Body

variable {r s s' : Registry} {n : Nat}

theorem operation_resumed (h : r.Resumed n s s') (labels : List String) (t : Token) :
    operation s' labels (t.move n) = operation s labels t := by
  obtain ⟨kind, lexeme, start⟩ := t
  cases kind with
  | call name args? => simp only [operation, Token.move, h.hasMacro_eq]
  | tableSize name =>
    have hsize := h.size_getTable? name
    simp only [operation, Token.move]
    rcases hs : s.getTable? name with - | t <;> rcases hs' : s'.getTable? name with - | t' <;>
      simp_all
  | _ => rfl

theorem ofTokens_moved (h : r.Resumed n s s') (labels : List String) (ts : List Token)
    (u : Option Unrecognized) :
    Moved n (fun ops ops' => ops' = ops.map (Operation.move n)) (ofTokens s labels ts u)
      (ofTokens s' labels (ts.map (Token.move n)) (u.map (Unrecognized.move n))) := by
  induction ts generalizing labels with
  | nil =>
    cases u with
    | none => exact .ok rfl
    | some u => exact .error _
  | cons t ts ih =>
    rw [List.map_cons, ofTokens, ofTokens, operation_resumed h]
    rcases operation s labels t with fault | kind
    · exact .error _
    · have hlabels : labelsAfter labels (t.move n) = labelsAfter labels t := rfl
      have hrest := ih (labelsAfter labels t)
      dsimp only
      rw [hlabels]
      rcases htail : ofTokens s (labelsAfter labels t) ts u with e | ops
      · rw [htail] at hrest
        rw [hrest.of_error]
        exact .error e
      · rw [htail] at hrest
        obtain ⟨_, hops, rfl⟩ := hrest.of_ok
        rw [hops]
        exact .ok rfl

theorem parse_moved (h : r.Resumed n s s') (window : Cursor) :
    Moved n (fun ops ops' => ops' = ops.map (Operation.move n)) (parse s window)
      (parse s' (window.move n)) := by
  rw [parse, parse, Token.lex_move]
  exact ofTokens_moved h [] _ _

end Body

/-! ### Declarations -/

namespace Declaration

open Cursor

variable {n : Nat}

theorem require_moved (ch : Char) (what : Expected) (c : Cursor) :
    Moved n (fun d d' => d' = d.move n) (require ch what c) (require ch what (c.move n)) := by
  rw [require, require, eat?_move]
  rcases c.eat? ch with - | d
  · exact .error _
  · exact .ok rfl

theorem name_moved (what : Expected) (c : Cursor) :
    Moved n (MovedRead n) (name what c) (name what (c.move n)) := by
  rw [name, name, skipBlank_move, eatIdent?_move]
  rcases c.skipBlank.eatIdent? with - | ⟨t, d⟩
  · exact .error _
  · exact .ok rfl

theorem stackCount_moved (word : String) (c : Cursor) :
    Moved n (MovedRead n) (stackCount word c) (stackCount word (c.move n)) := by
  rw [stackCount, stackCount, skipBlank_move, eatKeyword?_move]
  rcases c.skipBlank.eatKeyword? word.toList with - | d
  · exact .error _
  · simp only [Option.map_some, skipBlank_move]
    refine (require_moved '(' .parenOpen d.skipBlank).bind ?_
    rintro d₁ _ rfl
    simp only [skipBlank_move, eatWhile_move]
    rcases Numeral.count? (d₁.skipBlank.eatWhile Text.isDigit).1 with - | k
    · exact .error _
    · refine (require_moved ')' .parenClose _).bind ?_
      rintro d₂ _ rfl
      exact .ok rfl

theorem templateParams_moved (c : Cursor) :
    Moved n (MovedRead n) (templateParams c) (templateParams (c.move n)) := by
  rw [templateParams, templateParams, skipBlank_move]
  refine (require_moved '<' .templateOpen c.skipBlank).bind ?_
  rintro c₁ _ rfl
  simp only [eatWhile_move]
  refine (require_moved '>' .templateClose _).bind ?_
  rintro c₂ _ rfl
  split
  · exact .error _
  · exact .ok rfl

/-- A header with its body `n` bytes further on. -/
def Header.move (n : Nat) (h : Header) : Header := { h with body := h.body.move n }

theorem header_moved (start : Nat) (c : Cursor) :
    Moved n (fun x y => y = (x.1.move n, x.2.move n)) (header start c)
      (header (start + n) (c.move n)) := by
  rw [header, header]
  refine (name_moved .macroName c).bind ?_
  rintro ⟨nm, c₁⟩ _ rfl
  simp only [skipBlank_move]
  refine (require_moved '=' .equals _).bind ?_
  rintro c₂ _ rfl
  refine (stackCount_moved "takes" c₂).bind ?_
  rintro ⟨takes, c₃⟩ _ rfl
  refine (stackCount_moved "returns" c₃).bind ?_
  rintro ⟨returns, c₄⟩ _ rfl
  simp only [skipBlank_move]
  refine (require_moved '{' .bodyOpen _).bind ?_
  rintro c₅ _ rfl
  simp only [eatWhile_move, eat?_move]
  rcases (c₅.eatWhile (· != '}')).2.eat? '}' with - | d
  · exact .error _
  · exact .ok rfl

theorem tableLabels_of_none {table : String} {c : Cursor} (hclose : c.skipBlank.eat? '}' = none)
    (hlabel : c.skipBlank.eatIdent? = none) :
    tableLabels table c = .error ⟨.invalidEntry table, c.skipBlank.offset⟩ := by
  rw [tableLabels, hclose]
  dsimp only
  split
  · rfl
  · rename_i h
    rw [hlabel] at h
    cases h

theorem tableLabels_of_ident {table : String} {c d : Cursor} {label : Text}
    (hclose : c.skipBlank.eat? '}' = none) (hlabel : c.skipBlank.eatIdent? = some (label, d)) :
    tableLabels table c =
      (tableLabels table d).map fun x => (String.ofList label :: x.1, x.2) := by
  rw [tableLabels, hclose]
  dsimp only
  split
  · rename_i h
    rw [hlabel] at h
    cases h
  · rename_i label' d' h
    obtain ⟨rfl, rfl⟩ : label' = label ∧ d' = d := by simpa [hlabel, eq_comm] using h
    rcases tableLabels table d' with e | ⟨labels, e⟩ <;> rfl

theorem tableLabels_moved (table : String) (c : Cursor) :
    Moved n (MovedRead n) (tableLabels table c) (tableLabels table (c.move n)) := by
  have hclosing (c : Cursor) :
      (c.move n).skipBlank.eat? '}' = (c.skipBlank.eat? '}').map (move n) := by
    rw [skipBlank_move, eat?_move]
  have hlabel (c : Cursor) :
      (c.move n).skipBlank.eatIdent? = c.skipBlank.eatIdent?.map (Prod.map id (move n)) := by
    rw [skipBlank_move, eatIdent?_move]
  fun_induction tableLabels table c with
  | case1 c d hd =>
    rw [tableLabels_of_close (d := d.move n) (by rw [hclosing, hd]; rfl)]
    exact .ok rfl
  | case2 c hclose hident =>
    rw [tableLabels_of_none (by rw [hclosing, hclose]; rfl) (by rw [hlabel, hident]; rfl),
      skipBlank_move]
    exact .error _
  | case3 c hclose label d hd hlt e he ih =>
    rw [he] at ih
    rw [tableLabels_of_ident (d := d.move n) (by rw [hclosing, hclose]; rfl)
      (by rw [hlabel, hd]; rfl), ih.of_error]
    exact .error e
  | case4 c hclose label d hd hlt labels e he ih =>
    rw [he] at ih
    obtain ⟨_, hrest, rfl⟩ := ih.of_ok
    rw [tableLabels_of_ident (d := d.move n) (by rw [hclosing, hclose]; rfl)
      (by rw [hlabel, hd]; rfl), hrest]
    exact .ok rfl

theorem table_moved (start : Nat) (packed : Bool) (c : Cursor) :
    Moved n (fun x y => y = (x.1.move n, x.2.move n)) (table start packed c)
      (table (start + n) packed (c.move n)) := by
  rw [table, table]
  refine (name_moved .tableName c).bind ?_
  rintro ⟨nm, c₁⟩ _ rfl
  simp only [skipBlank_move]
  refine (require_moved '{' .tableOpen _).bind ?_
  rintro c₂ _ rfl
  refine (tableLabels_moved _ c₂).bind ?_
  rintro ⟨labels, c₃⟩ _ rfl
  exact .ok rfl

/-- Two states over a common registry, of which the second is `n` bytes further
on. -/
def State.Resumed (r : Registry) (n : Nat) (st st' : State) : Prop :=
  r.Resumed n st.registry st'.registry ∧ st'.pending? = st.pending?

variable {r : Registry} {st st' : State}

theorem addMacro_moved (h : State.Resumed r n st st') (start : Nat) (hd : Header) :
    Moved n (State.Resumed r n) (addMacro st start hd) (addMacro st' (start + n) (hd.move n)) := by
  obtain ⟨hregistry, hpending⟩ := h
  rw [addMacro, addMacro]
  refine (Body.parse_moved hregistry hd.body).bind ?_
  rintro ops _ rfl
  simp only [Registry.addMacro, hregistry.hasMacro_eq, Header.move, hpending]
  by_cases htaken : st.registry.hasMacro hd.name = true
  · simp only [if_pos htaken]
    exact .error _
  · simp only [if_neg htaken]
    exact .ok ⟨hregistry.addMacro _, rfl⟩

theorem addTable_moved (h : State.Resumed r n st st') (start : Nat) (t : JumpTable) :
    Moved n (State.Resumed r n) (addTable st start t) (addTable st' (start + n) (t.move n)) := by
  obtain ⟨hregistry, hpending⟩ := h
  have hname : (t.move n).name = t.name := rfl
  simp only [addTable, Registry.addTable, hname, hregistry.hasTable_eq]
  by_cases htaken : st.registry.hasTable t.name = true
  · simp only [if_pos htaken]
    exact .error _
  · simp only [if_neg htaken]
    exact .ok ⟨hregistry.addTable _, hpending⟩

/-- A state, and the cursor behind what was read, further on. -/
def State.ResumedRead (r : Registry) (n : Nat) (x y : State × Cursor) : Prop :=
  State.Resumed r n x.1 y.1 ∧ y.2 = x.2.move n

theorem tableDeclaration_moved (h : State.Resumed r n st st') (start : Nat) (packed : Bool)
    (c : Cursor) :
    Moved n (State.ResumedRead r n) (tableDeclaration st start packed c)
      (tableDeclaration st' (start + n) packed (c.move n)) := by
  rw [tableDeclaration, tableDeclaration, h.2]
  split
  · exact .error _
  · refine (table_moved start packed c).bind ?_
    rintro ⟨t, d⟩ _ rfl
    refine (addTable_moved h start t).bind ?_
    intro st₁ st₁' hst₁
    exact .ok ⟨hst₁, rfl⟩

theorem definition_moved (h : State.Resumed r n st st') (start : Nat) (c : Cursor) :
    Moved n (State.ResumedRead r n) (definition st start c)
      (definition st' (start + n) (c.move n)) := by
  simp only [definition, eatKeyword?_move]
  rcases c.eatKeyword? "macro".toList with - | d
  · rcases c.eatKeyword? "jumptable__packed".toList with - | d
    · rcases c.eatKeyword? "jumptable".toList with - | d
      · exact .error _
      · exact tableDeclaration_moved h start false d
    · exact tableDeclaration_moved h start true d
  · refine (header_moved start d).bind ?_
    rintro ⟨hd, e⟩ _ rfl
    refine (addMacro_moved h start hd).bind ?_
    intro st₁ st₁' hst₁
    exact .ok ⟨hst₁, rfl⟩

theorem declaration_moved (h : State.Resumed r n st st') (c : Cursor) :
    Moved n (State.ResumedRead r n) (declaration st c)
      (declaration st' (c.move n)) := by
  simp only [declaration, eatKeyword?_move, h.2]
  rcases c.eatKeyword? "template".toList with - | d
  · rcases c.eatKeyword? "#define".toList with - | d
    · exact .error _
    · simp only [Option.map_some, skipBlank_move]
      exact definition_moved h c.offset d.skipBlank
  · simp only [Option.map_some]
    split
    · exact .error _
    · refine (templateParams_moved d).bind ?_
      rintro ⟨params, e⟩ _ rfl
      exact .ok ⟨⟨h.1, rfl⟩, rfl⟩

/-- The first declaration is read, and then the others. -/
theorem declarations_step {c d : Cursor} (h : declaration st c.skipBlank = .ok (st', d)) :
    declarations st c = declarations st' d := by
  obtain ⟨b, hb, hblank, hstop⟩ := skipBlank_eq_iff.1 (rfl : c.skipBlank = _)
  rw [declarations_of_blank hb hblank, declarations_of_declaration hstop h]

theorem declarations_of_error {c : Cursor} {e : ParseError} (hne : c.skipBlank.isEof = false)
    (h : declaration st c.skipBlank = .error e) : declarations st c = .error e := by
  rw [declarations]
  simp only [hne]
  split
  · rename_i heof
    cases heof
  · split
    · rename_i h'
      obtain rfl := Except.error.inj (h'.symm.trans h)
      rfl
    · rename_i h'
      rw [h] at h'
      cases h'

theorem declarations_of_eof {c : Cursor} (h : c.skipBlank.isEof = true) :
    declarations st c =
      if st.pending?.isSome then .error ⟨.danglingTemplate, c.skipBlank.offset⟩
      else .ok st.registry := by
  rw [declarations]
  simp only [h, if_true]

/-- **Reading does not look at places**: the same declarations further on give
the same outcome further on. -/
theorem declarations_moved {st st' : State} (h : State.Resumed r n st st') (c : Cursor) :
    Moved n (r.Resumed n) (declarations st c) (declarations st' (c.move n)) := by
  have hskip : (c.move n).skipBlank = c.skipBlank.move n := skipBlank_move
  by_cases heof : c.skipBlank.isEof = true
  · rw [declarations_of_eof heof, declarations_of_eof (by rwa [hskip]), h.2, hskip]
    split
    · exact .error _
    · exact .ok h.1
  · have hne : c.skipBlank.isEof = false := Bool.eq_false_iff.2 heof
    have hmoved := declaration_moved h c.skipBlank
    rcases hdecl : declaration st c.skipBlank with e | ⟨st₁, d⟩
    · rw [hdecl] at hmoved
      rw [declarations_of_error hne hdecl,
        declarations_of_error (by rwa [hskip]) (by rw [hskip]; exact hmoved.of_error)]
      exact .error e
    · rw [hdecl] at hmoved
      obtain ⟨⟨st₁', _⟩, hdecl', hst₁, rfl⟩ := hmoved.of_ok
      rw [declarations_step hdecl, declarations_step (c := c.move n) (by rw [hskip]; exact hdecl')]
      exact declarations_moved hst₁ d
termination_by c.rest.length
decreasing_by exact Nat.lt_of_lt_of_le (declaration_rest_lt hdecl) (skipBlank_rest_le c)

end Declaration

end MacroAssembler
