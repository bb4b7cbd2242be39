/-
MacroAssembler/Declaration.lean

Declarations: from a program text to its registry.

    template <p1, p2>
    #define macro NAME = takes(N) returns(M) { body }
    #define jumptable NAME { label label ... }
    #define jumptable__packed NAME { label label ... }

Declarations are read in order, and each macro body is read as soon as its
declaration is, so a macro can call only what was declared before it.  A
template header must be followed by a macro, whose parameters it gives.

The state between two declarations is a registry and the parameters of a
header that still waits for its macro.  Each declaration reads at least one
character (`declaration_rest_lt`), so reading ends.
-/
import MacroAssembler.Body
import MacroAssembler.Outcome

namespace MacroAssembler.Declaration

open Outcome

/-! ### Pieces of declarations -/

/-- Read a character that must come next. -/
def require (ch : Char) (what : Expected) (c : Cursor) : Except ParseError Cursor :=
  match c.eat? ch with
  | some d => .ok d
  | none => .error ⟨.expected what, c.offset⟩

/-- Read an identifier after blanks. -/
def name (what : Expected) (c : Cursor) : Except ParseError (Text × Cursor) :=
  match c.skipBlank.eatIdent? with
  | some r => .ok r
  | none => .error ⟨.expected what, c.skipBlank.offset⟩

/-- Read `word(N)`. -/
def stackCount (word : String) (c : Cursor) : Except ParseError (Nat × Cursor) := do
  match c.skipBlank.eatKeyword? word.toList with
  | none => .error ⟨.expected (.count word), c.skipBlank.offset⟩
  | some d =>
    let d ← require '(' .parenOpen d.skipBlank
    let at_ := d.skipBlank
    let (digits, d) := at_.eatWhile Text.isDigit
    match Numeral.count? digits with
    | none => .error ⟨.invalidCount word, at_.offset⟩
    | some n =>
      let d ← require ')' .parenClose d.skipBlank
      return (n, d)

/-- Read the parameters of a template header. -/
def templateParams (c : Cursor) : Except ParseError (List String × Cursor) := do
  let c ← require '<' .templateOpen c.skipBlank
  let (inner, d) := c.eatWhile fun ch => ch != '>' && ch != '{' && ch != '}'
  let d ← require '>' .templateClose d
  let params := Argument.splitText inner
  match params.find? fun p => !Text.isIdent p with
  | some bad => .error ⟨.invalidParam (String.ofList bad), c.offset⟩
  | none => return (params.map String.ofList, d)

/-- The part of a macro definition after its keyword, without the operations:
the macro, and the window of its body. -/
structure Header where
  name : String
  takes : Nat
  returns : Nat
  body : Cursor

/-- Read a macro definition after its keyword.  `start` is the offset of the
definition. -/
def header (start : Nat) (c : Cursor) : Except ParseError (Header × Cursor) := do
  let (name, c) ← name .macroName c
  let c ← require '=' .equals c.skipBlank
  let (takes, c) ← stackCount "takes" c
  let (returns, c) ← stackCount "returns" c
  let c ← require '{' .bodyOpen c.skipBlank
  let (body, d) := c.eatWhile (· != '}')
  match d.eat? '}' with
  | none => .error ⟨.unclosedBody (String.ofList name), start⟩
  | some d => return (⟨String.ofList name, takes, returns, ⟨c.offset, body⟩⟩, d)

/-- Read the labels of a jump table up to its closing brace. -/
def tableLabels (table : String) (c : Cursor) : Except ParseError (List String × Cursor) :=
  match c.skipBlank.eat? '}' with
  | some d => .ok ([], d)
  | none =>
    match h : c.skipBlank.eatIdent? with
    | none => .error ⟨.invalidEntry table, c.skipBlank.offset⟩
    | some (label, d) =>
      have := Cursor.eatIdent?_rest_lt h
      match tableLabels table d with
      | .error e => .error e
      | .ok (labels, e) => .ok (String.ofList label :: labels, e)
termination_by c.rest.length
decreasing_by exact Nat.lt_of_lt_of_le this (Cursor.skipBlank_rest_le c)

/-- Read a jump table after its keyword. -/
def table (start : Nat) (packed : Bool) (c : Cursor) : Except ParseError (JumpTable × Cursor) := do
  let (name, c) ← name .tableName c
  let c ← require '{' .tableOpen c.skipBlank
  let (labels, c) ← tableLabels (String.ofList name) c
  return (⟨String.ofList name, labels, packed, start⟩, c)

/-! ### Declarations -/

/-- What is known between two declarations. -/
structure State where
  registry : Registry
  /-- Parameters of a template header that waits for its macro. -/
  pending? : Option (List String)

/-- No declarations, and no template header. -/
def State.initial : State := ⟨Registry.empty, none⟩

/-- Add a macro to the state; it takes the parameters that wait for it. -/
def addMacro (st : State) (start : Nat) (h : Header) : Except ParseError State := do
  let ops ← Body.parse st.registry h.body
  let m : Macro :=
    { name := h.name, params := st.pending?.getD [], takes := h.takes, returns := h.returns,
      body := h.body.rest, ops := ops, source := start }
  match st.registry.addMacro m with
  | .error reason => .error ⟨.duplicate reason, start⟩
  | .ok registry => return ⟨registry, none⟩

/-- Add a jump table to the state. -/
def addTable (st : State) (start : Nat) (t : JumpTable) : Except ParseError State :=
  match st.registry.addTable t with
  | .error reason => .error ⟨.duplicate reason, start⟩
  | .ok registry => .ok { st with registry := registry }

/-- Read a jump table, which may not follow a template header. -/
def tableDeclaration (st : State) (start : Nat) (packed : Bool) (c : Cursor) :
    Except ParseError (State × Cursor) := do
  if st.pending?.isSome then .error ⟨.misplaced .table, start⟩
  else
    let (t, c) ← table start packed c
    return (← addTable st start t, c)

/-- Read the part of a definition after `#define`. -/
def definition (st : State) (start : Nat) (c : Cursor) : Except ParseError (State × Cursor) := do
  match c.eatKeyword? "macro".toList with
  | some c =>
    let (h, c) ← header start c
    return (← addMacro st start h, c)
  | none =>
    match c.eatKeyword? "jumptable__packed".toList with
    | some c => tableDeclaration st start true c
    | none =>
      match c.eatKeyword? "jumptable".toList with
      | some c => tableDeclaration st start false c
      | none => .error ⟨.notDeclaration, start⟩

/-- Read the declaration at the cursor, which is not at a blank. -/
def declaration (st : State) (c : Cursor) : Except ParseError (State × Cursor) := do
  match c.eatKeyword? "template".toList with
  | some d =>
    if st.pending?.isSome then .error ⟨.misplaced .template, c.offset⟩
    else
      let (params, d) ← templateParams d
      return ({ st with pending? := some params }, d)
  | none =>
    match c.eatKeyword? "#define".toList with
    | some d => definition st c.offset d.skipBlank
    | none => .error ⟨.notDeclaration, c.offset⟩

/-! ### Progress -/

theorem require_rest_lt {ch : Char} {what : Expected} {c d : Cursor}
    (h : require ch what c = .ok d) : d.rest.length < c.rest.length := by
  unfold require at h
  split at h
  · rename_i e he
    obtain rfl := Except.ok.inj h
    exact Cursor.eat?_rest_lt he
  · simp at h

theorem name_rest_lt {what : Expected} {c d : Cursor} {t : Text}
    (h : name what c = .ok (t, d)) : d.rest.length < c.rest.length := by
  unfold name at h
  split at h
  · rename_i r hr
    obtain rfl := Except.ok.inj h
    exact Nat.lt_of_lt_of_le (Cursor.eatIdent?_rest_lt hr) (Cursor.skipBlank_rest_le c)
  · simp at h

theorem stackCount_rest_le {word : String} {c d : Cursor} {n : Nat}
    (h : stackCount word c = .ok (n, d)) : d.rest.length ≤ c.rest.length := by
  simp only [stackCount] at h
  split at h
  · simp at h
  · rename_i e he
    simp only [bind_eq_ok] at h
    obtain ⟨c₁, h₁, h⟩ := h
    split at h
    · simp at h
    · simp only [bind_eq_ok, pure_eq_ok] at h
      obtain ⟨c₂, h₂, h⟩ := h
      obtain ⟨-, rfl⟩ := Prod.mk.inj h
      have := Cursor.skipBlank_rest_le c
      have := Cursor.eatText?_rest_le (Cursor.eatText?_of_eatKeyword? he)
      have := Cursor.skipBlank_rest_le e
      have := require_rest_lt h₁
      have := Cursor.skipBlank_rest_le c₁
      have := Cursor.eatWhile_rest_le Text.isDigit c₁.skipBlank
      have := Cursor.skipBlank_rest_le (c₁.skipBlank.eatWhile Text.isDigit).2
      have := require_rest_lt h₂
      omega

theorem templateParams_rest_le {c d : Cursor} {params : List String}
    (h : templateParams c = .ok (params, d)) : d.rest.length ≤ c.rest.length := by
  simp only [templateParams, bind_eq_ok] at h
  obtain ⟨c₁, h₁, c₂, h₂, h⟩ := h
  split at h
  · simp at h
  · obtain ⟨-, rfl⟩ := Prod.mk.inj (pure_eq_ok.1 h)
    have := Cursor.skipBlank_rest_le c
    have := require_rest_lt h₁
    have := Cursor.eatWhile_rest_le (fun ch => ch != '>' && ch != '{' && ch != '}') c₁
    have := require_rest_lt h₂
    omega

theorem header_rest_le {start : Nat} {c d : Cursor} {hd : Header}
    (h : header start c = .ok (hd, d)) : d.rest.length ≤ c.rest.length := by
  simp only [header, bind_eq_ok] at h
  obtain ⟨⟨nm, c₁⟩, h₁, c₂, h₂, ⟨n, c₃⟩, h₃, ⟨m, c₄⟩, h₄, c₅, h₅, h⟩ := h
  dsimp only at h₂ h₄ h₅
  split at h
  · simp at h
  · rename_i e he
    obtain ⟨-, rfl⟩ := Prod.mk.inj (pure_eq_ok.1 h)
    have := name_rest_lt h₁
    have := Cursor.skipBlank_rest_le c₁
    have := require_rest_lt h₂
    have := stackCount_rest_le h₃
    have := stackCount_rest_le h₄
    have := Cursor.skipBlank_rest_le c₄
    have := require_rest_lt h₅
    have := Cursor.eatWhile_rest_le (· != '}') c₅
    have := Cursor.eat?_rest_lt he
    omega

theorem tableLabels_rest_le {table : String} {c d : Cursor} {labels : List String}
    (h : tableLabels table c = .ok (labels, d)) : d.rest.length ≤ c.rest.length := by
  fun_induction tableLabels table c generalizing labels d with
  | case1 c e he =>
    obtain ⟨-, rfl⟩ := Prod.mk.inj (Except.ok.inj h)
    have := Cursor.eat?_rest_lt he
    have := Cursor.skipBlank_rest_le c
    omega
  | case2 => simp at h
  | case3 => simp at h
  | case4 c _ label e he hlt labels' f hf ih =>
    obtain ⟨-, rfl⟩ := Prod.mk.inj (Except.ok.inj h)
    have := ih hf
    have := Cursor.skipBlank_rest_le c
    omega

theorem tableDeclaration_rest_le {st st' : State} {start : Nat} {packed : Bool} {c d : Cursor}
    (h : tableDeclaration st start packed c = .ok (st', d)) : d.rest.length ≤ c.rest.length := by
  simp only [tableDeclaration] at h
  split at h
  · simp at h
  · simp only [table, bind_eq_ok, pure_eq_ok] at h
    obtain ⟨⟨t, e⟩, ⟨⟨nm, c₁⟩, h₁, c₂, h₂, ⟨ls, c₃⟩, h₃, ht⟩, st₁, -, h⟩ := h
    dsimp only at h₂ ht
    obtain ⟨-, rfl⟩ := Prod.mk.inj ht
    obtain ⟨-, rfl⟩ := Prod.mk.inj h
    have := name_rest_lt h₁
    have := Cursor.skipBlank_rest_le c₁
    have := require_rest_lt h₂
    have := tableLabels_rest_le h₃
    dsimp only
    omega

theorem definition_rest_le {st st' : State} {start : Nat} {c d : Cursor}
    (h : definition st start c = .ok (st', d)) : d.rest.length ≤ c.rest.length := by
  simp only [definition] at h
  split at h
  · rename_i e he
    simp only [bind_eq_ok, pure_eq_ok] at h
    obtain ⟨⟨hd, c₁⟩, h₁, st₁, -, h⟩ := h
    obtain ⟨-, rfl⟩ := Prod.mk.inj h
    have := Cursor.eatText?_rest_le (Cursor.eatText?_of_eatKeyword? he)
    have := header_rest_le h₁
    dsimp only
    omega
  · split at h
    · rename_i e he
      have := Cursor.eatText?_rest_le (Cursor.eatText?_of_eatKeyword? he)
      have := tableDeclaration_rest_le h
      omega
    · split at h
      · rename_i e he
        have := Cursor.eatText?_rest_le (Cursor.eatText?_of_eatKeyword? he)
        have := tableDeclaration_rest_le h
        omega
      · simp at h

/-- A declaration reads at least its keyword. -/
theorem declaration_rest_lt {st st' : State} {c d : Cursor}
    (h : declaration st c = .ok (st', d)) : d.rest.length < c.rest.length := by
  simp only [declaration] at h
  split at h
  · rename_i e he
    split at h
    · simp at h
    · simp only [bind_eq_ok, pure_eq_ok] at h
      obtain ⟨⟨params, c₁⟩, h₁, h⟩ := h
      obtain ⟨-, rfl⟩ := Prod.mk.inj h
      have := Cursor.eatText?_rest_lt (by decide) (Cursor.eatText?_of_eatKeyword? he)
      have := templateParams_rest_le h₁
      dsimp only
      omega
  · split at h
    · rename_i e he
      have := Cursor.eatText?_rest_lt (by decide) (Cursor.eatText?_of_eatKeyword? he)
      have := Cursor.skipBlank_rest_le e
      have := definition_rest_le h
      omega
    · simp at h

/-! ### Whole texts -/

/-- Read declarations to the end of the text. -/
def declarations (st : State) (c : Cursor) : Except ParseError Registry :=
  let c' := c.skipBlank
  if c'.isEof then
    if st.pending?.isSome then .error ⟨.danglingTemplate, c'.offset⟩ else .ok st.registry
  else
    match h : declaration st c' with
    | .error e => .error e
    | .ok (st, d) =>
      have := declaration_rest_lt h
      declarations st d
termination_by c.rest.length
decreasing_by exact Nat.lt_of_lt_of_le this (Cursor.skipBlank_rest_le c)

/-- The registry that a text declares. -/
def parse (t : Text) : Except ParseError Registry :=
  declarations State.initial (Cursor.ofText t)

end MacroAssembler.Declaration
