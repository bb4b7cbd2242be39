/-
MacroAssembler/Proofs/BodyFaults.lean

Which bodies are accepted, and what is reported about the others.

Whether a token offends is said without the reader (`Body.Offends`): it calls a macro or
measures a table that is not declared, stands for a number that no push carries, or defines a
label that a token in front of it defines.  A body is valid if all of it could be read as
tokens and each of the four holds nowhere (`Body.Valid`).

One token is refused exactly if it offends behind the tokens in front of it
(`Body.operation_eq_error_iff`), and the labels that the reader keeps are those of these
tokens.  So a run over the tokens stops at the first that offends (`Body.ofTokens_spec`).

Main result: `Body.parse_reports`.
-/
import MacroAssembler.Proofs.BodyPrinting
import MacroAssembler.Proofs.PositionalValues

namespace MacroAssembler.Body

/-! ### Offending tokens -/

/-- The number that a token stands for. -/
def number? (r : Registry) : TokenKind → Option Nat
  | .decimal digits => some (Numeral.denoted 10 digits.toList)
  | .hex digits => some (Numeral.denoted 16 digits.toList)
  | .tableSize table => (r.getTable? table).map JumpTable.size
  | _ => none

/-- The label that a token defines. -/
def labelOf? : TokenKind → Option String
  | .label name => some name
  | _ => none

/-- A token may not stand behind the tokens `earlier`, and why. -/
inductive Offends (r : Registry) (earlier : List Token) (t : Token) : Fault → Prop
  | undefinedMacro {name : String} {args? : Option String} : t.kind = .call name args? →
      name ∉ r.macros.map Macro.name → Offends r earlier t (.undefinedMacro name)
  | undefinedTable {table : String} : t.kind = .tableSize table →
      table ∉ r.tables.map JumpTable.name → Offends r earlier t (.undefinedTable table)
  | tooWide {n : Nat} : number? r t.kind = some n → 2 ^ 256 ≤ n →
      Offends r earlier t (.unpushable t.lexeme (.tooWide (Nat.log 256 n + 1)))
  | duplicateLabel {name : String} : t.kind = .label name →
      (∃ t' ∈ earlier, t'.kind = .label name) → Offends r earlier t (.duplicateLabel name)

/-- No token offends behind those in front of it. -/
def Sound (r : Registry) (ts : List Token) : Prop :=
  ∀ ts₁ t ts₂, ts = ts₁ ++ t :: ts₂ → ∀ fault, ¬ Offends r ts₁ t fault

/-- All of a body was read as tokens, and they go together with each other and with what is
declared. -/
structure Valid (r : Registry) (ts : List Token) (u? : Option Unrecognized) : Prop where
  recognized : u? = none
  calls : ∀ t ∈ ts, ∀ name args?, t.kind = .call name args? → name ∈ r.macros.map Macro.name
  tables : ∀ t ∈ ts, ∀ table, t.kind = .tableSize table → table ∈ r.tables.map JumpTable.name
  numbers : ∀ t ∈ ts, ∀ n ∈ number? r t.kind, n < 2 ^ 256
  labels : (ts.filterMap fun t => labelOf? t.kind).Nodup

/-- The error at the first token that offends, or at input that is no token if none does. -/
def Reports (r : Registry) (ts : List Token) (u? : Option Unrecognized) (e : ParseError) : Prop :=
  (∃ ts₁ t ts₂ fault, ts = ts₁ ++ t :: ts₂ ∧ Sound r ts₁ ∧ Offends r ts₁ t fault ∧
    e = ⟨fault, t.start⟩) ∨
  ∃ u, u? = some u ∧ Sound r ts ∧ e = ⟨.unrecognized u.snippet, u.offset⟩

/-- An operation stands for a token: at its place, and with its number. -/
structure ReadAs (r : Registry) (t : Token) (op : Operation) : Prop where
  source : op.source = t.start
  kind : StandsFor r [] t.kind op.kind
  value : ∀ n ∈ number? r t.kind, op.pushValue? = some n

variable {r : Registry} {labels : List String} {earlier : List Token} {t : Token}

/-! ### One token -/

theorem labelOf?_eq_some_iff {k : TokenKind} {name : String} :
    labelOf? k = some name ↔ k = .label name := by
  cases k <;> simp [labelOf?]

/-- The labels that the reader keeps are those of the tokens behind it. -/
def Keeps (labels : List String) (earlier : List Token) : Prop :=
  ∀ name, name ∈ labels ↔ ∃ t ∈ earlier, t.kind = .label name

theorem Keeps.after (h : Keeps labels earlier) (t : Token) :
    Keeps (labelsAfter labels t) (earlier ++ [t]) := by
  obtain ⟨kind, lexeme, start⟩ := t
  intro name
  cases kind with
  | label name' => simp [labelsAfter, h name, or_comm, eq_comm]
  | _ => simp [labelsAfter, h name]

theorem pushOf_of_lt {lexeme : Text} {n : Nat} (h : n < 2 ^ 256) :
    pushOf lexeme n = .ok (.push ⟨Numeral.minimalBytes n⟩) := by
  rw [pushOf, Push.encode_of_lt h]

theorem pushOf_of_le {lexeme : Text} {n : Nat} (h : 2 ^ 256 ≤ n) :
    pushOf lexeme n = .error (.unpushable lexeme (.tooWide (Nat.log 256 n + 1))) := by
  rw [pushOf, Push.encode_of_le h]

/-- A token that stands for a number is read as a push of it. -/
theorem operation_of_number? (hwell : t.kind.WellFormed) {n : Nat}
    (h : number? r t.kind = some n) : operation r labels t = pushOf t.lexeme n := by
  obtain ⟨kind, lexeme, start⟩ := t
  cases kind with
  | decimal digits =>
    obtain rfl := Option.some.inj h
    simp only [operation, Numeral.decimal?_of_isDigit hwell.1 hwell.2]
  | hex digits =>
    obtain rfl := Option.some.inj h
    simp only [operation, Numeral.hex?_eq_denoted hwell.1 hwell.2]
  | tableSize table =>
    obtain ⟨found, hfound, rfl⟩ := Option.map_eq_some_iff.1 h
    simp only [operation, hfound]
  | _ => cases h

theorem pushOf_eq_error {lexeme : Text} {n : Nat} {fault : Fault}
    (h : pushOf lexeme n = .error fault) :
    2 ^ 256 ≤ n ∧ fault = .unpushable lexeme (.tooWide (Nat.log 256 n + 1)) := by
  rcases Nat.lt_or_ge n (2 ^ 256) with hlt | hle
  · rw [pushOf_of_lt hlt] at h
    cases h
  · rw [pushOf_of_le hle] at h
    exact ⟨hle, (Except.error.inj h).symm⟩

theorem getTable?_eq_none_iff {table : String} :
    r.getTable? table = none ↔ table ∉ r.tables.map JumpTable.name := by
  rw [← Registry.hasTable_eq_false_iff, Registry.hasTable, Option.isSome_eq_false_iff,
    Option.isNone_iff_eq_none]

theorem offends_of_operation (hkeeps : Keeps labels earlier) (hwell : t.kind.WellFormed)
    {fault : Fault} (h : operation r labels t = .error fault) : Offends r earlier t fault := by
  have hnumber : ∀ {n : Nat}, number? r t.kind = some n → Offends r earlier t fault := by
    intro n hn
    rw [operation_of_number? hwell hn] at h
    obtain ⟨hle, rfl⟩ := pushOf_eq_error h
    exact .tooWide hn hle
  obtain ⟨kind, lexeme, start⟩ := t
  cases kind with
  | call name args? =>
    simp only [operation] at h
    split at h
    · cases h
    · next hunknown =>
      obtain rfl := Except.error.inj h
      exact .undefinedMacro rfl (Registry.hasMacro_eq_false_iff.1 (by simpa using hunknown))
  | tableSize table =>
    cases hfound : r.getTable? table with
    | none =>
      simp only [operation, hfound] at h
      obtain rfl := Except.error.inj h
      exact .undefinedTable rfl (getTable?_eq_none_iff.1 hfound)
    | some found => exact hnumber (Option.map_eq_some_iff.2 ⟨found, hfound, rfl⟩)
  | label name =>
    simp only [operation] at h
    split at h
    · next hknown =>
      obtain rfl := Except.error.inj h
      exact .duplicateLabel rfl ((hkeeps name).1 hknown)
    · cases h
  | decimal digits => exact hnumber rfl
  | hex digits => exact hnumber rfl
  | word name =>
    simp only [operation] at h
    split at h <;> cases h
  | templateRef param => cases h
  | codeSize name args? => cases h
  | tableStart table => cases h

/-- **A token is refused exactly if it offends** behind the tokens in front of it. -/
theorem operation_eq_error_iff (hkeeps : Keeps labels earlier) (hwell : t.kind.WellFormed)
    {fault : Fault} : operation r labels t = .error fault ↔ Offends r earlier t fault := by
  refine ⟨offends_of_operation hkeeps hwell, fun h => ?_⟩
  cases h with
  | undefinedMacro hk hunknown =>
    simp [operation, hk, Registry.hasMacro_eq_false_iff.2 hunknown]
  | undefinedTable hk hunknown => simp [operation, hk, getTable?_eq_none_iff.2 hunknown]
  | tooWide hn hle => rw [operation_of_number? hwell hn, pushOf_of_le hle]
  | duplicateLabel hk hdefined => simp [operation, hk, (hkeeps _).2 hdefined]

theorem StandsFor.behind_none {k : TokenKind} {o : OperationKind} (h : StandsFor r labels k o) :
    StandsFor r [] k o := by
  cases h with
  | call hknown => exact .call hknown
  | templateRef => exact .templateRef
  | codeSize => exact .codeSize
  | tableSize hp => exact .tableSize hp
  | tableStart => exact .tableStart
  | label _ => exact .label List.not_mem_nil
  | decimal hp => exact .decimal hp
  | hex hp => exact .hex hp
  | opcode hbyte => exact .opcode hbyte
  | jumpRef hnone => exact .jumpRef hnone

/-- What an accepted token is read as. -/
theorem readAs_of_operation (hwell : t.kind.WellFormed) {kind : OperationKind}
    (h : operation r labels t = .ok kind) : ReadAs r t ⟨kind, t.start⟩ := by
  refine ⟨rfl, (standsFor_of_operation h).behind_none, fun n hn => ?_⟩
  rw [operation_of_number? hwell hn] at h
  obtain ⟨p, rfl, hp⟩ := exists_encode_of_pushOf h
  exact congrArg some (Push.value_of_encode hp)

/-! ### Runs over the tokens -/

theorem sound_nil (r : Registry) : Sound r [] := by
  intro ts₁ t ts₂ h
  simp at h

theorem sound_concat_iff :
    Sound r (earlier ++ [t]) ↔ Sound r earlier ∧ ∀ fault, ¬ Offends r earlier t fault := by
  constructor
  · intro h
    refine ⟨fun ts₁ t' ts₂ hts => ?_, h earlier t [] rfl⟩
    exact h ts₁ t' (ts₂ ++ [t]) (by simp [hts])
  · rintro ⟨hearlier, ht⟩ ts₁ t' ts₂ hts
    rcases List.eq_nil_or_concat ts₂ with rfl | ⟨ts₂, x, rfl⟩
    · obtain ⟨rfl, hlast⟩ := List.append_inj' hts rfl
      obtain rfl : t = t' := by simpa using hlast
      exact ht
    · refine hearlier ts₁ t' ts₂ ?_
      rw [List.concat_eq_append, ← List.cons_append, ← List.append_assoc] at hts
      exact (List.append_inj' hts rfl).1

/-- What a run over tokens comes to, behind tokens that do not offend. -/
theorem ofTokens_spec (hearlier : Sound r earlier) (hkeeps : Keeps labels earlier)
    {ts : List Token} (hwell : ∀ t ∈ ts, t.kind.WellFormed) (u? : Option Unrecognized) :
    (∀ ops, ofTokens r labels ts u? = .ok ops →
      u? = none ∧ Sound r (earlier ++ ts) ∧ List.Forall₂ (ReadAs r) ts ops) ∧
    ∀ e, ofTokens r labels ts u? = .error e → Reports r (earlier ++ ts) u? e := by
  induction ts generalizing labels earlier with
  | nil =>
    rw [List.append_nil]
    cases u? with
    | none =>
      refine ⟨fun ops h => ?_, fun e h => by cases h⟩
      obtain rfl := Except.ok.inj h
      exact ⟨rfl, hearlier, .nil⟩
    | some u =>
      refine ⟨fun ops h => (by cases h), fun e h => ?_⟩
      obtain rfl := Except.error.inj h
      exact .inr ⟨u, rfl, hearlier, rfl⟩
  | cons t ts ih =>
    obtain ⟨ht, hts⟩ := List.forall_mem_cons.1 hwell
    rw [ofTokens]
    cases hop : operation r labels t with
    | error fault =>
      refine ⟨fun ops h => (by cases h), fun e h => ?_⟩
      obtain rfl := Except.error.inj h
      have hoffends := (operation_eq_error_iff hkeeps ht).1 hop
      exact .inl ⟨earlier, t, ts, fault, rfl, hearlier, hoffends, rfl⟩
    | ok kind =>
      have hsound : Sound r (earlier ++ [t]) := by
        refine sound_concat_iff.2 ⟨hearlier, fun fault hoffends => ?_⟩
        rw [(operation_eq_error_iff hkeeps ht).2 hoffends] at hop
        cases hop
      obtain ⟨hok, herror⟩ := ih hsound (hkeeps.after t) hts
      rw [List.append_assoc, List.singleton_append] at hok herror
      dsimp only
      cases hrest : ofTokens r (labelsAfter labels t) ts u? with
      | error e' =>
        refine ⟨fun ops h => (by cases h), fun e h => ?_⟩
        obtain rfl := Except.error.inj h
        exact herror e' hrest
      | ok rest =>
        refine ⟨fun ops h => ?_, fun e h => (by cases h)⟩
        obtain rfl := Except.ok.inj h
        obtain ⟨hu, hall, hforall⟩ := hok rest hrest
        exact ⟨hu, hall, .cons (readAs_of_operation ht hop) hforall⟩

/-! ### Valid bodies -/

/-- Labels are distinct exactly if none is defined in front of where it is defined. -/
theorem nodup_labels_iff {ts : List Token} :
    (ts.filterMap fun t => labelOf? t.kind).Nodup ↔
      ∀ ts₁ t ts₂ name, ts = ts₁ ++ t :: ts₂ → t.kind = .label name →
        ¬ ∃ t' ∈ ts₁, t'.kind = .label name := by
  rw [List.Nodup, List.pairwise_filterMap]
  simp only [labelOf?_eq_some_iff]
  constructor
  · rintro h ts₁ t ts₂ name rfl ht ⟨t', hmem, ht'⟩
    have hpair := (List.pairwise_append.1 h).2.2 t' hmem t List.mem_cons_self
    exact hpair name ht' name ht rfl
  · intro h
    induction ts with
    | nil => exact .nil
    | cons t ts ih =>
      refine .cons (fun t' hmem name ht name' ht' => ?_) (ih fun ts₁ t' ts₂ name hts ht' => ?_)
      · rintro rfl
        obtain ⟨ts₁, ts₂, rfl⟩ := List.append_of_mem hmem
        exact h (t :: ts₁) t' ts₂ name rfl ht' ⟨t, List.mem_cons_self, ht⟩
      · rintro ⟨t'', hmem, ht''⟩
        exact h (t :: ts₁) t' ts₂ name (by rw [hts, List.cons_append]) ht'
          ⟨t'', List.mem_cons_of_mem t hmem, ht''⟩

theorem valid_iff_sound {ts : List Token} {u? : Option Unrecognized} :
    Valid r ts u? ↔ u? = none ∧ Sound r ts := by
  constructor
  · rintro ⟨hu, hcalls, htables, hnumbers, hlabels⟩
    refine ⟨hu, ?_⟩
    rintro ts₁ t ts₂ hts fault hoffends
    have hmem : t ∈ ts := by simp [hts]
    cases hoffends with
    | undefinedMacro hk hunknown => exact hunknown (hcalls t hmem _ _ hk)
    | undefinedTable hk hunknown => exact hunknown (htables t hmem _ hk)
    | tooWide hn hle => exact absurd (hnumbers t hmem _ hn) (Nat.not_lt.2 hle)
    | duplicateLabel hk hdefined => exact nodup_labels_iff.1 hlabels ts₁ t ts₂ _ hts hk hdefined
  · rintro ⟨hu, hsound⟩
    -- every token stands behind some others
    have hat : ∀ t ∈ ts, ∃ ts₁, ∀ fault, ¬ Offends r ts₁ t fault := by
      intro t hmem
      obtain ⟨ts₁, ts₂, hts⟩ := List.append_of_mem hmem
      exact ⟨ts₁, hsound ts₁ t ts₂ hts⟩
    refine ⟨hu, ?_, ?_, ?_, ?_⟩
    · intro t hmem name args? hk
      obtain ⟨ts₁, ht⟩ := hat t hmem
      exact Classical.not_not.1 fun hunknown => ht _ (.undefinedMacro hk hunknown)
    · intro t hmem table hk
      obtain ⟨ts₁, ht⟩ := hat t hmem
      exact Classical.not_not.1 fun hunknown => ht _ (.undefinedTable hk hunknown)
    · intro t hmem n hn
      obtain ⟨ts₁, ht⟩ := hat t hmem
      exact Nat.lt_of_not_le fun hle => ht _ (.tooWide hn hle)
    · refine nodup_labels_iff.2 fun ts₁ t ts₂ name hts hk hdefined => ?_
      exact hsound ts₁ t ts₂ hts _ (.duplicateLabel hk hdefined)

/-- The tokens up to the first that offends are given by the list. -/
theorem eq_of_offends {ts₁ ts₂ ts₁' ts₂' : List Token} {t t' : Token} {fault fault' : Fault}
    (hts : ts₁ ++ t :: ts₂ = ts₁' ++ t' :: ts₂') (hsound : Sound r ts₁) (hsound' : Sound r ts₁')
    (hoffends : Offends r ts₁ t fault) (hoffends' : Offends r ts₁' t' fault') :
    ts₁ = ts₁' ∧ t = t' := by
  obtain ⟨m, hm, hrest⟩ | ⟨m, hm, hrest⟩ := List.append_eq_append_iff.1 hts
  · cases m with
    | nil => exact ⟨by simpa using hm.symm, (List.cons.inj hrest).1⟩
    | cons x m =>
      obtain ⟨rfl, -⟩ := List.cons.inj hrest
      exact absurd hoffends (hsound' ts₁ t m hm fault)
  · cases m with
    | nil => exact ⟨by simpa using hm, (List.cons.inj hrest).1.symm⟩
    | cons x m =>
      obtain ⟨rfl, -⟩ := List.cons.inj hrest
      exact absurd hoffends' (hsound ts₁' t' m hm fault')

theorem keeps_filterMap (ts : List Token) : Keeps (ts.filterMap fun t => labelOf? t.kind) ts := by
  intro name
  simp only [List.mem_filterMap, labelOf?_eq_some_iff]

/-- There is nothing to report about a valid body. -/
theorem Reports.not_valid {ts : List Token} {u? : Option Unrecognized} {e : ParseError}
    (h : Reports r ts u? e) : ¬ Valid r ts u? := by
  rw [valid_iff_sound]
  rintro ⟨hu, hsound⟩
  obtain ⟨ts₁, t, ts₂, fault, hts, -, hoffends, -⟩ | ⟨u, hsome, -⟩ := h
  · exact hsound ts₁ t ts₂ hts fault hoffends
  · cases hu.symm.trans hsome

/-- There is at most one error to report. -/
theorem Reports.unique {ts : List Token} {u? : Option Unrecognized} {e e' : ParseError}
    (hwell : ∀ t ∈ ts, t.kind.WellFormed) (h : Reports r ts u? e) (h' : Reports r ts u? e') :
    e = e' := by
  obtain ⟨ts₁, t, ts₂, fault, rfl, hsound, hoffends, rfl⟩ | ⟨u, hu, hsound, rfl⟩ := h
  · obtain ⟨ts₁', t', ts₂', fault', hts, hsound', hoffends', rfl⟩ | ⟨u', -, hsound', -⟩ := h'
    · obtain ⟨rfl, rfl⟩ := eq_of_offends hts hsound hsound' hoffends hoffends'
      have ht := hwell t (by simp)
      have hop := (operation_eq_error_iff (keeps_filterMap ts₁) ht).2 hoffends
      have hop' := (operation_eq_error_iff (keeps_filterMap ts₁) ht).2 hoffends'
      rw [Except.error.inj (hop.symm.trans hop')]
    · exact absurd hoffends (hsound' ts₁ t ts₂ rfl fault)
  · obtain ⟨ts₁', t', ts₂', fault', rfl, -, hoffends', -⟩ | ⟨u', hu', -, rfl⟩ := h'
    · exact absurd hoffends' (hsound ts₁' t' ts₂' rfl fault')
    · obtain rfl := Option.some.inj (hu.symm.trans hu')
      rfl

/-- **Bodies are accepted exactly if they are valid**, and are then read token by token; of
any other body the first fault is reported, at the start of the token that it belongs to. -/
theorem parse_reports (r : Registry) (window : Cursor) :
    ((∃ ops, parse r window = .ok ops) ↔ Valid r (Token.lex window).1 (Token.lex window).2) ∧
      (∀ ops, parse r window = .ok ops → List.Forall₂ (ReadAs r) (Token.lex window).1 ops) ∧
      ∀ e, parse r window = .error e ↔ Reports r (Token.lex window).1 (Token.lex window).2 e := by
  have hwell : ∀ t ∈ (Token.lex window).1, t.kind.WellFormed :=
    fun _ => Token.wellFormed_of_mem_lex
  have hkeeps : Keeps [] [] := by simp [Keeps]
  obtain ⟨hok, herror⟩ := ofTokens_spec (sound_nil r) hkeeps hwell (Token.lex window).2
  rw [List.nil_append] at hok herror
  have hvalid : ∀ ops, parse r window = .ok ops →
      Valid r (Token.lex window).1 (Token.lex window).2 := by
    intro ops h
    obtain ⟨hu, hsound, -⟩ := hok ops h
    exact valid_iff_sound.2 ⟨hu, hsound⟩
  refine ⟨⟨fun ⟨ops, h⟩ => hvalid ops h, fun h => ?_⟩, fun ops h => (hok ops h).2.2,
    fun e => ⟨herror e, fun hreports => ?_⟩⟩
  · cases hparse : parse r window with
    | ok ops => exact ⟨ops, rfl⟩
    | error e => exact absurd h (herror e hparse).not_valid
  · cases hparse : parse r window with
    | ok ops => exact absurd (hvalid ops hparse) hreports.not_valid
    | error e' => rw [(herror e' hparse).unique hwell hreports]

end MacroAssembler.Body
