/-
MacroAssembler/Proofs/WellFormedness.lean

What every registry that is read looks like.

`Registry.WellFormed text r` says it without the reader: which characters names
have, which pushes, words and arguments stand in bodies, in which order
declarations, operations and labels come, and where in the text a body lies.
Later stages may rely on all of it, whatever text was read
(`wellFormed_of_parse`).

The forms of names and operations are those that the reader can read back from
the printed registry (`Registry.printable_of_parse`), here in terms of
characters and brackets.  Places need an induction of their own: the text is
read from left to right, so everything declared so far comes from in front of
the cursor (`State.InPlace`).
-/
import MacroAssembler.Proofs.Decoding
import MacroAssembler.Proofs.RegistryPrinting

namespace MacroAssembler

/-! ### Names -/

/-- One or more ASCII letters, digits and underscores. -/
structure Text.IsIdentifier (t : Text) : Prop where
  ne_nil : t ≠ []
  chars : ∀ ch ∈ t,
    ('A' ≤ ch ∧ ch ≤ 'Z') ∨ ('a' ≤ ch ∧ ch ≤ 'z') ∨ ('0' ≤ ch ∧ ch ≤ '9') ∨ ch = '_'

theorem Text.isIdentifier_of_isIdent {t : Text} (h : isIdent t = true) : t.IsIdentifier := by
  obtain ⟨hne, hchars⟩ := isIdent_iff.1 h
  refine ⟨hne, fun ch hch => ?_⟩
  have hdigit : ch.isDigit = true ↔ '0' ≤ ch ∧ ch ≤ '9' :=
    Bool.and_eq_true_iff.trans (and_congr decide_eq_true_iff decide_eq_true_iff)
  obtain ((hupper | hlower) | h) | h := isIdentChar_iff.1 (hchars ch hch)
  · exact .inl hupper
  · exact .inr (.inl hlower)
  · exact .inr (.inr (.inl (hdigit.1 h)))
  · exact .inr (.inr (.inr h))

/-- A decimal literal, or a hexadecimal one behind `0x`. -/
def Text.IsLiteral (t : Text) : Prop :=
  (t ≠ [] ∧ ∀ ch ∈ t, isDigit ch = true) ∨
    ∃ digits, t = '0' :: 'x' :: digits ∧ digits ≠ [] ∧ ∀ ch ∈ digits, isHexDigit ch = true

theorem Text.IsWord.not_isLiteral {t : Text} (h : t.IsWord) : ¬ t.IsLiteral := by
  rintro (⟨-, hdigits⟩ | ⟨digits, ht, hne, hdigits⟩)
  · exact h.not_decimal hdigits
  · exact h.not_hex digits ht hne hdigits

/-! ### Arguments -/

namespace Argument

/-- Behind `depth` open brackets, all brackets of the text are closed and none
that was not opened, and commas stand between brackets only. -/
structure Bracketed (depth : Nat) (t : Text) : Prop where
  balanced : depth + t.count '<' = t.count '>'
  opened : ∀ s, s <+: t → s.count '>' ≤ depth + s.count '<'
  commas : ∀ s, s ++ [','] <+: t → s.count '>' < depth + s.count '<'
  plain : ∀ ch ∈ ['(', ')', '{', '}'], ch ∉ t

/-- An argument of a list, without the blanks around it. -/
structure Proper (a : Text) : Prop where
  trimmed : Text.trim a = a
  bracketed : Bracketed 0 a

/-- A comma of a text that stands on its own is behind an open bracket. -/
theorem count_lt_of_single {depth : Nat} {t s : Text} (h : single depth t = true)
    (hs : s ++ [','] <+: t) : s.count '>' < depth + s.count '<' := by
  induction t generalizing depth s with
  | nil => simp at hs
  | cons c t ih =>
    obtain ⟨hallowed, hcut, htail⟩ := single_cons_iff.1 h
    cases s with
    | nil =>
      -- the comma comes first, so a bracket is open in front of it
      obtain ⟨rfl, -⟩ := List.cons_prefix_cons.1 hs
      simpa [Nat.pos_iff_ne_zero] using hcut
    | cons ch s =>
      obtain ⟨rfl, hst⟩ := List.cons_prefix_cons.1 hs
      have hcount := count_cons_of_allowed hallowed.1 s
      have := ih htail hst
      omega

theorem bracketed_of_single {depth : Nat} {t : Text} (h : single depth t = true) :
    Bracketed depth t := by
  obtain ⟨⟨hopened, hclosed⟩, hplain⟩ := balanced_iff_level.1 (balanced_of_single h)
  refine ⟨hclosed.symm, hopened, fun s hs => count_lt_of_single h hs, fun ch hch hmem => ?_⟩
  exact hplain ch hmem (by simpa using hch)

end Argument

/-! ### Pushes -/

/-- A push whose opcode goes with its width, and that wastes no byte. -/
structure Push.Shortest (p : Push) : Prop where
  width_pos : 1 ≤ p.immediate.length
  width_le : p.immediate.length ≤ 32
  opcode : p.opcode.toNat = 0x5f + p.immediate.length
  /-- Only zero starts with a zero byte. -/
  leading : p.immediate.head? = some 0 → p.immediate = [0]

theorem Numeral.eq_zero_of_head?_minimalBytes {n : Nat} (h : (minimalBytes n).head? = some 0) :
    n = 0 := by
  fun_induction minimalBytes n with
  | case1 n hlt =>
    have hbyte : UInt8.ofNat n = 0 := by simpa using h
    have hnat : n % 256 = 0 := by simpa using congrArg UInt8.toNat hbyte
    omega
  | case2 n hge ih =>
    have hne : minimalBytes (n / 256) ≠ [] := List.length_pos_iff.1 (length_minimalBytes_pos _)
    rw [List.head?_append_of_ne_nil _ hne] at h
    have := ih h
    omega

theorem Push.shortest_of_encode {n : Nat} {p : Push} (h : encode n = .ok p) : p.Shortest := by
  obtain ⟨hpos, hle⟩ := encodable_of_encode h
  refine ⟨hpos, hle, ?_, ?_⟩
  · have hbase : Opcode.pushBase.toNat = 0x5f := rfl
    rw [opcode, UInt8.toNat_add, UInt8.toNat_ofNat', hbase]
    omega
  · rw [immediate_of_encode h]
    intro hhead
    rw [Numeral.eq_zero_of_head?_minimalBytes hhead, Numeral.minimalBytes]
    rfl

/-! ### Operations -/

/-- An operation that a body can have. -/
def OperationKind.Proper : OperationKind → Prop
  | .opcode byte => ∃ name, (name, byte) ∈ Opcode.table
  | .push p => p.Shortest
  | .jumpRef label =>
    Text.IsIdentifier label.toList ∧ ¬ Text.IsLiteral label.toList ∧
      label ∉ Opcode.table.map Prod.fst
  | .call name args | .codeSize name args =>
    Text.IsIdentifier name.toList ∧ ∀ a ∈ args, Argument.Proper a.toList
  | .jumpDest name | .templateRef name | .tableStart name => Text.IsIdentifier name.toList

theorem OperationKind.WellFormed.proper {k : OperationKind} (h : k.WellFormed) : k.Proper := by
  cases k with
  | opcode byte =>
    obtain ⟨name, -, hname⟩ := h
    obtain ⟨before, after, htable, -⟩ := List.lookup_eq_some_iff.1 hname
    exact ⟨name, by simp [htable]⟩
  | push p =>
    obtain ⟨n, hn⟩ := h
    exact Push.shortest_of_encode hn
  | jumpRef label =>
    obtain ⟨hword, hnone⟩ := h
    refine ⟨Text.isIdentifier_of_isIdent hword.ident, hword.not_isLiteral, ?_⟩
    intro hmem
    obtain ⟨entry, hentry, rfl⟩ := List.mem_map.1 hmem
    simpa using List.lookup_eq_none_iff.1 hnone entry hentry
  | call name args | codeSize name args =>
    obtain ⟨hname, hargs⟩ := h
    refine ⟨Text.isIdentifier_of_isIdent hname, fun a ha => ?_⟩
    have hmem := List.mem_map_of_mem (f := String.toList) ha
    exact ⟨hargs.trimmed _ hmem, Argument.bracketed_of_single (hargs.single _ hmem)⟩
  | jumpDest name | templateRef name | tableStart name => exact Text.isIdentifier_of_isIdent h

/-- The label that an operation defines. -/
def OperationKind.defines? : OperationKind → Option String
  | .jumpDest label => some label
  | _ => none

namespace Body.Readable

variable {known labels : List String} {kinds : List OperationKind}

theorem of_mem {k : OperationKind} (h : Readable known labels kinds) (hk : k ∈ kinds) :
    k.WellFormed ∧ ∃ labels', k.Placeable known labels' := by
  induction kinds generalizing labels with
  | nil => cases hk
  | cons k' kinds ih =>
    obtain ⟨hform, hplace, hrest⟩ := h
    obtain rfl | hk := List.mem_cons.1 hk
    · exact ⟨hform, _, hplace⟩
    · exact ih hrest hk

/-- Labels are new where they are defined, so no two are the same. -/
theorem nodup_defines (h : Readable known labels kinds) :
    (kinds.filterMap OperationKind.defines?).Nodup ∧
      ∀ l ∈ kinds.filterMap OperationKind.defines?, l ∉ labels := by
  induction kinds generalizing labels with
  | nil => exact ⟨.nil, by simp⟩
  | cons k kinds ih =>
    obtain ⟨-, hplace, hrest⟩ := h
    obtain ⟨hnodup, hfresh⟩ := ih hrest
    cases k with
    | jumpDest label =>
      rw [List.filterMap_cons_some (f := OperationKind.defines?) rfl]
      refine ⟨List.nodup_cons.2 ⟨fun hmem => hfresh _ hmem (by simp [OperationKind.labelsAfter]),
        hnodup⟩, ?_⟩
      intro l hl hmem
      obtain rfl | hl := List.mem_cons.1 hl
      · exact hplace hmem
      · exact hfresh l hl (List.mem_cons_of_mem _ hmem)
    | _ => exact ⟨hnodup, hfresh⟩

end Body.Readable

/-! ### Places -/

/-- The body of a macro starts at the byte `start` of the text: the declaration
stands at the source of the macro, its first opening brace opens the body, and
the next closing brace closes it. -/
def Macro.BodyAt (text : Text) (m : Macro) (start : Nat) : Prop :=
  ∃ before head after, text = before ++ (head ++ '{' :: (m.body ++ '}' :: after)) ∧
    "#define".toList <+: head ∧ '{' ∉ head ∧ '}' ∉ m.body ∧
    m.source = Text.byteLength before ∧ start = m.source + Text.byteLength head + 1

/-- The operations of a macro come one behind the other from its own body. -/
structure Macro.InPlace (text : Text) (m : Macro) : Prop where
  ascending : (m.ops.map Operation.source).Pairwise (· < ·)
  body : ∃ start, m.BodyAt text start ∧
    ∀ op ∈ m.ops, start ≤ op.source ∧ op.source < start + Text.byteLength m.body

namespace Declaration

variable {c : Cursor} {st : State} {text : Text}

/-- The operations of a declared macro are read from its body in the text. -/
theorem MacroRead.bodyAt {m : Macro} (h : MacroRead c st m) (hc : c.Within text) :
    ∃ start, m.BodyAt text start ∧ Body.parse st.registry ⟨start, m.body⟩ = .ok m.ops := by
  obtain ⟨s, e, f, hs, hnot, hbody, hclose, hops⟩ := h.window
  refine ⟨e.offset, ?_, hops⟩
  obtain ⟨before, after, htext, hoffset⟩ := hc
  obtain ⟨rest, hrest⟩ : ∃ rest, f.rest = '}' :: rest := List.head?_eq_some_iff.1 hclose
  have hall : c.rest = s ++ '{' :: (m.body ++ '}' :: rest) := by
    rw [hs.rest, hbody.rest, hrest, List.append_assoc, List.singleton_append]
  refine ⟨before, s, rest ++ after, ?_, ?_, hnot, h.unclosed, ?_, ?_⟩
  · rw [htext, hall]
    simp
  · have hkeyword := h.keyword
    rw [hall] at hkeyword
    exact Text.prefix_of_prefix_append_cons hkeyword (by decide)
  · rw [h.source, hoffset]
  · rw [h.source, hs.offset, Text.byteLength_append, Nat.add_assoc]
    rfl

theorem MacroRead.inPlace {m : Macro} (h : MacroRead c st m) (hc : c.Within text) :
    m.InPlace text := by
  obtain ⟨start, hbody, hops⟩ := h.bodyAt hc
  obtain ⟨hascending, hinside⟩ := Body.sources_of_parse hops
  exact ⟨hascending, start, hbody, hinside⟩

/-- Increasing numbers below a bound. -/
def Ascending (bound : Nat) (l : List Nat) : Prop := l.Pairwise (· < ·) ∧ ∀ n ∈ l, n < bound

theorem Ascending.mono {bound bound' : Nat} {l : List Nat} (h : Ascending bound l)
    (hle : bound ≤ bound') : Ascending bound' l :=
  ⟨h.1, fun n hn => Nat.lt_of_lt_of_le (h.2 n hn) hle⟩

theorem Ascending.concat {bound bound' : Nat} {l : List Nat} (h : Ascending bound l)
    (hlt : bound < bound') : Ascending bound' (l ++ [bound]) := by
  refine ⟨List.pairwise_append.2 ⟨h.1, List.pairwise_singleton _ _, ?_⟩, ?_⟩
  · intro n hn n' hn'
    obtain rfl := List.mem_singleton.1 hn'
    exact h.2 n hn
  · intro n hn
    obtain hn | hn := List.mem_append.1 hn
    · exact Nat.lt_trans (h.2 n hn) hlt
    · rwa [List.mem_singleton.1 hn]

/-- All declarations come from the text in front of an offset, in order. -/
structure State.InPlace (text : Text) (bound : Nat) (st : State) : Prop where
  macros : Ascending bound (st.registry.macros.map Macro.source)
  tables : Ascending bound (st.registry.tables.map JumpTable.source)
  bodies : ∀ m ∈ st.registry.macros, m.InPlace text

theorem State.InPlace.mono {bound bound' : Nat} (h : st.InPlace text bound)
    (hle : bound ≤ bound') : st.InPlace text bound' :=
  ⟨h.macros.mono hle, h.tables.mono hle, h.bodies⟩

theorem Declares.inPlace {st' : State} {bound : Nat} (h : Declares c st st') (hc : c.Within text)
    (hlt : c.offset < bound) (hst : st.InPlace text c.offset) : st'.InPlace text bound := by
  have hmono := hst.mono (Nat.le_of_lt hlt)
  cases h with
  | template => exact ⟨hmono.macros, hmono.tables, hst.bodies⟩
  | addMacro hread hadd =>
    obtain ⟨-, rfl⟩ := Registry.addMacro_eq_ok.1 hadd
    refine ⟨?_, hmono.tables, ?_⟩
    · rw [List.map_append, List.map_singleton, hread.source]
      exact hst.macros.concat hlt
    · intro m hm
      obtain hm | hm := List.mem_append.1 hm
      · exact hst.bodies m hm
      · obtain rfl := List.mem_singleton.1 hm
        exact hread.inPlace hc
  | addTable _ hread hadd =>
    obtain ⟨-, rfl⟩ := Registry.addTable_eq_ok.1 hadd
    refine ⟨hmono.macros, ?_, hst.bodies⟩
    rw [List.map_append, List.map_singleton, hread.source]
    exact hst.tables.concat hlt

theorem State.inPlace_initial (text : Text) (bound : Nat) : State.initial.InPlace text bound :=
  ⟨⟨.nil, List.forall_mem_nil _⟩, ⟨.nil, List.forall_mem_nil _⟩, List.forall_mem_nil _⟩

theorem inPlace_of_parse {r : Registry} (h : parse text = .ok r) :
    ∃ bound, State.InPlace text bound ⟨r, none⟩ := by
  refine declarations_keeps_at (fun hle hst => hst.mono hle) ?_ (Cursor.within_ofText text)
    (State.inPlace_initial text _) h
  intro c d st st' hc hdecl hst
  exact (declares_of_declaration hdecl).2.inPlace hc (offset_lt_of_declaration hdecl) hst

end Declaration

/-! ### Registries -/

/-- A macro as a text declares it. -/
structure Macro.WellFormed (text : Text) (m : Macro) : Prop where
  name : Text.IsIdentifier m.name.toList
  params : ∀ p ∈ m.params, Text.IsIdentifier p.toList
  ops : ∀ op ∈ m.ops, op.kind.Proper
  labels : ((m.ops.map Operation.kind).filterMap OperationKind.defines?).Nodup
  inPlace : m.InPlace text

/-- A registry as a text declares it. -/
structure Registry.WellFormed (text : Text) (r : Registry) : Prop where
  macros : ∀ m ∈ r.macros, m.WellFormed text
  macroNames : (r.macros.map Macro.name).Nodup
  macroSources : (r.macros.map Macro.source).Pairwise (· < ·)
  /-- Macros call macros in front of them only. -/
  calls : ∀ before m after, r.macros = before ++ m :: after →
    ∀ op ∈ m.ops, ∀ name args, op.kind = .call name args → name ∈ before.map Macro.name
  tables : ∀ t ∈ r.tables,
    Text.IsIdentifier t.name.toList ∧ ∀ l ∈ t.labels, Text.IsIdentifier l.toList
  tableNames : (r.tables.map JumpTable.name).Nodup
  tableSources : (r.tables.map JumpTable.source).Pairwise (· < ·)

theorem Macro.Printable.wellFormed {known : List String} {m : Macro} (h : m.Printable known)
    {text : Text} (hplace : m.InPlace text) : m.WellFormed text := by
  refine ⟨Text.isIdentifier_of_isIdent h.ident,
    fun p hp => Text.isIdentifier_of_isIdent (h.params p hp), ?_, h.body.nodup_defines.1, hplace⟩
  intro op hop
  exact (h.body.of_mem (List.mem_map_of_mem hop)).1.proper

/-- Every member of a list stands behind some others. -/
theorem InOrder.exists_of_mem {α : Type} {name : α → String} {P : List String → α → Prop}
    {l : List α} (h : InOrder name P l) {x : α} (hx : x ∈ l) : ∃ known, P known x := by
  obtain ⟨before, after, rfl⟩ := List.append_of_mem hx
  exact ⟨_, h before x after rfl⟩

/-- **Every registry that is read is well formed**, whatever the files hold. -/
theorem Registry.wellFormed_of_parse {files : Listing} {r : Registry}
    (h : Declaration.parse files.text = .ok r) : r.WellFormed files.text := by
  have hprintable := printable_of_parse h
  obtain ⟨hmacroNames, htableNames⟩ := (built_of_parse h).nodup
  obtain ⟨bound, hplaces⟩ := Declaration.inPlace_of_parse h
  refine ⟨?_, hmacroNames, hplaces.macros.1, ?_, ?_, htableNames, hplaces.tables.1⟩
  · intro m hm
    obtain ⟨known, hm'⟩ := hprintable.macros.exists_of_mem hm
    exact hm'.wellFormed (hplaces.bodies m hm)
  · intro before m after hmacros op hop name args hkind
    have hm := hprintable.macros before m after hmacros
    have hmem := List.mem_map_of_mem (f := Operation.kind) hop
    obtain ⟨-, labels, hknown⟩ := hm.body.of_mem hmem
    rw [hkind] at hknown
    exact hknown
  · intro t ht
    obtain ⟨known, ht'⟩ := hprintable.tables.exists_of_mem ht
    exact ⟨Text.isIdentifier_of_isIdent ht'.named.name,
      fun l hl => Text.isIdentifier_of_isIdent (ht'.named.labels l hl)⟩

/-- Two macros, one of them behind a template header, and a table between
them. -/
theorem Registry.wellFormed_unruly :
    ∃ r, Declaration.parse unruly.text = .ok r ∧ r.macros.map Macro.source = [17, 123] ∧
      r.tables.map JumpTable.source = [87] ∧ r.WellFormed unruly.text := by
  have hrun : (Declaration.parse unruly.text >>= fun r =>
      pure (r.macros.map Macro.source, r.tables.map JumpTable.source)) = .ok ([17, 123], [87]) := by
    decide +kernel
  simp only [Outcome.bind_eq_ok, Outcome.pure_eq_ok] at hrun
  obtain ⟨r, hparse, hsources⟩ := hrun
  obtain ⟨hmacros, htables⟩ := Prod.mk.inj hsources
  exact ⟨r, hparse, hmacros, htables, wellFormed_of_parse hparse⟩

end MacroAssembler
