/-
MacroAssembler/Proofs/BodyPrinting.lean

Macro bodies printed and read back.

An operation is printed as one token, and operations are set apart by single
spaces.  Two halves meet at a description of the bodies that can be read.
Whatever a body is read into can be read (`readable_of_parse`): its names and
arguments have the form that tokens give them, its calls go to macros that are
known and its labels are new.  And whatever can be read is read back from its
printed form (`parse_printBody`).
-/
import Mathlib.Data.List.Nodup
import MacroAssembler.Proofs.Arguments
import MacroAssembler.Proofs.Numerals
import MacroAssembler.Proofs.Registration
import MacroAssembler.Proofs.TokenRendering

namespace MacroAssembler

/-! ### Mnemonics -/

namespace Opcode

theorem isChain_bytes : (table.map Prod.snd).IsChain (· < ·) := by
  decide +kernel

theorem nodup_bytes : (table.map Prod.snd).Nodup := by
  have hincreasing := List.isChain_iff_pairwise.1 isChain_bytes
  exact hincreasing.imp fun hlt => UInt8.ne_of_lt hlt

/-- No two mnemonics share a byte. -/
theorem mnemonic?_of_ofMnemonic? {name : String} {byte : UInt8}
    (h : ofMnemonic? name = some byte) : mnemonic? byte = some name := by
  obtain ⟨before, after, htable, -⟩ := List.lookup_eq_some_iff.1 h
  have hmem : (name, byte) ∈ table := by
    rw [htable]
    simp
  have hsome : (table.find? fun entry => entry.2 == byte).isSome = true :=
    List.find?_isSome.2 ⟨(name, byte), hmem, by simp⟩
  obtain ⟨e, he⟩ := Option.isSome_iff_exists.1 hsome
  have hbyte : e.2 = byte := by simpa using List.find?_some he
  have heq := List.inj_on_of_nodup_map nodup_bytes (List.mem_of_find?_eq_some he) hmem hbyte
  rw [mnemonic?, he, heq, Option.map_some]

end Opcode

/-! ### Printing -/

/-- Arguments between brackets; without arguments there are no brackets. -/
def Argument.printList : List String → Option String
  | [] => none
  | args => some (String.ofList (Argument.join (args.map String.toList)))

namespace OperationKind

/-- The token that an operation is printed as. -/
def token : OperationKind → TokenKind
  | .opcode byte => .word ((Opcode.mnemonic? byte).getD "")
  | .push p => .hex (String.ofList (Numeral.hexOfBytes p.immediate))
  | .jumpDest label => .label label
  | .jumpRef label => .word label
  | .call name args => .call name (Argument.printList args)
  | .templateRef param => .templateRef param
  | .codeSize name args => .codeSize name (Argument.printList args)
  | .tableStart table => .tableStart table

/-- The printed form of an operation. -/
def print (k : OperationKind) : Text := k.token.render

end OperationKind

namespace Body

/-- The printed form of a body: a space in front of each operation, and one at
the end. -/
def print (kinds : List OperationKind) : Text := kinds.flatMap (fun k => ' ' :: k.print) ++ [' ']

end Body

/-! ### Operations that can be read -/

namespace OperationKind

/-- The parts of an operation have the form that its token asks for. -/
def WellFormed : OperationKind → Prop
  | .opcode byte => ∃ name : String, Text.IsWord name.toList ∧ Opcode.ofMnemonic? name = some byte
  | .push p => ∃ n, Push.encode n = .ok p
  | .jumpRef label => Text.IsWord label.toList ∧ Opcode.ofMnemonic? label = none
  | .call name args | .codeSize name args =>
    Text.isIdent name.toList = true ∧ Argument.Separable (args.map String.toList)
  | .jumpDest name | .templateRef name | .tableStart name => Text.isIdent name.toList = true

/-- An operation may stand behind the given labels, when the given macros are
known. -/
def Placeable (known labels : List String) : OperationKind → Prop
  | .call name _ => name ∈ known
  | .jumpDest label => label ∉ labels
  | _ => True

/-- The labels defined after an operation. -/
def labelsAfter (labels : List String) : OperationKind → List String
  | .jumpDest label => label :: labels
  | _ => labels

end OperationKind

/-- A body that can be read behind the given labels, when the given macros are
known. -/
def Body.Readable (known : List String) : List String → List OperationKind → Prop
  | _, [] => True
  | labels, k :: kinds =>
    k.WellFormed ∧ k.Placeable known labels ∧ Readable known (k.labelsAfter labels) kinds

/-! ### What is read can be read -/

theorem Argument.separable_arguments {args? : Option String} (h : Token.ArgsBalanced args?) :
    Separable ((Body.arguments args?).map String.toList) := by
  cases args? with
  | none => exact ⟨by simp [Body.arguments], by simp [Body.arguments], by simp [Body.arguments]⟩
  | some args =>
    have hmap : (split args).map String.toList = splitText args.toList := by
      simp [split, Function.comp_def]
    show Separable ((split args).map String.toList)
    rw [hmap]
    exact separable_splitText (h args rfl)

namespace Body

variable {r : Registry} {labels : List String}

/-- What a token can stand for behind the given labels. -/
inductive StandsFor (r : Registry) (labels : List String) : TokenKind → OperationKind → Prop
  | call {name args?} : r.hasMacro name = true →
      StandsFor r labels (.call name args?) (.call name (arguments args?))
  | templateRef {param} : StandsFor r labels (.templateRef param) (.templateRef param)
  | codeSize {name args?} :
      StandsFor r labels (.codeSize name args?) (.codeSize name (arguments args?))
  | tableSize {table n p} : Push.encode n = .ok p →
      StandsFor r labels (.tableSize table) (.push p)
  | tableStart {table} : StandsFor r labels (.tableStart table) (.tableStart table)
  | label {name} : name ∉ labels → StandsFor r labels (.label name) (.jumpDest name)
  | decimal {digits n p} : Push.encode n = .ok p → StandsFor r labels (.decimal digits) (.push p)
  | hex {digits n p} : Push.encode n = .ok p → StandsFor r labels (.hex digits) (.push p)
  | opcode {name byte} : Opcode.ofMnemonic? name = some byte →
      StandsFor r labels (.word name) (.opcode byte)
  | jumpRef {name} : Opcode.ofMnemonic? name = none →
      StandsFor r labels (.word name) (.jumpRef name)

theorem exists_encode_of_pushOf {lexeme : Text} {value : Nat} {k : OperationKind}
    (h : pushOf lexeme value = .ok k) : ∃ p, k = .push p ∧ Push.encode value = .ok p := by
  rw [pushOf] at h
  split at h
  · rename_i p hp
    obtain rfl := Except.ok.inj h
    exact ⟨p, rfl, hp⟩
  · cases h

theorem standsFor_of_operation {t : Token} {k : OperationKind}
    (h : operation r labels t = .ok k) : StandsFor r labels t.kind k := by
  obtain ⟨kind, lexeme, start⟩ := t
  cases kind with
  | call name args? =>
    simp only [operation] at h
    split at h
    · rename_i hknown
      obtain rfl := Except.ok.inj h
      exact .call hknown
    · cases h
  | templateRef param =>
    obtain rfl := Except.ok.inj h
    exact .templateRef
  | codeSize name args? =>
    obtain rfl := Except.ok.inj h
    exact .codeSize
  | tableSize table =>
    simp only [operation] at h
    split at h
    · obtain ⟨p, rfl, hp⟩ := exists_encode_of_pushOf h
      exact .tableSize hp
    · cases h
  | tableStart table =>
    obtain rfl := Except.ok.inj h
    exact .tableStart
  | label name =>
    simp only [operation] at h
    split at h
    · cases h
    · rename_i hnew
      obtain rfl := Except.ok.inj h
      exact .label hnew
  | decimal digits =>
    simp only [operation] at h
    split at h
    · obtain ⟨p, rfl, hp⟩ := exists_encode_of_pushOf h
      exact .decimal hp
    · cases h
  | hex digits =>
    simp only [operation] at h
    split at h
    · obtain ⟨p, rfl, hp⟩ := exists_encode_of_pushOf h
      exact .hex hp
    · cases h
  | word name =>
    simp only [operation] at h
    split at h
    · rename_i hbyte
      obtain rfl := Except.ok.inj h
      exact .opcode hbyte
    · rename_i hnone
      obtain rfl := Except.ok.inj h
      exact .jumpRef hnone

/-- A token with parts of the right form stands for such an operation. -/
theorem StandsFor.wellFormed {t : TokenKind} {k : OperationKind} (h : StandsFor r labels t k)
    (ht : t.WellFormed) : k.WellFormed := by
  cases h with
  | call _ => exact ⟨ht.1, Argument.separable_arguments ht.2⟩
  | codeSize => exact ⟨ht.1, Argument.separable_arguments ht.2⟩
  | templateRef => exact ht
  | tableStart => exact ht
  | label _ => exact ht
  | tableSize hp => exact ⟨_, hp⟩
  | decimal hp => exact ⟨_, hp⟩
  | hex hp => exact ⟨_, hp⟩
  | opcode hbyte => exact ⟨_, ht, hbyte⟩
  | jumpRef hnone => exact ⟨ht, hnone⟩

/-- An operation may stand where its token does. -/
theorem StandsFor.placeable {t : TokenKind} {k : OperationKind} (h : StandsFor r labels t k) :
    k.Placeable (r.macros.map Macro.name) labels := by
  cases h with
  | call hknown => exact List.mem_map.2 (Registry.hasMacro_iff.1 hknown)
  | label hnew => exact hnew
  | _ => trivial

/-- An operation defines the label that its token does. -/
theorem StandsFor.labelsAfter_eq {t : Token} {k : OperationKind}
    (h : StandsFor r labels t.kind k) : k.labelsAfter labels = labelsAfter labels t := by
  obtain ⟨kind, lexeme, start⟩ := t
  cases h <;> rfl

theorem readable_of_ofTokens {ts : List Token} {u : Option Unrecognized} {ops : List Operation}
    (hts : ∀ t ∈ ts, t.kind.WellFormed) (h : ofTokens r labels ts u = .ok ops) :
    Readable (r.macros.map Macro.name) labels (ops.map Operation.kind) := by
  fun_induction ofTokens r labels ts u generalizing ops with
  | case1 =>
    obtain rfl := Except.ok.inj h
    trivial
  | case2 => cases h
  | case3 => cases h
  | case4 => cases h
  | case5 labels t ts u kind hkind rest hrest ih =>
    obtain rfl := Except.ok.inj h
    have hstands := standsFor_of_operation hkind
    refine ⟨hstands.wellFormed (hts t (by simp)), hstands.placeable, ?_⟩
    rw [hstands.labelsAfter_eq]
    exact ih (fun t' ht' => hts t' (by simp [ht'])) hrest

/-- A body is read into one that can be read. -/
theorem readable_of_parse {window : Cursor} {ops : List Operation}
    (h : parse r window = .ok ops) :
    Readable (r.macros.map Macro.name) [] (ops.map Operation.kind) := by
  exact readable_of_ofTokens (fun _ => Token.wellFormed_of_mem_lex) h

end Body

/-! ### What can be read is read back -/

namespace Argument

variable {args : List String}

theorem argsBalanced_printList (h : Separable (args.map String.toList)) :
    Token.ArgsBalanced (printList args) := by
  intro t ht
  cases args with
  | nil => cases ht
  | cons a args =>
    obtain rfl := Option.some.inj ht
    rw [String.toList_ofList]
    exact balanced_join h.single

theorem arguments_printList (h : Separable (args.map String.toList)) :
    Body.arguments (printList args) = args := by
  cases args with
  | nil => rfl
  | cons a args =>
    show split (String.ofList (join ((a :: args).map String.toList))) = _
    rw [split, String.toList_ofList, splitText_join h, List.map_map]
    simp [Function.comp_def]

end Argument

namespace OperationKind

theorem WellFormed.token {k : OperationKind} (h : k.WellFormed) : k.token.WellFormed := by
  cases k with
  | opcode byte =>
    obtain ⟨name, hword, hname⟩ := h
    rw [OperationKind.token, Opcode.mnemonic?_of_ofMnemonic? hname]
    exact hword
  | push p =>
    obtain ⟨n, hn⟩ := h
    have hne : p.immediate ≠ [] := List.length_pos_iff.1 (Push.encodable_of_encode hn).1
    show (String.ofList (Numeral.hexOfBytes p.immediate)).toList ≠ [] ∧ _
    rw [String.toList_ofList]
    exact ⟨Numeral.hexOfBytes_ne_nil hne, fun _ => Numeral.isHexDigit_of_mem_hexOfBytes⟩
  | jumpRef label => exact h.1
  | call name args => exact ⟨h.1, Argument.argsBalanced_printList h.2⟩
  | codeSize name args => exact ⟨h.1, Argument.argsBalanced_printList h.2⟩
  | jumpDest name => exact h
  | templateRef name => exact h
  | tableStart name => exact h

end OperationKind

namespace Token

theorem brace_not_mem_ident {t : Text} (h : Text.isIdent t = true) : '}' ∉ t :=
  fun hmem => absurd ((Text.isIdent_iff.1 h).2 '}' hmem) (by decide)

theorem brace_not_mem_balanced {depth : Nat} {t : Text} (h : balanced depth t = true) :
    '}' ∉ t := by
  induction t generalizing depth with
  | nil => simp
  | cons c t ih =>
    obtain ⟨⟨-, hother⟩, htail⟩ := Argument.balanced_cons_iff.1 h
    intro hmem
    obtain rfl | hmem := List.mem_cons.1 hmem
    · simp at hother
    · exact ih htail hmem

theorem brace_not_mem_bracketed {args? : Option String} (h : ArgsBalanced args?) :
    '}' ∉ bracketed args? := by
  cases args? with
  | none => simp [bracketed]
  | some args => simpa [bracketed] using brace_not_mem_balanced (h args rfl)

/-- No token holds the brace that ends a body. -/
theorem brace_not_mem_render {k : TokenKind} (hk : k.WellFormed) : '}' ∉ k.render := by
  cases k with
  | call name args? =>
    show '}' ∉ name.toList ++ (bracketed args? ++ ['(', ')'])
    simp [brace_not_mem_ident hk.1, brace_not_mem_bracketed hk.2]
  | codeSize name args? =>
    show '}' ∉ "__codesize(".toList ++ (name.toList ++ (bracketed args? ++ [')']))
    simp [brace_not_mem_ident hk.1, brace_not_mem_bracketed hk.2]
  | templateRef name =>
    show '}' ∉ '<' :: (name.toList ++ ['>'])
    simp [brace_not_mem_ident hk]
  | tableSize name =>
    show '}' ∉ "__tablesize(".toList ++ (name.toList ++ [')'])
    simp [brace_not_mem_ident hk]
  | tableStart name =>
    show '}' ∉ "__tablestart(".toList ++ (name.toList ++ [')'])
    simp [brace_not_mem_ident hk]
  | label name =>
    show '}' ∉ name.toList ++ [':']
    simp [brace_not_mem_ident hk]
  | decimal digits => exact fun hmem => absurd (hk.2 '}' hmem) (by decide)
  | hex digits => exact brace_not_mem_ident (isIdent_hex hk.2)
  | word name =>
    have hword : Text.IsWord name.toList := hk
    exact brace_not_mem_ident hword.ident

end Token

namespace Body

variable {r : Registry} {labels : List String}

/-- The printed token of an operation stands for the operation. -/
theorem operation_token {k : OperationKind} (hk : k.WellFormed)
    (hplace : k.Placeable (r.macros.map Macro.name) labels) (lexeme : Text) (start : Nat) :
    operation r labels ⟨k.token, lexeme, start⟩ = .ok k := by
  cases k with
  | opcode byte =>
    obtain ⟨name, -, hname⟩ := hk
    simp only [operation, OperationKind.token, Opcode.mnemonic?_of_ofMnemonic? hname,
      Option.getD_some, hname]
  | push p =>
    obtain ⟨n, hn⟩ := hk
    simp only [operation, OperationKind.token, String.toList_ofList, Push.hex?_immediate hn, pushOf,
      hn]
  | jumpRef label => simp only [operation, OperationKind.token, hk.2]
  | call name args =>
    have hknown : r.hasMacro name = true := Registry.hasMacro_iff.2 (List.mem_map.1 hplace)
    simp only [operation, OperationKind.token, hknown, if_true, Argument.arguments_printList hk.2]
  | codeSize name args =>
    simp only [operation, OperationKind.token, Argument.arguments_printList hk.2]
  | jumpDest name => exact if_neg hplace
  | templateRef name => rfl
  | tableStart name => rfl

theorem labelsAfter_token (k : OperationKind) (lexeme : Text) (start : Nat) :
    labelsAfter labels ⟨k.token, lexeme, start⟩ = k.labelsAfter labels := by
  cases k <;> rfl

theorem ofTokens_cons {t : Token} {ts : List Token} {u : Option Unrecognized}
    {k : OperationKind} {ops : List Operation} (hk : operation r labels t = .ok k)
    (hops : ofTokens r (labelsAfter labels t) ts u = .ok ops) :
    ofTokens r labels (t :: ts) u = .ok (⟨k, t.start⟩ :: ops) := by
  simp only [ofTokens, hk, hops]

/-- The tokens of a body, with a space in front of each. -/
def spaced (kinds : List OperationKind) : List (Text × TokenKind) :=
  kinds.map fun k => ([' '], k.token)

theorem print_eq_spell (kinds : List OperationKind) :
    print kinds = Token.spell (spaced kinds) [' '] := by
  rw [print, Token.spell, spaced, List.flatMap_map]
  rfl

theorem spaced_spaced {known : List String} {kinds : List OperationKind}
    (h : Readable known labels kinds) : Token.Spaced (spaced kinds) := by
  induction kinds generalizing labels with
  | nil => trivial
  | cons k kinds ih =>
    obtain ⟨hk, -, htail⟩ := h
    refine ⟨List.forall_mem_singleton.2 rfl, hk.token, ?_, ih htail⟩
    cases kinds <;> simp

theorem exists_ofTokens_placed {kinds : List OperationKind}
    (h : Readable (r.macros.map Macro.name) labels kinds) (offset : Nat) :
    ∃ ops, ofTokens r labels (Token.placed offset (spaced kinds)) none = .ok ops ∧
      ops.map Operation.kind = kinds := by
  induction kinds generalizing labels offset with
  | nil => exact ⟨[], rfl, rfl⟩
  | cons k kinds ih =>
    obtain ⟨hk, hplace, htail⟩ := h
    let start := offset + Text.byteLength [' ']
    rw [← labelsAfter_token k k.print start] at htail
    obtain ⟨ops, hops, hkinds⟩ := ih htail (start + Text.byteLength k.print)
    refine ⟨⟨k, start⟩ :: ops, ?_, ?_⟩
    · exact ofTokens_cons (operation_token hk hplace k.print start) hops
    · rw [List.map_cons, hkinds]

/-- **A body that can be read is read back from its printed form.** -/
theorem exists_parse_print {kinds : List OperationKind}
    (h : Readable (r.macros.map Macro.name) [] kinds) (offset : Nat) :
    ∃ ops, parse r ⟨offset, print kinds⟩ = .ok ops ∧ ops.map Operation.kind = kinds := by
  have hblank : ∀ ch ∈ [' '], Text.isBlank ch = true := List.forall_mem_singleton.2 rfl
  obtain ⟨ops, hops, hkinds⟩ := exists_ofTokens_placed h offset
  refine ⟨ops, ?_, hkinds⟩
  rw [parse, print_eq_spell, Token.lex_spell (spaced_spaced h) hblank]
  exact hops

/-- A printed body does not hold the brace that ends it. -/
theorem brace_not_mem_print {known : List String} {kinds : List OperationKind}
    (h : Readable known labels kinds) : '}' ∉ print kinds := by
  rw [print, List.mem_append, not_or]
  refine ⟨?_, by decide⟩
  induction kinds generalizing labels with
  | nil => simp
  | cons k kinds ih =>
    obtain ⟨hk, -, htail⟩ := h
    rw [List.flatMap_cons, List.mem_append, List.mem_cons]
    rintro ((hspace | hprint) | hrest)
    · cases hspace
    · exact Token.brace_not_mem_render hk.token hprint
    · exact ih htail hrest

end Body

end MacroAssembler
