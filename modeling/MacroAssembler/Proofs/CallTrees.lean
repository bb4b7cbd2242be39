/-
MacroAssembler/Proofs/CallTrees.lean

Nested calls as trees, printed and read back.

A template argument may be a call whose arguments are calls in turn.  `CallTree.read`
takes such a text apart: a call into its name and the texts of its arguments, and each
of these again.  `CallTree.print` puts it together.

A comma inside a call must not be taken for one of the list that the call stands in.  The
reader of lists counts open brackets; a printed call leaves none open, and shows its commas
only behind one (`CallTree.uncutFrom_print`).  So a list of printed trees is cut exactly
between them, at every level, and reading gives the tree back.

Main result: `CallTree.read_print`.
-/
import MacroAssembler.Proofs.CallShapes

namespace MacroAssembler.Argument

/-! ### Parts of a text are not longer -/

theorem length_trim_le (t : Text) : (Text.trim t).length ≤ t.length := by
  obtain ⟨b, b', ht, -, -⟩ := Text.exists_trim t
  have hlength := congrArg List.length ht
  simp only [List.length_append] at hlength
  omega

theorem length_le_of_mem_pieces {depth : Nat} {t p : Text} (h : p ∈ pieces depth t) :
    p.length ≤ t.length := by
  induction t generalizing depth p with
  | nil =>
    obtain rfl := List.mem_singleton.1 h
    exact Nat.le_refl _
  | cons c t ih =>
    rw [pieces] at h
    split at h
    · obtain rfl | h := List.mem_cons.1 h
      · exact Nat.zero_le _
      · exact Nat.le_succ_of_le (ih h)
    · obtain ⟨q, qs, hqs⟩ := List.exists_cons_of_ne_nil (pieces_ne_nil (depthAfter depth c) t)
      rw [hqs] at h
      obtain rfl | h := List.mem_cons.1 h
      · exact Nat.succ_le_succ (ih (hqs ▸ List.mem_cons_self))
      · exact Nat.le_succ_of_le (ih (hqs ▸ List.mem_cons_of_mem q h))

theorem length_le_of_mem_splitText {t a : Text} (h : a ∈ splitText t) : a.length ≤ t.length := by
  rw [splitText] at h
  split at h
  · cases h
  · obtain ⟨p, hp, rfl⟩ := List.mem_map.1 h
    exact Nat.le_trans (length_trim_le p) (length_le_of_mem_pieces hp)

/-- The brackets of a call are not part of its arguments. -/
theorem length_inner_lt {t name inner : Text}
    (h : CallTarget.parse? t = some ⟨name, some inner⟩) : inner.length < t.length := by
  simp only [CallTarget.parse?] at h
  split at h
  · split at h <;> simp at h
  · next rest hdrop =>
    split at h
    · obtain ⟨-, rfl⟩ : _ ∧ rest.dropLast = inner := by simpa using h
      have hle := (List.dropWhile_suffix (· != '<') (l := Text.trim t)).length_le
      have htrim := length_trim_le t
      rw [hdrop, List.length_cons] at hle
      rw [List.length_dropLast]
      omega
    · cases h

/-! ### Lists in brackets -/

theorem UncutFrom.mono {low high : Nat} (hle : low ≤ high) {t : Text} (h : UncutFrom low t) :
    UncutFrom high t :=
  fun depth hhigh => h depth (Nat.le_trans hle hhigh)

/-- Behind an open bracket a list is not cut at its commas. -/
theorem uncutFrom_join {args : List Text} (h : ∀ a ∈ args, UncutFrom 1 a) :
    UncutFrom 1 (join args) := by
  cases args with
  | nil => exact .of_forall (by simp [join])
  | cons a args =>
    induction args generalizing a with
    | nil =>
      have hjoin : join [a] = a := by simp [join]
      rw [hjoin]
      exact h a (by simp)
    | cons a' args ih =>
      have htail := ih a' fun x hx => h x (List.mem_cons_of_mem a hx)
      rw [join_cons_cons]
      refine (h a (by simp)).append ?_
      refine .cons (by decide) (by decide) (fun _ => Nat.one_pos) ?_
      exact .cons (by decide) (by decide) (fun hspace => absurd hspace (by decide)) htail

/-- Brackets keep what is between them from being cut. -/
theorem uncutFrom_bracket {s : Text} (h : UncutFrom 1 s) : UncutFrom 0 ('<' :: (s ++ ['>'])) := by
  intro depth _ u
  have hclose : pieces (depth + 1) ('>' :: u) = Text.consHead '>' (pieces depth u) := by
    simp [pieces, depthAfter]
  have hinner := h (depth + 1) (Nat.le_add_left 1 depth) ('>' :: u)
  calc pieces depth ('<' :: (s ++ ['>']) ++ u)
      = Text.consHead '<' (pieces (depth + 1) (s ++ '>' :: u)) := by
        simp [pieces, depthAfter]
    _ = ('<' :: (s ++ ['>'])).foldr Text.consHead (pieces depth u) := by
        rw [hinner, hclose]
        simp

/-! ### Trees -/

/-- A template argument, taken apart. -/
inductive CallTree where
  /-- A text that is no call with arguments. -/
  | leaf (text : Text)
  /-- A call with its arguments. -/
  | node (name : Text) (children : List CallTree)

namespace CallTree

/-- A tree as a template argument. -/
def print : CallTree → Text
  | leaf text => text
  | node name children => CallTarget.spelled name (join (children.map print))

/-- Take a template argument apart, and the arguments of a call in turn. -/
def read (t : Text) : CallTree :=
  match h : CallTarget.parse? t with
  | some ⟨name, some inner⟩ =>
    have := length_inner_lt h
    node name ((splitText inner).attach.map fun a => read a.1)
  | some ⟨name, none⟩ => leaf name
  | none => leaf t
termination_by t.length
decreasing_by exact Nat.lt_of_le_of_lt (length_le_of_mem_splitText a.2) this

/-- Trees whose printed form shows where their parts end. -/
inductive Printable : CallTree → Prop
  | leaf {text : Text} : text ≠ [] → Text.trim text = text →
      (∀ ch ∈ text, ch ≠ '<' ∧ ch ≠ '>' ∧ ch ≠ ',') → Printable (leaf text)
  | node {name : Text} {children : List CallTree} : Text.isIdent name = true → children ≠ [] →
      (∀ c ∈ children, Printable c) → Printable (node name children)

/-- A tree is a part of another, at any level. -/
inductive IsPart (s : CallTree) : CallTree → Prop
  | refl : IsPart s s
  | child {name : Text} {children : List CallTree} {c : CallTree} : c ∈ children → IsPart s c →
      IsPart s (node name children)

theorem Printable.of_isPart {s t : CallTree} (ht : Printable t) (h : IsPart s t) :
    Printable s := by
  induction h with
  | refl => exact ht
  | child hc _ ih =>
    cases ht with
    | node _ _ hchildren => exact ih (hchildren _ hc)

/-! ### Reading -/

theorem read_of_call {t name inner : Text} (h : CallTarget.parse? t = some ⟨name, some inner⟩) :
    read t = node name ((splitText inner).map read) := by
  rw [read]
  split <;> simp_all

/-- A text without brackets is read as it stands. -/
theorem read_of_not_mem {t : Text} (htrim : Text.trim t = t) (hopen : '<' ∉ t) :
    read t = leaf t := by
  have hdrop : t.dropWhile (· != '<') = [] := by
    rw [List.dropWhile_eq_nil_iff]
    intro ch hch
    refine bne_iff_ne.2 ?_
    rintro rfl
    exact hopen hch
  have hparse : CallTarget.parse? t = if Text.isIdent t then some ⟨t, none⟩ else none := by
    simp [CallTarget.parse?, htrim, hdrop]
  rw [read]
  split <;> simp_all

/-! ### Printed trees -/

/-- A printed tree is not cut, whatever list it stands in. -/
theorem uncutFrom_print {t : CallTree} (h : Printable t) : UncutFrom 0 t.print := by
  induction h with
  | leaf _ _ hplain =>
    rw [print]
    exact .of_forall hplain
  | @node name children hname _ _ ih =>
    have hargs : UncutFrom 1 (join (children.map print)) := by
      refine uncutFrom_join fun a ha => ?_
      obtain ⟨c, hc, rfl⟩ := List.mem_map.1 ha
      exact (ih c hc).mono (Nat.zero_le 1)
    have hident : UncutFrom 0 name := by
      refine .of_forall fun ch hch => ?_
      obtain ⟨hopen, hclose, hcomma, -⟩ :=
        neutral_of_isIdentChar ((Text.isIdent_iff.1 hname).2 ch hch)
      exact ⟨hopen, hclose, hcomma⟩
    rw [print, CallTarget.spelled]
    exact hident.append (uncutFrom_bracket hargs)

theorem trim_print {t : CallTree} (h : Printable t) : Text.trim t.print = t.print := by
  cases h with
  | leaf _ htrim _ =>
    rw [print]
    exact htrim
  | node hname _ _ =>
    rw [print]
    exact CallTarget.trim_spelled hname _

theorem print_ne_nil {t : CallTree} (h : Printable t) : t.print ≠ [] := by
  cases h with
  | leaf hne _ _ =>
    rw [print]
    exact hne
  | node _ _ _ => simp [print, CallTarget.spelled]

/-- Printed trees in a list are cut from each other, and nothing else is cut. -/
theorem splitText_join_print {children : List CallTree} (h : ∀ c ∈ children, Printable c) :
    splitText (join (children.map print)) = children.map print := by
  refine splitText_join_of_uncut ?_ ?_ ?_
  · intro a ha
    obtain ⟨c, hc, rfl⟩ := List.mem_map.1 ha
    exact trim_print (h c hc)
  · intro a ha
    obtain ⟨c, hc, rfl⟩ := List.mem_map.1 ha
    exact uncutFrom_print (h c hc)
  · intro hblank
    obtain ⟨c, rfl, hc⟩ := List.map_eq_singleton_iff.1 hblank
    exact print_ne_nil (h c List.mem_cons_self) hc

/-! ### Round trip -/

/-- A printed call is taken apart into its name and its printed arguments. -/
theorem parse?_print_node {name : Text} {children : List CallTree}
    (h : Printable (node name children)) :
    ∃ inner, CallTarget.parse? (node name children).print = some ⟨name, some inner⟩ ∧
      splitText inner = children.map print := by
  cases h with
  | node hname _ hchildren =>
    refine ⟨join (children.map print), ?_, splitText_join_print hchildren⟩
    rw [print]
    exact CallTarget.parse?_spelled hname _

theorem read_print_eq {t : CallTree} (h : Printable t) : read t.print = t := by
  induction h with
  | @leaf text _ htrim hplain =>
    rw [print]
    exact read_of_not_mem htrim fun hmem => (hplain '<' hmem).1 rfl
  | @node name children hname hne hchildren ih =>
    obtain ⟨inner, hparse, hsplit⟩ := parse?_print_node (.node hname hne hchildren)
    have hread : (children.map print).map read = children := by
      rw [List.map_map]
      exact (List.map_congr_left ih).trans (List.map_id children)
    rw [read_of_call hparse, hsplit, hread]

/-- **Nested calls are read back**: the tree is rebuilt, and at every call in it the texts
of the arguments are found as they were printed. -/
theorem read_print {t : CallTree} (h : Printable t) :
    read t.print = t ∧
      ∀ name children, IsPart (node name children) t →
        ∃ inner, CallTarget.parse? (node name children).print = some ⟨name, some inner⟩ ∧
          splitText inner = children.map print :=
  ⟨read_print_eq h, fun _ _ hpart => parse?_print_node (h.of_isPart hpart)⟩

/-- A call among the arguments of a call; one of its texts has blanks and a parenthesis. -/
def layered : CallTree :=
  node "A".toList [node "0x".toList [leaf "p (q".toList, leaf "B".toList], leaf "1+2".toList]

theorem read_print_layered :
    Printable layered ∧ read layered.print = layered ∧
      ∃ inner, CallTarget.parse? (node "0x".toList [leaf "p (q".toList, leaf "B".toList]).print =
          some ⟨"0x".toList, some inner⟩ ∧
        splitText inner = ["p (q".toList, "B".toList] := by
  have hleaf : ∀ text : Text, text ≠ [] → Text.trim text = text →
      text.all (fun ch => ch != '<' && ch != '>' && ch != ',') = true → Printable (leaf text) := by
    intro text hne htrim hplain
    refine .leaf hne htrim fun ch hch => ?_
    have hch := List.all_eq_true.1 hplain ch hch
    simpa [and_assoc] using hch
  have hinner : Printable (node "0x".toList [leaf "p (q".toList, leaf "B".toList]) := by
    refine .node rfl (List.cons_ne_nil _ _) (List.forall_mem_cons.2 ⟨?_, ?_⟩)
    · exact hleaf _ (by decide +kernel) (by decide +kernel) (by decide +kernel)
    · refine List.forall_mem_singleton.2 ?_
      exact hleaf _ (by decide +kernel) (by decide +kernel) (by decide +kernel)
  have hprintable : Printable layered := by
    refine .node rfl (List.cons_ne_nil _ _) (List.forall_mem_cons.2 ⟨hinner, ?_⟩)
    refine List.forall_mem_singleton.2 ?_
    exact hleaf _ (by decide +kernel) (by decide +kernel) (by decide +kernel)
  obtain ⟨hread, hparts⟩ := read_print hprintable
  obtain ⟨inner, hparse, hsplit⟩ := hparts _ _ (.child List.mem_cons_self .refl)
  refine ⟨hprintable, hread, inner, hparse, ?_⟩
  rw [hsplit, List.map_cons, List.map_singleton, print, print]

end CallTree

end MacroAssembler.Argument
