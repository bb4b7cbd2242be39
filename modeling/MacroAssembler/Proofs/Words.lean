/-
MacroAssembler/Proofs/Words.lean

Words in argument texts, and where they come from.

A part of a text is *set off* when no word character touches it from outside.
Words that are set off cannot arise: when a parameter is replaced by a value,
every word that is set off in the result was set off in the text before or in
the value (`setOff_replaceWord`).  The same goes for cutting a list of arguments
(`setOff_of_mem_splitText`) and for taking a call apart (`setOff_of_parse?`), so
whatever texts an expansion makes out of argument texts, no new word gets into
them.

This needs parameters that begin and end with a word character, as identifiers
do (`bordered_of_isIdent`).  A value then takes the place of something that was
set off, and cannot join the characters beside it to a longer word.
-/
import MacroAssembler.Proofs.Arguments
import MacroAssembler.Template.Substitution

namespace MacroAssembler

namespace Text

/-! ### Ends of texts -/

variable {a b t u w : Text}

theorem endsWord_append (before : Bool) (a b : Text) :
    endsWord before (a ++ b) = endsWord (endsWord before a) b := by
  rcases b.eq_nil_or_concat' with rfl | ⟨b, c, rfl⟩
  · simp [endsWord]
  · rw [← List.append_assoc]
    simp [endsWord]

@[simp] theorem endsWord_nil (before : Bool) : endsWord before [] = before := rfl

theorem endsWord_cons (before : Bool) (c : Char) (t : Text) :
    endsWord before (c :: t) = endsWord (isWordChar c) t :=
  endsWord_append before [c] t

@[simp] theorem startsWord_nil : startsWord [] = false := rfl

@[simp] theorem startsWord_cons (c : Char) (t : Text) : startsWord (c :: t) = isWordChar c := rfl

theorem startsWord_append (hb : startsWord b = false) (ha : startsWord a = false) :
    startsWord (a ++ b) = false := by
  cases a with
  | nil => exact hb
  | cons c a => exact ha

/-- A text without word characters does not end like a word. -/
theorem endsWord_of_forall (h : ∀ ch ∈ t, isWordChar ch = false) : endsWord false t = false := by
  rcases t.eq_nil_or_concat' with rfl | ⟨t, c, rfl⟩
  · rfl
  · simpa [endsWord] using h c (by simp)

theorem startsWord_of_forall (h : ∀ ch ∈ t, isWordChar ch = false) : startsWord t = false := by
  cases t with
  | nil => rfl
  | cons c t => exact h c List.mem_cons_self

/-! ### Characters outside words -/

theorem isWordChar_of_isIdentChar {c : Char} (h : isIdentChar c = true) : isWordChar c = true := by
  have hascii : c.toNat < 0x80 := by
    obtain ((⟨-, hle⟩ | ⟨-, hle⟩) | hdigit) | rfl := isIdentChar_iff.1 h
    · exact Nat.lt_of_le_of_lt (Char.le_def.1 hle) (by decide)
    · exact Nat.lt_of_le_of_lt (Char.le_def.1 hle) (by decide)
    · rw [Char.isDigit, Bool.and_eq_true, decide_eq_true_eq, decide_eq_true_eq] at hdigit
      exact Nat.lt_of_le_of_lt hdigit.2 (by decide)
    · decide
  rw [isWordChar, if_pos hascii, h]

/-- The code points of blanks. -/
def blankCodes : List Nat :=
  [0x09, 0x0a, 0x0b, 0x0c, 0x0d, 0x20, 0x85, 0xa0, 0x1680, 0x2000, 0x2001, 0x2002, 0x2003, 0x2004,
    0x2005, 0x2006, 0x2007, 0x2008, 0x2009, 0x200a, 0x2028, 0x2029, 0x202f, 0x205f, 0x3000]

theorem mem_blankCodes {c : Char} (h : isBlank c = true) : c.toNat ∈ blankCodes := by
  simp only [isBlank, Bool.or_eq_true, Bool.and_eq_true, decide_eq_true_eq, beq_iff_eq] at h
  simp only [blankCodes, List.mem_cons, List.not_mem_nil]
  omega

theorem isWordChar_of_isBlank {c : Char} (h : isBlank c = true) : isWordChar c = false := by
  have hall : blankCodes.all (fun n => !isWordChar (Char.ofNat n)) = true := by decide +kernel
  have hc := List.all_eq_true.1 hall _ (mem_blankCodes h)
  rwa [Char.ofNat_toNat, Bool.not_eq_true'] at hc

/-! ### Set off -/

/-- `a` stands in `t` with no word character beside it; `before` tells whether a
word character precedes `t`. -/
def SetOffFrom (before : Bool) (a t : Text) : Prop :=
  ∃ s u, t = s ++ a ++ u ∧ endsWord before s = false ∧ startsWord u = false

/-- `a` stands in `t` with no word character beside it. -/
def SetOff (a t : Text) : Prop := SetOffFrom false a t

theorem SetOff.isInfix (h : SetOff a t) : a <:+: t := by
  obtain ⟨s, u, rfl, -, -⟩ := h
  exact ⟨s, u, rfl⟩

theorem SetOff.refl (t : Text) : SetOff t t := ⟨[], [], by simp, rfl, rfl⟩

theorem SetOff.trans (h : SetOff a b) (h' : SetOff b t) : SetOff a t := by
  obtain ⟨s, u, rfl, hs, hu⟩ := h
  obtain ⟨s', u', rfl, hs', hu'⟩ := h'
  refine ⟨s' ++ s, u ++ u', by simp, ?_, startsWord_append hu' hu⟩
  rw [endsWord_append, hs', hs]

/-- Blanks do not touch what they surround. -/
theorem setOff_trim (t : Text) : SetOff (trim t) t := by
  obtain ⟨b, b', ht, hb, hb'⟩ := exists_trim t
  refine ⟨b, b', ht, ?_, ?_⟩
  · exact endsWord_of_forall fun ch hch => isWordChar_of_isBlank (hb ch hch)
  · exact startsWord_of_forall fun ch hch => isWordChar_of_isBlank (hb' ch hch)

/-! ### Replacing a word -/

/-- A text that begins and ends with a word character. -/
structure Bordered (p : Text) : Prop where
  starts : startsWord p = true
  ends : endsWord false p = true

theorem bordered_of_isIdent (h : isIdent t = true) : Bordered t := by
  obtain ⟨hne, hall⟩ := isIdent_iff.1 h
  constructor
  · cases t with
    | nil => exact absurd rfl hne
    | cons c t => exact isWordChar_of_isIdentChar (hall c List.mem_cons_self)
  · rcases t.eq_nil_or_concat' with rfl | ⟨t, c, rfl⟩
    · exact absurd rfl hne
    · simpa [endsWord] using isWordChar_of_isIdentChar (hall c (by simp))

variable {p v : Text}

theorem replaceFrom_skip (p v : Text) {k : Nat} (before : Bool) {t : Text} (hk : k ≤ t.length) :
    replaceFrom p v k before t =
      replaceFrom p v 0 (endsWord before (t.take k)) (t.drop k) := by
  induction k generalizing before t with
  | zero => simp
  | succ k ih =>
    cases t with
    | nil => simp at hk
    | cons c t =>
      rw [replaceFrom, ih _ (Nat.le_of_succ_le_succ hk), List.take_succ_cons, List.drop_succ_cons,
        endsWord_cons]

namespace Bordered

theorem replaceFrom_nil (hp : Bordered p) (v : Text) (before : Bool) :
    replaceFrom p v 0 before [] = [] := by
  have hne : p ≠ [] := fun hnil => by simpa [hnil] using hp.starts
  simp [replaceFrom, wordHere, hne]

/-- The parameter is replaced where no word character is beside it. -/
theorem replaceFrom_append (hp : Bordered p) (v : Text) {rest : Text}
    (hrest : startsWord rest = false) :
    replaceFrom p v 0 false (p ++ rest) = v ++ replaceFrom p v 0 true rest := by
  obtain ⟨hstarts, hends⟩ := hp
  cases p with
  | nil => cases hstarts
  | cons d p =>
    have hlast : endsWord (isWordChar d) p = true := by rwa [endsWord_cons] at hends
    have hhere : wordHere (d :: p) false (d :: (p ++ rest)) = true := by
      rw [startsWord_cons] at hstarts
      simp [wordHere, hstarts, hends, hrest]
    rw [List.cons_append, replaceFrom, if_pos hhere]
    show v ++ replaceFrom (d :: p) v p.length (isWordChar d) (p ++ rest) = _
    rw [replaceFrom_skip _ _ _ (by simp), List.take_left, List.drop_left, hlast]

/-- What happens at the front of a text: it is at its end, or the parameter is
replaced and nothing beside it is a word character, or a character stays. -/
theorem replaceFrom_cases (hp : Bordered p) (v : Text) (before : Bool) (t : Text) :
    (t = [] ∧ replaceFrom p v 0 before t = []) ∨
    (∃ rest, t = p ++ rest ∧ before = false ∧ startsWord rest = false ∧
      replaceFrom p v 0 before t = v ++ replaceFrom p v 0 true rest) ∨
    ∃ c rest, t = c :: rest ∧
      replaceFrom p v 0 before t = c :: replaceFrom p v 0 (isWordChar c) rest := by
  cases t with
  | nil => exact .inl ⟨rfl, hp.replaceFrom_nil v before⟩
  | cons c t =>
    by_cases hhere : wordHere p before (c :: t) = true
    · obtain ⟨⟨⟨rest, hrest⟩, hbefore⟩, hafter⟩ : (p <+: c :: t ∧ before ≠ startsWord (c :: t)) ∧
          endsWord before p ≠ startsWord ((c :: t).drop p.length) := by
        simpa only [wordHere, Bool.and_eq_true, bne_iff_ne,
          List.isPrefixOf_iff_prefix] using hhere
      rw [← hrest] at hbefore hafter ⊢
      rw [List.drop_left] at hafter
      have hstarts : startsWord (p ++ rest) = true := by
        cases p with
        | nil => cases hp.starts
        | cons d p => exact hp.starts
      obtain rfl : before = false := by simpa [hstarts] using hbefore
      have houtside : startsWord rest = false := by simpa [hp.ends] using hafter
      exact .inr (.inl ⟨rest, rfl, rfl, houtside, hp.replaceFrom_append v houtside⟩)
    · exact .inr (.inr ⟨c, t, rfl, by rw [replaceFrom, if_neg hhere]⟩)

/-- Inside a word nothing is replaced. -/
theorem replaceFrom_true_cases (hp : Bordered p) (v : Text) (t : Text) :
    (t = [] ∧ replaceFrom p v 0 true t = []) ∨
    ∃ c rest, t = c :: rest ∧
      replaceFrom p v 0 true t = c :: replaceFrom p v 0 (isWordChar c) rest := by
  obtain h | ⟨rest, -, hfalse, -⟩ | h := hp.replaceFrom_cases v true t
  · exact .inl h
  · cases hfalse
  · exact .inr h

theorem startsWord_replaceFrom (hp : Bordered p) (v : Text) (t : Text) :
    startsWord (replaceFrom p v 0 true t) = startsWord t := by
  obtain ⟨rfl, h⟩ | ⟨c, rest, rfl, h⟩ := hp.replaceFrom_true_cases v t
  · rw [h]
  · rw [h, startsWord_cons, startsWord_cons]

/-- A word that goes on at the front of the result goes on in the text. -/
theorem exists_of_replaceFrom (hp : Bordered p) (hw : ∀ ch ∈ w, isWordChar ch = true)
    (h : replaceFrom p v 0 true t = w ++ u) (hu : startsWord u = false) :
    ∃ u', t = w ++ u' ∧ startsWord u' = false := by
  induction w generalizing t with
  | nil =>
    refine ⟨t, rfl, ?_⟩
    rw [← hp.startsWord_replaceFrom v, h]
    exact hu
  | cons d w ih =>
    obtain ⟨rfl, hr⟩ | ⟨c, rest, rfl, hr⟩ := hp.replaceFrom_true_cases v t
    · rw [hr] at h
      cases h
    · rw [hr] at h
      obtain ⟨rfl, htail⟩ := List.cons.inj h
      rw [hw c List.mem_cons_self] at htail
      obtain ⟨u', rfl, hu'⟩ := ih (fun ch hch => hw ch (List.mem_cons_of_mem _ hch)) htail
      exact ⟨u', rfl, hu'⟩

end Bordered

/-- A word does not reach over a place where the text goes on without a word
character. -/
theorem setOff_of_append {r : Text} (hw : ∀ ch ∈ w, isWordChar ch = true) (hne : w ≠ [])
    (hr : startsWord r = false) (h : SetOff w (v ++ r)) : SetOff w v ∨ SetOffFrom true w r := by
  obtain ⟨s, u, heq, hs, hu⟩ := h
  rw [List.append_assoc] at heq
  obtain ⟨s', rfl, hr'⟩ | ⟨v', rfl, hv'⟩ := List.append_eq_append_iff.1 heq
  · -- the word lies behind `v`
    refine .inr ⟨s', u, by rw [hr', List.append_assoc], ?_, hu⟩
    cases s' with
    | nil =>
      cases w with
      | nil => exact absurd rfl hne
      | cons c w =>
        rw [hr'] at hr
        simp [hw] at hr
    | cons c s' =>
      rw [endsWord_append, endsWord_cons] at hs
      rwa [endsWord_cons]
  · obtain ⟨u', rfl, rfl⟩ | ⟨w', rfl, rfl⟩ := List.append_eq_append_iff.1 hv'
    · refine .inl ⟨s, u', by simp, hs, ?_⟩
      cases u' with
      | nil => rfl
      | cons c u' => exact hu
    · -- the word ends with `v`, for it does not go on behind `v`
      cases w' with
      | nil => exact .inl ⟨s, [], by simp, hs, rfl⟩
      | cons c w' => simp [hw] at hr

/-- Words that are set off after a replacement were set off before, or are set
off in the value. -/
theorem setOffFrom_replaceFrom (hp : Bordered p) (hw : ∀ ch ∈ w, isWordChar ch = true)
    (hne : w ≠ []) {before : Bool} (h : SetOffFrom before w (replaceFrom p v 0 before t)) :
    SetOffFrom before w t ∨ SetOff w v := by
  induction hlen : t.length using Nat.strongRecOn generalizing before t with
  | _ n ih =>
    obtain ⟨rfl, hr⟩ | ⟨rest, rfl, rfl, hrest, hr⟩ | ⟨c, rest, rfl, hr⟩ :=
      hp.replaceFrom_cases v before t
    · rw [hr] at h
      exact .inl h
    · -- the value stands between characters outside words
      rw [hr] at h
      have hstart : startsWord (replaceFrom p v 0 true rest) = false := by
        rw [hp.startsWord_replaceFrom, hrest]
      obtain h | h := setOff_of_append hw hne hstart h
      · exact .inr h
      · have hlt : rest.length < n := by
          have hpne : p ≠ [] := fun hnil => by simpa [hnil] using hp.starts
          have := List.length_pos_of_ne_nil hpne
          rw [List.length_append] at hlen
          omega
        obtain ⟨s, u, rfl, hs, hu⟩ | h := ih _ hlt h rfl
        · refine .inl ⟨p ++ s, u, by simp, ?_, hu⟩
          rw [endsWord_append, hp.ends, hs]
        · exact .inr h
    · rw [hr] at h
      obtain ⟨s, u, heq, hs, hu⟩ := h
      cases s with
      | nil =>
        -- the word begins here, and goes on as far as in the result
        cases w with
        | nil => exact absurd rfl hne
        | cons d w =>
          obtain ⟨rfl, htail⟩ := List.cons.inj heq
          rw [hw c List.mem_cons_self] at htail
          obtain ⟨u', rfl, hu'⟩ :=
            hp.exists_of_replaceFrom (fun ch hch => hw ch (List.mem_cons_of_mem _ hch)) htail hu
          exact .inl ⟨[], u', rfl, hs, hu'⟩
      | cons d s =>
        obtain ⟨rfl, htail⟩ := List.cons.inj heq
        rw [endsWord_cons] at hs
        have hlt : rest.length < n := by
          rw [← hlen]
          exact Nat.lt_succ_self _
        obtain ⟨s', u', rfl, hs', hu'⟩ | h := ih _ hlt ⟨s, u, htail, hs, hu⟩ rfl
        · refine .inl ⟨c :: s', u', rfl, ?_, hu'⟩
          rwa [endsWord_cons]
        · exact .inr h

end Text

namespace Template

open Text

variable {w : Text}

/-- No word arises from replacing parameters by values. -/
theorem setOff_substituteText (hw : ∀ ch ∈ w, isWordChar ch = true) (hne : w ≠ [])
    {bindings : List (Text × Text)} (hb : ∀ b ∈ bindings, Bordered b.1) {t : Text}
    (h : SetOff w (substituteText bindings t)) : SetOff w t ∨ ∃ b ∈ bindings, SetOff w b.2 := by
  induction bindings generalizing t with
  | nil => exact .inl h
  | cons b bindings ih =>
    obtain h | ⟨b', hb', h⟩ := ih (fun b' hb' => hb b' (List.mem_cons_of_mem _ hb')) h
    · obtain h | h := setOffFrom_replaceFrom (hb b List.mem_cons_self) hw hne h
      · exact .inl h
      · exact .inr ⟨b, List.mem_cons_self, h⟩
    · exact .inr ⟨b', List.mem_cons_of_mem _ hb', h⟩

theorem setOff_substitute (hw : ∀ ch ∈ w, isWordChar ch = true) (hne : w ≠ [])
    {params values : List String} (hp : ∀ p ∈ params, Bordered p.toList) {s : String}
    (h : SetOff w (substitute params values s).toList) :
    SetOff w s.toList ∨ ∃ v ∈ values, SetOff w v.toList := by
  rw [substitute, String.toList_ofList] at h
  have hb : ∀ b ∈ (params.zip values).map fun x => (x.1.toList, x.2.toList), Bordered b.1 := by
    intro b hb
    obtain ⟨⟨p, v⟩, hpv, rfl⟩ := List.mem_map.1 hb
    exact hp p (List.of_mem_zip hpv).1
  obtain h | ⟨b, hb, h⟩ := setOff_substituteText hw hne hb h
  · exact .inl h
  · obtain ⟨⟨p, v⟩, hpv, rfl⟩ := List.mem_map.1 hb
    exact .inr ⟨v, (List.of_mem_zip hpv).2, h⟩

end Template

namespace Argument

open Text

/-! ### Taking arguments apart -/

/-- The first piece stands at the front, and the others stand behind commas. -/
theorem pieces_setOff {depth : Nat} {t p : Text} {ps : List Text} (h : pieces depth t = p :: ps) :
    (∃ u, t = p ++ u ∧ startsWord u = false) ∧
      ∀ q ∈ ps, ∃ s u, t = s ++ ',' :: (q ++ u) ∧ startsWord u = false := by
  induction t generalizing depth p ps with
  | nil =>
    obtain ⟨rfl, rfl⟩ := List.cons.inj h
    exact ⟨⟨[], rfl, rfl⟩, fun q hq => absurd hq List.not_mem_nil⟩
  | cons c t ih =>
    rw [pieces] at h
    split at h
    · next hcut =>
      -- a comma ends the first piece, which is empty, and stands before the next one
      obtain ⟨rfl, rfl⟩ := List.cons.inj h
      obtain ⟨rfl, -⟩ := hcut
      refine ⟨⟨',' :: t, rfl, rfl⟩, fun q hq => ?_⟩
      rcases hps : pieces 0 t with - | ⟨p', ps'⟩
      · exact absurd hps (pieces_ne_nil 0 t)
      · obtain ⟨⟨u, hfirst, hu⟩, hothers⟩ := ih hps
        rw [hps] at hq
        obtain rfl | hq := List.mem_cons.1 hq
        · exact ⟨[], u, by rw [hfirst]; rfl, hu⟩
        · obtain ⟨s, u, rfl, hu⟩ := hothers q hq
          exact ⟨',' :: s, u, rfl, hu⟩
    · rcases hps : pieces (depthAfter depth c) t with - | ⟨p', ps'⟩
      · exact absurd hps (pieces_ne_nil _ t)
      · rw [hps] at h
        obtain ⟨rfl, rfl⟩ := List.cons.inj h
        obtain ⟨⟨u, rfl, hu⟩, hothers⟩ := ih hps
        refine ⟨⟨u, rfl, hu⟩, fun q hq => ?_⟩
        obtain ⟨s, u', heq, hu'⟩ := hothers q hq
        exact ⟨c :: s, u', by rw [heq]; rfl, hu'⟩

theorem setOff_of_mem_pieces {depth : Nat} {t p : Text} (h : p ∈ pieces depth t) : SetOff p t := by
  rcases hps : pieces depth t with - | ⟨p', ps⟩
  · exact absurd hps (pieces_ne_nil depth t)
  · obtain ⟨⟨u, hfirst, hu⟩, hothers⟩ := pieces_setOff hps
    rw [hps] at h
    obtain rfl | h := List.mem_cons.1 h
    · exact ⟨[], u, hfirst, rfl, hu⟩
    · obtain ⟨s, u, heq, hu⟩ := hothers p h
      refine ⟨s ++ [','], u, by simp [heq], ?_, hu⟩
      rw [endsWord_append]
      rfl

/-- An argument is set off in the list that it is cut from. -/
theorem setOff_of_mem_splitText {t a : Text} (h : a ∈ splitText t) : SetOff a t := by
  rw [splitText] at h
  split at h
  · cases h
  · obtain ⟨p, hp, rfl⟩ := List.mem_map.1 h
    exact (setOff_trim p).trans (setOff_of_mem_pieces hp)

/-- The name in a call is an identifier, and the name and the arguments are set
off in it. -/
theorem setOff_of_parse? {t : Text} {target : CallTarget} (h : CallTarget.parse? t = some target) :
    isIdent target.name = true ∧ SetOff target.name t ∧
      ∀ a ∈ target.arguments, SetOff a.toList t := by
  simp only [CallTarget.parse?] at h
  split at h
  · split at h
    · next hident =>
      obtain rfl := Option.some.inj h
      exact ⟨hident, setOff_trim t, fun a ha => absurd ha List.not_mem_nil⟩
    · cases h
  · next bracket inner hdrop =>
    split at h
    · next hcond =>
      obtain rfl := Option.some.inj h
      have hbracket : bracket = '<' := by
        have hhead := List.head?_dropWhile_not (· != '<') (trim t)
        rw [hdrop] at hhead
        simpa using hhead
      subst hbracket
      have hsplit : trim t = (trim t).takeWhile (· != '<') ++ '<' :: inner := by
        rw [← hdrop, List.takeWhile_append_dropWhile]
      obtain ⟨b, hb, hblank⟩ := exists_trimEnd ((trim t).takeWhile (· != '<'))
      obtain ⟨last, hlast⟩ := List.getLast?_eq_some_iff.1 hcond.1
      refine ⟨hcond.2, SetOff.trans ?_ (setOff_trim t), fun a ha => ?_⟩
      · refine ⟨[], b ++ '<' :: inner, ?_, rfl, startsWord_append rfl ?_⟩
        · rw [List.nil_append, ← List.append_assoc, ← hb, ← hsplit]
        · exact startsWord_of_forall fun ch hch => isWordChar_of_isBlank (hblank ch hch)
      · obtain ⟨a', ha', rfl⟩ := List.mem_map.1 ha
        rw [String.toList_ofList]
        refine ((setOff_of_mem_splitText ha').trans ?_).trans (setOff_trim t)
        refine ⟨(trim t).takeWhile (· != '<') ++ ['<'], ['>'], ?_, ?_, by decide⟩
        · rw [hlast, List.dropLast_concat]
          conv_lhs => rw [hsplit, hlast]
          simp
        · rw [endsWord_append]
          rfl
    · cases h

end Argument

end MacroAssembler
