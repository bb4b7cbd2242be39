/-
MacroAssembler/Proofs/WordReplacement.lean

Handing arguments on, word by word.

The search for a parameter goes through a text character by character and asks
for a word boundary on either side.  Another way to say what it finds: cut the
text into its words and what stands between them (`Text.runs`), and exchange the
words that are the parameter (`Text.mapWords`).  The two agree for every
parameter that is an identifier (`Text.replaceWord_eq_mapWords`).

Texts are taken apart from the left, one character between words or one whole
word at a time (`Text.word_induction`).  What is put in for a word stands between
characters that are no word characters, so it neither joins another word nor is
joined by one: two exchanges one after the other are a single one
(`Text.mapWords_mapWords`).  Parameters may therefore be replaced all at once, as
long as no value brings in a word that is still to be replaced.

Main result: `Template.substitute_eq_mapWords`.
-/
import Mathlib.Data.List.SplitBy
import MacroAssembler.Proofs.Words

namespace MacroAssembler

namespace Text

variable {a b t w rest : Text} {f g : Text → Text}

/-! ### Runs -/

/-- A text cut wherever a word begins or ends: its maximal runs of word
characters and the stretches between them. -/
def runs (t : Text) : List Text := t.splitBy fun a b => isWordChar a == isWordChar b

/-- The words of a text. -/
def wordRuns (t : Text) : List Text := (runs t).filter startsWord

/-- Exchange the words of a text and keep what stands between them. -/
def mapWords (f : Text → Text) (t : Text) : Text :=
  (runs t).flatMap fun run => if startsWord run then f run else run

theorem runs_append (h : ∀ x ∈ a.getLast?, ∀ y ∈ b.head?, isWordChar x ≠ isWordChar y) :
    runs (a ++ b) = runs a ++ runs b := by
  refine List.splitBy_append fun x hx y hy => ?_
  rw [beq_eq_false_iff_ne]
  exact h x hx y hy

/-- Characters of one class are not cut. -/
theorem runs_of_forall {inWord : Bool} (hne : t ≠ []) (h : ∀ ch ∈ t, isWordChar ch = inWord) :
    runs t = [t] := by
  refine List.splitBy_of_isChain hne (List.pairwise_of_forall_mem_list ?_).isChain
  intro x hx y hy
  rw [h x hx, h y hy, beq_self_eq_true]

/-- A text of one class is the first run of a longer text that goes on in the
other class. -/
theorem runs_cons {inWord : Bool} (hne : a ≠ []) (ha : ∀ ch ∈ a, isWordChar ch = inWord)
    (hb : ∀ ch ∈ b.head?, isWordChar ch = !inWord) : runs (a ++ b) = a :: runs b := by
  rw [runs_append, runs_of_forall hne ha, List.singleton_append]
  intro x hx y hy
  rw [ha x (List.mem_of_getLast? hx), hb y hy]
  cases inWord <;> decide

theorem startsWord_eq_false_iff : startsWord t = false ↔ ∀ ch ∈ t.head?, isWordChar ch = false := by
  cases t <;> simp

theorem startsWord_of_word (hne : w ≠ []) (hw : ∀ ch ∈ w, isWordChar ch = true) :
    startsWord w = true := by
  obtain ⟨c, w, rfl⟩ := List.exists_cons_of_ne_nil hne
  exact hw c List.mem_cons_self

@[simp] theorem mapWords_nil : mapWords f [] = [] := rfl

/-- A whole word is exchanged. -/
theorem mapWords_word_append (hne : w ≠ []) (hw : ∀ ch ∈ w, isWordChar ch = true)
    (hrest : startsWord rest = false) : mapWords f (w ++ rest) = f w ++ mapWords f rest := by
  rw [mapWords, runs_cons hne hw (startsWord_eq_false_iff.1 hrest), List.flatMap_cons,
    if_pos (startsWord_of_word hne hw), mapWords]

theorem mapWords_word (hne : w ≠ []) (hw : ∀ ch ∈ w, isWordChar ch = true) :
    mapWords f w = f w := by
  have h : mapWords f (w ++ []) = f w ++ mapWords f [] := mapWords_word_append hne hw rfl
  simpa using h

/-- A stretch between words stays. -/
theorem mapWords_gap_append (ha : ∀ ch ∈ a, isWordChar ch = false)
    (hb : ∀ ch ∈ b.head?, isWordChar ch = true) : mapWords f (a ++ b) = a ++ mapWords f b := by
  by_cases hne : a = []
  · rw [hne, List.nil_append, List.nil_append]
  · rw [mapWords, runs_cons hne ha hb, List.flatMap_cons,
      if_neg (by simp [startsWord_of_forall ha]), mapWords]

@[simp] theorem mapWords_gap {c : Char} (hc : isWordChar c = false) (t : Text) :
    mapWords f (c :: t) = c :: mapWords f t := by
  -- the character joins the stretch that the rest begins with, if it begins with one
  obtain ⟨a, b, rfl, ha, hb⟩ : ∃ a b, t = a ++ b ∧ (∀ ch ∈ a, isWordChar ch = false) ∧
      ∀ ch ∈ b.head?, isWordChar ch = true := by
    refine ⟨t.takeWhile fun ch => !isWordChar ch, t.dropWhile fun ch => !isWordChar ch,
      List.takeWhile_append_dropWhile.symm, ?_, ?_⟩
    · intro ch hch
      simpa using List.mem_takeWhile_imp hch
    · intro ch hch
      simpa using eq_false_of_head?_dropWhile hch
  rw [mapWords_gap_append ha hb, ← List.cons_append, mapWords_gap_append _ hb, List.cons_append]
  exact List.forall_mem_cons.2 ⟨hc, ha⟩

/-- Every text is built from the right by characters outside words and by whole
words. -/
theorem word_induction {P : Text → Prop} (nil : P [])
    (gap : ∀ c t, isWordChar c = false → P t → P (c :: t))
    (word : ∀ w rest, w ≠ [] → (∀ ch ∈ w, isWordChar ch = true) → startsWord rest = false →
      P rest → P (w ++ rest)) (t : Text) : P t := by
  induction hlen : t.length using Nat.strongRecOn generalizing t with
  | _ n ih =>
    cases t with
    | nil => exact nil
    | cons c t =>
      by_cases hc : isWordChar c = true
      · have hsplit : c :: t.takeWhile isWordChar ++ t.dropWhile isWordChar = c :: t := by
          rw [List.cons_append, List.takeWhile_append_dropWhile]
        have hlt : (t.dropWhile isWordChar).length < n := by
          have := (List.dropWhile_suffix isWordChar (l := t)).length_le
          rw [List.length_cons] at hlen
          omega
        rw [← hsplit]
        refine word _ _ (List.cons_ne_nil _ _) ?_ ?_ (ih _ hlt _ rfl)
        · exact List.forall_mem_cons.2 ⟨hc, fun ch hch => List.mem_takeWhile_imp hch⟩
        · exact startsWord_eq_false_iff.2 fun ch hch => eq_false_of_head?_dropWhile hch
      · refine gap c t (by simpa using hc) (ih t.length ?_ t rfl)
        rw [← hlen]
        exact Nat.lt_succ_self _

/-! ### Exchanges -/

theorem startsWord_mapWords (h : startsWord t = false) : startsWord (mapWords f t) = false := by
  cases t with
  | nil => rfl
  | cons c t =>
    rw [startsWord_cons] at h
    rw [mapWords_gap h, startsWord_cons, h]

/-- What is put in front of a text that does not begin with a word is exchanged
by itself. -/
theorem mapWords_append (hb : startsWord b = false) :
    mapWords f (a ++ b) = mapWords f a ++ mapWords f b := by
  induction a using word_induction with
  | nil => rfl
  | gap c t hc ih => rw [List.cons_append, mapWords_gap hc, mapWords_gap hc, ih, List.cons_append]
  | word w rest hne hw hrest ih =>
    rw [List.append_assoc, mapWords_word_append hne hw (startsWord_append hb hrest),
      mapWords_word_append hne hw hrest, ih, List.append_assoc]

/-- **Words neither merge nor split where they are put in**: a second exchange goes
through what the first has put in for each word. -/
theorem mapWords_mapWords (f g : Text → Text) (t : Text) :
    mapWords g (mapWords f t) = mapWords (fun w => mapWords g (f w)) t := by
  induction t using word_induction with
  | nil => rfl
  | gap c t hc ih => rw [mapWords_gap hc, mapWords_gap hc, mapWords_gap hc, ih]
  | word w rest hne hw hrest ih =>
    rw [mapWords_word_append hne hw hrest, mapWords_append (startsWord_mapWords hrest), ih,
      mapWords_word_append hne hw hrest]

theorem mapWords_id (t : Text) : mapWords id t = t := by
  induction t using word_induction with
  | nil => rfl
  | gap c t hc ih => rw [mapWords_gap hc, ih]
  | word w rest hne hw hrest ih => rw [mapWords_word_append hne hw hrest, ih, id]

theorem mapWords_congr (h : ∀ w ∈ wordRuns t, f w = g w) : mapWords f t = mapWords g t := by
  refine List.flatMap_congr fun run hrun => ?_
  by_cases hword : startsWord run = true
  · rw [if_pos hword, if_pos hword, h run (List.mem_filter.2 ⟨hrun, hword⟩)]
  · rw [if_neg hword, if_neg hword]

/-- Words that are not exchanged leave the text as it is. -/
theorem mapWords_eq_self (h : ∀ w ∈ wordRuns t, f w = w) : mapWords f t = t :=
  (mapWords_congr h).trans (mapWords_id t)

/-- The words of a text consist of word characters. -/
theorem isWord_of_mem_wordRuns (h : w ∈ wordRuns t) :
    w ≠ [] ∧ ∀ ch ∈ w, isWordChar ch = true := by
  obtain ⟨hrun, hstarts⟩ := List.mem_filter.1 h
  have hne : w ≠ [] := List.ne_nil_of_mem_splitBy hrun
  refine ⟨hne, ?_⟩
  -- neighbours in a run are of one class, and the first character is a word character
  have hchain := List.isChain_of_mem_splitBy hrun
  obtain ⟨c, w, rfl⟩ := List.exists_cons_of_ne_nil hne
  rw [startsWord_cons] at hstarts
  clear h hrun hne
  induction w generalizing c with
  | nil => simpa using hstarts
  | cons d w ih =>
    obtain ⟨hcd, hrest⟩ := List.isChain_cons_cons.1 hchain
    rw [beq_iff_eq, hstarts] at hcd
    exact List.forall_mem_cons.2 ⟨hstarts, ih d hcd.symm hrest⟩

/-! ### Searching for a word -/

namespace Bordered

variable {p : Text}

theorem replaceFrom_gap (hp : Bordered p) (v : Text) (before : Bool) {c : Char}
    (hc : isWordChar c = false) (t : Text) :
    replaceFrom p v 0 before (c :: t) = c :: replaceFrom p v 0 false t := by
  obtain ⟨hnil, -⟩ | ⟨rest, hrest, -⟩ | ⟨d, rest, hd, heq⟩ :=
    hp.replaceFrom_cases v before (c :: t)
  · cases hnil
  · -- a parameter begins with a word character
    have hstarts := hp.starts
    cases p with
    | nil => cases hstarts
    | cons d p =>
      obtain ⟨rfl, -⟩ := List.cons.inj hrest
      rw [startsWord_cons, hc] at hstarts
      cases hstarts
  · obtain ⟨rfl, rfl⟩ := List.cons.inj hd
    rw [heq, hc]

/-- Where no word begins, it does not matter what comes before. -/
theorem replaceFrom_congr (hp : Bordered p) (v : Text) (before : Bool)
    (ht : startsWord t = false) : replaceFrom p v 0 before t = replaceFrom p v 0 false t := by
  cases t with
  | nil => rw [hp.replaceFrom_nil, hp.replaceFrom_nil]
  | cons c t =>
    rw [startsWord_cons] at ht
    rw [hp.replaceFrom_gap v before ht, hp.replaceFrom_gap v false ht]

/-- A word that has begun stays to its end. -/
theorem replaceFrom_true_append (hp : Bordered p) (v : Text)
    (hw : ∀ ch ∈ w, isWordChar ch = true) :
    replaceFrom p v 0 true (w ++ rest) = w ++ replaceFrom p v 0 true rest := by
  induction w with
  | nil => rfl
  | cons c w ih =>
    obtain ⟨hnil, -⟩ | ⟨d, u, hd, heq⟩ := hp.replaceFrom_true_cases v (c :: (w ++ rest))
    · cases hnil
    · obtain ⟨rfl, rfl⟩ := List.cons.inj hd
      rw [List.cons_append, heq, hw c List.mem_cons_self,
        ih fun ch hch => hw ch (List.mem_cons_of_mem c hch), List.cons_append]

end Bordered

/-- A word is all of the word characters that a text begins with. -/
theorem takeWhile_word_append (hw : ∀ ch ∈ w, isWordChar ch = true)
    (hrest : startsWord rest = false) : (w ++ rest).takeWhile isWordChar = w := by
  have hstop : rest.takeWhile isWordChar = [] := by
    cases rest with
    | nil => rfl
    | cons c rest =>
      rw [startsWord_cons] at hrest
      exact List.takeWhile_cons_of_neg (by simp [hrest])
  rw [List.takeWhile_append_of_pos hw, hstop, List.append_nil]

/-- A word is replaced if it is the parameter, and stays as a whole if not. -/
theorem replaceFrom_word_append {p : Text} (hp : isIdent p = true) (v : Text) (hne : w ≠ [])
    (hw : ∀ ch ∈ w, isWordChar ch = true) (hrest : startsWord rest = false) :
    replaceFrom p v 0 false (w ++ rest) =
      (if w = p then v else w) ++ replaceFrom p v 0 false rest := by
  have hbordered := bordered_of_isIdent hp
  have hpw : ∀ ch ∈ p, isWordChar ch = true := fun ch hch =>
    isWordChar_of_isIdentChar ((isIdent_iff.1 hp).2 ch hch)
  rw [← hbordered.replaceFrom_congr v true hrest]
  by_cases heq : w = p
  · rw [if_pos heq, heq, hbordered.replaceFrom_append v hrest]
  · rw [if_neg heq]
    obtain ⟨hnil, -⟩ | ⟨rest', hp', -, hrest', -⟩ | ⟨c, u, hu, hstay⟩ :=
      hbordered.replaceFrom_cases v false (w ++ rest)
    · exact absurd (List.append_eq_nil_iff.1 hnil).1 hne
    · -- both would be the word that the text begins with
      have hfirst := takeWhile_word_append hw hrest
      rw [hp', takeWhile_word_append hpw hrest'] at hfirst
      exact absurd hfirst.symm heq
    · obtain ⟨d, w, rfl⟩ := List.exists_cons_of_ne_nil hne
      rw [List.cons_append] at hu hstay
      obtain ⟨rfl, rfl⟩ := List.cons.inj hu
      rw [List.cons_append, hstay, hw d List.mem_cons_self,
        hbordered.replaceFrom_true_append v fun ch hch => hw ch (List.mem_cons_of_mem d hch),
        List.cons_append]

/-- **Searching for a parameter is exchanging the words that are the parameter.** -/
theorem replaceWord_eq_mapWords {p : Text} (hp : isIdent p = true) (v t : Text) :
    replaceWord p v t = mapWords (fun w => if w = p then v else w) t := by
  rw [replaceWord]
  induction t using word_induction with
  | nil => exact (bordered_of_isIdent hp).replaceFrom_nil v false
  | gap c t hc ih =>
    rw [(bordered_of_isIdent hp).replaceFrom_gap v false hc, mapWords_gap hc, ih]
  | word w rest hne hw hrest ih =>
    rw [replaceFrom_word_append hp v hne hw hrest, mapWords_word_append hne hw hrest, ih]

end Text

namespace Template

open Text

/-! ### All parameters -/

/-- Exchange the words that are the parameter of a binding for its value. -/
def exchange (b : Text × Text) (t : Text) : Text := mapWords (fun w => if w = b.1 then b.2 else w) t

/-- Exchange every word that is a parameter for the value of the first such
parameter. -/
def exchangeAll (bindings : List (Text × Text)) (t : Text) : Text :=
  mapWords (fun w => (bindings.lookup w).getD w) t

/-- Parameters with their values, as texts. -/
def bindings (params values : List String) : List (Text × Text) :=
  (params.zip values).map fun b => (b.1.toList, b.2.toList)

theorem substituteText_eq_foldl {bs : List (Text × Text)} (hb : ∀ b ∈ bs, isIdent b.1 = true)
    (t : Text) : substituteText bs t = bs.foldl (fun t b => exchange b t) t := by
  induction bs generalizing t with
  | nil => rfl
  | cons b bs ih =>
    obtain ⟨hfirst, hothers⟩ := List.forall_mem_cons.1 hb
    rw [List.foldl_cons, exchange, ← replaceWord_eq_mapWords hfirst, ← ih hothers]
    rfl

/-- Words that are no parameters stay. -/
theorem exchangeAll_eq_self {bs : List (Text × Text)} {t : Text}
    (h : ∀ b ∈ bs, b.1 ∉ wordRuns t) : exchangeAll bs t = t := by
  refine mapWords_eq_self fun w hw => ?_
  have hnone : bs.lookup w = none := by
    refine List.lookup_eq_none_iff.2 fun b hb => ?_
    rw [bne_iff_ne]
    rintro rfl
    exact h b hb hw
  rw [hnone, Option.getD_none]

/-- One parameter after the other is all at once, if no value has a word that is a
later parameter. -/
theorem foldl_exchange_eq {bs : List (Text × Text)}
    (h : bs.Pairwise fun b b' => b'.1 ∉ wordRuns b.2) (t : Text) :
    bs.foldl (fun t b => exchange b t) t = exchangeAll bs t := by
  induction bs generalizing t with
  | nil => exact (mapWords_id t).symm
  | cons b bs ih =>
    obtain ⟨hfirst, hothers⟩ := List.pairwise_cons.1 h
    rw [List.foldl_cons, ih hothers, exchangeAll, exchange, mapWords_mapWords, exchangeAll]
    refine mapWords_congr fun w hw => ?_
    obtain ⟨hne, hword⟩ := isWord_of_mem_wordRuns hw
    by_cases heq : w = b.1
    · -- the value of the first parameter is not touched again
      rw [if_pos heq, List.lookup_cons, beq_iff_eq.2 heq]
      exact exchangeAll_eq_self hfirst
    · rw [if_neg heq, mapWords_word hne hword, List.lookup_cons, beq_eq_false_iff_ne.2 heq]

theorem bindings_pairwise {params values : List String}
    (h : ∀ (i j : Nat) (v p : String), i < j → values[i]? = some v → params[j]? = some p →
      p.toList ∉ wordRuns v.toList) :
    (bindings params values).Pairwise fun b b' => b'.1 ∉ wordRuns b.2 := by
  rw [bindings, List.pairwise_map, List.pairwise_iff_getElem]
  intro i j hi hj hlt
  have hvalue := (List.getElem?_zip_eq_some.1 (List.getElem?_eq_getElem hi)).2
  have hparam := (List.getElem?_zip_eq_some.1 (List.getElem?_eq_getElem hj)).1
  exact h i j _ _ hlt hvalue hparam

/-- **Handing arguments on is replacing words.**  Each parameter in turn is
exchanged wherever it stands as a word, and nothing else changes.  If no value has
a later parameter among its words, all parameters are exchanged at once, each word
of the text for the value of the first parameter that it is. -/
theorem substitute_eq_mapWords {params values : List String}
    (hp : ∀ p ∈ params, isIdent p.toList = true) (s : String) :
    (substitute params values s).toList =
        (bindings params values).foldl (fun t b => exchange b t) s.toList ∧
      ((∀ (i j : Nat) (v p : String), i < j → values[i]? = some v → params[j]? = some p →
          p.toList ∉ wordRuns v.toList) →
        (substitute params values s).toList = exchangeAll (bindings params values) s.toList) := by
  have hident : ∀ b ∈ bindings params values, isIdent b.1 = true := by
    intro b hb
    obtain ⟨⟨p, v⟩, hpv, rfl⟩ := List.mem_map.1 hb
    exact hp p (List.of_mem_zip hpv).1
  have hfold : (substitute params values s).toList =
      (bindings params values).foldl (fun t b => exchange b t) s.toList := by
    rw [substitute, String.toList_ofList, ← substituteText_eq_foldl hident]
    rfl
  refine ⟨hfold, fun h => ?_⟩
  rw [hfold, foldl_exchange_eq (bindings_pairwise h)]

/-- An empty value, a value that brings an earlier parameter back, and a letter
outside ASCII that makes another word of a parameter. -/
theorem substitute_eq_mapWords_brackets :
    (∀ p ∈ ["x", "y"], isIdent p.toList = true) ∧
      (substitute ["x", "y"] ["", "x<2>"] "x+y,éy").toList =
        exchangeAll (bindings ["x", "y"] ["", "x<2>"]) "x+y,éy".toList ∧
      exchangeAll (bindings ["x", "y"] ["", "x<2>"]) "x+y,éy".toList = "+x<2>,éy".toList := by
  have hident : ∀ p ∈ ["x", "y"], isIdent p.toList = true :=
    List.all_eq_true.1 (by decide +kernel)
  refine ⟨hident, (substitute_eq_mapWords hident "x+y,éy").2 ?_, by decide +kernel⟩
  intro i j v p hlt hv hp hmem
  -- the only value before another parameter is empty
  have hj : j < 2 := (List.getElem?_eq_some_iff.1 hp).1
  obtain rfl : i = 0 := by omega
  obtain rfl : "" = v := Option.some.inj hv
  cases hmem

end Template

end MacroAssembler
