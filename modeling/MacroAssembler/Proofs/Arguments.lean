/-
MacroAssembler/Proofs/Arguments.lean

Lists of template arguments, taken apart and put together.

An argument list is cut at the commas outside all brackets, and its pieces are
trimmed.  The pieces of a list whose brackets are balanced are balanced in turn
and have no comma left to be cut at (`single`).  Joined with commas again, such
pieces give a balanced list that is cut into the same pieces: the reader of
argument lists inverts `join` (`splitText_join`).
-/
import Mathlib.Data.List.DropRight
import MacroAssembler.Proofs.Tokens

namespace MacroAssembler

namespace Text

/-! ### Trimming -/

variable {b t : Text}

theorem trimStart_append (hb : ∀ ch ∈ b, isBlank ch = true) : trimStart (b ++ t) = trimStart t :=
  List.dropWhile_append_of_pos hb

theorem exists_trimStart (t : Text) :
    ∃ b, t = b ++ trimStart t ∧ ∀ ch ∈ b, isBlank ch = true :=
  ⟨t.takeWhile isBlank, List.takeWhile_append_dropWhile.symm,
    List.all_eq_true.1 List.all_takeWhile⟩

theorem exists_trimEnd (t : Text) :
    ∃ b, t = trimEnd t ++ b ∧ ∀ ch ∈ b, isBlank ch = true :=
  ⟨t.rtakeWhile isBlank, List.rdropWhile_append_rtakeWhile.symm, fun _ => List.mem_rtakeWhile_imp⟩

/-- Trimming removes blanks at both ends. -/
theorem exists_trim (t : Text) :
    ∃ b b', t = b ++ trim t ++ b' ∧ (∀ ch ∈ b, isBlank ch = true) ∧
      ∀ ch ∈ b', isBlank ch = true := by
  obtain ⟨b, ht, hb⟩ := exists_trimStart t
  obtain ⟨b', hs, hb'⟩ := exists_trimEnd (trimStart t)
  refine ⟨b, b', ?_, hb, hb'⟩
  rw [List.append_assoc, trim, ← hs]
  exact ht

/-- What is left after trimming at the front and at the back has no blank at
its front. -/
theorem trimStart_trim (t : Text) : trimStart (trim t) = trim t := by
  obtain ⟨b, hs, -⟩ := exists_trimEnd (trimStart t)
  have hfirst := List.head?_dropWhile_not isBlank t
  cases htrim : trim t with
  | nil => rfl
  | cons ch rest =>
    have hstart : t.dropWhile isBlank = ch :: (rest ++ b) := by
      rw [← List.cons_append, ← htrim]
      exact hs
    rw [hstart, List.head?_cons] at hfirst
    exact List.dropWhile_cons_of_neg (by simp [hfirst])

theorem trim_trim (t : Text) : trim (trim t) = trim t := by
  rw [trim, trimStart_trim]
  exact List.rdropWhile_idempotent isBlank (trimStart t)

theorem trim_eq_nil_iff : trim t = [] ↔ ∀ ch ∈ t, isBlank ch = true := by
  constructor
  · intro h
    obtain ⟨b, b', ht, hb, hb'⟩ := exists_trim t
    rw [h, List.append_nil] at ht
    intro ch hch
    rw [ht] at hch
    exact (List.mem_append.1 hch).elim (hb ch) (hb' ch)
  · intro h
    have hstart : trimStart t = [] := by simpa [trimStart] using h
    rw [trim, hstart]
    rfl

/-- A text is trimmed if neither end is blank. -/
theorem trim_eq_self_iff :
    trim t = t ↔ (∀ ch ∈ t.head?, isBlank ch = false) ∧ ∀ ch ∈ t.getLast?, isBlank ch = false := by
  constructor
  · intro h
    have hstart : trimStart t = t := by
      rw [← h]
      exact trimStart_trim t
    have hend : t.rdropWhile isBlank = t := by
      rw [trim, hstart] at h
      exact h
    refine ⟨fun ch hch => ?_, fun ch hch => ?_⟩
    · rw [← hstart] at hch
      exact eq_false_of_head?_dropWhile hch
    · have hne : t ≠ [] := List.ne_nil_of_mem (List.mem_of_getLast? hch)
      rw [Option.mem_def, List.getLast?_eq_some_getLast hne, Option.some.injEq] at hch
      rw [← hch]
      simpa using List.rdropWhile_eq_self_iff.1 hend hne
  · rintro ⟨hfirst, hlast⟩
    have hstart : trimStart t = t := by
      cases t with
      | nil => rfl
      | cons ch t => exact List.dropWhile_cons_of_neg (by simp [hfirst ch rfl])
    rw [trim, hstart]
    refine List.rdropWhile_eq_self_iff.2 fun hne => ?_
    simp [hlast _ (List.getLast?_eq_some_getLast hne)]

/-- A text without blanks is trimmed. -/
theorem trim_of_forall (h : ∀ ch ∈ t, isBlank ch = false) : trim t = t :=
  trim_eq_self_iff.2
    ⟨fun ch hch => h ch (List.mem_of_head? hch), fun ch hch => h ch (List.mem_of_getLast? hch)⟩

end Text

namespace Argument

/-! ### Pieces -/

/-- Angle brackets close what they open, there are no parentheses and no braces,
and no comma stands outside all brackets; `depth` brackets are open in front of
the text. -/
def single : (depth : Nat) → Text → Bool
  | depth, [] => depth == 0
  | depth, c :: t =>
    if c = '<' then single (depth + 1) t
    else if c = '>' then
      match depth with
      | 0 => false
      | d + 1 => single d t
    else if c = '(' ∨ c = ')' ∨ c = '{' ∨ c = '}' then false
    else if c = ',' ∧ depth = 0 then false
    else single depth t

/-- A character may follow when `depth` brackets are open. -/
def Allowed (depth : Nat) (c : Char) : Prop :=
  (c = '>' → 0 < depth) ∧ ¬ (c = '(' ∨ c = ')' ∨ c = '{' ∨ c = '}')

theorem balanced_cons_iff {depth : Nat} {c : Char} {t : Text} :
    Token.balanced depth (c :: t) = true ↔
      Allowed depth c ∧ Token.balanced (depthAfter depth c) t = true := by
  by_cases hopen : c = '<'
  · simp [Token.balanced, Allowed, depthAfter, hopen]
  · by_cases hclose : c = '>'
    · cases depth <;> simp [Token.balanced, Allowed, depthAfter, hclose]
    · by_cases hother : c = '(' ∨ c = ')' ∨ c = '{' ∨ c = '}'
      · simp [Token.balanced, Allowed, hopen, hclose, hother]
      · simp [Token.balanced, Allowed, depthAfter, hopen, hclose, hother]

theorem single_cons_iff {depth : Nat} {c : Char} {t : Text} :
    single depth (c :: t) = true ↔
      Allowed depth c ∧ ¬ (c = ',' ∧ depth = 0) ∧ single (depthAfter depth c) t = true := by
  by_cases hopen : c = '<'
  · simp [single, Allowed, depthAfter, hopen]
  · by_cases hclose : c = '>'
    · cases depth <;> simp [single, Allowed, depthAfter, hclose]
    · by_cases hother : c = '(' ∨ c = ')' ∨ c = '{' ∨ c = '}'
      · simp [single, Allowed, hopen, hclose, hother]
      · by_cases hcut : c = ',' ∧ depth = 0
        · simp [single, hcut]
        · simp [single, Allowed, depthAfter, hopen, hclose, hother, hcut]

theorem pieces_ne_nil (depth : Nat) (t : Text) : pieces depth t ≠ [] := by
  fun_induction pieces depth t with
  | case1 => simp
  | case2 => simp
  | case3 depth c t h ih =>
    obtain ⟨p, ps, hps⟩ := List.exists_cons_of_ne_nil ih
    simp [hps, Text.consHead]

/-- Every piece of a balanced list stands on its own. -/
theorem single_of_pieces {depth : Nat} {t p : Text} {ps : List Text}
    (hbal : Token.balanced depth t = true) (h : pieces depth t = p :: ps) :
    single depth p = true ∧ ∀ q ∈ ps, single 0 q = true := by
  induction t generalizing depth p ps with
  | nil =>
    obtain ⟨rfl, rfl⟩ := List.cons.inj h
    exact ⟨by simpa [single, Token.balanced] using hbal, by simp⟩
  | cons c t ih =>
    rw [pieces] at h
    by_cases hcut : c = ',' ∧ depth = 0
    · rw [if_pos hcut] at h
      obtain ⟨rfl, rfl⟩ := hcut
      obtain ⟨rfl, rfl⟩ := List.cons.inj h
      obtain ⟨q, qs, hqs⟩ := List.exists_cons_of_ne_nil (pieces_ne_nil 0 t)
      obtain ⟨hq, hrest⟩ := ih (balanced_cons_iff.1 hbal).2 hqs
      refine ⟨rfl, ?_⟩
      rw [hqs]
      simpa using ⟨hq, hrest⟩
    · rw [if_neg hcut] at h
      obtain ⟨q, qs, hqs⟩ := List.exists_cons_of_ne_nil (pieces_ne_nil (depthAfter depth c) t)
      rw [hqs, Text.consHead] at h
      obtain ⟨rfl, rfl⟩ := List.cons.inj h
      obtain ⟨hallowed, htail⟩ := balanced_cons_iff.1 hbal
      obtain ⟨hq, hrest⟩ := ih htail hqs
      exact ⟨single_cons_iff.2 ⟨hallowed, hcut, hq⟩, hrest⟩

/-- A list that is not cut is its only piece. -/
theorem eq_of_pieces_eq_singleton {depth : Nat} {t p : Text} (h : pieces depth t = [p]) :
    p = t := by
  induction t generalizing depth p with
  | nil => exact (List.cons.inj h).1.symm
  | cons c t ih =>
    rw [pieces] at h
    split at h
    · exact absurd (List.cons.inj h).2 (pieces_ne_nil 0 t)
    · obtain ⟨q, qs, hqs⟩ := List.exists_cons_of_ne_nil (pieces_ne_nil (depthAfter depth c) t)
      rw [hqs, Text.consHead] at h
      obtain ⟨rfl, rfl⟩ := List.cons.inj h
      rw [ih hqs]

/-! ### Texts that are not cut -/

theorem foldr_consHead (t p : Text) (ps : List Text) :
    t.foldr Text.consHead (p :: ps) = (t ++ p) :: ps := by
  induction t with
  | nil => rfl
  | cons c t ih => rw [List.foldr_cons, ih, Text.consHead, List.cons_append]

/-- Behind `low` or more open brackets nothing of a text is cut off, and as many are open
behind it. -/
def UncutFrom (low : Nat) (t : Text) : Prop :=
  ∀ depth, low ≤ depth → ∀ u, pieces depth (t ++ u) = t.foldr Text.consHead (pieces depth u)

namespace UncutFrom

variable {low : Nat} {t : Text}

theorem append {s : Text} (hs : UncutFrom low s) (ht : UncutFrom low t) :
    UncutFrom low (s ++ t) := by
  intro depth hlow u
  rw [List.append_assoc, hs depth hlow, ht depth hlow, List.foldr_append]

theorem cons {c : Char} (hopen : c ≠ '<') (hclose : c ≠ '>') (hcomma : c = ',' → 0 < low)
    (ht : UncutFrom low t) : UncutFrom low (c :: t) := by
  intro depth hlow u
  have hcut : ¬ (c = ',' ∧ depth = 0) := by
    rintro ⟨hc, rfl⟩
    exact absurd (hcomma hc) (by omega)
  have hdepth : depthAfter depth c = depth := by simp [depthAfter, hopen, hclose]
  rw [List.cons_append, pieces, if_neg hcut, hdepth, ht depth hlow, List.foldr_cons]

/-- Without brackets and commas there is nothing to cut at. -/
theorem of_forall (h : ∀ ch ∈ t, ch ≠ '<' ∧ ch ≠ '>' ∧ ch ≠ ',') : UncutFrom low t := by
  induction t with
  | nil => exact fun _ _ _ => rfl
  | cons c t ih =>
    obtain ⟨⟨hopen, hclose, hcomma⟩, ht⟩ := List.forall_mem_cons.1 h
    exact cons hopen hclose (fun hc => absurd hc hcomma) (ih ht)

theorem pieces_eq (h : UncutFrom 0 t) : pieces 0 t = [t] := by
  have hpieces := h 0 (Nat.le_refl 0) []
  rwa [List.append_nil, pieces, foldr_consHead, List.append_nil] at hpieces

theorem pieces_append_comma (h : UncutFrom 0 t) (u : Text) :
    pieces 0 (t ++ ',' :: u) = t :: pieces 0 u := by
  have hcomma : pieces 0 (',' :: u) = [] :: pieces 0 u := by simp [pieces]
  rw [h 0 (Nat.le_refl 0), hcomma, foldr_consHead, List.append_nil]

end UncutFrom

/-- What is cut behind a text that closes `k` brackets. -/
theorem pieces_single_append {k : Nat} {t : Text} (h : single k t = true) (depth : Nat) (u : Text) :
    pieces (k + depth) (t ++ u) = t.foldr Text.consHead (pieces depth u) := by
  induction t generalizing k with
  | nil =>
    obtain rfl : k = 0 := by simpa [single] using h
    rw [Nat.zero_add]
    rfl
  | cons c t ih =>
    obtain ⟨hallowed, hcut, htail⟩ := single_cons_iff.1 h
    have hdepth : depthAfter (k + depth) c = depthAfter k c + depth := by
      have hclose := hallowed.1
      simp only [depthAfter]
      split
      · omega
      · split
        · next hc =>
          have := hclose hc
          omega
        · rfl
    have hstays : ¬ (c = ',' ∧ k + depth = 0) := by
      rintro ⟨hc, hzero⟩
      exact hcut ⟨hc, by omega⟩
    rw [List.cons_append, pieces, if_neg hstays, hdepth, ih htail, List.foldr_cons]

/-- A text that stands on its own is not cut. -/
theorem uncutFrom_of_single {t : Text} (h : single 0 t = true) : UncutFrom 0 t := by
  intro depth _ u
  have hpieces := pieces_single_append h depth u
  rwa [Nat.zero_add] at hpieces

theorem balanced_of_single {depth : Nat} {t : Text} (h : single depth t = true) :
    Token.balanced depth t = true := by
  induction t generalizing depth with
  | nil => exact h
  | cons c t ih =>
    obtain ⟨hallowed, -, htail⟩ := single_cons_iff.1 h
    exact balanced_cons_iff.2 ⟨hallowed, ih htail⟩

theorem balanced_append {depth : Nat} {t u : Text} (h : Token.balanced depth t = true)
    (hu : Token.balanced 0 u = true) : Token.balanced depth (t ++ u) = true := by
  induction t generalizing depth with
  | nil =>
    obtain rfl : depth = 0 := by simpa [Token.balanced] using h
    exact hu
  | cons c t ih =>
    obtain ⟨hallowed, htail⟩ := balanced_cons_iff.1 h
    exact balanced_cons_iff.2 ⟨hallowed, ih htail⟩

/-! ### Counting brackets -/

/-- Behind `depth` open brackets, no beginning of the text closes more brackets than are
open, and the whole text closes all of them. -/
structure Level (depth : Nat) (t : Text) : Prop where
  opened : ∀ s, s <+: t → s.count '>' ≤ depth + s.count '<'
  closed : t.count '>' = depth + t.count '<'

/-- The depth behind a character counts the brackets up to it. -/
theorem count_cons_of_allowed {depth : Nat} {c : Char} (h : c = '>' → 0 < depth) (s : Text) :
    depthAfter depth c + s.count '<' + (c :: s).count '>' =
      depth + (c :: s).count '<' + s.count '>' := by
  by_cases hlt : c = '<'
  · simp [depthAfter, hlt]
    omega
  · by_cases hgt : c = '>'
    · have := h hgt
      simp [depthAfter, hgt]
      omega
    · simp [depthAfter, hlt, hgt]

theorem Level.pos {depth : Nat} {c : Char} {t : Text} (h : Level depth (c :: t)) :
    c = '>' → 0 < depth := by
  rintro rfl
  have hfirst := h.opened ['>'] (List.cons_prefix_cons.2 ⟨rfl, List.nil_prefix⟩)
  simp at hfirst
  omega

theorem level_cons_iff {depth : Nat} {c : Char} {t : Text} (hc : c = '>' → 0 < depth) :
    Level depth (c :: t) ↔ Level (depthAfter depth c) t := by
  have hcount := count_cons_of_allowed hc
  constructor
  · rintro ⟨hopened, hclosed⟩
    refine ⟨fun s hs => ?_, ?_⟩
    · have hstep := hopened (c :: s) (List.cons_prefix_cons.2 ⟨rfl, hs⟩)
      have := hcount s
      omega
    · have := hcount t
      omega
  · rintro ⟨hopened, hclosed⟩
    refine ⟨fun s hs => ?_, ?_⟩
    · cases s with
      | nil => exact Nat.zero_le _
      | cons ch s =>
        obtain ⟨rfl, hst⟩ := List.cons_prefix_cons.1 hs
        have hstep := hopened s hst
        have := hcount s
        omega
    · have := hcount t
      omega

/-- **Balanced texts by counting**: brackets are level, and there are no parentheses and
braces. -/
theorem balanced_iff_level {depth : Nat} {t : Text} :
    Token.balanced depth t = true ↔
      Level depth t ∧ ∀ ch ∈ t, ¬ (ch = '(' ∨ ch = ')' ∨ ch = '{' ∨ ch = '}') := by
  induction t generalizing depth with
  | nil =>
    constructor
    · intro h
      obtain rfl : depth = 0 := by simpa [Token.balanced] using h
      refine ⟨⟨fun s hs => ?_, rfl⟩, by simp⟩
      rw [List.prefix_nil.1 hs]
      exact Nat.zero_le _
    · rintro ⟨⟨-, hclosed⟩, -⟩
      have hzero : 0 = depth := hclosed
      rw [← hzero]
      rfl
  | cons c t ih =>
    rw [balanced_cons_iff, ih, List.forall_mem_cons]
    constructor
    · rintro ⟨⟨hpos, hc⟩, hlevel, ht⟩
      exact ⟨(level_cons_iff hpos).2 hlevel, hc, ht⟩
    · rintro ⟨hlevel, hc, ht⟩
      exact ⟨⟨hlevel.pos, hc⟩, (level_cons_iff hlevel.pos).1 hlevel, ht⟩

/-! ### Blanks around a piece -/

/-- Characters that the cutting of a list takes no notice of. -/
def Neutral (c : Char) : Prop :=
  c ≠ '<' ∧ c ≠ '>' ∧ c ≠ ',' ∧ ¬ (c = '(' ∨ c = ')' ∨ c = '{' ∨ c = '}')

theorem single_cons_of_neutral {depth : Nat} {c : Char} {t : Text} (hc : Neutral c) :
    single depth (c :: t) = single depth t := by
  obtain ⟨hopen, hclose, hcomma, hother⟩ := hc
  simp [single, hopen, hclose, hcomma, hother]

theorem single_append_of_neutral {depth : Nat} {b t : Text} (hb : ∀ ch ∈ b, Neutral ch) :
    single depth (b ++ t) = single depth t := by
  induction b with
  | nil => rfl
  | cons c b ih =>
    rw [List.cons_append, single_cons_of_neutral (hb c (by simp))]
    exact ih fun ch hch => hb ch (by simp [hch])

theorem single_of_append_neutral {depth : Nat} {t b : Text} (hb : ∀ ch ∈ b, Neutral ch)
    (h : single depth (t ++ b) = true) : single depth t = true := by
  induction t generalizing depth with
  | nil =>
    rw [List.nil_append] at h
    rwa [← List.append_nil b, single_append_of_neutral hb] at h
  | cons c t ih =>
    obtain ⟨hallowed, hcut, htail⟩ := single_cons_iff.1 h
    exact single_cons_iff.2 ⟨hallowed, hcut, ih htail⟩

/-- The members of a class without brackets and commas are neutral. -/
theorem neutral_of_class {p : Char → Bool}
    (hp : ['<', '>', ',', '(', ')', '{', '}'].all (fun ch => !p ch) = true) {c : Char}
    (h : p c = true) : Neutral c := by
  have hne : ∀ ch ∈ ['<', '>', ',', '(', ')', '{', '}'], c ≠ ch := by
    rintro ch hch rfl
    have hnot := List.all_eq_true.1 hp c hch
    simp [h] at hnot
  simpa [Neutral] using hne

theorem neutral_of_isBlank {c : Char} (h : Text.isBlank c = true) : Neutral c :=
  neutral_of_class rfl h

theorem neutral_of_isIdentChar {c : Char} (h : Text.isIdentChar c = true) : Neutral c :=
  neutral_of_class rfl h

theorem single_trim {t : Text} (h : single 0 t = true) : single 0 (Text.trim t) = true := by
  obtain ⟨b, b', ht, hb, hb'⟩ := Text.exists_trim t
  rw [ht] at h
  have htail := single_of_append_neutral (fun ch hch => neutral_of_isBlank (hb' ch hch)) h
  rwa [single_append_of_neutral fun ch hch => neutral_of_isBlank (hb ch hch)] at htail

theorem uncutFrom_of_isBlank {b : Text} (hb : ∀ ch ∈ b, Text.isBlank ch = true) :
    UncutFrom 0 b := by
  refine .of_forall fun ch hch => ?_
  obtain ⟨hopen, hclose, hcomma, -⟩ := neutral_of_isBlank (hb ch hch)
  exact ⟨hopen, hclose, hcomma⟩

theorem trim_blank_append {b t : Text} (hb : ∀ ch ∈ b, Text.isBlank ch = true) :
    Text.trim (b ++ t) = Text.trim t := by
  rw [Text.trim, Text.trimStart_append hb, ← Text.trim]

/-! ### Joining -/

/-- Arguments in a list, a comma and a space between each two. -/
def join (args : List Text) : Text := [',', ' '].intercalate args

/-- Arguments that a list can be cut into. -/
structure Separable (args : List Text) : Prop where
  trimmed : ∀ a ∈ args, Text.trim a = a
  single : ∀ a ∈ args, single 0 a = true
  /-- A blank list has no arguments. -/
  ne_blank : args ≠ [[]]

/-- Balanced lists are cut into separable arguments. -/
theorem separable_splitText {t : Text} (h : Token.balanced 0 t = true) :
    Separable (splitText t) := by
  rw [splitText]
  split
  · exact ⟨by simp, by simp, by simp⟩
  · rename_i hblank
    refine ⟨?_, ?_, ?_⟩
    · intro a ha
      obtain ⟨p, -, rfl⟩ := List.mem_map.1 ha
      exact Text.trim_trim p
    · intro a ha
      obtain ⟨p, hp, rfl⟩ := List.mem_map.1 ha
      obtain ⟨q, qs, hqs⟩ := List.exists_cons_of_ne_nil (pieces_ne_nil 0 t)
      obtain ⟨hq, hrest⟩ := single_of_pieces h hqs
      rw [hqs] at hp
      obtain rfl | hp := List.mem_cons.1 hp
      · exact single_trim hq
      · exact single_trim (hrest p hp)
    · intro hargs
      obtain ⟨p, hp, htrim⟩ : ∃ p, pieces 0 t = [p] ∧ Text.trim p = [] := by
        simpa [List.map_eq_singleton_iff] using hargs
      rw [eq_of_pieces_eq_singleton hp] at htrim
      simp [htrim] at hblank

theorem join_cons_cons (a a' : Text) (args : List Text) :
    join (a :: a' :: args) = a ++ ',' :: ' ' :: join (a' :: args) := by
  simp [join, List.intercalate_cons_cons]

/-- A joined list is cut into its arguments, and blanks go. -/
theorem map_trim_pieces_join {a : Text} {args : List Text} {b : Text}
    (hb : ∀ ch ∈ b, Text.isBlank ch = true) (htrimmed : ∀ x ∈ a :: args, Text.trim x = x)
    (huncut : ∀ x ∈ a :: args, UncutFrom 0 x) :
    (pieces 0 (b ++ join (a :: args))).map Text.trim = a :: args := by
  induction args generalizing a b with
  | nil =>
    have hwhole := (uncutFrom_of_isBlank hb).append (huncut a (by simp))
    have hjoin : join [a] = a := by simp [join]
    rw [hjoin, hwhole.pieces_eq, List.map_singleton, trim_blank_append hb, htrimmed a (by simp)]
  | cons a' args ih =>
    have hwhole := (uncutFrom_of_isBlank hb).append (huncut a (by simp))
    have hspace : ∀ ch ∈ [' '], Text.isBlank ch = true := List.forall_mem_singleton.2 rfl
    have htail := ih (a := a') hspace (fun x hx => htrimmed x (List.mem_cons_of_mem a hx))
      (fun x hx => huncut x (List.mem_cons_of_mem a hx))
    rw [join_cons_cons, ← List.append_assoc, hwhole.pieces_append_comma, List.map_cons,
      trim_blank_append hb, htrimmed a (by simp)]
    exact congrArg (a :: ·) htail

/-- The reader of argument lists gives joined arguments back, whatever it does not cut. -/
theorem splitText_join_of_uncut {args : List Text} (htrimmed : ∀ x ∈ args, Text.trim x = x)
    (huncut : ∀ x ∈ args, UncutFrom 0 x) (hblank : args ≠ [[]]) : splitText (join args) = args := by
  cases args with
  | nil => rfl
  | cons a args =>
    have hpieces := map_trim_pieces_join (b := []) (by simp) htrimmed huncut
    have hne : Text.trim (join (a :: args)) ≠ [] := by
      cases args with
      | nil =>
        have hjoin : join [a] = a := by simp [join]
        rw [hjoin, htrimmed a (by simp)]
        rintro rfl
        exact hblank rfl
      | cons a' args =>
        -- a comma is not blank
        intro hnil
        have := Text.trim_eq_nil_iff.1 hnil ',' (by simp [join_cons_cons])
        exact absurd this (by decide)
    rw [splitText, if_neg (by simpa using hne)]
    exact hpieces

/-- The reader of argument lists gives joined arguments back. -/
theorem splitText_join {args : List Text} (h : Separable args) :
    splitText (join args) = args :=
  splitText_join_of_uncut h.trimmed (fun a ha => uncutFrom_of_single (h.single a ha)) h.ne_blank

/-- The characters of a joined list are those of its members, commas and spaces. -/
theorem forall_mem_join {P : Char → Prop} (hcomma : P ',') (hspace : P ' ') {args : List Text}
    (h : ∀ a ∈ args, ∀ ch ∈ a, P ch) : ∀ ch ∈ join args, P ch := by
  cases args with
  | nil => simp [join]
  | cons a args =>
    induction args generalizing a with
    | nil =>
      have hjoin : join [a] = a := by simp [join]
      rw [hjoin]
      exact h a (by simp)
    | cons a' args ih =>
      have htail := ih a' fun x hx => h x (by simp [hx])
      intro ch hch
      rw [join_cons_cons] at hch
      obtain hch | hch := List.mem_append.1 hch
      · exact h a (by simp) ch hch
      · obtain rfl | hch := List.mem_cons.1 hch
        · exact hcomma
        · obtain rfl | hch := List.mem_cons.1 hch
          · exact hspace
          · exact htail ch hch

theorem balanced_join {args : List Text} (h : ∀ a ∈ args, single 0 a = true) :
    Token.balanced 0 (join args) = true := by
  cases args with
  | nil => rfl
  | cons a args =>
    induction args generalizing a with
    | nil =>
      have hjoin : join [a] = a := by simp [join]
      rw [hjoin]
      exact balanced_of_single (h a (by simp))
    | cons a' args ih =>
      rw [join_cons_cons]
      refine balanced_append (balanced_of_single (h a (by simp))) ?_
      exact ih a' fun x hx => h x (by simp [hx])

end Argument

end MacroAssembler
