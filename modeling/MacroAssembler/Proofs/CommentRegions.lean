/-
MacroAssembler/Proofs/CommentRegions.lean

Where the comments of a text are, and what blanking them leaves.

`IsComment s rest` says that `s` is a whole comment in front of `rest`: a `//` comment up to
the end of its line, or a block comment up to the first closing mark behind its opening mark.
A text is read from the left, one character of code or one whole comment at a time
(`Cut t parts rest`), which can be done in one way only (`Cut.eq_append`).  Reading goes on to
the end or to a block comment that is never closed (`exists_cut`), and `blankFrom` follows it
(`blankFrom_cut`): code stays, a comment becomes blanks, and a comment that is not closed is an
error.

Main result: `strip_regions`, which says this of single bytes.
-/
import MacroAssembler.Proofs.TextBytes

namespace MacroAssembler.Comment

/-! ### Comments and code -/

/-- The mark that ends a block comment. -/
def closing : Text := ['*', '/']

/-- A comment begins at the front of the text. -/
def Opens (t : Text) : Prop := ['/', '/'] <+: t ∨ ['/', '*'] <+: t

/-- A whole comment, and what follows it. -/
inductive IsComment : (comment rest : Text) → Prop
  | line {body rest : Text} : '\n' ∉ body → (∀ ch ∈ rest.head?, ch = '\n') →
      IsComment ('/' :: '/' :: body) rest
  /-- No closing mark starts in the body, not even with its last character. -/
  | block {body rest : Text} : ¬ closing <:+: body ++ ['*'] →
      IsComment ('/' :: '*' :: (body ++ closing)) rest

/-- A part of a text. -/
inductive Part where
  | code (c : Char)
  | comment (s : Text)

/-- What is put in the place of a character of a comment. -/
def blankChar (c : Char) : Text := if c = '\n' then [c] else Text.spaces [c]

/-- What is put in the place of a comment. -/
def blank (s : Text) : Text := s.flatMap blankChar

/-- The characters of a part. -/
def Part.text : Part → Text
  | code c => [c]
  | comment s => s

/-- What blanking leaves of a part. -/
def Part.blanked : Part → Text
  | code c => [c]
  | comment s => blank s

/-- The text that is made up of parts. -/
def source (ps : List Part) : Text := ps.flatMap Part.text

/-- What blanking leaves of a text that is made up of parts. -/
def blanked (ps : List Part) : Text := ps.flatMap Part.blanked

/-- The text `t`, read from its front, begins with the given parts, and `rest` is left. -/
inductive Cut : (t : Text) → List Part → (rest : Text) → Prop
  | stop (t : Text) : Cut t [] t
  | code {c : Char} {t rest : Text} {ps : List Part} : ¬ Opens (c :: t) → Cut t ps rest →
      Cut (c :: t) (.code c :: ps) rest
  | comment {s t rest : Text} {ps : List Part} : IsComment s t → Cut t ps rest →
      Cut (s ++ t) (.comment s :: ps) rest

/-- A reader of `t` is outside all comments when it has read `before` and has `rest` left. -/
def Outside (t before rest : Text) : Prop := ∃ ps, Cut t ps rest ∧ source ps = before

/-- Outside all comments before it, a block comment opens behind `before` that has no closing
mark behind its opening mark. -/
def Unclosed (t before : Text) : Prop :=
  ∃ after, Outside t before ('/' :: '*' :: after) ∧ ¬ closing <:+: after

/-- The byte at an offset of `t` is part of a comment. -/
def Inside (t : Text) (i : Nat) : Prop :=
  ∃ before s rest, Outside t before (s ++ rest) ∧ IsComment s rest ∧
    Text.byteLength before ≤ i ∧ i < Text.byteLength before + Text.byteLength s

theorem opens_cons_iff {c : Char} {t : Text} :
    Opens (c :: t) ↔ c = '/' ∧ (t.head? = some '/' ∨ t.head? = some '*') := by
  cases t <;> simp [Opens, List.cons_prefix_cons, eq_comm, ← and_or_left]

theorem IsComment.opens {s t : Text} (h : IsComment s t) : Opens (s ++ t) := by
  cases h with
  | line => exact .inl (by simp [List.cons_prefix_cons])
  | block => exact .inr (by simp [List.cons_prefix_cons])

/-! ### Reading is determined -/

theorem closing_prefix_iff {c : Char} {t : Text} :
    closing <+: c :: t ↔ c = '*' ∧ t.head? = some '/' := by
  cases t <;> simp [closing, List.cons_prefix_cons, eq_comm]

/-- No closing mark starts between two places where the first one could be. -/
theorem eq_nil_of_closing {b m t t' : Text} (h : closing ++ t = m ++ (closing ++ t'))
    (hm : ¬ closing <:+: b ++ m ++ ['*']) : m = [] := by
  rcases m with - | ⟨x, - | ⟨y, m⟩⟩
  · rfl
  · simp [closing] at h
  · obtain ⟨rfl, rfl, -⟩ : '*' = x ∧ '/' = y ∧ t = m ++ (closing ++ t') := by
      simpa [closing] using h
    exact absurd ⟨b, m ++ ['*'], by simp [closing]⟩ hm

theorem body_unique {b b' t t' : Text} (h : b ++ (closing ++ t) = b' ++ (closing ++ t'))
    (hb : ¬ closing <:+: b ++ ['*']) (hb' : ¬ closing <:+: b' ++ ['*']) : b = b' := by
  obtain ⟨m, rfl, hm⟩ | ⟨m, rfl, hm⟩ := List.append_eq_append_iff.1 h
  · rw [eq_nil_of_closing hm hb', List.append_nil]
  · rw [eq_nil_of_closing hm hb, List.append_nil]

theorem takeWhile_line {body rest : Text} (hbody : '\n' ∉ body)
    (hrest : ∀ ch ∈ rest.head?, ch = '\n') : (body ++ rest).takeWhile (· != '\n') = body := by
  have htake : rest.takeWhile (· != '\n') = [] := by
    cases rest with
    | nil => rfl
    | cons ch rest => simp [hrest ch rfl]
  rw [List.takeWhile_append_of_pos, htake, List.append_nil]
  intro ch hch
  refine bne_iff_ne.2 ?_
  rintro rfl
  exact hbody hch

theorem IsComment.unique {s s' t t' : Text} (h : IsComment s t) (h' : IsComment s' t')
    (heq : s ++ t = s' ++ t') : s = s' := by
  cases h with
  | line hbody hrest =>
    cases h' with
    | line hbody' hrest' =>
      simp only [List.cons_append, List.cons.injEq, true_and] at heq
      rw [← takeWhile_line hbody hrest, heq, takeWhile_line hbody' hrest']
    | block => simp at heq
  | block hbody =>
    cases h' with
    | line => simp at heq
    | block hbody' =>
      simp only [List.cons_append, List.cons.injEq, true_and, List.append_assoc] at heq
      rw [body_unique heq hbody hbody']

namespace Cut

variable {t u rest : Text} {ps qs : List Part}

theorem source_append (h : Cut t ps rest) : t = source ps ++ rest := by
  induction h with
  | stop t => rfl
  | code _ _ ih => simpa [source, Part.text] using ih
  | comment _ _ ih => simpa [source, Part.text] using ih

/-- The first step of a reading. -/
theorem inversion (h : Cut t ps rest) :
    (ps = [] ∧ t = rest) ∨
      (∃ c t' ps', t = c :: t' ∧ ps = .code c :: ps' ∧ ¬ Opens (c :: t') ∧ Cut t' ps' rest) ∨
      ∃ s t' ps', t = s ++ t' ∧ ps = .comment s :: ps' ∧ IsComment s t' ∧ Cut t' ps' rest := by
  cases h with
  | stop t => exact .inl ⟨rfl, rfl⟩
  | code hc h => exact .inr (.inl ⟨_, _, _, rfl, rfl, hc, h⟩)
  | comment hs h => exact .inr (.inr ⟨_, _, _, rfl, rfl, hs, h⟩)

theorem of_code {c : Char} (hc : ¬ Opens (c :: t)) (h : Cut (c :: t) qs []) :
    ∃ qs', qs = .code c :: qs' ∧ Cut t qs' [] := by
  obtain ⟨-, hnil⟩ | ⟨c', t', qs', heq, rfl, -, h⟩ | ⟨s, t', qs', heq, -, hs, -⟩ := h.inversion
  · cases hnil
  · obtain ⟨rfl, rfl⟩ := List.cons.inj heq
    exact ⟨qs', rfl, h⟩
  · exact absurd (heq ▸ hs.opens) hc

theorem of_comment {s : Text} (hs : IsComment s t) (h : Cut (s ++ t) qs []) :
    ∃ qs', qs = .comment s :: qs' ∧ Cut t qs' [] := by
  obtain ⟨-, hnil⟩ | ⟨c, t', qs', heq, -, hc, -⟩ | ⟨s', t', qs', heq, rfl, hs', ht'⟩ := h.inversion
  · cases hs <;> cases hnil
  · exact absurd (heq ▸ hs.opens) hc
  · obtain rfl := hs.unique hs' heq
    rw [List.append_cancel_left heq]
    exact ⟨qs', rfl, ht'⟩

/-- Every reading of a text is the beginning of one that reads it all. -/
theorem eq_append (h : Cut t ps rest) (hall : Cut t qs []) :
    ∃ qs', qs = ps ++ qs' ∧ Cut rest qs' [] := by
  induction h generalizing qs with
  | stop t => exact ⟨qs, rfl, hall⟩
  | code hc _ ih =>
    obtain ⟨qs', rfl, hrest⟩ := of_code hc hall
    obtain ⟨qs'', rfl, hend⟩ := ih hrest
    exact ⟨qs'', rfl, hend⟩
  | comment hs _ ih =>
    obtain ⟨qs', rfl, hrest⟩ := of_comment hs hall
    obtain ⟨qs'', rfl, hend⟩ := ih hrest
    exact ⟨qs'', rfl, hend⟩

/-- A reading can be interrupted. -/
theorem split (h : Cut t (ps ++ qs) rest) : ∃ u, Cut t ps u ∧ Cut u qs rest := by
  induction ps generalizing t with
  | nil => exact ⟨t, .stop t, h⟩
  | cons p ps ih =>
    obtain ⟨hnil, -⟩ | ⟨c, t', ps', rfl, hps, hc, h⟩ | ⟨s, t', ps', rfl, hps, hs, h⟩ := h.inversion
    · cases hnil
    · obtain ⟨rfl, rfl⟩ := List.cons.inj hps
      obtain ⟨u, hu, hrest⟩ := ih h
      exact ⟨u, .code hc hu, hrest⟩
    · obtain ⟨rfl, rfl⟩ := List.cons.inj hps
      obtain ⟨u, hu, hrest⟩ := ih h
      exact ⟨u, .comment hs hu, hrest⟩

end Cut

/-! ### Reading goes on to the end, or to a comment that is not closed -/

theorem exists_first_closing {t : Text} (h : closing <:+: t) :
    ∃ body rest, t = body ++ closing ++ rest ∧ ¬ closing <:+: body ++ ['*'] := by
  induction t with
  | nil => simp [closing] at h
  | cons c t ih =>
    by_cases hhere : closing <+: c :: t
    · obtain ⟨rest, hrest⟩ := hhere
      exact ⟨[], rest, hrest.symm, fun hinfix => absurd hinfix.length_le (by decide)⟩
    · obtain ⟨body, rest, rfl, hbody⟩ := ih ((List.infix_cons_iff.1 h).resolve_left hhere)
      refine ⟨c :: body, rest, rfl, ?_⟩
      intro hinfix
      obtain hfront | hinfix := List.infix_cons_iff.1 hinfix
      · exact hhere (hfront.trans ⟨'/' :: rest, by simp [closing]⟩)
      · exact hbody hinfix

theorem exists_cut (t : Text) :
    ∃ ps rest, Cut t ps rest ∧
      (rest = [] ∨ ∃ after, rest = '/' :: '*' :: after ∧ ¬ closing <:+: after) := by
  induction hlen : t.length using Nat.strongRecOn generalizing t with
  | ind len ih =>
    subst hlen
    -- one more part in front of what can be read of the rest
    have hcomment : ∀ s u, t = s ++ u → IsComment s u → ∃ ps rest, Cut t ps rest ∧
        (rest = [] ∨ ∃ after, rest = '/' :: '*' :: after ∧ ¬ closing <:+: after) := by
      rintro s u rfl hs
      have hlt : u.length < (s ++ u).length := by
        rw [List.length_append]
        cases hs <;> simp
      obtain ⟨ps, rest, hcut, hrest⟩ := ih _ hlt u rfl
      exact ⟨_, rest, .comment hs hcut, hrest⟩
    by_cases hopens : Opens t
    · obtain ⟨u, rfl⟩ | ⟨u, rfl⟩ := hopens
      · refine hcomment ('/' :: '/' :: u.takeWhile (· != '\n')) (u.dropWhile (· != '\n')) ?_
          (.line ?_ ?_)
        · simp
        · intro hmem
          simpa using List.all_eq_true.1 List.all_takeWhile '\n' hmem
        · intro ch hch
          simpa using Text.eq_false_of_head?_dropWhile hch
      · by_cases hclosed : closing <:+: u
        · obtain ⟨body, rest, rfl, hbody⟩ := exists_first_closing hclosed
          exact hcomment ('/' :: '*' :: (body ++ closing)) rest (by simp) (.block hbody)
        · exact ⟨[], _, .stop _, .inr ⟨u, rfl, hclosed⟩⟩
    · cases t with
      | nil => exact ⟨[], [], .stop [], .inl rfl⟩
      | cons c t =>
        obtain ⟨ps, rest, hcut, hrest⟩ := ih t.length (by simp) t rfl
        exact ⟨_, rest, .code hopens hcut, hrest⟩

/-! ### Blanking follows the reading -/

theorem blankFrom_line_cons {c : Char} (hc : c ≠ '\n') (n : Nat) (t : Text) :
    blankFrom .line n (c :: t) = (Text.spaces [c] ++ ·) <$> blankFrom .line n t := by
  rw [blankFrom.eq_9 _ _ _ _ hc] <;> simp [bind_pure_comp]

theorem blankFrom_line {body : Text} (hbody : '\n' ∉ body) (n : Nat) (rest : Text) :
    blankFrom .line n (body ++ rest) = (blank body ++ ·) <$> blankFrom .line n rest := by
  induction body with
  | nil => simp [blank]
  | cons c body ih =>
    rw [List.mem_cons, not_or] at hbody
    obtain ⟨hc, hbody⟩ := hbody
    rw [List.cons_append, blankFrom_line_cons (Ne.symm hc), ih hbody]
    simp [blank, blankChar, Ne.symm hc]

/-- At the end of its line, a comment is over. -/
theorem blankFrom_line_end {rest : Text} (hrest : ∀ ch ∈ rest.head?, ch = '\n') (n : Nat) :
    blankFrom .line n rest = blankFrom .code n rest := by
  cases rest with
  | nil => rfl
  | cons ch rest =>
    obtain rfl := hrest ch rfl
    rfl

theorem blankFrom_block_cons {c : Char} {t : Text} (h : ¬ closing <+: c :: t) (opened n : Nat) :
    blankFrom (.block opened) n (c :: t) =
      (blankChar c ++ ·) <$> blankFrom (.block opened) (n + [c].count '\n') t := by
  by_cases hc : c = '\n'
  · subst hc
    rw [blankFrom.eq_6, bind_pure_comp]
    rfl
  · have hclose : ∀ u, c = '*' → t = '/' :: u → False := by
      rintro u rfl rfl
      exact h (closing_prefix_iff.2 ⟨rfl, rfl⟩)
    rw [blankFrom.eq_9 _ _ _ _ hc] <;> simp_all [bind_pure_comp, blankChar]

theorem blankFrom_block {body : Text} (hbody : ¬ closing <:+: body ++ ['*']) (opened n : Nat)
    (rest : Text) :
    blankFrom (.block opened) n (body ++ closing ++ rest) =
      (blank (body ++ closing) ++ ·) <$> blankFrom .code (n + body.count '\n') rest := by
  induction body generalizing n with
  | nil =>
    show blankFrom (.block opened) n ('*' :: '/' :: rest) = _
    rw [blankFrom.eq_5, bind_pure_comp]
    rfl
  | cons c body ih =>
    rw [List.cons_append, List.infix_cons_iff, not_or] at hbody
    have hhere : ¬ closing <+: c :: (body ++ closing ++ rest) := by
      rw [closing_prefix_iff] at hbody ⊢
      rintro ⟨rfl, hhead⟩
      refine hbody.1 ⟨rfl, ?_⟩
      cases body with
      | nil => exact absurd hhead (by simp [closing])
      | cons x body => exact hhead
    rw [List.cons_append, List.cons_append, blankFrom_block_cons hhere, ih hbody.2,
      Functor.map_map, Nat.add_assoc, ← List.count_append, List.singleton_append]
    simp [blank]

theorem blankFrom_unclosed {t : Text} (h : ¬ closing <:+: t) (opened n : Nat) :
    blankFrom (.block opened) n t = .error opened := by
  induction t generalizing n with
  | nil => rfl
  | cons c t ih =>
    rw [List.infix_cons_iff, not_or] at h
    rw [blankFrom_block_cons h.1, ih h.2]
    rfl

theorem blankFrom_code {c : Char} {t : Text} (h : ¬ Opens (c :: t)) (n : Nat) :
    blankFrom .code n (c :: t) = ([c] ++ ·) <$> blankFrom .code (n + [c].count '\n') t := by
  by_cases hc : c = '\n'
  · subst hc
    rw [blankFrom.eq_7 _ _ _ (by simp), bind_pure_comp]
    rfl
  · rw [opens_cons_iff] at h
    rw [blankFrom.eq_8, bind_pure_comp]
    · simp [hc]
    · rintro u rfl rfl
      exact h ⟨rfl, .inl rfl⟩
    · rintro u rfl rfl
      exact h ⟨rfl, .inr rfl⟩
    · exact hc

theorem blankFrom_comment {s t : Text} (h : IsComment s t) (n : Nat) :
    blankFrom .code n (s ++ t) = (blank s ++ ·) <$> blankFrom .code (n + s.count '\n') t := by
  cases h with
  | @line body _ hbody hrest =>
    have hcount : ('/' :: '/' :: body).count '\n' = 0 := by simp [List.count_eq_zero, hbody]
    rw [List.cons_append, List.cons_append, blankFrom.eq_3, bind_pure_comp,
      blankFrom_line hbody, blankFrom_line_end hrest, hcount, Functor.map_map]
    rfl
  | @block body _ hbody =>
    have hcount : ('/' :: '*' :: (body ++ closing)).count '\n' = body.count '\n' := by
      simp [closing]
    rw [List.cons_append, List.cons_append, blankFrom.eq_4, bind_pure_comp,
      blankFrom_block hbody, hcount, Functor.map_map]
    rfl

/-- Blanking goes through a text part by part. -/
theorem blankFrom_cut {t rest : Text} {ps : List Part} (h : Cut t ps rest) (n : Nat) :
    blankFrom .code n t =
      (blanked ps ++ ·) <$> blankFrom .code (n + (source ps).count '\n') rest := by
  induction h generalizing n with
  | stop t => simp [blanked, source]
  | code hc _ ih =>
    rw [blankFrom_code hc, ih, Functor.map_map, Nat.add_assoc, ← List.count_append]
    simp [blanked, source, Part.blanked, Part.text]
  | comment hs _ ih =>
    rw [blankFrom_comment hs, ih, Functor.map_map, Nat.add_assoc, ← List.count_append]
    simp [blanked, source, Part.blanked, Part.text]

theorem strip_of_cut {t : Text} {ps : List Part} (h : Cut t ps []) : strip t = .ok (blanked ps) := by
  rw [strip, blankFrom_cut h, blankFrom.eq_2 _ _ (by simp)]
  show Except.ok (blanked ps ++ []) = _
  rw [List.append_nil]

theorem strip_of_unclosed {t before : Text} (h : Unclosed t before) :
    strip t = .error (1 + before.count '\n') := by
  obtain ⟨after, ⟨ps, hcut, rfl⟩, hafter⟩ := h
  rw [strip, blankFrom_cut hcut, blankFrom.eq_4, blankFrom_unclosed hafter]
  rfl

/-- A text is read to its end, or has a comment that is not closed. -/
theorem exists_cut_or_unclosed (t : Text) : (∃ ps, Cut t ps []) ∨ ∃ before, Unclosed t before := by
  obtain ⟨ps, rest, hcut, rfl | ⟨after, rfl, hafter⟩⟩ := exists_cut t
  · exact .inl ⟨ps, hcut⟩
  · exact .inr ⟨source ps, after, ⟨ps, hcut, rfl⟩, hafter⟩

theorem strip_eq_error_iff {t : Text} {line : Nat} :
    strip t = .error line ↔ ∃ before, Unclosed t before ∧ line = 1 + before.count '\n' := by
  constructor
  · intro h
    obtain ⟨ps, hcut⟩ | ⟨before, hbefore⟩ := exists_cut_or_unclosed t
    · rw [strip_of_cut hcut] at h
      cases h
    · rw [strip_of_unclosed hbefore] at h
      exact ⟨before, hbefore, (Except.error.inj h).symm⟩
  · rintro ⟨before, hbefore, rfl⟩
    exact strip_of_unclosed hbefore

theorem strip_eq_ok_iff {t u : Text} : strip t = .ok u ↔ ∃ ps, Cut t ps [] ∧ u = blanked ps := by
  constructor
  · intro h
    obtain ⟨ps, hcut⟩ | ⟨before, hbefore⟩ := exists_cut_or_unclosed t
    · rw [strip_of_cut hcut] at h
      exact ⟨ps, hcut, (Except.ok.inj h).symm⟩
    · rw [strip_of_unclosed hbefore] at h
      cases h
  · rintro ⟨ps, hcut, rfl⟩
    exact strip_of_cut hcut

/-! ### Bytes -/

/-- The byte in the place of a byte of a comment. -/
def blankByte (b : UInt8) : UInt8 := if b = Text.newline then Text.newline else Text.space

theorem utf8_blankChar (c : Char) :
    Text.utf8 (blankChar c) = (String.utf8EncodeChar c).map blankByte := by
  by_cases hc : c = '\n'
  · subst hc
    rfl
  · have hbytes : (String.utf8EncodeChar c).map blankByte =
        List.replicate (Text.byteLength [c]) Text.space := by
      refine List.eq_replicate_iff.2 ⟨?_, ?_⟩
      · rw [List.length_map, String.length_utf8EncodeChar]
        rfl
      · intro b hb
        obtain ⟨byte, hbyte, rfl⟩ := List.mem_map.1 hb
        refine if_neg ?_
        rintro rfl
        exact Text.newline_notMem hc hbyte
    rw [blankChar, if_neg hc, Text.utf8_spaces, hbytes]

theorem utf8_blank (s : Text) : Text.utf8 (blank s) = (Text.utf8 s).map blankByte := by
  induction s with
  | nil => rfl
  | cons c s ih =>
    show Text.utf8 (blankChar c ++ blank s) = _
    rw [Text.utf8_append, utf8_blankChar, ih, Text.utf8_cons, List.map_append]

theorem Part.byteLength_blanked (p : Part) :
    Text.byteLength p.blanked = Text.byteLength p.text := by
  cases p with
  | code c => rfl
  | comment s =>
    show Text.byteLength (blank s) = Text.byteLength s
    rw [← Text.length_utf8, utf8_blank, List.length_map, Text.length_utf8]

theorem byteLength_blanked (ps : List Part) :
    Text.byteLength (blanked ps) = Text.byteLength (source ps) := by
  induction ps with
  | nil => rfl
  | cons p ps ih =>
    show Text.byteLength (p.blanked ++ blanked ps) = Text.byteLength (p.text ++ source ps)
    rw [Text.byteLength_append, Text.byteLength_append, p.byteLength_blanked, ih]

/-- A byte of a part, before and after blanking. -/
theorem getElem?_part {ps : List Part} {p : Part} (qs : List Part) {i : Nat}
    (hle : Text.byteLength (source ps) ≤ i)
    (hlt : i < Text.byteLength (source ps) + Text.byteLength p.text) :
    (Text.utf8 (source (ps ++ p :: qs)))[i]? =
        (Text.utf8 p.text)[i - Text.byteLength (source ps)]? ∧
      (Text.utf8 (blanked (ps ++ p :: qs)))[i]? =
        (Text.utf8 p.blanked)[i - Text.byteLength (source ps)]? := by
  have hsource : source (ps ++ p :: qs) = source ps ++ (p.text ++ source qs) := by simp [source]
  have hblanked : blanked (ps ++ p :: qs) = blanked ps ++ (p.blanked ++ blanked qs) := by
    simp [blanked]
  have hbefore : (Text.utf8 (blanked ps)).length = Text.byteLength (source ps) := by
    rw [Text.length_utf8, byteLength_blanked]
  rw [hsource, hblanked]
  simp only [Text.utf8_append]
  constructor
  · rw [List.getElem?_append_right (by simpa using hle), Text.length_utf8,
      List.getElem?_append_left (by rw [Text.length_utf8]; omega)]
  · rw [List.getElem?_append_right (by rw [hbefore]; exact hle), hbefore,
      List.getElem?_append_left (by rw [Text.length_utf8, p.byteLength_blanked]; omega)]

theorem exists_part {ps : List Part} {i : Nat} (h : i < Text.byteLength (source ps)) :
    ∃ ps₁ p ps₂, ps = ps₁ ++ p :: ps₂ ∧ Text.byteLength (source ps₁) ≤ i ∧
      i < Text.byteLength (source ps₁) + Text.byteLength p.text := by
  induction ps generalizing i with
  | nil => simp [source] at h
  | cons p ps ih =>
    by_cases hp : i < Text.byteLength p.text
    · exact ⟨[], p, ps, rfl, Nat.zero_le i, by simpa [source] using hp⟩
    · have hsource : ∀ qs, Text.byteLength (source (p :: qs)) =
          Text.byteLength p.text + Text.byteLength (source qs) := by simp [source]
      rw [hsource] at h
      obtain ⟨ps₁, q, ps₂, rfl, hle, hlt⟩ := ih (i := i - Text.byteLength p.text) (by omega)
      refine ⟨p :: ps₁, q, ps₂, rfl, ?_, ?_⟩
      · rw [hsource]
        omega
      · rw [hsource]
        omega

theorem Inside.lt {t : Text} {i : Nat} (h : Inside t i) : i < Text.byteLength t := by
  obtain ⟨before, s, rest, ⟨ps, hcut, rfl⟩, -, -, hlt⟩ := h
  rw [hcut.source_append, Text.byteLength_append, Text.byteLength_append]
  omega

/-- A byte of a comment becomes a blank, newlines excepted. -/
theorem getElem?_of_inside {t : Text} {ps : List Part} (h : Cut t ps []) {i : Nat}
    (hi : Inside t i) : (Text.utf8 (blanked ps))[i]? = (Text.utf8 t)[i]?.map blankByte := by
  obtain ⟨before, s, rest, ⟨qs, hqs, rfl⟩, hs, hle, hlt⟩ := hi
  obtain ⟨qs', rfl, hrest⟩ := hqs.eq_append h
  obtain ⟨qs'', rfl, -⟩ := hrest.of_comment hs
  obtain ⟨hbyte, hblank⟩ := getElem?_part (p := .comment s) qs'' hle hlt
  have ht := h.source_append
  rw [List.append_nil] at ht
  rw [hblank, ht, hbyte, Part.blanked, Part.text, utf8_blank, List.getElem?_map]

/-- A byte outside all comments stays. -/
theorem getElem?_of_not_inside {t : Text} {ps : List Part} (h : Cut t ps []) {i : Nat}
    (hi : ¬ Inside t i) : (Text.utf8 (blanked ps))[i]? = (Text.utf8 t)[i]? := by
  have ht := h.source_append
  rw [List.append_nil] at ht
  by_cases hlt : i < Text.byteLength (source ps)
  · obtain ⟨ps₁, p, ps₂, rfl, hle, hlt⟩ := exists_part hlt
    obtain ⟨hbyte, hblank⟩ := getElem?_part ps₂ hle hlt
    cases p with
    | code c => rw [hblank, ht, hbyte, Part.blanked, Part.text]
    | comment s =>
      obtain ⟨u, hu, hrest⟩ := h.split
      obtain ⟨hnil, -⟩ | ⟨c, t', qs, -, hqs, -⟩ | ⟨s', t', qs, rfl, hqs, hs, -⟩ := hrest.inversion
      · cases hnil
      · cases hqs
      · obtain ⟨⟨⟩, rfl⟩ := List.cons.inj hqs
        exact absurd ⟨source ps₁, s, t', ⟨ps₁, hu, rfl⟩, hs, hle, hlt⟩ hi
  · have hlen := Nat.not_lt.1 hlt
    rw [List.getElem?_eq_none (by rwa [Text.length_utf8, byteLength_blanked]),
      List.getElem?_eq_none (by rwa [Text.length_utf8, ht])]

/-! ### Blanking again -/

theorem cut_of_not_mem {s t : Text} (hs : '/' ∉ s) {ps : List Part} (h : Cut t ps []) :
    Cut (s ++ t) (s.map .code ++ ps) [] := by
  induction s with
  | nil => exact h
  | cons c s ih =>
    rw [List.mem_cons, not_or] at hs
    exact .code (fun hopens => hs.1 (opens_cons_iff.1 hopens).1.symm) (ih hs.2)

theorem slash_notMem_blank (s : Text) : '/' ∉ blank s := by
  intro hmem
  obtain ⟨c, -, hc⟩ := List.mem_flatMap.1 hmem
  rw [blankChar] at hc
  split at hc
  · rename_i hline
    rw [hline] at hc
    simp at hc
  · exact absurd (List.eq_of_mem_replicate hc) (by decide)

/-- What blanking leaves starts as the text does, or with a space. -/
theorem Cut.head?_blanked {t : Text} {ps : List Part} (h : Cut t ps []) :
    (blanked ps).head? = t.head? ∨ (blanked ps).head? = some ' ' := by
  cases h with
  | stop t => exact .inl rfl
  | code => exact .inl rfl
  | comment hs =>
    refine .inr ?_
    cases hs <;> rfl

/-- A blanked text has no comments: no two characters of code that stood apart come together. -/
theorem Cut.blanked_code {t : Text} {ps : List Part} (h : Cut t ps []) :
    Cut (blanked ps) ((blanked ps).map .code) [] := by
  generalize hrest : ([] : Text) = rest at h
  induction h with
  | stop t =>
    subst hrest
    exact .stop []
  | @code c t rest ps hc h ih =>
    subst hrest
    show Cut (c :: blanked ps) (.code c :: (blanked ps).map .code) []
    refine .code ?_ (ih rfl)
    rw [opens_cons_iff] at hc ⊢
    rintro ⟨rfl, hhead⟩
    obtain hsame | hspace := h.head?_blanked
    · exact hc ⟨rfl, by rwa [hsame] at hhead⟩
    · rw [hspace] at hhead
      simp at hhead
  | @comment s t rest ps hs h ih =>
    subst hrest
    show Cut (blank s ++ blanked ps) ((blank s ++ blanked ps).map .code) []
    rw [List.map_append]
    exact cut_of_not_mem (slash_notMem_blank s) (ih rfl)

theorem blanked_map_code (t : Text) : blanked (t.map .code) = t := by
  induction t with
  | nil => rfl
  | cons c t ih =>
    show c :: blanked (t.map .code) = _
    rw [ih]

/-- **Comments are blanked where they are.**  Blanking fails exactly if a block comment is not
closed, and names its line.  Otherwise every byte outside comments stays, every byte of a comment
becomes a space unless it is a newline, and blanking again changes nothing. -/
theorem strip_regions (t : Text) :
    (∀ line, strip t = .error line ↔
      ∃ before, Unclosed t before ∧ line = 1 + before.count '\n') ∧
    ∀ u, strip t = .ok u →
      Text.byteLength u = Text.byteLength t ∧
      (∀ i, ¬ Inside t i → u.utf8[i]? = t.utf8[i]?) ∧
      (∀ i, Inside t i → u.utf8[i]? =
        some (if t.utf8[i]? = some Text.newline then Text.newline else Text.space)) ∧
      strip u = .ok u := by
  refine ⟨fun _ => strip_eq_error_iff, ?_⟩
  intro u hu
  obtain ⟨ps, hcut, rfl⟩ := strip_eq_ok_iff.1 hu
  have ht := hcut.source_append
  rw [List.append_nil] at ht
  refine ⟨?_, fun _ => getElem?_of_not_inside hcut, ?_, ?_⟩
  · rw [byteLength_blanked, ← ht]
  · intro i hi
    obtain ⟨b, hb⟩ : ∃ b, t.utf8[i]? = some b :=
      ⟨_, List.getElem?_eq_getElem (by rw [Text.length_utf8]; exact hi.lt)⟩
    rw [getElem?_of_inside hcut hi, hb]
    simp [blankByte]
  · rw [strip_of_cut hcut.blanked_code, blanked_map_code]

/-- A block comment whose opening mark is followed by a slash, over two lines, with a character of
two bytes. -/
def nested : Text := "a/*/é\n*/b//c".toList

/-- The slash behind the opening mark closes nothing: the comment goes on to its second line, and
without that line it would have no end. -/
theorem strip_regions_nested :
    strip nested = .ok "a     \n  b   ".toList ∧
      Inside nested 5 ∧ (Text.utf8 "a     \n  b   ".toList)[5]? = some Text.space ∧
      strip "a     \n  b   ".toList = .ok "a     \n  b   ".toList ∧
      Unclosed ['\n', '/', '*', '/'] ['\n'] ∧ strip ['\n', '/', '*', '/'] = .error 2 := by
  have hstrip : strip nested = .ok "a     \n  b   ".toList := by rfl
  have hinside : Inside nested 5 := by
    refine ⟨['a'], "/*/é\n*/".toList, "b//c".toList, ⟨[.code 'a'], .code ?_ (.stop _), rfl⟩,
      .block (by decide : ¬ closing <:+: "/é\n".toList ++ ['*']), ?_, ?_⟩
    · rw [opens_cons_iff]
      decide
    · decide
    · decide
  have hunclosed : Unclosed ['\n', '/', '*', '/'] ['\n'] := by
    refine ⟨['/'], ⟨[.code '\n'], .code ?_ (.stop _), rfl⟩, ?_⟩
    · rw [opens_cons_iff]
      decide
    · decide
  obtain ⟨-, -, hblanked, hagain⟩ := (strip_regions nested).2 _ hstrip
  exact ⟨hstrip, hinside, hblanked 5 hinside, hagain, hunclosed,
    ((strip_regions _).1 2).2 ⟨_, hunclosed, rfl⟩⟩

end MacroAssembler.Comment
