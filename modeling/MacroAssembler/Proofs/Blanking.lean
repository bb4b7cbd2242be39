/-
MacroAssembler/Proofs/Blanking.lean

Blanked texts.

Comments and include directives are not removed from a text but blanked, so
that every other character keeps its byte offset and its line.  `Blanks s t`
says that `t` is `s` with some characters blanked: each of them gives way to one
space per byte, and none is a newline.  A character of `t` that is no space
stands in `s` too, behind a text of the same length with the same newlines
(`Blanks.split`).

Main result: `listed_of_flatten`.  Every file of a flattened listing is the
blanked form of what the library holds under its name.
-/
import MacroAssembler.Library
import MacroAssembler.Outcome
import MacroAssembler.Proofs.Reading

namespace MacroAssembler

open Outcome

/-- Some characters of a text are blanked, newlines excepted. -/
inductive Blanks : Text → Text → Prop
  | nil : Blanks [] []
  | keep (c : Char) {s t : Text} : Blanks s t → Blanks (c :: s) (c :: t)
  | blank {c : Char} {s t : Text} : c ≠ '\n' → Blanks s t → Blanks (c :: s) (Text.spaces [c] ++ t)

namespace Blanks

variable {s t u : Text}

theorem refl (t : Text) : Blanks t t := by
  induction t with
  | nil => exact nil
  | cons c t ih => exact ih.keep c

theorem append {s' t' : Text} (h : Blanks s t) (h' : Blanks s' t') : Blanks (s ++ s') (t ++ t') := by
  induction h with
  | nil => exact h'
  | keep c _ ih => exact ih.keep c
  | blank hc _ ih =>
    rw [List.append_assoc]
    exact ih.blank hc

/-- A text without newlines may be blanked as a whole. -/
theorem spaces (h : '\n' ∉ t) : Blanks t (Text.spaces t) := by
  induction t with
  | nil => exact nil
  | cons c t ih =>
    have hc : c ≠ '\n' := fun hc => h (by simp [hc])
    have hsplit : Text.spaces (c :: t) = Text.spaces [c] ++ Text.spaces t := by
      simp [Text.spaces, List.replicate_append_replicate]
    rw [hsplit]
    exact (ih fun ht => h (List.mem_cons_of_mem c ht)).blank hc

/-- Spaces stay as they are. -/
theorem of_spaces {n : Nat} (h : Blanks (List.replicate n ' ' ++ t) u) :
    ∃ u', u = List.replicate n ' ' ++ u' ∧ Blanks t u' := by
  induction n generalizing u with
  | zero => exact ⟨u, rfl, h⟩
  | succ n ih =>
    rw [List.replicate_succ, List.cons_append] at h
    cases h with
    | keep _ h =>
      obtain ⟨u', rfl, h'⟩ := ih h
      exact ⟨u', rfl, h'⟩
    | blank _ h =>
      -- a space has one byte, so blanking it changes nothing
      obtain ⟨u', rfl, h'⟩ := ih h
      exact ⟨u', rfl, h'⟩

theorem trans (h : Blanks s t) (h' : Blanks t u) : Blanks s u := by
  induction h generalizing u with
  | nil => exact h'
  | keep c _ ih =>
    cases h' with
    | keep _ h' => exact (ih h').keep c
    | blank hc h' => exact (ih h').blank hc
  | blank hc _ ih =>
    obtain ⟨u', rfl, ht⟩ := of_spaces h'
    exact (ih ht).blank hc

theorem byteLength_eq (h : Blanks s t) : Text.byteLength s = Text.byteLength t := by
  induction h with
  | nil => rfl
  | keep c _ ih => simp [ih]
  | @blank c s t _ _ ih =>
    have hspaces : ∀ n, Text.byteLength (List.replicate n ' ') = n := by
      intro n
      induction n with
      | zero => rfl
      | succ n ih =>
        rw [List.replicate_succ, Text.byteLength_cons, ih]
        exact Nat.add_comm 1 n
    simp [Text.spaces, hspaces, ih]

theorem count_newline_eq (h : Blanks s t) : s.count '\n' = t.count '\n' := by
  induction h with
  | nil => rfl
  | keep c _ ih => simp [List.count_cons, ih]
  | blank hc _ ih => simp [hc, Text.spaces, List.count_replicate, ih]

/-- A character that is no space was not blanked. -/
theorem split {a b : Text} {c : Char} (h : Blanks s (a ++ c :: b)) (hc : c ≠ ' ') :
    ∃ a' b', s = a' ++ c :: b' ∧ Blanks a' a := by
  generalize ht : a ++ c :: b = t at h
  induction h generalizing a with
  | nil => simp at ht
  | @keep x s t h ih =>
    cases a with
    | nil =>
      obtain ⟨rfl, -⟩ := List.cons.inj ht
      exact ⟨[], s, rfl, nil⟩
    | cons y a =>
      obtain ⟨rfl, htail⟩ := List.cons.inj ht
      obtain ⟨a', b', rfl, ha⟩ := ih htail
      exact ⟨y :: a', b', rfl, ha.keep y⟩
  | @blank x s t hx h ih =>
    -- the spaces for `x` stand in front of `c`
    obtain ⟨a₁, rfl⟩ : Text.spaces [x] <+: a := by
      obtain ⟨a₁, ha, -⟩ | ⟨t₁, ha, hcons⟩ := List.append_eq_append_iff.1 ht.symm
      · exact ⟨a₁, ha.symm⟩
      · cases t₁ with
        | nil => exact ⟨[], by simpa using ha⟩
        | cons y t₁ =>
          obtain ⟨rfl, -⟩ := List.cons.inj hcons
          have : c ∈ Text.spaces [x] := by simp [ha]
          exact absurd (List.eq_of_mem_replicate this) hc
    rw [List.append_assoc] at ht
    obtain ⟨a', b', rfl, ha⟩ := ih (List.append_cancel_left ht)
    exact ⟨x :: a', b', rfl, ha.blank hx⟩

end Blanks

/-! ### Comments -/

namespace Comment

theorem blanks_of_blankFrom {mode : Mode} {line : Nat} {t u : Text}
    (h : blankFrom mode line t = .ok u) : Blanks t u := by
  fun_induction blankFrom mode line t generalizing u with
  | case1 => cases h
  | case2 =>
    obtain rfl := Except.ok.inj h
    exact .nil
  | case3 n t ih | case4 n t ih | case5 _ n t ih =>
    -- a mark of two characters
    simp only [bind_eq_ok, pure_eq_ok] at h
    obtain ⟨v, hv, rfl⟩ := h
    exact ((ih hv).blank (by decide)).blank (by decide)
  | case6 _ n t ih | case7 _ n t _ ih | case8 n c t _ _ _ ih =>
    simp only [bind_eq_ok, pure_eq_ok] at h
    obtain ⟨v, hv, rfl⟩ := h
    exact (ih hv).keep _
  | case9 mode n c t _ _ _ _ hline _ ih =>
    simp only [bind_eq_ok, pure_eq_ok] at h
    obtain ⟨v, hv, rfl⟩ := h
    exact (ih hv).blank hline

/-- Blanking comments blanks nothing but characters. -/
theorem blanks_of_strip {t u : Text} (h : strip t = .ok u) : Blanks t u :=
  blanks_of_blankFrom h

end Comment

/-! ### Include directives -/

namespace Include

/-- A directive: the keyword, blanks on the same line, and the name of a file in quotes. -/
def IsDirective (path directive : Text) : Prop :=
  ∃ gap, directive = "#include".toList ++ gap ++ ['"'] ++ path ++ ['"'] ∧
    (∀ ch ∈ gap, ch = ' ' ∨ ch = '\t') ∧ ∀ ch ∈ path, ch ≠ '"' ∧ ch ≠ '\n'

theorem IsDirective.newline_notMem {path directive : Text} (h : IsDirective path directive) :
    '\n' ∉ directive := by
  obtain ⟨gap, rfl, hgap, hpath⟩ := h
  intro hmem
  simp only [List.mem_append, List.mem_singleton] at hmem
  obtain (((hmem | hmem) | hmem) | hmem) | hmem := hmem
  · revert hmem
    decide
  · simpa using hgap _ hmem
  · cases hmem
  · exact (hpath _ hmem).2 rfl
  · cases hmem

/-- A directive is read behind any blanks. -/
theorem read?_eq_some_iff {c d : Cursor} {i : Include} :
    read? c = some (i, d) ↔ c.Reads (i.blanks ++ i.directive) d ∧
      (∀ ch ∈ i.blanks, Text.isBlank ch = true) ∧ IsDirective i.path.toList i.directive := by
  constructor
  · intro h
    simp only [read?, Option.bind_eq_bind, Option.bind_eq_some_iff] at h
    obtain ⟨c₁, h₁, c₂, h₂, c₃, h₃, h₄⟩ := h
    obtain ⟨rfl, rfl⟩ := Prod.mk.inj (Option.some.inj h₄)
    obtain ⟨blanks, hblanks, hall⟩ := Cursor.exists_reads_skipBlank c
    have hkeyword := Cursor.eatText?_eq_some_iff.1 h₁
    obtain ⟨hgap, hgapAll, -⟩ := Cursor.eatWhile_eq_iff.1
      (rfl : c₁.eatWhile (fun ch => ch == ' ' || ch == '\t') = _)
    have hopen := Cursor.eat?_eq_some_iff.1 h₂
    obtain ⟨hpath, hpathAll, -⟩ := Cursor.eatWhile_eq_iff.1
      (rfl : c₂.eatWhile (fun ch => ch != '"' && ch != '\n') = _)
    have hclose := Cursor.eat?_eq_some_iff.1 h₃
    have hdirective := (((hkeyword.trans hgap).trans hopen).trans hpath).trans hclose
    simp only [hblanks.upTo, hdirective.upTo, String.toList_ofList]
    refine ⟨hblanks.trans hdirective, hall, _, rfl, ?_, ?_⟩
    · intro ch hch
      simpa using hgapAll ch hch
    · intro ch hch
      simpa using hpathAll ch hch
  · rintro ⟨hreads, hblanks, gap, hdirective, hgap, hpath⟩
    obtain ⟨path, blanks, directive⟩ := i
    obtain ⟨c₁, hb, hd⟩ := Cursor.Reads.append_iff.1 hreads
    have hd' : c₁.Reads ("#include".toList ++ gap ++ ['"'] ++ path.toList ++ ['"']) d := by
      rwa [← hdirective]
    obtain ⟨c₅, hd', hclose⟩ := Cursor.Reads.append_iff.1 hd'
    obtain ⟨c₄, hd', hname⟩ := Cursor.Reads.append_iff.1 hd'
    obtain ⟨c₃, hd', hopen⟩ := Cursor.Reads.append_iff.1 hd'
    obtain ⟨c₂, hkeyword, hspaces⟩ := Cursor.Reads.append_iff.1 hd'
    -- each run ends in front of the character that is read next
    have hstart : c.skipBlank = c₁ := by
      refine Cursor.skipBlank_eq_iff.2 ⟨blanks, hb, hblanks, ?_⟩
      rw [Cursor.check, Cursor.peek?, hkeyword.rest]
      rfl
    have hafter : c₂.eatWhile (fun ch => ch == ' ' || ch == '\t') = (gap, c₃) := by
      refine Cursor.eatWhile_eq_iff.2 ⟨hspaces, fun ch hch => by simpa using hgap ch hch, ?_⟩
      rw [Cursor.check, Cursor.peek?, hopen.rest]
      rfl
    have hquoted : c₄.eatWhile (fun ch => ch != '"' && ch != '\n') = (path.toList, c₅) := by
      refine Cursor.eatWhile_eq_iff.2 ⟨hname, fun ch hch => by simpa using hpath ch hch, ?_⟩
      rw [Cursor.check, Cursor.peek?, hclose.rest]
      rfl
    simp only [read?, hstart, Cursor.eatText?_eq_some_iff.2 hkeyword, Option.bind_eq_bind,
      Option.bind_some, hafter, Cursor.eat?_eq_some_iff.2 hopen, hquoted,
      Cursor.eat?_eq_some_iff.2 hclose, hb.upTo, hd.upTo, String.ofList_toList]
    rfl

/-- Blanking the leading directives of a text blanks nothing but characters. -/
theorem blanks_leading (c : Cursor) :
    Blanks c.rest (blankLeading (leading c).1 (leading c).2) := by
  fun_induction leading c with
  | case1 c h => exact .refl _
  | case2 c i d h hlt is rest hrest ih =>
    obtain ⟨hread, -, hdirective⟩ := read?_eq_some_iff.1 h
    rw [hrest] at ih
    have hhead : Blanks (i.blanks ++ i.directive) (i.blanks ++ Text.spaces i.directive) :=
      (Blanks.refl i.blanks).append (.spaces hdirective.newline_notMem)
    rw [hread.rest]
    simpa [blankLeading] using hhead.append ih

end Include

/-! ### Flattening -/

namespace Library

/-- A file as a listing holds it: the blanked form of what the library has under
its name. -/
def Listed (lib : Library) (f : String × Text) : Prop :=
  ∃ includer raw, lib.load f.1 includer = .ok raw ∧ Blanks raw f.2

variable {lib : Library}

/-- What one visit keeps, a list of visits keeps. -/
theorem listed_of_visitAll {visit : String → Progress → Except SourceError Progress}
    (hvisit : ∀ {path p p'}, visit path p = .ok p' → (∀ f ∈ p.files, lib.Listed f) →
      ∀ f ∈ p'.files, lib.Listed f)
    {includes : List Include} {p p' : Progress} (h : visitAll visit includes p = .ok p')
    (hp : ∀ f ∈ p.files, lib.Listed f) : ∀ f ∈ p'.files, lib.Listed f := by
  induction includes generalizing p with
  | nil =>
    obtain rfl := Except.ok.inj h
    exact hp
  | cons i is ih =>
    rw [visitAll] at h
    split at h
    · exact ih h hp
    · obtain ⟨q, hq, h⟩ := bind_eq_ok.1 h
      exact ih h (hvisit hq hp)

theorem listed_of_visit {depth : Nat} {includer : Option String} {path : String} {p p' : Progress}
    (h : visit lib depth includer path p = .ok p') (hp : ∀ f ∈ p.files, lib.Listed f) :
    ∀ f ∈ p'.files, lib.Listed f := by
  induction depth generalizing includer path p p' with
  | zero => cases h
  | succ depth ih =>
    rw [visit, bind_eq_ok] at h
    obtain ⟨raw, hraw, h⟩ := h
    split at h
    · cases h
    · rename_i text htext
      simp only [bind_eq_ok, pure_eq_ok] at h
      obtain ⟨q, hq, rfl⟩ := h
      intro f hf
      obtain hf | hf := List.mem_append.1 hf
      · exact listed_of_visitAll ih hq hp f hf
      · -- the file itself, its comments blanked first and its directives then
        obtain rfl := List.mem_singleton.1 hf
        exact ⟨includer, raw, hraw,
          (Comment.blanks_of_strip htext).trans (Include.blanks_leading (Cursor.ofText text))⟩

/-- Every file of a flattened listing is the blanked form of a file of the
library. -/
theorem listed_of_flatten {entry : String} {l : Listing} (h : lib.flatten entry = .ok l) :
    ∃ files, l = Listing.ofFiles files ∧ ∀ f ∈ files, lib.Listed f := by
  rw [flatten, bind_eq_ok] at h
  obtain ⟨p, hp, h⟩ := h
  exact ⟨p.files, (pure_eq_ok.1 h).symm, listed_of_visit hp (by simp)⟩

/-- In files given by name, the text of a listed file is the last one given
under its name. -/
theorem listed_ofFiles_iff {files : List (String × Text)} {f : String × Text} :
    (ofFiles files).Listed f ↔ ∃ raw, files.reverse.lookup f.1 = some raw ∧ Blanks raw f.2 := by
  constructor
  · rintro ⟨includer, raw, hload, hblanks⟩
    simp only [ofFiles] at hload
    split at hload
    · rename_i text hlookup
      obtain rfl := Except.ok.inj hload
      exact ⟨text, hlookup, hblanks⟩
    · cases hload
  · rintro ⟨raw, hlookup, hblanks⟩
    exact ⟨none, raw, by simp [ofFiles, hlookup], hblanks⟩

end Library

end MacroAssembler
