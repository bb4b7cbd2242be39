/-
MacroAssembler/Proofs/Locating.lean

From an offset of a listing back to a file and a line.

`StandsAt texts offset ch o` says, by counting alone, where a character of texts
put one after the other is: `o.file` texts end before it, and its own text has
`o.line - 1` newlines in front of it.  `Listing.locate` finds that place for
every character of a listing (`locate_of_standsAt`), and blanking some
characters of the texts does not move the others (`StandsAt.of_blanks`), so the
place is right for the texts as they were before (`leadsBack_of_blanks`).
-/
import Mathlib.Data.List.Forall2
import MacroAssembler.Proofs.TextBytes

namespace MacroAssembler

/-- Texts put one after the other hold the character `ch` at a byte offset, on a
line of one of them. -/
def StandsAt (texts : List Text) (offset : Nat) (ch : Char) (o : Origin) : Prop :=
  ∃ earlier before rest later, texts = earlier ++ (before ++ ch :: rest) :: later ∧
    offset = Text.byteLength earlier.flatten + Text.byteLength before ∧
    o = ⟨earlier.length, 1 + before.count '\n'⟩

/-- Every character of the joined texts stands somewhere. -/
theorem exists_standsAt {texts : List Text} {a b : Text} {ch : Char}
    (h : texts.flatten = a ++ ch :: b) : ∃ o, StandsAt texts (Text.byteLength a) ch o := by
  induction texts generalizing a with
  | nil => simp at h
  | cons t ts ih =>
    rw [List.flatten_cons] at h
    obtain ⟨a', rfl, hrest⟩ | ⟨b', rfl, hrest⟩ := List.append_eq_append_iff.1 h
    · -- it stands behind the first text
      obtain ⟨o, earlier, before, rest, later, rfl, hoffset, -⟩ := ih hrest
      refine ⟨_, t :: earlier, before, rest, later, rfl, ?_, rfl⟩
      simp [hoffset, Nat.add_assoc]
    · cases b' with
      | nil =>
        obtain ⟨o, earlier, before, rest, later, rfl, hoffset, -⟩ :=
          ih (a := []) hrest.symm
        refine ⟨_, a :: earlier, before, rest, later, by simp, ?_, rfl⟩
        have hzero : 0 = Text.byteLength earlier.flatten + Text.byteLength before := hoffset
        simp
        omega
      | cons x b' =>
        obtain ⟨rfl, -⟩ := List.cons.inj hrest
        exact ⟨_, [], a, b', ts, rfl, by simp, rfl⟩

/-- Blanked texts, cut at one of them. -/
theorem exists_of_forall₂_blanks {raws earlier later : List Text} {t : Text}
    (h : List.Forall₂ Blanks raws (earlier ++ t :: later)) :
    ∃ earlier' raw later', raws = earlier' ++ raw :: later' ∧ earlier'.length = earlier.length ∧
      Text.byteLength earlier'.flatten = Text.byteLength earlier.flatten ∧ Blanks raw t := by
  induction earlier generalizing raws with
  | nil =>
    cases h with
    | cons hraw _ => exact ⟨[], _, _, rfl, rfl, rfl, hraw⟩
  | cons e earlier ih =>
    cases h with
    | @cons raw' _ raws' _ he hrest =>
      obtain ⟨earlier', raw, later', rfl, hlength, hbytes, hraw⟩ := ih hrest
      refine ⟨raw' :: earlier', raw, later', rfl, by simp [hlength], ?_, hraw⟩
      simp [he.byteLength_eq, hbytes]

/-- A character that was not blanked stands where it stood before. -/
theorem StandsAt.of_blanks {raws texts : List Text} (hraws : List.Forall₂ Blanks raws texts)
    {offset : Nat} {ch : Char} {o : Origin} (h : StandsAt texts offset ch o) (hch : ch ≠ ' ') :
    StandsAt raws offset ch o := by
  obtain ⟨earlier, before, rest, later, rfl, rfl, rfl⟩ := h
  obtain ⟨earlier', raw, later', rfl, hlength, hbytes, hraw⟩ := exists_of_forall₂_blanks hraws
  obtain ⟨before', rest', rfl, hbefore⟩ := hraw.split hch
  refine ⟨earlier', before', rest', later', rfl, ?_, ?_⟩
  · rw [hbytes, hbefore.byteLength_eq]
  · rw [hlength, hbefore.count_newline_eq]

/-! ### Lines of a file -/

theorem lt_of_mem_laterLines {pos n : Nat} {t : Text} (h : n ∈ laterLines pos t) : pos < n := by
  induction t generalizing pos with
  | nil => simp [laterLines] at h
  | cons c t ih =>
    have hpos := c.utf8Size_pos
    rw [laterLines] at h
    split at h
    · obtain rfl | h := List.mem_cons.1 h
      · omega
      · have := ih h
        omega
    · have := ih h
      omega

/-- As many lines begin up to an offset as there are newlines before it; the last byte begins no
line behind it. -/
theorem countP_laterLines (pos : Nat) (t : Text) (j : Nat) :
    (laterLines pos t).countP (· ≤ pos + j) =
      ((Text.utf8 t).take (min j (Text.byteLength t - 1))).count Text.newline := by
  have hnewline : '\n'.utf8Size = 1 := rfl
  induction t generalizing pos j with
  | nil => simp [laterLines]
  | cons c t ih =>
    have hsize := c.utf8Size_pos
    have htail : (laterLines (pos + c.utf8Size) t).countP (· ≤ pos + j) =
        ((Text.utf8 t).take (min j (Text.byteLength (c :: t) - 1) - c.utf8Size)).count
          Text.newline := by
      by_cases hj : c.utf8Size ≤ j
      · have hpos : pos + j = pos + c.utf8Size + (j - c.utf8Size) := by omega
        have hmin : min j (Text.byteLength (c :: t) - 1) - c.utf8Size =
            min (j - c.utf8Size) (Text.byteLength t - 1) := by
          rw [Text.byteLength_cons]
          omega
        rw [hpos, ih, hmin]
      · -- an offset inside the character is in front of all later lines
        have hmin : min j (Text.byteLength (c :: t) - 1) - c.utf8Size = 0 := by omega
        rw [hmin, List.take_zero, List.count_nil, List.countP_eq_zero]
        intro n hn
        have := lt_of_mem_laterLines hn
        simp only [decide_eq_true_eq]
        omega
    rw [Text.utf8_cons, List.take_append, List.count_append, String.length_utf8EncodeChar, ← htail,
      Text.count_take_utf8EncodeChar, laterLines]
    by_cases hc : c = '\n' ∧ t ≠ []
    · obtain ⟨rfl, ht⟩ := hc
      have hlength := Text.byteLength_pos ht
      rw [if_pos ⟨rfl, ht⟩, List.countP_cons, Nat.add_comm]
      congr 2
      simp only [true_and, decide_eq_true_eq, Text.byteLength_cons, eq_iff_iff]
      omega
    · rw [if_neg hc, if_neg, Nat.zero_add]
      rintro ⟨rfl, hpos⟩
      have ht : t = [] := by simpa using hc
      rw [ht, Text.byteLength_cons, Text.byteLength_nil] at hpos
      omega

/-- The line of an offset of a file, by counting newlines. -/
theorem ListedFile.lineOf_add (name : String) (start : Nat) (text : Text) (j : Nat) :
    (ofText name start text).lineOf (start + j) =
      1 + ((Text.utf8 text).take (min j (Text.byteLength text - 1))).count Text.newline := by
  show max 1 ((start :: laterLines start text).countP _) = _
  rw [List.countP_cons_of_pos (by simp), countP_laterLines]
  omega

/-- A character of a file is on the line that counting newlines gives. -/
theorem ListedFile.lineOf_ofText (name : String) (start : Nat) (before rest : Text) (ch : Char) :
    (ofText name start (before ++ ch :: rest)).lineOf (start + Text.byteLength before) =
      1 + before.count '\n' := by
  have hch := ch.utf8Size_pos
  have hmin : min (Text.byteLength before) (Text.byteLength (before ++ ch :: rest) - 1) =
      (Text.utf8 before).length := by
    rw [Text.byteLength_append, Text.byteLength_cons, Text.length_utf8]
    omega
  rw [lineOf_add, hmin, Text.utf8_append, List.take_left, Text.count_newline_utf8]

/-! ### Files of a listing -/

namespace Listing

/-- Files put one after the other, from an offset on. -/
def filesFrom : Nat → List (String × Text) → List ListedFile
  | _, [] => []
  | start, f :: fs => .ofText f.1 start f.2 :: filesFrom (start + Text.byteLength f.2) fs

theorem files_foldl_push (l : Listing) (fs : List (String × Text)) :
    (fs.foldl (fun l f => l.push f.1 f.2) l).files = l.files ++ filesFrom l.length fs := by
  induction fs generalizing l with
  | nil => simp [filesFrom]
  | cons f fs ih =>
    have hlength : (l.push f.1 f.2).length = l.length + Text.byteLength f.2 := by
      simp [length, text, push, ListedFile.ofText]
    rw [List.foldl_cons, ih, hlength]
    simp [push, filesFrom]

theorem files_ofFiles (fs : List (String × Text)) : (ofFiles fs).files = filesFrom 0 fs :=
  files_foldl_push empty fs

theorem map_text_filesFrom (start : Nat) (fs : List (String × Text)) :
    (filesFrom start fs).map ListedFile.text = fs.map Prod.snd := by
  induction fs generalizing start with
  | nil => rfl
  | cons f fs ih => simp [filesFrom, ih, ListedFile.ofText]

theorem map_name_filesFrom (start : Nat) (fs : List (String × Text)) :
    (filesFrom start fs).map ListedFile.name = fs.map Prod.fst := by
  induction fs generalizing start with
  | nil => rfl
  | cons f fs ih => simp [filesFrom, ih, ListedFile.ofText]

theorem mem_filesFrom {start : Nat} {fs : List (String × Text)} {f : ListedFile}
    (h : f ∈ filesFrom start fs) : (f.name, f.text) ∈ fs := by
  induction fs generalizing start with
  | nil => cases h
  | cons g gs ih =>
    obtain rfl | h := List.mem_cons.1 h
    · exact List.mem_cons_self
    · exact List.mem_cons_of_mem _ (ih h)

theorem text_ofFiles (fs : List (String × Text)) :
    (ofFiles fs).text = (fs.map Prod.snd).flatten := by
  rw [text, files_ofFiles, ← map_text_filesFrom 0, List.flatMap_def]

/-- An offset behind the first of several files belongs to a later one. -/
theorem owner?_cons_filesFrom {index start : Nat} {f : ListedFile} {fs : List (String × Text)}
    (hfs : fs ≠ []) (hle : start ≤ index) :
    owner? index (f :: filesFrom start fs) =
      (owner? index (filesFrom start fs)).map fun (n, h) => (n + 1, h) := by
  obtain ⟨g, gs, rfl⟩ := List.exists_cons_of_ne_nil hfs
  rw [filesFrom, owner?, if_pos]
  exact hle

/-- An offset belongs to the file that it is in, and from the start of the last file on to that
file. -/
theorem owner?_filesFrom (start : Nat) (earlier later : List (String × Text)) (f : String × Text)
    {index : Nat} (hle : start + Text.byteLength (earlier.map Prod.snd).flatten ≤ index)
    (hlt : later = [] ∨
      index < start + Text.byteLength (earlier.map Prod.snd).flatten + Text.byteLength f.2) :
    owner? index (filesFrom start (earlier ++ f :: later)) =
      some (earlier.length, .ofText f.1
        (start + Text.byteLength (earlier.map Prod.snd).flatten) f.2) := by
  induction earlier generalizing start with
  | nil =>
    cases later with
    | nil => simp [filesFrom, owner?]
    | cons g later =>
      -- the next file starts behind the offset
      have hnext : ¬ start + Text.byteLength f.2 ≤ index := by
        simpa using hlt.resolve_left (List.cons_ne_nil _ _)
      simp only [List.nil_append, filesFrom, owner?, ListedFile.ofText, if_neg hnext]
      rfl
  | cons e earlier ih =>
    simp only [List.map_cons, List.flatten_cons, Text.byteLength_append, ← Nat.add_assoc] at hle hlt ⊢
    rw [List.cons_append, filesFrom, owner?_cons_filesFrom (by simp) (by omega), ih _ hle hlt]
    rfl

/-- A listing locates every character where it stands. -/
theorem locate_of_standsAt {fs : List (String × Text)} {offset : Nat} {ch : Char} {o : Origin}
    (h : StandsAt (fs.map Prod.snd) offset ch o) : (ofFiles fs).locate offset = o := by
  obtain ⟨earlier, before, rest, later, hfs, rfl, rfl⟩ := h
  obtain ⟨fs₁, fs₂, rfl, rfl, htail⟩ := List.map_eq_append_iff.1 hfs
  obtain ⟨⟨name, text⟩, fs₃, rfl, rfl, rfl⟩ := List.map_eq_cons_iff.1 htail
  have hch := ch.utf8Size_pos
  have howner : owner? (Text.byteLength (fs₁.map Prod.snd).flatten + Text.byteLength before)
      (filesFrom 0 (fs₁ ++ (name, before ++ ch :: rest) :: fs₃)) = _ :=
    owner?_filesFrom 0 fs₁ fs₃ _ (by omega)
      (.inr (by simp only [Text.byteLength_append, Text.byteLength_cons]; omega))
  rw [Nat.zero_add] at howner
  rw [locate, files_ofFiles, howner]
  simp [ListedFile.lineOf_ofText]

/-- Every character of a listing that is no space is located where it stands in
the texts `raws`. -/
def LeadsBack (l : Listing) (raws : List Text) : Prop :=
  ∀ {a b : Text} {ch : Char}, l.text = a ++ ch :: b → ch ≠ ' ' →
    StandsAt raws (Text.byteLength a) ch (l.locate (Text.byteLength a))

/-- A listing leads back to the texts that its files are blanked forms of. -/
theorem leadsBack_of_blanks {fs : List (String × Text)} {raws : List Text}
    (hraws : List.Forall₂ Blanks raws (fs.map Prod.snd)) : (ofFiles fs).LeadsBack raws := by
  intro a b ch htext hch
  rw [text_ofFiles] at htext
  obtain ⟨o, ho⟩ := exists_standsAt htext
  rw [locate_of_standsAt ho]
  exact ho.of_blanks hraws hch

end Listing

end MacroAssembler
