/-
MacroAssembler/Proofs/LineLocation.lean

The file, line and line text of every offset of a listing.

A file of a listing holds the bytes from its start on (`Listing.Holds`).  Every byte is held by
one file, and `Listing.locate` finds that file and the line that newlines in front of the byte
give; an offset behind all files is located on the last line that starts in the last file
(`Text.LastStart`).  `Listing.place` shows the line with that number (`Text.IsLine`), which lies
in one file even where the files have no newline between them.

Main result: `Listing.locate_exact`.
-/
import MacroAssembler.Proofs.Arguments
import MacroAssembler.Proofs.Locating

namespace MacroAssembler

/-! ### Lines of a text -/

namespace Text

/-- The newlines in front of a byte. -/
def newlinesBefore (t : Text) (j : Nat) : Nat := ((utf8 t).take j).count newline

/-- A line begins at a byte offset: at the very start, or behind a newline. -/
def BeginsLine (t : Text) (j : Nat) : Prop := j = 0 ∨ ∃ k, j = k + 1 ∧ (utf8 t)[k]? = some newline

/-- The last line that starts inside a text begins at the offset `j`.  In a text without bytes that
is the first line. -/
structure LastStart (t : Text) (j : Nat) : Prop where
  begins : t.BeginsLine j
  inside : t = [] ∨ j < byteLength t
  last : ∀ j', t.BeginsLine j' → j' < byteLength t → j' ≤ j

/-- The text `line` is the whole line with the given number, without its newline. -/
def IsLine (t : Text) (number : Nat) (line : Text) : Prop :=
  ∃ before after, t = before ++ line ++ after ∧ '\n' ∉ line ∧
    (before = [] ∨ before.getLast? = some '\n') ∧ (∀ ch ∈ after.head?, ch = '\n') ∧
    number = 1 + before.count '\n'

/-- The text `s` is `line` without the blanks at its end. -/
def IsTrimmed (line s : Text) : Prop :=
  (∃ blanks, line = s ++ blanks ∧ ∀ ch ∈ blanks, isBlank ch = true) ∧
    ∀ ch ∈ s.getLast?, isBlank ch = false

theorem isTrimmed_trimEnd (line : Text) : IsTrimmed line (trimEnd line) := by
  refine ⟨exists_trimEnd line, ?_⟩
  intro ch hch
  rw [Option.mem_def, trimEnd, List.getLast?_reverse] at hch
  exact eq_false_of_head?_dropWhile hch

/-- The last line start among bytes that may begin one, and the newlines in front of it. -/
theorem exists_last_newline (bytes : List UInt8) :
    ∃ j ≤ bytes.length, (j = 0 ∨ ∃ k, j = k + 1 ∧ bytes[k]? = some newline) ∧
      (∀ k, bytes[k]? = some newline → k + 1 ≤ j) ∧
      (bytes.take j).count newline = bytes.count newline := by
  induction bytes using List.reverseRecOn with
  | nil => exact ⟨0, Nat.le_refl 0, .inl rfl, by simp, rfl⟩
  | append_singleton bytes b ih =>
    have hlast : (bytes ++ [b])[bytes.length]? = some b := by simp
    by_cases hb : b = newline
    · subst hb
      refine ⟨bytes.length + 1, by simp, .inr ⟨bytes.length, rfl, hlast⟩, ?_, ?_⟩
      · intro k hk
        have hlt := (List.getElem?_eq_some_iff.1 hk).1
        rw [List.length_append, List.length_singleton] at hlt
        exact hlt
      · rw [List.take_of_length_le (by simp)]
    · obtain ⟨j, hj, hbegins, hall, hcount⟩ := ih
      refine ⟨j, by rw [List.length_append]; omega, ?_, ?_, ?_⟩
      · refine hbegins.imp_right ?_
        rintro ⟨k, rfl, hk⟩
        refine ⟨k, rfl, ?_⟩
        rw [List.getElem?_append_left (by omega), hk]
      · intro k hk
        by_cases hlt : k < bytes.length
        · rw [List.getElem?_append_left hlt] at hk
          exact hall k hk
        · have hlen := (List.getElem?_eq_some_iff.1 hk).1
          rw [List.length_append, List.length_singleton] at hlen
          obtain rfl : k = bytes.length := by omega
          rw [hlast] at hk
          exact absurd (Option.some.inj hk) hb
      · rw [List.take_append_of_le_length hj, hcount, List.count_append, List.count_singleton]
        simp [hb]

/-- The last line that starts inside a text is the one that newlines before the last byte give. -/
theorem exists_lastStart (t : Text) :
    ∃ j, t.LastStart j ∧ t.newlinesBefore j = t.newlinesBefore (byteLength t - 1) := by
  obtain ⟨j, hj, hbegins, hall, hcount⟩ := exists_last_newline ((utf8 t).take (byteLength t - 1))
  rw [List.length_take, length_utf8] at hj
  have hle : j ≤ byteLength t - 1 := Nat.le_trans hj (Nat.min_le_left ..)
  refine ⟨j, ⟨?_, ?_, ?_⟩, ?_⟩
  · refine hbegins.imp_right ?_
    rintro ⟨k, rfl, hk⟩
    rw [List.getElem?_take_of_lt hle] at hk
    exact ⟨k, rfl, hk⟩
  · rcases eq_or_ne t [] with ht | ht
    · exact .inl ht
    · exact .inr (Nat.lt_of_le_of_lt hle (Nat.sub_one_lt_of_lt (byteLength_pos ht)))
  · rintro j' (rfl | ⟨k, rfl, hk⟩) hlt
    · exact Nat.zero_le j
    · exact hall k (by rwa [List.getElem?_take_of_lt (by omega)])
  · rw [List.take_take, Nat.min_eq_left hle] at hcount
    exact hcount

/-- What follows a line start up to the next newline is the whole line. -/
theorem isLine_takeWhile {t before rest : Text} (ht : t = before ++ rest)
    (hbefore : before = [] ∨ before.getLast? = some '\n') :
    t.IsLine (1 + before.count '\n') (rest.takeWhile (· != '\n')) := by
  refine ⟨before, rest.dropWhile (· != '\n'), ?_, ?_, hbefore, ?_, rfl⟩
  · rw [List.append_assoc, List.takeWhile_append_dropWhile, ht]
  · intro hmem
    simpa using List.all_eq_true.1 List.all_takeWhile '\n' hmem
  · intro ch hch
    simpa using eq_false_of_head?_dropWhile hch

end Text

/-- A later line begins behind a newline, with as many newlines before that as lines between. -/
theorem exists_of_getElem?_laterLines {pos k e : Nat} {t : Text}
    (h : (laterLines pos t)[k]? = some e) :
    ∃ s u, t = s ++ '\n' :: u ∧ e = pos + Text.byteLength s + 1 ∧ s.count '\n' = k := by
  induction t generalizing pos k with
  | nil => simp [laterLines] at h
  | cons c t ih =>
    rw [laterLines] at h
    split at h
    · rename_i hc
      obtain ⟨rfl, -⟩ := hc
      cases k with
      | zero =>
        obtain rfl : pos + '\n'.utf8Size = e := by simpa using h
        exact ⟨[], t, rfl, rfl, rfl⟩
      | succ k =>
        obtain ⟨s, u, rfl, rfl, rfl⟩ := ih (by simpa using h)
        refine ⟨'\n' :: s, u, rfl, ?_, by simp⟩
        rw [Text.byteLength_cons]
        omega
    · rename_i hc
      obtain ⟨s, u, rfl, rfl, rfl⟩ := ih h
      have hne : c ≠ '\n' := by simpa using hc
      refine ⟨c :: s, u, rfl, ?_, by simp [hne]⟩
      rw [Text.byteLength_cons]
      omega

namespace ListedFile

/-- The text shown for a line is that line of the file. -/
theorem exists_isLine (name : String) (start : Nat) (text : Text) {k : Nat}
    (hk : k < (ofText name start text).lines.length) :
    ∃ line, text.IsLine (k + 1) line ∧
      (ofText name start text).lineText k = Text.trimEnd line := by
  have hlines : (ofText name start text).lines = start :: laterLines start text := rfl
  rw [hlines, List.length_cons] at hk
  have htext : ∀ before rest, text = before ++ rest →
      (before = [] ∨ before.getLast? = some '\n') → before.count '\n' = k →
      (start :: laterLines start text).getD k start = start + Text.byteLength before →
      ∃ line, text.IsLine (k + 1) line ∧
        (ofText name start text).lineText k = Text.trimEnd line := by
    rintro before rest ht hbefore rfl hstart
    refine ⟨_, Nat.add_comm 1 _ ▸ Text.isLine_takeWhile ht hbefore, ?_⟩
    show Text.trimEnd ((Text.dropBytes ((start :: laterLines start text).getD
      (before.count '\n') start - start) text).takeWhile (· != '\n')) = _
    rw [hstart, Nat.add_sub_cancel_left, ht, Text.dropBytes_append]
  cases k with
  | zero => exact htext [] text rfl (.inl rfl) rfl rfl
  | succ k =>
    have hk : k < (laterLines start text).length := by omega
    have hget := List.getElem?_eq_getElem hk
    obtain ⟨s, u, ht, hstart, hcount⟩ := exists_of_getElem?_laterLines hget
    refine htext (s ++ ['\n']) u (by rw [ht]; simp) (.inr (by simp)) (by simp [hcount]) ?_
    rw [List.getD_cons_succ, List.getD_eq_getElem?_getD, hget, Option.getD_some, hstart,
      Text.byteLength_append]
    rfl

/-- The two ways to count the lines up to an offset agree. -/
theorem lineIndex_add_one (f : ListedFile) (index : Nat) :
    f.lineIndex index + 1 = f.lineOf index := by
  rw [lineIndex, lineOf]
  omega

theorem lineIndex_lt (f : ListedFile) (index : Nat) : f.lineIndex index < f.lines.length := by
  have hle : f.lines.countP (· ≤ index) ≤ f.lines.length := List.countP_le_length
  have hpos : 0 < f.lines.length := by
    rw [f.lines_eq]
    exact Nat.succ_pos _
  rw [lineIndex]
  omega

end ListedFile

namespace Listing

/-! ### Files by their bytes -/

/-- The offset at which a file starts. -/
def startOf (fs : List (String × Text)) (k : Nat) : Nat :=
  Text.byteLength ((fs.take k).map Prod.snd).flatten

/-- The byte at an offset is one of the file with the number `k`. -/
def Holds (fs : List (String × Text)) (index k : Nat) : Prop :=
  ∃ f, fs[k]? = some f ∧ startOf fs k ≤ index ∧ index < startOf fs k + Text.byteLength f.2

theorem startOf_append (earlier later : List (String × Text)) :
    startOf (earlier ++ later) earlier.length =
      Text.byteLength (earlier.map Prod.snd).flatten := by
  rw [startOf, List.take_left]

theorem length_ofFiles (fs : List (String × Text)) :
    (ofFiles fs).length = Text.byteLength (fs.map Prod.snd).flatten := by
  rw [length, text_ofFiles]

theorem startOf_succ {fs : List (String × Text)} {k : Nat} {f : String × Text}
    (h : fs[k]? = some f) : startOf fs (k + 1) = startOf fs k + Text.byteLength f.2 := by
  rw [startOf, List.take_add_one, h, startOf]
  simp

theorem startOf_mono (fs : List (String × Text)) {k k' : Nat} (h : k ≤ k') :
    startOf fs k ≤ startOf fs k' := by
  obtain ⟨d, rfl⟩ := Nat.exists_eq_add_of_le h
  rw [startOf, startOf, List.take_add, List.map_append, List.flatten_append,
    Text.byteLength_append]
  exact Nat.le_add_right _ _

/-- No byte is one of two files. -/
theorem Holds.unique {fs : List (String × Text)} {index k k' : Nat} (h : Holds fs index k)
    (h' : Holds fs index k') : k = k' := by
  obtain ⟨f, hf, hle, hlt⟩ := h
  obtain ⟨f', hf', hle', hlt'⟩ := h'
  rw [← startOf_succ hf] at hlt
  rw [← startOf_succ hf'] at hlt'
  by_contra hne
  obtain hk | hk := Nat.lt_or_gt_of_ne hne
  · have := startOf_mono fs (show k + 1 ≤ k' from hk)
    omega
  · have := startOf_mono fs (show k' + 1 ≤ k from hk)
    omega

/-- Every byte is one of some file. -/
theorem exists_holds {fs : List (String × Text)} {index : Nat}
    (h : index < Text.byteLength (fs.map Prod.snd).flatten) :
    ∃ earlier f later, fs = earlier ++ f :: later ∧
      Text.byteLength (earlier.map Prod.snd).flatten ≤ index ∧
      index < Text.byteLength (earlier.map Prod.snd).flatten + Text.byteLength f.2 := by
  induction fs using List.reverseRecOn with
  | nil => simp at h
  | append_singleton fs f ih =>
    by_cases hlt : index < Text.byteLength (fs.map Prod.snd).flatten
    · obtain ⟨earlier, g, later, rfl, hle, hlt⟩ := ih hlt
      exact ⟨earlier, g, later ++ [f], by simp, hle, hlt⟩
    · refine ⟨fs, f, [], rfl, Nat.not_lt.1 hlt, ?_⟩
      simpa using h

/-- Every offset belongs to some file, the last one if it is not in a file before that. -/
theorem exists_owner {fs : List (String × Text)} (hne : fs ≠ []) (index : Nat) :
    ∃ earlier f later, fs = earlier ++ f :: later ∧
      Text.byteLength (earlier.map Prod.snd).flatten ≤ index ∧
      (later = [] ∨
        index < Text.byteLength (earlier.map Prod.snd).flatten + Text.byteLength f.2) := by
  by_cases hlt : index < Text.byteLength (fs.map Prod.snd).flatten
  · obtain ⟨earlier, f, later, hfs, hle, hlt⟩ := exists_holds hlt
    exact ⟨earlier, f, later, hfs, hle, .inr hlt⟩
  · have hfs := List.dropLast_concat_getLast hne
    refine ⟨fs.dropLast, fs.getLast hne, [], hfs.symm, ?_, .inl rfl⟩
    rw [← hfs, List.map_append, List.flatten_append, Text.byteLength_append] at hlt
    omega

/-! ### Locating offsets -/

/-- Both ways of locating an offset look at the same file and the same line. -/
theorem place_of_owner? {l : Listing} {index k : Nat} {f : ListedFile}
    (h : owner? index l.files = some (k, f)) :
    l.locate index = ⟨k, f.lineOf index⟩ ∧
      l.place index = ⟨f.name, f.lineOf index, f.lineText (f.lineIndex index)⟩ := by
  simp only [locate, place, h, f.lineIndex_add_one, and_self]

theorem fileName_ofFiles (fs : List (String × Text)) {k : Nat} {f : String × Text}
    (h : fs[k]? = some f) : (ofFiles fs).fileName k = f.1 := by
  have hname : ((ofFiles fs).files.map ListedFile.name)[k]? = some f.1 := by
    rw [files_ofFiles, map_name_filesFrom, List.getElem?_map, h]
    rfl
  rw [List.getElem?_map, Option.map_eq_some_iff] at hname
  obtain ⟨g, hg, hname⟩ := hname
  rw [fileName, hg, ← hname]

/-- An offset that belongs to a file is located in it, by counting newlines up to the last byte
of the file, and shown with a line of that file. -/
theorem located_of_le {earlier later : List (String × Text)} {f : String × Text} {index : Nat}
    (hle : Text.byteLength (earlier.map Prod.snd).flatten ≤ index)
    (hlt : later = [] ∨
      index < Text.byteLength (earlier.map Prod.snd).flatten + Text.byteLength f.2) :
    (ofFiles (earlier ++ f :: later)).locate index =
        ⟨earlier.length, 1 + f.2.newlinesBefore (min
          (index - Text.byteLength (earlier.map Prod.snd).flatten) (Text.byteLength f.2 - 1))⟩ ∧
      ((ofFiles (earlier ++ f :: later)).place index).file = f.1 ∧
      ((ofFiles (earlier ++ f :: later)).place index).line =
        ((ofFiles (earlier ++ f :: later)).locate index).line ∧
      ∃ line, f.2.IsLine ((ofFiles (earlier ++ f :: later)).locate index).line line ∧
        Text.IsTrimmed line ((ofFiles (earlier ++ f :: later)).place index).text := by
  have howner : owner? index (filesFrom 0 (earlier ++ f :: later)) = _ :=
    owner?_filesFrom 0 earlier later f (by rwa [Nat.zero_add]) (by rwa [Nat.zero_add])
  rw [Nat.zero_add, ← files_ofFiles] at howner
  obtain ⟨hlocate, hplace⟩ := place_of_owner? howner
  rw [hlocate, hplace]
  refine ⟨?_, rfl, rfl, ?_⟩
  · obtain ⟨j, rfl⟩ := Nat.exists_eq_add_of_le hle
    rw [ListedFile.lineOf_add, Nat.add_sub_cancel_left]
    rfl
  · obtain ⟨line, hline, htext⟩ := ListedFile.exists_isLine f.1 _ f.2
      (ListedFile.lineIndex_lt _ index)
    rw [ListedFile.lineIndex_add_one] at hline
    refine ⟨line, hline, ?_⟩
    rw [htext]
    exact Text.isTrimmed_trimEnd line

/-- **Offsets are located exactly.**  A byte of a listing is located in the one file that holds
it, on the line that the newlines in front of it give; an offset behind the end is located on the
last line that starts in the last file.  The place shown for an offset is in the same file, on the
same line, and its text is that line of that file without the blanks at its end. -/
theorem locate_exact (fs : List (String × Text)) (index : Nat) :
    (index < (ofFiles fs).length → ∃ k f, fs[k]? = some f ∧ (∀ k', Holds fs index k' ↔ k' = k) ∧
      (ofFiles fs).locate index = ⟨k, 1 + f.2.newlinesBefore (index - startOf fs k)⟩) ∧
    (∀ earlier f, fs = earlier ++ [f] → (ofFiles fs).length ≤ index →
      ∃ j, f.2.LastStart j ∧
        (ofFiles fs).locate index = ⟨earlier.length, 1 + f.2.newlinesBefore j⟩) ∧
    ((ofFiles fs).place index).file = (ofFiles fs).fileName ((ofFiles fs).locate index).file ∧
    ((ofFiles fs).place index).line = ((ofFiles fs).locate index).line ∧
    ∀ f, fs[((ofFiles fs).locate index).file]? = some f →
      ∃ line, f.2.IsLine ((ofFiles fs).locate index).line line ∧
        Text.IsTrimmed line ((ofFiles fs).place index).text := by
  refine ⟨?_, ?_, ?_⟩
  · intro hlt
    rw [length_ofFiles] at hlt
    obtain ⟨earlier, f, later, rfl, hle, hlt⟩ := exists_holds hlt
    have hholds : Holds (earlier ++ f :: later) index earlier.length :=
      ⟨f, by simp, by rwa [startOf_append], by rwa [startOf_append]⟩
    refine ⟨earlier.length, f, by simp, fun k' => ⟨fun h => h.unique hholds, ?_⟩, ?_⟩
    · rintro rfl
      exact hholds
    · rw [(located_of_le hle (.inr hlt)).1, startOf_append, Nat.min_eq_left (by omega)]
  · rintro earlier f rfl hge
    obtain ⟨j, hj, hcount⟩ := f.2.exists_lastStart
    have hall : Text.byteLength (earlier.map Prod.snd).flatten + Text.byteLength f.2 ≤ index := by
      simpa [length_ofFiles] using hge
    refine ⟨j, hj, ?_⟩
    rw [(located_of_le (by omega) (.inl rfl)).1, hcount, Nat.min_eq_right (by omega)]
  · rcases eq_or_ne fs [] with rfl | hne
    · exact ⟨rfl, rfl, by simp⟩
    · obtain ⟨earlier, f, later, rfl, hle, hlt⟩ := exists_owner hne index
      obtain ⟨hlocate, hfile, hline, htext⟩ := located_of_le hle hlt
      have hget : (earlier ++ f :: later)[((ofFiles (earlier ++ f :: later)).locate index).file]? =
          some f := by
        rw [hlocate]
        simp
      refine ⟨by rw [hfile, fileName_ofFiles _ hget], hline, ?_⟩
      intro g hg
      obtain rfl := Option.some.inj (hget.symm.trans hg)
      exact htext

/-- Files without a newline between them, one of them empty. -/
def abutting : List (String × Text) :=
  [("a", "x\ny".toList), ("b", []), ("c", "é \n".toList)]

/-- The second byte of `é` is on the first line of the last file, and so is the end, since the
newline there begins no line. -/
theorem locate_exact_abutting :
    (∀ k, Holds abutting 4 k ↔ k = 2) ∧ (ofFiles abutting).locate 4 = ⟨2, 1⟩ ∧
      ((ofFiles abutting).place 4).text = ['é'] ∧
      ∃ j, Text.LastStart "é \n".toList j ∧
        (ofFiles abutting).locate 7 = ⟨2, 1 + Text.newlinesBefore "é \n".toList j⟩ := by
  have hlocate : (ofFiles abutting).locate 4 = ⟨2, 1⟩ := by decide
  obtain ⟨k, f, -, hholds, hk⟩ := (locate_exact abutting 4).1 (by decide)
  obtain rfl : 2 = k := congrArg Origin.file (hlocate.symm.trans hk)
  exact ⟨hholds, hlocate, by decide,
    (locate_exact abutting 7).2.1 [("a", "x\ny".toList), ("b", [])] _ rfl (by decide)⟩

end Listing

end MacroAssembler
