/-
MacroAssembler/Proofs/Slots.lean

Slots in code, byte by byte.

A chunk is seen through `byte?` and `source?`: writing a word at a slot changes two bytes
and no source (`byte?_setWord`, `source?_setWord`), and a patch is such a write, of an
empty slot (`patch_eq_ok_iff`).

While code is made (`Chunk.edit`), cells are written behind it and slots in it are patched, in
any order and also where slots overlap.  A byte that is not a byte of the mark is never
changed again, since a patch needs the whole mark (`Settles`).  So a slot that was filled with
anything but the mark itself is not filled a second time.  Filling it with the mark leaves no
trace: `0xffff` is an offset like any other, and a slot that holds it looks empty.

Main result: `Chunk.patch_again`.
-/
import Mathlib.Control.Monad.Basic
import MacroAssembler.Code.Segment

namespace MacroAssembler.Chunk

/-! ### Bytes and sources -/

theorem byte?_setByte (c : Chunk) (offset : Nat) (b : UInt8) (i : Nat) :
    (c.setByte offset b).byte? i =
      if i = offset then (c.byte? i).map fun _ => b else c.byte? i := by
  simp only [byte?, setByte, Array.getElem?_modify, eq_comm (a := i)]
  split
  · rw [Option.map_map, Option.map_map]
    rfl
  · rfl

theorem source?_setByte (c : Chunk) (offset : Nat) (b : UInt8) (i : Nat) :
    (c.setByte offset b).source? i = c.source? i := by
  simp only [source?, setByte, Array.getElem?_modify]
  split
  · rw [Option.map_map]
    rfl
  · rfl

theorem byte?_setWord (c : Chunk) (slot n i : Nat) :
    (c.setWord slot n).byte? i =
      if i = slot then (c.byte? i).map fun _ => UInt8.ofNat (n / 256)
      else if i = slot + 1 then (c.byte? i).map fun _ => UInt8.ofNat (n % 256)
      else c.byte? i := by
  simp only [setWord, Numeral.twoBytes, byte?_setByte]
  by_cases hhi : i = slot
  · have hlo : i ≠ slot + 1 := by omega
    rw [if_neg hlo, if_pos hhi, if_pos hhi]
  · rw [if_neg hhi, if_neg hhi]

@[simp] theorem source?_setWord (c : Chunk) (slot n i : Nat) :
    (c.setWord slot n).source? i = c.source? i := by
  simp only [setWord, source?_setByte]

@[simp] theorem size_setWord (c : Chunk) (slot n : Nat) : (c.setWord slot n).size = c.size := by
  simp only [setWord, setByte, Array.size_modify]

/-- Bytes and sources are all there is to a chunk. -/
theorem ext_byte? {a b : Chunk} (hbyte : ∀ i, a.byte? i = b.byte? i)
    (hsource : ∀ i, a.source? i = b.source? i) : a = b := by
  refine Array.ext_getElem? fun i => ?_
  have hi := hbyte i
  have hi' := hsource i
  simp only [byte?, source?] at hi hi'
  rcases ha : a[i]? with - | x <;> rcases hb : b[i]? with - | y <;> simp only [ha, hb] at hi hi'
  · rfl
  · cases hi
  · cases hi
  · -- two cells of the same byte and the same source
    obtain ⟨byte, source⟩ := x
    obtain rfl : byte = y.byte := Option.some.inj hi
    obtain rfl : source = y.source := Option.some.inj hi'
    rfl

theorem byte?_append {a : Chunk} {i : Nat} {b : UInt8} (h : a.byte? i = some b)
    (cells : List Cell) : byte? (a ++ cells) i = some b := by
  obtain ⟨cell, hcell, rfl⟩ := Option.map_eq_some_iff.1 h
  rw [← Array.getElem?_toList] at hcell
  obtain ⟨hlt, -⟩ := List.getElem?_eq_some_iff.1 hcell
  rw [byte?, ← Array.getElem?_toList, Array.toList_appendList, List.getElem?_append_left hlt, hcell]
  rfl

/-! ### Words -/

theorem word?_eq_some_iff {c : Chunk} {slot n : Nat} :
    c.word? slot = some n ↔
      ∃ hi lo, c.byte? slot = some hi ∧ c.byte? (slot + 1) = some lo ∧
        hi.toNat * 256 + lo.toNat = n := by
  rw [word?, pair?]
  rcases c.byte? slot with - | hi <;> rcases c.byte? (slot + 1) with - | lo <;> simp

/-- The mark of an empty slot is two bytes of ones. -/
theorem word?_eq_emptySlot_iff {c : Chunk} {slot : Nat} :
    c.word? slot = some Cell.emptySlot ↔
      c.byte? slot = some 0xff ∧ c.byte? (slot + 1) = some 0xff := by
  rw [word?_eq_some_iff]
  constructor
  · rintro ⟨hi, lo, hhi, hlo, hn⟩
    have hhiLt := hi.toNat_lt
    have hloLt := lo.toNat_lt
    rw [Cell.emptySlot] at hn
    have hhiMax : hi = 0xff := UInt8.toNat_inj.1 (show hi.toNat = 255 by omega)
    have hloMax : lo = 0xff := UInt8.toNat_inj.1 (show lo.toNat = 255 by omega)
    rw [hhi, hlo, hhiMax, hloMax]
    exact ⟨rfl, rfl⟩
  · rintro ⟨hhi, hlo⟩
    exact ⟨_, _, hhi, hlo, rfl⟩

/-- A word that is written over another is read back. -/
theorem word?_setWord {c : Chunk} {slot m : Nat} (h : c.word? slot = some m) {n : Nat}
    (hn : n ≤ 0xffff) : (c.setWord slot n).word? slot = some n := by
  obtain ⟨hi, lo, hhi, hlo, -⟩ := word?_eq_some_iff.1 h
  have hne : slot + 1 ≠ slot := by omega
  refine word?_eq_some_iff.2 ⟨UInt8.ofNat (n / 256), UInt8.ofNat (n % 256), ?_, ?_, ?_⟩
  · rw [byte?_setWord, if_pos rfl, hhi]
    rfl
  · rw [byte?_setWord, if_neg hne, if_pos rfl, hlo]
    rfl
  · rw [UInt8.toNat_ofNat', UInt8.toNat_ofNat']
    omega

/-- Outside its two bytes a word changes nothing. -/
theorem byte?_setWord_of_ne {c : Chunk} {slot n i : Nat} (h : i ≠ slot) (h' : i ≠ slot + 1) :
    (c.setWord slot n).byte? i = c.byte? i := by
  rw [byte?_setWord, if_neg h, if_neg h']

/-! ### Patches -/

section Patch

variable {σ : Type} {c d : Chunk} {slot value : Nat} {what : String}

theorem patch_of_emptySlot (h : c.word? slot = some Cell.emptySlot) (value : Nat)
    (what : String) :
    c.patch (σ := σ) slot value what =
      if value ≤ 0xffff then .ok (c.setWord slot value)
      else .error (.offsetOverflow value what) := by
  rw [patch, if_pos h]

theorem patch_of_ne_emptySlot (h : c.word? slot ≠ some Cell.emptySlot) (value : Nat)
    (what : String) :
    c.patch (σ := σ) slot value what = .error (.placeholderCorruption slot (c.found slot)) := by
  rw [patch, if_neg h]

theorem patch_eq_ok_iff :
    c.patch (σ := σ) slot value what = .ok d ↔
      c.word? slot = some Cell.emptySlot ∧ value ≤ 0xffff ∧ d = c.setWord slot value := by
  by_cases hempty : c.word? slot = some Cell.emptySlot
  · rw [patch_of_emptySlot hempty]
    split
    · rename_i hle
      simp [hempty, hle, eq_comm]
    · rename_i hlt
      simp [hlt]
  · rw [patch_of_ne_emptySlot hempty]
    simp [hempty]

/-- A slot that is filled with the mark is as it was. -/
theorem setWord_emptySlot (h : c.word? slot = some Cell.emptySlot) :
    c.setWord slot Cell.emptySlot = c := by
  obtain ⟨hhi, hlo⟩ := word?_eq_emptySlot_iff.1 h
  refine ext_byte? (fun i => ?_) fun i => source?_setWord _ _ _ _
  rw [byte?_setWord]
  split
  · rename_i hi
    rw [hi, hhi]
    rfl
  split
  · rename_i hi
    rw [hi, hlo]
    rfl
  · rfl

end Patch

/-! ### Code in the making -/

/-- A step in the making of code. -/
inductive Edit where
  /-- Write cells behind the code: bytes, a push, a placeholder, another chunk. -/
  | write (cells : List Cell)
  /-- Fill a slot, if that can be done. -/
  | patch (slot value : Nat) (what : String)

/-- The code after a step.  A patch that is refused leaves it as it was. -/
def edit (c : Chunk) : Edit → Chunk
  | .write cells => c ++ cells
  | .patch slot value what => (c.patch (σ := Nat) slot value what).toOption.getD c

/-- The code after some steps. -/
def edits (c : Chunk) (es : List Edit) : Chunk := es.foldl edit c

/-- Bytes stay, and those that are not of the mark stay as they are. -/
def Settles (c d : Chunk) : Prop :=
  ∀ i b, c.byte? i = some b → ∃ b', d.byte? i = some b' ∧ (b ≠ 0xff → b' = b)

namespace Settles

theorem refl (c : Chunk) : Settles c c := fun _ b hb => ⟨b, hb, fun _ => rfl⟩

theorem trans {c d e : Chunk} (h : Settles c d) (h' : Settles d e) : Settles c e := by
  intro i b hb
  obtain ⟨b', hb', hkept⟩ := h i b hb
  obtain ⟨b'', hb'', hkept'⟩ := h' i b' hb'
  refine ⟨b'', hb'', fun hne => ?_⟩
  obtain rfl := hkept hne
  exact hkept' hne

/-- A byte that reads as one of the mark has always been one. -/
theorem eq_of_byte? {c d : Chunk} (h : Settles c d) {i : Nat} {b : UInt8}
    (hb : c.byte? i = some b) (hd : d.byte? i = some 0xff) : b = 0xff := by
  obtain ⟨b', hb', hkept⟩ := h i b hb
  obtain rfl : b' = 0xff := Option.some.inj (hb'.symm.trans hd)
  exact Decidable.byContradiction fun hne => hne (hkept hne).symm

/-- A slot that is not empty stays so. -/
theorem word?_ne {c d : Chunk} {slot n : Nat} (h : Settles c d) (hn : c.word? slot = some n)
    (hne : n ≠ Cell.emptySlot) : d.word? slot ≠ some Cell.emptySlot := by
  intro hempty
  obtain ⟨hi, lo, hhi, hlo, rfl⟩ := word?_eq_some_iff.1 hn
  obtain ⟨hhi', hlo'⟩ := word?_eq_emptySlot_iff.1 hempty
  rw [h.eq_of_byte? hhi hhi', h.eq_of_byte? hlo hlo'] at hne
  exact hne rfl

end Settles

theorem settles_setWord {c : Chunk} {slot : Nat} (h : c.word? slot = some Cell.emptySlot)
    (n : Nat) : Settles c (c.setWord slot n) := by
  obtain ⟨hhi, hlo⟩ := word?_eq_emptySlot_iff.1 h
  intro i b hb
  rw [byte?_setWord]
  split
  · rename_i hi
    rw [hi, hhi] at hb
    rw [hi, hhi]
    exact ⟨_, rfl, fun hne => absurd (Option.some.inj hb).symm hne⟩
  split
  · rename_i hi
    rw [hi, hlo] at hb
    rw [hi, hlo]
    exact ⟨_, rfl, fun hne => absurd (Option.some.inj hb).symm hne⟩
  · exact ⟨b, hb, fun _ => rfl⟩

theorem settles_edit (c : Chunk) (e : Edit) : Settles c (c.edit e) := by
  cases e with
  | write cells => exact fun i b hb => ⟨b, byte?_append hb cells, fun _ => rfl⟩
  | patch slot value what =>
    rw [edit]
    rcases hpatch : c.patch (σ := Nat) slot value what with - | d
    · exact .refl c
    · obtain ⟨hempty, -, rfl⟩ := patch_eq_ok_iff.1 hpatch
      exact settles_setWord hempty value

theorem settles_edits (c : Chunk) (es : List Edit) : Settles c (c.edits es) := by
  induction es generalizing c with
  | nil => exact .refl c
  | cons e es ih => exact (settles_edit c e).trans (ih (c.edit e))

/-! ### Second patches -/

/-- **A second patch is refused, unless the first one was of the mark.**  Whatever is written
and patched in between, a slot that holds anything but the mark is reported, and the code stays
as it is.  A patch of the mark itself changes nothing, so the slot can be filled again. -/
theorem patch_again {c d : Chunk} {slot value : Nat} {what : String}
    (h : c.patch (σ := Nat) slot value what = .ok d) :
    (value ≠ Cell.emptySlot → ∀ es again what',
      (d.edits es).patch (σ := Nat) slot again what' =
          .error (.placeholderCorruption slot ((d.edits es).found slot)) ∧
        (d.edits es).edit (.patch slot again what') = d.edits es) ∧
      (value = Cell.emptySlot → d = c) := by
  obtain ⟨hempty, hle, rfl⟩ := patch_eq_ok_iff.1 h
  constructor
  · intro hne es again what'
    have hfull := (settles_edits (c.setWord slot value) es).word?_ne (word?_setWord hempty hle) hne
    have hrefused := patch_of_ne_emptySlot (σ := Nat) hfull again what'
    refine ⟨hrefused, ?_⟩
    rw [edit, hrefused]
    rfl
  · rintro rfl
    exact setWord_emptySlot hempty

/-- A push of an empty slot, and a byte of ones behind it: the slots at 1 and at 2 overlap. -/
def overlapping : Chunk := edits #[] [.write (Cell.placeholder 0), .write [⟨0xff, 0⟩]]

/-- The slot at 1 is filled, then the one at 2 over its second byte, and the first patch is still
noticed. -/
theorem patch_again_overlapping :
    ∃ d, overlapping.patch (σ := Nat) 1 0x00ff "x" = .ok d ∧ 0x00ff ≠ Cell.emptySlot ∧
      (d.edits [.patch 2 7 "y"]).patch (σ := Nat) 1 9 "x" =
        .error (.placeholderCorruption 1 (0, 0)) := by
  have h : overlapping.patch (σ := Nat) 1 0x00ff "x" =
      .ok (overlapping.setWord 1 0x00ff) := by decide +kernel
  have hne : 0x00ff ≠ Cell.emptySlot := by decide
  refine ⟨_, h, hne, ?_⟩
  rw [((patch_again h).1 hne [.patch 2 7 "y"] 9 "x").1]
  decide +kernel

/-- The mark is an offset that fits, and a slot that was filled with it is filled again. -/
theorem patched_twice :
    ∃ c d e : Chunk, c = edits #[] [.write (Cell.placeholder 0)] ∧
      c.patch (σ := Nat) 1 0xffff "x" = .ok d ∧ d.patch (σ := Nat) 1 7 "y" = .ok e ∧
        e.word? 1 = some 7 :=
  ⟨_, _, _, rfl, rfl, rfl, rfl⟩

end MacroAssembler.Chunk
