/-
MacroAssembler/Proofs/Filling.lean

Filling the slots of a rendered layout.

`patch_ref` says what one patch does: the bytes of one reference change from
the empty slot to the offset, and only an offset that does not fit into two
bytes is refused.  The mark that `Chunk.patch` looks for is always found,
because the layout says where each slot is and that it is empty.

`resolve_render` carries this over to all references of a segment, with the
list of the slots that were filled on the way (`Segment.patched`).
-/
import MacroAssembler.Proofs.Rendering

namespace MacroAssembler

/-! ### One patch -/

namespace Chunk

theorem setByte_toArray (a b : List Cell) (cell : Cell) (byte : UInt8) :
    setByte (a ++ cell :: b).toArray a.length byte = (a ++ ⟨byte, cell.source⟩ :: b).toArray := by
  simp [setByte, List.modify_eq_take_cons_drop]

theorem setWord_toArray (a b : List Cell) (source m n : Nat) :
    setWord (a ++ Cell.ofWord source m ++ b).toArray a.length n =
      (a ++ Cell.ofWord source n ++ b).toArray := by
  have hi := setByte_toArray a (⟨UInt8.ofNat (m % 256), source⟩ :: b)
    ⟨UInt8.ofNat (m / 256), source⟩ (UInt8.ofNat (n / 256))
  have lo := setByte_toArray (a ++ [⟨UInt8.ofNat (n / 256), source⟩]) b
    ⟨UInt8.ofNat (m % 256), source⟩ (UInt8.ofNat (n % 256))
  simp only [setWord, Cell.ofWord, Numeral.twoBytes, List.append_assoc, List.cons_append,
    List.nil_append, List.length_append, List.length_cons, List.length_nil] at hi lo ⊢
  rw [hi, lo]

theorem word?_toArray (a b : List Cell) (source : Nat) {n : Nat} (h : n ≤ 0xffff) :
    word? (a ++ Cell.ofWord source n ++ b).toArray a.length = some n := by
  have hi : n / 256 < 256 := by omega
  simp [word?, pair?, byte?, Cell.ofWord, Numeral.twoBytes, Nat.mod_eq_of_lt hi]
  omega

/-- A patch of an empty slot fails only for an offset that is too large. -/
theorem patch_toArray {σ : Type} (a b : List Cell) (source value : Nat) (what : String) :
    patch (σ := σ) (a ++ Cell.ofWord source Cell.emptySlot ++ b).toArray a.length value what =
      if value ≤ 0xffff then .ok (a ++ Cell.ofWord source value ++ b).toArray
      else .error (.offsetOverflow value what) := by
  rw [patch, word?_toArray _ _ _ (by decide), if_pos rfl, setWord_toArray]

end Chunk

namespace Placed

/-- Whether an instruction is a reference. -/
def isRef (p : Placed) : Prop :=
  match p.instr with
  | .jumpRef _ | .tableRef _ => True
  | _ => False

theorem cells_of_isRef {p : Placed} (h : p.isRef) (value? : Option Nat) :
    p.cells value? =
      [⟨Opcode.push2, p.source⟩] ++ Cell.ofWord p.source (value?.getD Cell.emptySlot) := by
  obtain ⟨node, index, offset, source, i⟩ := p
  cases i <;> first | rfl | exact h.elim

/-- The bytes of anything but a reference do not depend on a value. -/
theorem cells_of_not_isRef {p : Placed} (h : ¬ p.isRef) (value? : Option Nat) :
    p.cells value? = p.cells none := by
  obtain ⟨node, index, offset, source, i⟩ := p
  cases i <;> first | rfl | exact absurd trivial h

theorem size_of_isRef {p : Placed} (h : p.isRef) : p.size = 3 := by
  obtain ⟨node, index, offset, source, i⟩ := p
  cases i <;> first | rfl | exact h.elim

theorem isRef_of_jumpRef {p : Placed} {label : String} (h : p.instr = .jumpRef label) :
    p.isRef := by
  simp [isRef, h]

theorem isRef_of_tableRef {p : Placed} {table : String} (h : p.instr = .tableRef table) :
    p.isRef := by
  simp [isRef, h]

end Placed

/-- A patch of an empty reference fills it. -/
theorem patch_ref {σ : Type} {p : Placed} (hp : p.isRef) {start : Nat} {a : List Cell}
    (ha : p.offset = start + a.length) (b : List Cell) (value : Nat) (what : String) :
    Chunk.patch (σ := σ) (a ++ p.cells none ++ b).toArray (p.slot - start) value what =
      if value ≤ 0xffff then .ok (a ++ p.cells (some value) ++ b).toArray
      else .error (.offsetOverflow value what) := by
  have hslot : p.slot - start = (a ++ [(⟨Opcode.push2, p.source⟩ : Cell)]).length := by
    simp [Placed.slot, ha]
    omega
  have h := Chunk.patch_toArray (σ := σ) (a ++ [⟨Opcode.push2, p.source⟩]) b p.source value what
  simpa [Placed.cells_of_isRef hp, hslot] using h

/-! ### All patches of a segment -/

/-- The slots that `Segment.fill` fills, in order. -/
def Segment.patched (start : Nat) (labels : LabelTable) : List Reference → Chunk → List Nat
  | [], _ => []
  | r :: rs, c =>
    match labels.offset? r.target with
    | none => patched start labels rs c
    | some offset =>
      match Chunk.patch (σ := Nat) c (r.slot - start) offset (jumpName r.target) with
      | .error _ => []
      | .ok c => r.slot :: patched start labels rs c

namespace Rendering

/-- The offset that a table of labels has for a reference to a label. -/
def known (labels : LabelTable) (p : Placed) : Option Nat :=
  match p.instr with
  | .jumpRef label => labels.offset? label
  | _ => none

/-- Fill the empty references that a table of labels answers. -/
def settle (labels : LabelTable) (v : Placed → Option Nat) (p : Placed) : Option Nat :=
  (v p).or (known labels p)

/-- Every offset that is filled in fits into two bytes. -/
def Fits (labels : LabelTable) (v : Placed → Option Nat) (l : List Placed) : Prop :=
  ∀ p ∈ l, v p = none → ∀ n, known labels p = some n → n ≤ 0xffff

/-- An empty reference to `label` is answered with `n`, which does not fit. -/
def Overflow (labels : LabelTable) (v : Placed → Option Nat) (l : List Placed) (n : Nat)
    (label : String) : Prop :=
  ∃ p ∈ l, p.instr = .jumpRef label ∧ v p = none ∧ labels.offset? label = some n ∧ 0xffff < n

/-- The slots that are filled in. -/
def settledSlots (labels : LabelTable) (v : Placed → Option Nat) (l : List Placed) : List Nat :=
  l.filterMap fun p => if v p = none then (known labels p).map fun _ => p.slot else none

variable {labels : LabelTable} {v : Placed → Option Nat} {start : Nat}

theorem exists_of_known {p : Placed} {n : Nat} (h : known labels p = some n) :
    ∃ label, p.instr = .jumpRef label ∧ labels.offset? label = some n := by
  obtain ⟨node, index, offset, source, i⟩ := p
  cases i <;> simp_all [known]

theorem known_jumpRef {p : Placed} {label : String} (h : p.instr = .jumpRef label) :
    known labels p = labels.offset? label := by
  simp [known, h]

theorem Overflow.not_fits {l : List Placed} {n : Nat} {label : String}
    (h : Overflow labels v l n label) : ¬ Fits labels v l := by
  obtain ⟨p, hp, hi, hv, hn, hlt⟩ := h
  intro hfits
  have hle := hfits p hp hv n (by rw [known_jumpRef hi, hn])
  exact absurd hle (Nat.not_le_of_lt hlt)

theorem Overflow.cons {l : List Placed} {n : Nat} {label : String}
    (h : Overflow labels v l n label) (p : Placed) : Overflow labels v (p :: l) n label := by
  obtain ⟨q, hq, hover⟩ := h
  exact ⟨q, List.mem_cons_of_mem _ hq, hover⟩

theorem settle_of_unknown {p : Placed} (h : v p = none → known labels p = none) :
    settle labels v p = v p := by
  rw [settle]
  rcases hv : v p with - | n
  · simp [h hv]
  · rfl

/-! ### One instruction -/

/-- An instruction that a table of labels has nothing for is passed over. -/
theorem openJumps_cons_unknown (start : Nat) {p : Placed}
    (h : v p = none → known labels p = none) (l : List Placed) (c : Chunk) :
    Segment.fill (σ := Nat) start labels (openJumps v (p :: l)) c =
        Segment.fill start labels (openJumps v l) c ∧
      Segment.patched start labels (openJumps v (p :: l)) c =
        Segment.patched start labels (openJumps v l) c := by
  rcases hopen : p.openJump? (v p) with - | r
  · simp [openJumps, hopen]
  · obtain ⟨node, index, offset, source, i⟩ := p
    rcases hv : v ⟨node, index, offset, source, i⟩ with - | n
    · cases i <;> simp [Placed.openJump?, hv] at hopen
      -- an open reference whose label is not in the table
      have hnone := h hv
      simp only [known] at hnone
      subst hopen
      simp [openJumps, Placed.openJump?, hv, Segment.fill, Segment.patched, hnone]
    · cases i <;> simp [Placed.openJump?, hv] at hopen

theorem append_code_cons (w : Placed → Option Nat) (a : List Cell) (p : Placed) (l : List Placed) :
    a ++ code w (p :: l) = a ++ p.cells (w p) ++ code w l := by
  simp [code]

theorem openJumps_cons_jumpRef {p : Placed} {label : String} (hi : p.instr = .jumpRef label)
    (hv : v p = none) (l : List Placed) :
    openJumps v (p :: l) = ⟨label, p.slot⟩ :: openJumps v l := by
  simp [openJumps, Placed.openJump?, hi, hv]

/-- An empty reference to a known label is filled, and the rest after it. -/
theorem fill_cons_known {a : List Cell} {p : Placed} {label : String} {n : Nat}
    (hoff : p.offset = start + a.length) (hi : p.instr = .jumpRef label) (hv : v p = none)
    (hn : labels.offset? label = some n) (hle : n ≤ 0xffff) (l : List Placed) :
    Segment.fill (σ := Nat) start labels (openJumps v (p :: l)) (a ++ code v (p :: l)).toArray =
        Segment.fill start labels (openJumps v l) (a ++ p.cells (some n) ++ code v l).toArray ∧
      Segment.patched start labels (openJumps v (p :: l)) (a ++ code v (p :: l)).toArray =
        p.slot :: Segment.patched start labels (openJumps v l)
          (a ++ p.cells (some n) ++ code v l).toArray := by
  have hpatch := patch_ref (σ := Nat) (Placed.isRef_of_jumpRef hi) hoff (code v l) n
    (Segment.jumpName label)
  rw [if_pos hle] at hpatch
  rw [append_code_cons, openJumps_cons_jumpRef hi hv, hv]
  simp only [Segment.fill, Segment.patched, hn, hpatch, and_self]

/-- An offset that does not fit ends the filling. -/
theorem fill_cons_overflow {a : List Cell} {p : Placed} {label : String} {n : Nat}
    (hoff : p.offset = start + a.length) (hi : p.instr = .jumpRef label) (hv : v p = none)
    (hn : labels.offset? label = some n) (hlt : 0xffff < n) (l : List Placed) :
    (Segment.fill (σ := Nat) start labels (openJumps v (p :: l)) (a ++ code v (p :: l)).toArray).2 =
      some (.offsetOverflow n (Segment.jumpName label)) := by
  have hpatch := patch_ref (σ := Nat) (Placed.isRef_of_jumpRef hi) hoff (code v l) n
    (Segment.jumpName label)
  rw [if_neg (Nat.not_le_of_lt hlt)] at hpatch
  rw [append_code_cons, openJumps_cons_jumpRef hi hv, hv]
  simp only [Segment.fill, hn, hpatch]

/-! ### Whole layouts -/

/-- The layout behind an instruction. -/
theorem laid_behind {a : List Cell} {p : Placed} {l : List Placed}
    (hl : Laid (start + a.length) (p :: l)) (value? : Option Nat) :
    Laid (start + (a ++ p.cells value?).length) l := by
  simpa [Nat.add_assoc] using hl.2

theorem fits_cons {p : Placed} {l : List Placed} :
    Fits labels v (p :: l) ↔
      (v p = none → ∀ n, known labels p = some n → n ≤ 0xffff) ∧ Fits labels v l :=
  List.forall_mem_cons

/-- Every known reference is filled, or filling stops at an offset that does
not fit.  `a` is the code before the layout. -/
theorem fill_code {a : List Cell} {l : List Placed} (hl : Laid (start + a.length) l) :
    (Fits labels v l ∧
      Segment.fill (σ := Nat) start labels (openJumps v l) (a ++ code v l).toArray =
        ((a ++ code (settle labels v) l).toArray, none) ∧
      Segment.patched start labels (openJumps v l) (a ++ code v l).toArray =
        settledSlots labels v l) ∨
    ∃ n label, Overflow labels v l n label ∧
      (Segment.fill (σ := Nat) start labels (openJumps v l) (a ++ code v l).toArray).2 =
        some (.offsetOverflow n (Segment.jumpName label)) := by
  induction l generalizing a with
  | nil => exact .inl (by simp [Fits, openJumps, code, Segment.fill, Segment.patched, settledSlots])
  | cons p l ih =>
    by_cases hp : v p = none → known labels p = none
    · -- the instruction stays as it is, and goes over to the code before the layout
      obtain ⟨hfill, hslots⟩ := openJumps_cons_unknown start hp l (a ++ code v (p :: l)).toArray
      rw [hfill, hslots, append_code_cons, append_code_cons]
      obtain ⟨hf, ihfill, ihslots⟩ | ⟨n, label, hover, herr⟩ := ih (laid_behind hl (v p))
      · refine .inl ⟨fits_cons.2 ⟨?_, hf⟩, ?_, ?_⟩
        · intro hv n hn
          simp [hp hv] at hn
        · rw [ihfill, settle_of_unknown hp]
        · rw [ihslots]
          by_cases hv : v p = none <;> simp [settledSlots, hv, hp]
      · exact .inr ⟨n, label, hover.cons p, herr⟩
    · obtain ⟨hv, hk⟩ := Classical.not_imp.1 hp
      obtain ⟨n, hn⟩ := Option.ne_none_iff_exists'.1 hk
      obtain ⟨label, hi, hlabel⟩ := exists_of_known hn
      by_cases hle : n ≤ 0xffff
      · obtain ⟨hfill, hslots⟩ := fill_cons_known hl.1 hi hv hlabel hle l
        rw [hfill, hslots]
        obtain ⟨hf, ihfill, ihslots⟩ | ⟨k, label', hover, herr⟩ := ih (laid_behind hl (some n))
        · refine .inl ⟨fits_cons.2 ⟨?_, hf⟩, ?_, ?_⟩
          · intro _ k hk
            obtain rfl : n = k := by simpa [hn] using hk
            exact hle
          · rw [ihfill, append_code_cons]
            simp [settle, hv, hn]
          · rw [ihslots]
            simp [settledSlots, hv, hn]
        · exact .inr ⟨k, label', hover.cons p, herr⟩
      · have hlt := Nat.lt_of_not_le hle
        exact .inr ⟨n, label, ⟨p, List.mem_cons_self, hi, hv, hlabel, hlt⟩,
          fill_cons_overflow hl.1 hi hv hlabel hlt l⟩

/-! ### Resolving -/

theorem fill_of_all_unknown {refs : List Reference} (h : ∀ r ∈ refs, (!labels.has r.target) = true)
    (c : Chunk) : Segment.fill (σ := Nat) start labels refs c = (c, none) := by
  induction refs with
  | nil => rfl
  | cons r refs ih =>
    have hr := h r List.mem_cons_self
    have hnone : labels.offset? r.target = none := by
      simpa [LabelTable.has, LabelTable.offset?] using hr
    rw [Segment.fill, hnone]
    exact ih fun q hq => h q (List.mem_cons_of_mem _ hq)

/-- The early exit of `Segment.resolve` changes nothing. -/
theorem resolve_eq_fill (start : Nat) (s : Segment) :
    s.resolve (σ := Nat) start =
      match Segment.fill start s.labels s.jumps s.cells.toArray with
      | (_, some e) => .error e
      | (c, none) =>
        .ok { s with cells := c.toList, jumps := Segment.unknown s.labels s.jumps } := by
  rw [Segment.resolve]
  by_cases hlen : (Segment.unknown s.labels s.jumps).length = s.jumps.length
  · have hall := List.length_filter_eq_length_iff.1 hlen
    have hself : Segment.unknown s.labels s.jumps = s.jumps := List.filter_eq_self.2 hall
    rw [fill_of_all_unknown hall, hself]
    simp
  · simp only [if_neg hlen]
    rcases Segment.fill start s.labels s.jumps s.cells.toArray with ⟨c, - | e⟩ <;> rfl

/-- The references left open are those that stay empty. -/
theorem unknown_openJumps (labels : LabelTable) (v : Placed → Option Nat) (l : List Placed) :
    Segment.unknown labels (openJumps v l) = openJumps (settle labels v) l := by
  rw [Segment.unknown, openJumps, openJumps, List.filter_filterMap]
  refine List.filterMap_congr fun p _ => ?_
  obtain ⟨node, index, offset, source, i⟩ := p
  rcases hv : v ⟨node, index, offset, source, i⟩ with - | n
  · cases i with
    | jumpRef label =>
      simp only [Placed.openJump?, settle, known, hv, LabelTable.has, LabelTable.offset?]
      rcases hsite : labels.get? label with - | site <;> simp [hsite]
    | _ => simp [Placed.openJump?]
  · cases i <;> simp [Placed.openJump?, settle, hv]

/-- Resolving a segment fills every reference that its labels answer, or fails
for an offset that does not fit. -/
theorem resolve_render {l : List Placed} (hl : Laid start l) :
    (Fits (labelsOf l) v l ∧
      (render v l).resolve (σ := Nat) start = .ok (render (settle (labelsOf l) v) l) ∧
      Segment.patched start (labelsOf l) (openJumps v l) (code v l).toArray =
        settledSlots (labelsOf l) v l) ∨
    ∃ n label, Overflow (labelsOf l) v l n label ∧
      (render v l).resolve (σ := Nat) start =
        .error (.offsetOverflow n (Segment.jumpName label)) := by
  rw [resolve_eq_fill]
  obtain ⟨hf, hfill, hslots⟩ | ⟨n, label, hover, herr⟩ :=
    fill_code (v := v) (a := []) (by simpa using hl)
  · rw [List.nil_append, List.nil_append] at hfill
    refine .inl ⟨hf, ?_, by simpa using hslots⟩
    simp only [render, hfill, unknown_openJumps]
  · refine .inr ⟨n, label, hover, ?_⟩
    rw [List.nil_append] at herr
    simp only [render]
    rcases hfill : Segment.fill (σ := Nat) start (labelsOf l) (openJumps v l) (code v l).toArray
      with ⟨c, - | e⟩
    · simp [hfill] at herr
    · simpa [hfill] using herr

end Rendering

/-! ### Filled slots -/

open Rendering

theorem Laid.offset_eq {pos : Nat} {l₁ l₂ : List Placed} {e : Placed}
    (h : Laid pos (l₁ ++ e :: l₂)) : e.offset = pos + totalSize l₁ := by
  induction l₁ generalizing pos with
  | nil => exact h.1
  | cons p l₁ ih =>
    rw [ih h.2, totalSize_cons, Nat.add_assoc]

/-- The bytes of an instruction stand at its offset. -/
theorem take_drop_code (v : Placed → Option Nat) {l : List Placed} (hl : Laid 0 l) {e : Placed}
    (he : e ∈ l) (b : List Cell) :
    ((code v l ++ b).drop e.offset).take e.size = e.cells (v e) := by
  obtain ⟨l₁, l₂, rfl⟩ := List.append_of_mem he
  have hoffset : e.offset = (code v l₁).length := by rw [hl.offset_eq, length_code, Nat.zero_add]
  rw [hoffset, code_append, append_code_cons, List.append_assoc, List.append_assoc, List.drop_left,
    ← Placed.length_cells e (v e), List.take_left]

/-- The slot of a reference holds its offset. -/
theorem word?_code {v : Placed → Option Nat} {l : List Placed} (hl : Laid 0 l) {e : Placed}
    (he : e ∈ l) (href : e.isRef) {n : Nat} (hv : v e = some n) (hn : n ≤ 0xffff)
    (b : List Cell) : Chunk.word? (code v l ++ b).toArray e.slot = some n := by
  obtain ⟨l₁, l₂, rfl⟩ := List.append_of_mem he
  have hslot : e.slot = (code v l₁ ++ [(⟨Opcode.push2, e.source⟩ : Cell)]).length := by
    simp [Placed.slot, hl.offset_eq]
  have hcode : code v (l₁ ++ e :: l₂) ++ b =
      code v l₁ ++ [⟨Opcode.push2, e.source⟩] ++ Cell.ofWord e.source n ++ (code v l₂ ++ b) := by
    rw [code_append, append_code_cons, hv, Placed.cells_of_isRef href]
    simp
  rw [hslot, hcode]
  exact Chunk.word?_toArray _ _ _ hn

/-- Bytes depend on the values in references only where these differ. -/
theorem getElem?_code_congr {v w : Placed → Option Nat} {pos : Nat} {l : List Placed}
    (hl : Laid pos l) {i : Nat}
    (hi : ∀ p ∈ l, p.isRef → v p ≠ w p → pos + i ≠ p.slot ∧ pos + i ≠ p.slot + 1) :
    (code v l)[i]? = (code w l)[i]? := by
  induction l generalizing pos i with
  | nil => rfl
  | cons p l ih =>
    have hcode : ∀ u, code u (p :: l) = p.cells (u p) ++ code u l := fun _ => rfl
    rw [hcode, hcode]
    rcases Nat.lt_or_ge i p.size with hlt | hge
    · rw [List.getElem?_append_left (by simpa using hlt),
        List.getElem?_append_left (by simpa using hlt)]
      by_cases href : p.isRef
      · by_cases hvw : v p = w p
        · rw [hvw]
        · -- of the three bytes of a reference only the opcode is left
          obtain ⟨hne, hne'⟩ := hi p List.mem_cons_self href hvw
          have hsize := Placed.size_of_isRef href
          rw [Placed.slot, hl.1] at hne hne'
          obtain rfl : i = 0 := by omega
          rw [Placed.cells_of_isRef href, Placed.cells_of_isRef href]
          rfl
      · rw [Placed.cells_of_not_isRef href (v p), Placed.cells_of_not_isRef href (w p)]
    · rw [List.getElem?_append_right (by simpa using hge),
        List.getElem?_append_right (by simpa using hge), Placed.length_cells, Placed.length_cells]
      refine ih hl.2 fun q hq href hvw => ?_
      have := hi q (List.mem_cons_of_mem _ hq) href hvw
      omega

/-- Sources do not depend on the values in references. -/
theorem map_source_code (v w : Placed → Option Nat) (l : List Placed) :
    (code v l).map Cell.source = (code w l).map Cell.source := by
  rw [code, code, List.map_flatMap, List.map_flatMap]
  refine List.flatMap_congr fun p _ => ?_
  by_cases href : p.isRef
  · rw [Placed.cells_of_isRef href, Placed.cells_of_isRef href]
    rfl
  · rw [Placed.cells_of_not_isRef href (v p), Placed.cells_of_not_isRef href (w p)]

end MacroAssembler
