/-
MacroAssembler/Proofs/Rendering.lean

Segments as layouts whose references are partly filled.

A segment forgets which instructions its bytes came from.  `render v l` is the
segment of a layout `l` in which the reference at `p` holds the offset `v p`,
or is empty when `v p` is `none`.  Bytes, labels and open references of such a
segment are read off the layout, so what the expander does to segments becomes
something done to `v`:

* joining segments joins layouts (`render_append`);
* filling the references of a segment asks the labels of the layout for every
  reference that is still empty, and changes nothing else (`resolve_render`).

A slot is empty or filled by what `v` says of its instruction and not by what
its bytes are, so a reference that is filled with the mark of an empty slot
causes no trouble.  `patch_toArray` is the only place where bytes are looked at.
-/
import Mathlib.Data.List.Basic
import MacroAssembler.Proofs.LabelScope

namespace MacroAssembler

/-! ### Tables of labels -/

namespace LabelTable

@[simp] theorem get?_empty (label : String) : empty.get? label = none := rfl

theorem get?_single (name label : String) (site : LabelSite) :
    (single name site).get? label = if name = label then some site else none := by
  by_cases h : name = label
  · simp [get?, single, h]
  · have : (label == name) = false := by simpa using fun e => h e.symm
    simp [get?, single, List.lookup_cons, h, this]

theorem lookup_filter {β : Type} (keep : String → Bool) (entries : List (String × β))
    (label : String) :
    (entries.filter fun e => keep e.1).lookup label =
      if keep label then entries.lookup label else none := by
  induction entries with
  | nil => simp
  | cons e entries ih =>
    obtain ⟨name, b⟩ := e
    by_cases hl : label = name
    · subst hl
      by_cases hk : keep label <;> simp [hk, ih]
    · have : (label == name) = false := by simpa using hl
      by_cases hk : keep name <;> simp [List.lookup_cons, hk, ih, this]

/-- In a merged table the later site holds. -/
@[simp] theorem get?_merge (t u : LabelTable) (label : String) :
    (t.merge u).get? label = (u.get? label).or (t.get? label) := by
  simp only [get?, merge, List.lookup_append]
  rw [lookup_filter (fun name => !u.has name)]
  rcases h : u.entries.lookup label with - | site <;> simp [has, get?, h]

theorem has_merge (t u : LabelTable) (label : String) :
    (t.merge u).has label = (u.has label || t.has label) := by
  simp only [has, get?_merge]
  rcases u.get? label with - | site <;> simp

@[simp] theorem empty_merge (t : LabelTable) : empty.merge t = t := rfl

@[simp] theorem merge_empty (t : LabelTable) : t.merge empty = t := by
  simp [merge, empty, has, get?]

theorem merge_assoc (t u w : LabelTable) : (t.merge u).merge w = t.merge (u.merge w) := by
  -- an entry of `t` stays when neither of the later tables has its label
  have h : ∀ e : String × LabelSite, (!(u.merge w).has e.1) = (!w.has e.1 && !u.has e.1) := by
    intro e
    rw [has_merge, Bool.not_or]
  simp only [merge, LabelTable.mk.injEq] at h ⊢
  simp [List.filter_append, List.filter_filter, h]

/-- No label is listed twice. -/
def Distinct (t : LabelTable) : Prop := (t.entries.map Prod.fst).Nodup

theorem Distinct.merge {t u : LabelTable} (ht : t.Distinct) (hu : u.Distinct) :
    (t.merge u).Distinct := by
  rw [Distinct, LabelTable.merge, List.map_append, List.nodup_append]
  refine ⟨ht.sublist (List.filter_sublist.map _), hu, ?_⟩
  rintro a ha b hb rfl
  obtain ⟨e, he, rfl⟩ := List.mem_map.1 ha
  obtain ⟨e', he', hname⟩ := List.mem_map.1 hb
  -- an entry kept from `t` has no site in `u`
  have hno : u.has e.1 = false := by simpa using (List.mem_filter.1 he).2
  have hnone : u.entries.lookup e.1 = none := by simpa [has, get?] using hno
  have := List.lookup_eq_none_iff.1 hnone e' he'
  simp [hname] at this

end LabelTable

/-! ### Rendering -/

namespace Placed

/-- The bytes of an instruction; a reference holds the given offset, or is
empty. -/
def cells (p : Placed) (value? : Option Nat) : List Cell :=
  match p.instr with
  | .opcode byte => Cell.ofBytes p.source [byte]
  | .push q => Cell.ofBytes p.source q.bytes
  | .dest _ => Cell.ofBytes p.source [Opcode.jumpDest]
  | .jumpRef _ | .tableRef _ =>
    ⟨Opcode.push2, p.source⟩ :: Cell.ofWord p.source (value?.getD Cell.emptySlot)

/-- The labels that an instruction defines. -/
def labels (p : Placed) : LabelTable :=
  match p.instr with
  | .dest label => .single label ⟨p.index, p.offset⟩
  | _ => .empty

/-- A reference to a label, if it is still empty. -/
def openJump? (p : Placed) (value? : Option Nat) : Option Reference :=
  match p.instr, value? with
  | .jumpRef label, none => some ⟨label, p.slot⟩
  | _, _ => none

/-- A reference to a jump table. -/
def tableRef? (p : Placed) : Option Reference :=
  match p.instr with
  | .tableRef table => some ⟨table, p.slot⟩
  | _ => none

@[simp] theorem length_cells (p : Placed) (value? : Option Nat) :
    (p.cells value?).length = p.size := by
  obtain ⟨node, index, offset, source, i⟩ := p
  cases i <;> simp [cells, size, Instr.size, Cell.ofBytes, Cell.ofWord, Push.bytes]
  omega

theorem get?_labels (p : Placed) (label : String) : p.labels.get? label = p.site? label := by
  obtain ⟨node, index, offset, source, i⟩ := p
  cases i <;> simp [labels, site?, LabelTable.get?_single]

theorem offset_of_site? {p : Placed} {label : String} {site : LabelSite}
    (h : p.site? label = some site) : site.offset = p.offset := by
  obtain ⟨node, index, offset, source, i⟩ := p
  cases i <;> simp [site?] at h
  rw [← h.2]

@[simp] theorem cells_inside (k : Nat) (p : Placed) (value? : Option Nat) :
    (p.inside k).cells value? = p.cells value? := rfl

@[simp] theorem labels_inside (k : Nat) (p : Placed) : (p.inside k).labels = p.labels := rfl

@[simp] theorem openJump?_inside (k : Nat) (p : Placed) (value? : Option Nat) :
    (p.inside k).openJump? value? = p.openJump? value? := rfl

@[simp] theorem tableRef?_inside (k : Nat) (p : Placed) :
    (p.inside k).tableRef? = p.tableRef? := rfl

end Placed

namespace Rendering

/-- The bytes of a layout. -/
def code (v : Placed → Option Nat) (l : List Placed) : List Cell :=
  l.flatMap fun p => p.cells (v p)

/-- The labels of a layout. -/
def labelsOf : List Placed → LabelTable
  | [] => .empty
  | p :: l => p.labels.merge (labelsOf l)

/-- The empty references to labels of a layout. -/
def openJumps (v : Placed → Option Nat) (l : List Placed) : List Reference :=
  l.filterMap fun p => p.openJump? (v p)

/-- The segment of a layout. -/
def render (v : Placed → Option Nat) (l : List Placed) : Segment where
  cells := code v l
  labels := labelsOf l
  jumps := openJumps v l
  tables := l.filterMap Placed.tableRef?

@[simp] theorem length_code (v : Placed → Option Nat) (l : List Placed) :
    (code v l).length = totalSize l := by
  induction l with
  | nil => rfl
  | cons p l ih =>
    simp only [code] at ih
    simp [code, ih]

theorem code_append (v : Placed → Option Nat) (l l' : List Placed) :
    code v (l ++ l') = code v l ++ code v l' := by
  simp [code]

theorem labelsOf_append (l l' : List Placed) :
    labelsOf (l ++ l') = (labelsOf l).merge (labelsOf l') := by
  induction l with
  | nil => rfl
  | cons p l ih => simp [labelsOf, ih, LabelTable.merge_assoc]

theorem labelsOf_map_inside (k : Nat) (l : List Placed) :
    labelsOf (l.map (Placed.inside k)) = labelsOf l := by
  induction l with
  | nil => rfl
  | cons p l ih => simp [labelsOf, ih]

theorem distinct_labelsOf (l : List Placed) : (labelsOf l).Distinct := by
  induction l with
  | nil => exact List.nodup_nil
  | cons p l ih =>
    refine LabelTable.Distinct.merge ?_ ih
    obtain ⟨node, index, offset, source, i⟩ := p
    cases i <;> simp [Placed.labels, LabelTable.Distinct, LabelTable.empty, LabelTable.single]

@[simp] theorem size_render (v : Placed → Option Nat) (l : List Placed) :
    (render v l).size = totalSize l := length_code v l

/-- Layouts one after the other are segments one after the other. -/
theorem render_append (v : Placed → Option Nat) (l l' : List Placed) :
    render v (l ++ l') = render v l ++ render v l' := by
  show _ = Segment.append _ _
  simp [render, Segment.append, code_append, labelsOf_append, openJumps]

theorem render_congr {v w : Placed → Option Nat} {l : List Placed} (h : ∀ p ∈ l, v p = w p) :
    render v l = render w l := by
  have hcode : code v l = code w l := List.flatMap_congr fun p hp => by rw [h p hp]
  have hopen : openJumps v l = openJumps w l := List.filterMap_congr fun p hp => by rw [h p hp]
  simp [render, hcode, hopen]

theorem render_map_inside (v : Placed → Option Nat) (k : Nat) (l : List Placed) :
    render v (l.map (Placed.inside k)) = render (fun p => v (p.inside k)) l := by
  simp only [render, code, openJumps, List.flatMap_map, List.filterMap_map, labelsOf_map_inside,
    Placed.cells_inside, Function.comp_def, Placed.openJump?_inside, Placed.tableRef?_inside]

/-- The code of one instruction is the rendering of its place. -/
theorem segment_eq_render (i : Instr) (source pos index : Nat) (v : Placed → Option Nat)
    (h : v ⟨[], index, pos, source, i⟩ = none) :
    i.segment source pos index = render v [⟨[], index, pos, source, i⟩] := by
  cases i <;>
    simp [Instr.segment, render, code, openJumps, labelsOf, h, Placed.cells, Placed.labels,
      Placed.openJump?, Placed.tableRef?, Placed.slot, Segment.ofBytes, Segment.ofPush,
      Segment.jumpDest, Segment.jumpRef, Segment.tableStart, Cell.placeholder]

/-- The labels of a layout are the sites with the greatest offset. -/
theorem get?_labelsOf {pos : Nat} {l : List Placed} (hl : Laid pos l) (label : String) :
    (labelsOf l).get? label = (Scope.sites l [] label).argmax LabelSite.offset := by
  rw [Scope.sites_root]
  induction l generalizing pos with
  | nil => rfl
  | cons p l ih =>
    rw [labelsOf, LabelTable.get?_merge, ih hl.2, Placed.get?_labels, List.filterMap_cons]
    rcases hsite : p.site? label with - | site
    · simp
    · rw [List.argmax_cons]
      rcases hmax : (l.filterMap (·.site? label)).argmax LabelSite.offset with - | site'
      · simp [hmax]
      · -- the later site stands at a greater offset than this one
        obtain ⟨q, hq, hsite'⟩ := List.mem_filterMap.1 (List.argmax_mem hmax)
        have hlt : site.offset < site'.offset := by
          have := hl.2.le_offset hq
          have := p.size_pos
          rw [Placed.offset_of_site? hsite, Placed.offset_of_site? hsite', hl.1]
          omega
        simp [hmax, hlt]

end Rendering

end MacroAssembler
