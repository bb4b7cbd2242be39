/-
MacroAssembler/Proofs/SlotFilling.lean

Filling the slots of any code.

`Segment.fill` goes through a list of references and patches the slots of those whose label is
known, in a buffer that it changes as it goes.  Nothing is asked of the code here but that the
slots are `Vacant`: inside it, apart from each other and empty.  Each patch then finds the
slots that come later as they were, also when it writes the offset `0xffff`, which looks like
the mark.

`Filled` says what the buffer holds at the end without saying in which order it was changed.
There is only one such buffer (`Filled.unique`), so any order of the references gives the same
code.  An offset that does not fit ends the filling, with the slots in front of it filled.

Main result: `Segment.resolve_vacant`.
-/
import MacroAssembler.Proofs.Filling
import MacroAssembler.Proofs.Slots

namespace MacroAssembler

namespace Chunk

theorem word?_setWord_of_apart {c : Chunk} {slot slot' n : Nat}
    (h : slot + 2 ≤ slot' ∨ slot' + 2 ≤ slot) :
    (c.setWord slot n).word? slot' = c.word? slot' := by
  have hhi : (c.setWord slot n).byte? slot' = c.byte? slot' :=
    byte?_setWord_of_ne (by omega) (by omega)
  have hlo : (c.setWord slot n).byte? (slot' + 1) = c.byte? (slot' + 1) :=
    byte?_setWord_of_ne (by omega) (by omega)
  rw [word?, word?, pair?, pair?, hhi, hlo]

/-- Two bytes are the same when they make the same number. -/
theorem byte?_eq_of_word?_eq {c d : Chunk} {slot n : Nat} (hc : c.word? slot = some n)
    (hd : d.word? slot = some n) :
    c.byte? slot = d.byte? slot ∧ c.byte? (slot + 1) = d.byte? (slot + 1) := by
  obtain ⟨hi, lo, hhi, hlo, hn⟩ := word?_eq_some_iff.1 hc
  obtain ⟨hi', lo', hhi', hlo', hn'⟩ := word?_eq_some_iff.1 hd
  have hloLt := lo.toNat_lt
  have hloLt' := lo'.toNat_lt
  have hsameHi : hi = hi' := UInt8.toNat_inj.1 (by omega)
  have hsameLo : lo = lo' := UInt8.toNat_inj.1 (by omega)
  rw [hhi, hhi', hlo, hlo', hsameHi, hsameLo]
  exact ⟨rfl, rfl⟩

end Chunk

namespace Segment

variable {σ : Type} {start : Nat} {labels : LabelTable} {refs : List Reference} {c d : Chunk}

/-! ### Slots to be filled -/

/-- The slots of the references are in the code, apart from each other, and empty.  `start` is
the offset of the code. -/
structure Vacant (start : Nat) (refs : List Reference) (c : Chunk) : Prop where
  inside : ∀ r ∈ refs, start ≤ r.slot ∧ r.slot + 2 ≤ start + c.size
  apart : refs.Pairwise fun r q => r.slot + 2 ≤ q.slot ∨ q.slot + 2 ≤ r.slot
  empty : ∀ r ∈ refs, c.word? (r.slot - start) = some Cell.emptySlot

theorem Vacant.sublist {refs' : List Reference} (h : Vacant start refs c)
    (hsub : refs'.Sublist refs) : Vacant start refs' c :=
  ⟨fun r hr => h.inside r (hsub.subset hr), h.apart.sublist hsub,
    fun r hr => h.empty r (hsub.subset hr)⟩

theorem Vacant.tail {r : Reference} (h : Vacant start (r :: refs) c) : Vacant start refs c :=
  h.sublist (List.sublist_cons_self r refs)

/-- In the code, too, the first slot is apart from the others. -/
theorem Vacant.head_apart {r q : Reference} (h : Vacant start (r :: refs) c) (hq : q ∈ refs) :
    r.slot - start + 2 ≤ q.slot - start ∨ q.slot - start + 2 ≤ r.slot - start := by
  have hapart := (List.pairwise_cons.1 h.apart).1 q hq
  have hr := (h.inside r List.mem_cons_self).1
  have hq := (h.inside q (List.mem_cons_of_mem _ hq)).1
  omega

/-- Filling the first slot leaves the others vacant. -/
theorem Vacant.tail_setWord {r : Reference} (h : Vacant start (r :: refs) c) (n : Nat) :
    Vacant start refs (c.setWord (r.slot - start) n) := by
  refine ⟨fun q hq => ?_, h.tail.apart, fun q hq => ?_⟩
  · rw [Chunk.size_setWord]
    exact h.tail.inside q hq
  · rw [Chunk.word?_setWord_of_apart (h.head_apart hq)]
    exact h.tail.empty q hq

theorem Vacant.perm {refs' : List Reference} (h : Vacant start refs c) (hperm : refs'.Perm refs) :
    Vacant start refs' c := by
  refine ⟨fun r hr => h.inside r (hperm.subset hr), ?_, fun r hr => h.empty r (hperm.subset hr)⟩
  exact hperm.symm.pairwise h.apart fun hrq => hrq.symm

/-- Every offset that is to be filled in fits into two bytes. -/
def AllFit (labels : LabelTable) (refs : List Reference) : Prop :=
  ∀ r ∈ refs, ∀ n, labels.offset? r.target = some n → n ≤ 0xffff

/-! ### Filled slots -/

/-- The code `d` is `c` with the offsets of known labels in the slots of their references, the
higher byte first, and is otherwise the same. -/
structure Filled (start : Nat) (labels : LabelTable) (refs : List Reference) (c d : Chunk) :
    Prop where
  size : d.size = c.size
  sources : ∀ i, d.source? i = c.source? i
  slots : ∀ r ∈ refs, ∀ n, labels.offset? r.target = some n → d.word? (r.slot - start) = some n
  others : ∀ i, (∀ r ∈ refs, labels.offset? r.target ≠ none →
    i ≠ r.slot - start ∧ i ≠ r.slot - start + 1) → d.byte? i = c.byte? i

namespace Filled

theorem nil (start : Nat) (labels : LabelTable) (c : Chunk) : Filled start labels [] c c :=
  ⟨rfl, fun _ => rfl, fun _ hr => (by cases hr), fun _ _ => rfl⟩

theorem cons_unknown {r : Reference} (h : Filled start labels refs c d)
    (hr : labels.offset? r.target = none) : Filled start labels (r :: refs) c d := by
  refine ⟨h.size, h.sources, List.forall_mem_cons.2 ⟨fun n hn => ?_, h.slots⟩, fun i hi => ?_⟩
  · rw [hr] at hn
    cases hn
  · exact h.others i (List.forall_mem_cons.1 hi).2

/-- The slot of the first reference is filled, and then those of the others. -/
theorem cons_known {r : Reference} {n : Nat} (hvacant : Vacant start (r :: refs) c)
    (hr : labels.offset? r.target = some n) (hn : n ≤ 0xffff)
    (h : Filled start labels refs (c.setWord (r.slot - start) n) d) :
    Filled start labels (r :: refs) c d := by
  have hword := Chunk.word?_setWord (hvacant.empty r List.mem_cons_self) hn
  refine ⟨h.size.trans (Chunk.size_setWord _ _ _),
    fun i => (h.sources i).trans (Chunk.source?_setWord _ _ _ _),
    List.forall_mem_cons.2 ⟨fun m hm => ?_, h.slots⟩, fun i hi => ?_⟩
  · -- no later slot overlaps this one
    obtain rfl : n = m := Option.some.inj (hr.symm.trans hm)
    have hhi := h.others (r.slot - start) fun q hq _ => by
      have := hvacant.head_apart hq
      omega
    have hlo := h.others (r.slot - start + 1) fun q hq _ => by
      have := hvacant.head_apart hq
      omega
    rw [Chunk.word?, Chunk.pair?, hhi, hlo]
    exact hword
  · obtain ⟨hfirst, hrest⟩ := List.forall_mem_cons.1 hi
    obtain ⟨hne, hne'⟩ := hfirst (by rw [hr]; exact Option.some_ne_none n)
    rw [h.others i hrest, Chunk.byte?_setWord_of_ne hne hne']

/-- What the slots hold decides the code. -/
theorem unique {d' : Chunk} (h : Filled start labels refs c d)
    (h' : Filled start labels refs c d') : d = d' := by
  refine Chunk.ext_byte? (fun i => ?_) fun i => (h.sources i).trans (h'.sources i).symm
  by_cases hi : ∀ r ∈ refs, labels.offset? r.target ≠ none →
      i ≠ r.slot - start ∧ i ≠ r.slot - start + 1
  · rw [h.others i hi, h'.others i hi]
  · -- the byte is in the slot of a known reference
    simp only [not_forall, not_and_or, not_not] at hi
    obtain ⟨r, hr, hknown, hi⟩ := hi
    obtain ⟨n, hn⟩ := Option.ne_none_iff_exists'.1 hknown
    obtain ⟨hhi, hlo⟩ := Chunk.byte?_eq_of_word?_eq (h.slots r hr n hn) (h'.slots r hr n hn)
    obtain rfl | rfl := hi
    · exact hhi
    · exact hlo

theorem perm {refs' : List Reference} (h : Filled start labels refs c d)
    (hperm : refs'.Perm refs) : Filled start labels refs' c d :=
  ⟨h.size, h.sources, fun r hr => h.slots r (hperm.subset hr),
    fun i hi => h.others i fun r hr => hi r (hperm.symm.subset hr)⟩

end Filled

/-! ### Filling -/

theorem unknown_eq_filter (labels : LabelTable) (refs : List Reference) :
    unknown labels refs = refs.filter fun r => labels.offset? r.target = none := by
  refine List.filter_congr fun r _ => ?_
  rw [LabelTable.has, LabelTable.offset?]
  rcases labels.get? r.target with - | site <;> rfl

/-- The first reference, behind those in `before`, whose offset does not fit. -/
structure FirstMisfit (labels : LabelTable) (refs before : List Reference) (r : Reference)
    (n : Nat) : Prop where
  split : ∃ after, refs = before ++ r :: after
  earlier : AllFit labels before
  known : labels.offset? r.target = some n
  misfit : 0xffff < n

theorem FirstMisfit.cons {before : List Reference} {r q : Reference} {n : Nat}
    (h : FirstMisfit labels refs before r n)
    (hq : ∀ m, labels.offset? q.target = some m → m ≤ 0xffff) :
    FirstMisfit labels (q :: refs) (q :: before) r n := by
  obtain ⟨after, hsplit⟩ := h.split
  exact ⟨⟨after, by rw [hsplit]; rfl⟩, List.forall_mem_cons.2 ⟨hq, h.earlier⟩, h.known, h.misfit⟩

theorem FirstMisfit.not_allFit {before : List Reference} {r : Reference} {n : Nat}
    (h : FirstMisfit labels refs before r n) : ¬ AllFit labels refs := by
  obtain ⟨after, rfl⟩ := h.split
  intro hfit
  have hle := hfit r (List.mem_append_right _ List.mem_cons_self) n h.known
  exact absurd h.misfit (Nat.not_lt_of_le hle)

/-- The slots of all known references are filled, or those in front of the first one that does
not fit. -/
theorem fill_cases (labels : LabelTable) (h : Vacant start refs c) :
    (AllFit labels refs ∧ ∃ d, fill (σ := σ) start labels refs c = (d, none) ∧
      Filled start labels refs c d) ∨
    ∃ before r n d, FirstMisfit labels refs before r n ∧
      fill (σ := σ) start labels refs c = (d, some (.offsetOverflow n (jumpName r.target))) ∧
      Filled start labels before c d := by
  induction refs generalizing c with
  | nil => exact .inl ⟨fun _ hr => (by cases hr), c, rfl, .nil start labels c⟩
  | cons r refs ih =>
    rcases hr : labels.offset? r.target with - | n
    · -- an unknown label is passed over
      have hskip : fill (σ := σ) start labels (r :: refs) c = fill start labels refs c := by
        simp only [fill, hr]
      have hfits : ∀ m, labels.offset? r.target = some m → m ≤ 0xffff := by
        intro m hm
        rw [hr] at hm
        cases hm
      rw [hskip]
      obtain ⟨hfit, d, hfill, hd⟩ | ⟨before, q, n, d, hfirst, hfill, hd⟩ := ih h.tail
      · exact .inl ⟨List.forall_mem_cons.2 ⟨hfits, hfit⟩, d, hfill, hd.cons_unknown hr⟩
      · exact .inr ⟨_, q, n, d, hfirst.cons hfits, hfill, hd.cons_unknown hr⟩
    · have hpatch := Chunk.patch_of_emptySlot (σ := σ) (h.empty r List.mem_cons_self) n
        (jumpName r.target)
      by_cases hle : n ≤ 0xffff
      · rw [if_pos hle] at hpatch
        have hstep : fill (σ := σ) start labels (r :: refs) c =
            fill start labels refs (c.setWord (r.slot - start) n) := by
          simp only [fill, hr, hpatch]
        have hfits : ∀ m, labels.offset? r.target = some m → m ≤ 0xffff := by
          intro m hm
          obtain rfl : n = m := Option.some.inj (hr.symm.trans hm)
          exact hle
        rw [hstep]
        obtain ⟨hfit, d, hfill, hd⟩ | ⟨before, q, m, d, hfirst, hfill, hd⟩ := ih (h.tail_setWord n)
        · exact .inl ⟨List.forall_mem_cons.2 ⟨hfits, hfit⟩, d, hfill, .cons_known h hr hle hd⟩
        · obtain ⟨after, hsplit⟩ := hfirst.split
          have hbefore : (r :: before).Sublist (r :: refs) := by
            rw [hsplit]
            exact (List.sublist_append_left before (q :: after)).cons_cons r
          exact .inr ⟨_, q, m, d, hfirst.cons hfits, hfill,
            .cons_known (h.sublist hbefore) hr hle hd⟩
      · rw [if_neg hle] at hpatch
        have hstop : fill (σ := σ) start labels (r :: refs) c =
            (c, some (.offsetOverflow n (jumpName r.target))) := by
          simp only [fill, hr, hpatch]
        exact .inr ⟨[], r, n, c, ⟨⟨refs, rfl⟩, fun _ hq => (by cases hq), hr, Nat.lt_of_not_le hle⟩,
          hstop, .nil start labels c⟩

/-! ### Resolving -/

theorem resolve_of_fill {s : Segment}
    (h : fill (σ := Nat) start s.labels s.jumps s.cells.toArray = (d, none)) :
    s.resolve (σ := Nat) start =
      .ok { s with cells := d.toList, jumps := unknown s.labels s.jumps } := by
  rw [Rendering.resolve_eq_fill, h]

theorem resolve_of_fill_error {s : Segment} {e : CompileError Nat}
    (h : fill start s.labels s.jumps s.cells.toArray = (d, some e)) :
    s.resolve start = .error e := by
  rw [Rendering.resolve_eq_fill, h]

/-- **Resolving fills exactly the slots of references to known labels.**  It succeeds if and
only if all their offsets fit.  Then their slots hold these offsets and the code is otherwise as
it was, the references to unknown labels are left in their order, and any other order of the
references gives the same code.  Else the error names the first offset that does not fit, and
of the code only the slots in front of that reference have been filled. -/
theorem resolve_vacant {s : Segment} (h : Vacant start s.jumps s.cells.toArray) :
    ((∃ t, s.resolve (σ := Nat) start = .ok t) ↔ AllFit s.labels s.jumps) ∧
      (∀ t, s.resolve (σ := Nat) start = .ok t →
        Filled start s.labels s.jumps s.cells.toArray t.cells.toArray ∧
          t.jumps = s.jumps.filter (fun r => s.labels.offset? r.target = none) ∧
          t.labels = s.labels ∧ t.tables = s.tables ∧
          fill (σ := Nat) start s.labels s.jumps s.cells.toArray = (t.cells.toArray, none) ∧
          ∀ jumps, jumps.Perm s.jumps →
            ∃ u, resolve (σ := Nat) start { s with jumps := jumps } = .ok u ∧
              u.cells = t.cells) ∧
      ∀ e, s.resolve (σ := Nat) start = .error e →
        ∃ before r n d, FirstMisfit s.labels s.jumps before r n ∧
          e = .offsetOverflow n (jumpName r.target) ∧
          fill start s.labels s.jumps s.cells.toArray = (d, some e) ∧
          Filled start s.labels before s.cells.toArray d := by
  obtain ⟨hfit, d, hfill, hd⟩ | ⟨before, r, n, d, hfirst, hfill, hd⟩ :=
    fill_cases (σ := Nat) s.labels h
  · have hok := resolve_of_fill hfill
    rw [hok]
    refine ⟨⟨fun _ => hfit, fun _ => ⟨_, rfl⟩⟩, ?_, fun e he => (by cases he)⟩
    intro t ht
    obtain rfl := Except.ok.inj ht
    refine ⟨hd, unknown_eq_filter s.labels s.jumps, rfl, rfl, hfill, ?_⟩
    intro jumps hperm
    -- the same slots are filled, and there is only one way to do that
    obtain ⟨-, d', hfill', hd'⟩ | ⟨before, r, n, d', hfirst, -, -⟩ :=
      fill_cases (σ := Nat) s.labels (h.perm hperm)
    · refine ⟨_, resolve_of_fill (s := { s with jumps := jumps }) hfill', ?_⟩
      rw [(hd'.perm hperm.symm).unique hd]
    · exact absurd (fun q hq => hfit q (hperm.subset hq)) hfirst.not_allFit
  · have herror := resolve_of_fill_error hfill
    rw [herror]
    refine ⟨⟨fun hok => ?_, fun hfit => absurd hfit hfirst.not_allFit⟩,
      fun t ht => (by cases ht), ?_⟩
    · obtain ⟨t, ht⟩ := hok
      cases ht
    · intro e he
      obtain rfl := Except.error.inj he
      exact ⟨before, r, n, d, hfirst, rfl, hfill, hd⟩

/-- Three references, not in the order of their slots.  One label is unknown, and the offset of
another looks like the mark. -/
def mixed : Segment where
  cells := Cell.placeholder 0 ++ Cell.placeholder 1 ++ Cell.placeholder 2
  labels := ⟨[("high", ⟨0, 0xffff⟩), ("low", ⟨1, 0x0102⟩)]⟩
  jumps := [⟨"low", 23⟩, ⟨"later", 20⟩, ⟨"high", 17⟩]

theorem resolve_mixed :
    Vacant 16 mixed.jumps mixed.cells.toArray ∧
      ∃ t, mixed.resolve (σ := Nat) 16 = .ok t ∧
        t.cells.map Cell.byte = [0x61, 0xff, 0xff, 0x61, 0xff, 0xff, 0x61, 0x01, 0x02] ∧
        t.jumps = [⟨"later", 20⟩] ∧
        Filled 16 mixed.labels mixed.jumps mixed.cells.toArray t.cells.toArray := by
  have h : Vacant 16 mixed.jumps mixed.cells.toArray :=
    ⟨by decide +kernel, by decide +kernel, by decide +kernel⟩
  have hrun : mixed.resolve (σ := Nat) 16 =
      .ok ((mixed.resolve (σ := Nat) 16).toOption.getD .empty) := by decide +kernel
  exact ⟨h, _, hrun, by decide +kernel, by decide +kernel, ((resolve_vacant h).2.1 _ hrun).1⟩

end Segment

end MacroAssembler
