/-
MacroAssembler/Proofs/Assembly.lean

Expanding a macro is laying out its tree.

The expander builds a segment frame by frame.  When it has joined the code of
the operations of a macro, the references inside it are filled as far as the
inner expansions could (`filledInside`); resolving the segment then asks the
labels of the macro itself, and the segment is filled as the rule of scopes
says (`filled`).  `RealizesOps` and `Realizes` state these two stages for the
logged expander, with the tree, the room that the code takes and the log.

The main result is `expandLogged_yields`: an expansion, whatever its limits and
from whatever count, either realizes a tree or fails, and it never fails
because a slot was not empty.  `expandAt_yields` is the same for the expander.
-/
import MacroAssembler.Proofs.PatchLog

namespace MacroAssembler

open Rendering Scope

/-! ### Segments of layouts -/

theorem filledInside_append {l l' : List Placed} (h : Separate l l') {p : Placed} :
    (p ∈ l → filledInside (l ++ l') p = filledInside l p) ∧
      (p ∈ l' → filledInside (l ++ l') p = filledInside l' p) := by
  constructor
  · intro hp
    rw [filledInside, replyInside_append_left h hp]
    rfl
  · intro hp
    rw [filledInside, replyInside_append_right h hp]
    rfl

/-- Layouts of different operations are rendered one by one. -/
theorem render_inside_append {l l' : List Placed} (h : Separate l l') :
    render (filledInside (l ++ l')) (l ++ l') =
      render (filledInside l) l ++ render (filledInside l') l' := by
  rw [render_append]
  congr 1
  · exact render_congr fun p hp => (filledInside_append h).1 hp
  · exact render_congr fun p hp => (filledInside_append h).2 hp

theorem filledInside_map_inside (k : Nat) (l : List Placed) (p : Placed) :
    filledInside (l.map (Placed.inside k)) (p.inside k) = filled l p := by
  rw [filledInside, replyInside_map_inside, filled_eq_reply, Option.map_map]
  rfl

/-- Inside an operation stands the code of its expansion. -/
theorem render_inside_map_inside (k : Nat) (l : List Placed) :
    render (filledInside (l.map (Placed.inside k))) (l.map (Placed.inside k)) =
      render (filled l) l := by
  rw [render_map_inside]
  exact render_congr fun p _ => filledInside_map_inside k l p

/-- An instruction of the macro itself is separate from everything. -/
theorem separate_of_node_eq_nil {p : Placed} (h : p.node = []) (l : List Placed) :
    Separate [p] l := by
  intro q hq _ _ k b _ hb
  obtain rfl := List.mem_singleton.1 hq
  simp [h] at hb

/-- What the labels of a whole layout know is the reply of the outermost
expansion. -/
theorem known_labelsOf {pos : Nat} {l : List Placed} (hl : Laid pos l) (p : Placed) :
    known (labelsOf l) p = (replyOf l [[]] p).map fun x => x.2.offset := by
  obtain ⟨node, index, offset, source, i⟩ := p
  cases i with
  | jumpRef label =>
    simp only [known, replyOf, LabelTable.offset?, get?_labelsOf hl, answer?_root, Option.map_map]
    rfl
  | _ => rfl

/-- Asking the labels of the whole layout completes what was filled inside. -/
theorem settle_filledInside {pos : Nat} {l : List Placed} (hl : Laid pos l) :
    settle (labelsOf l) (filledInside l) = filled l := by
  funext p
  rw [settle, known_labelsOf hl, filled_eq_reply, reply_eq_or, filledInside]
  rcases replyInside l p with - | x <;> rfl

/-! ### Logs of layouts -/

/-- The patch that answers a reference. -/
def patchOf (p : Placed) (x : List Nat × LabelSite) : Patch := .byExpansion x.1 p.slot

/-- A patch for each reference of a layout that has a reply. -/
def patches (l : List Placed) : List Patch := l.filterMap fun p => (reply l p).map (patchOf p)

/-- A patch for each reference of a layout that has a reply from inside. -/
def patchesInside (l : List Placed) : List Patch :=
  l.filterMap fun p => (replyInside l p).map (patchOf p)

theorem patchesInside_append {l l' : List Placed} (h : Separate l l') :
    patchesInside (l ++ l') = patchesInside l ++ patchesInside l' := by
  simp only [patchesInside, List.filterMap_append]
  congr 1
  · exact List.filterMap_congr fun p hp => by rw [replyInside_append_left h hp]
  · exact List.filterMap_congr fun p hp => by rw [replyInside_append_right h hp]

theorem patchesInside_map_inside (k : Nat) (l : List Placed) :
    patchesInside (l.map (Placed.inside k)) = (patches l).map (Patch.inside k) := by
  rw [patchesInside, patches, List.filterMap_map, List.map_filterMap]
  refine List.filterMap_congr fun p _ => ?_
  simp only [Function.comp_apply, replyInside_map_inside, Option.map_map]
  rfl

theorem patchesInside_singleton {p : Placed} (h : p.node = []) : patchesInside [p] = [] := by
  simp [patchesInside, replyInside_of_node_eq_nil _ h]

/-- What is found either way is what is found the first way, and what is found
the second way only. -/
theorem filterMap_or_perm {α β : Type} (f g : α → Option β) (l : List α) :
    (l.filterMap fun x => (f x).or (g x)).Perm
      (l.filterMap f ++ l.filterMap fun x => if f x = none then g x else none) := by
  induction l with
  | nil => exact .refl _
  | cons x l ih =>
    rcases hf : f x with - | y
    · rcases hg : g x with - | z
      · simpa [hf, hg] using ih
      · -- found the second way only: it moves behind everything that is found the first way
        simpa [hf, hg] using (ih.cons z).trans List.perm_middle.symm
    · simpa [hf] using ih

/-- The outermost expansion adds its own patches to those made inside. -/
theorem patches_perm {pos : Nat} {l : List Placed} (hl : Laid pos l) :
    (patches l).Perm (patchesInside l ++
      (settledSlots (labelsOf l) (filledInside l) l).map (Patch.byExpansion [])) := by
  have hown : (settledSlots (labelsOf l) (filledInside l) l).map (Patch.byExpansion []) =
      l.filterMap fun p => if (replyInside l p).map (patchOf p) = none
        then (replyOf l [[]] p).map (patchOf p) else none := by
    rw [settledSlots, List.map_filterMap]
    refine List.filterMap_congr fun p _ => ?_
    rw [known_labelsOf hl]
    rcases hin : replyInside l p with - | x
    · -- the outermost expansion answers in its own name
      have hroot : ∀ x ∈ replyOf l [[]] p, x.1 = [] := by
        intro x hx
        unfold replyOf at hx
        split at hx
        · rw [answer?_root] at hx
          obtain ⟨site, -, rfl⟩ := Option.mem_map.1 hx
          rfl
        · simp at hx
      rcases hrep : replyOf l [[]] p with - | x
      · simp [filledInside, hin]
      · simp [filledInside, hin, patchOf, hroot x hrep]
    · simp [filledInside, hin]
  rw [hown]
  refine (List.Perm.of_eq ?_).trans (filterMap_or_perm _ _ l)
  refine List.filterMap_congr fun p _ => ?_
  rw [reply_eq_or]
  rcases replyInside l p with - | x <;> rfl

/-! ### Trees that fit -/

/-- No operation of a tree that is laid out from `pos` on ends behind `bound`,
measurements included. -/
def ExpansionTree.Within (bound : Nat) : ExpansionTree → (pos : Nat) → Prop
  | .done, _ => True
  | .instr _ i rest, pos => pos + i.size ≤ bound ∧ rest.Within bound (pos + i.size)
  | .inlined child rest, pos =>
    child.Within bound pos ∧ pos + child.size ≤ bound ∧ rest.Within bound (pos + child.size)
  | .measured _ child rest, pos =>
    child.Within bound pos ∧ pos + (Instr.push (.ofSize child.size)).size ≤ bound ∧
      rest.Within bound (pos + (Instr.push (.ofSize child.size)).size)

/-! ### Written layouts -/

/-- A segment and its log, written from a layout: references are filled as `v`
says, which fits into their slots, and `log` lists the patches in some order. -/
structure Written (v : Placed → Option Nat) (log : List Patch) (l : List Placed)
    (out : Expansion.Logged) : Prop where
  segment : out.1 = render v l
  fits : ∀ p ∈ l, ∀ n ∈ v p, n ≤ 0xffff
  perm : out.2.Perm log

/-- The code of the operations of a macro before its own labels are asked. -/
def Assembled (l : List Placed) (out : Expansion.Logged) : Prop :=
  Written (filledInside l) (patchesInside l) l out

/-- The code of a macro. -/
def Settled (l : List Placed) (out : Expansion.Logged) : Prop :=
  Written (filled l) (patches l) l out

theorem Written.size_eq {v : Placed → Option Nat} {log : List Patch} {l : List Placed}
    {out : Expansion.Logged} (h : Written v log l out) : out.1.size = totalSize l := by
  rw [h.segment, size_render]

theorem assembled_nil : Assembled [] (.empty, []) where
  segment := rfl
  fits := by simp
  perm := .refl _

theorem assembled_instr (i : Instr) (source pos index : Nat) :
    Assembled [⟨[], index, pos, source, i⟩] (i.segment source pos index, []) := by
  have hnone : filledInside [⟨[], index, pos, source, i⟩] ⟨[], index, pos, source, i⟩ = none := by
    rw [filledInside, replyInside_of_node_eq_nil _ rfl, Option.map_none]
  constructor
  · exact segment_eq_render i source pos index _ hnone
  · intro p hp n hn
    obtain rfl := List.mem_singleton.1 hp
    simp [hnone] at hn
  · rw [patchesInside_singleton rfl]

theorem Instr.size_segment (i : Instr) (source pos index : Nat) :
    (i.segment source pos index).size = i.size := by
  simpa [Placed.size] using (assembled_instr i source pos index).size_eq

theorem Assembled.append {l l' : List Placed} {out out' : Expansion.Logged} (h : Assembled l out)
    (h' : Assembled l' out') (hsep : Separate l l') :
    Assembled (l ++ l') (out.1 ++ out'.1, out.2 ++ out'.2) := by
  constructor
  · rw [render_inside_append hsep, ← h.segment, ← h'.segment]
  · intro p hp n hn
    obtain hp | hp := List.mem_append.1 hp
    · rw [(filledInside_append hsep).1 hp] at hn
      exact h.fits p hp n hn
    · rw [(filledInside_append hsep).2 hp] at hn
      exact h'.fits p hp n hn
  · rw [patchesInside_append hsep]
    exact h.perm.append h'.perm

theorem Settled.inside {l : List Placed} {out : Expansion.Logged} (h : Settled l out) (k : Nat) :
    Assembled (l.map (Placed.inside k)) (out.1, out.2.map (Patch.inside k)) := by
  constructor
  · rw [render_inside_map_inside, ← h.segment]
  · intro p hp n hn
    obtain ⟨q, hq, rfl⟩ := List.mem_map.1 hp
    rw [filledInside_map_inside] at hn
    exact h.fits q hq n hn
  · rw [patchesInside_map_inside]
    exact h.perm.map _

/-! ### Resolving -/

/-- An error other than that a slot to be filled was not empty. -/
def CompileError.SlotsIntact {σ : Type} : CompileError σ → Prop
  | .placeholderCorruption _ _ => False
  | _ => True

/-- Asking the labels of the macro settles its code, if the offsets fit. -/
theorem resolveLogged_returns {l : List Placed} {pos : Nat} {out : Expansion.Logged}
    (hl : Laid pos l) (h : Assembled l out) :
    Expansion.Returns (Expansion.resolveLogged pos out) (Settled l) CompileError.SlotsIntact := by
  obtain ⟨s, log⟩ := out
  obtain rfl : s = render (filledInside l) l := h.segment
  obtain ⟨hf, hres, hslots⟩ | ⟨n, label, -, herr⟩ := resolve_render (v := filledInside l) hl
  · have hlogged : Expansion.resolveLogged pos (render (filledInside l) l, log) =
        .ok (render (filled l) l,
          log ++ (settledSlots (labelsOf l) (filledInside l) l).map (Patch.byExpansion [])) := by
      rw [Expansion.resolveLogged, hres, settle_filledInside hl, ← hslots]
      rfl
    rw [hlogged]
    refine Expansion.Returns.ok ⟨rfl, ?_, ?_⟩
    · intro p hp n hn
      rw [← settle_filledInside hl, settle] at hn
      -- a value is from inside, or it is the one that was checked just now
      rcases hv : filledInside l p with - | k
      · exact hf p hp hv n (by simpa [hv] using hn)
      · exact h.fits p hp n (by simpa [hv] using hn)
    · exact (h.perm.append_right _).trans (patches_perm hl).symm
  · rw [Expansion.resolveLogged, herr]
    exact Expansion.Returns.error trivial

/-! ### One operation -/

namespace Expansion

/-- An operation puts its own tree before the tree of the operations behind it
(`grow`), and its instructions `l` before theirs. -/
structure Grows (r : Registry) (bound : Nat) (m : Macro) (values : List String) (op : Operation)
    (index pos : Nat) (out : Logged) (grow : ExpansionTree → ExpansionTree) (l : List Placed) :
    Prop where
  unfolds : ∀ {ops t}, Unfolds r m values ops t → Unfolds r m values (op :: ops) (grow t)
  layout : ∀ t, (grow t).layout index pos = l ++ t.layout (index + 1) (pos + out.1.size)
  within : ∀ t, pos + out.1.size ≤ bound → t.Within bound (pos + out.1.size) →
    (grow t).Within bound pos
  separate : ∀ t, Separate l (ExpansionTree.layout t (index + 1) (pos + out.1.size))
  assembled : Assembled l out

/-- The expansion of `inv` at `pos` made `out`: the code of its tree, none of
it behind `bound`. -/
structure Realizes (r : Registry) (bound : Nat) (inv : Invocation) (pos : Nat) (out : Logged)
    (t : ExpansionTree) : Prop where
  expands : Expands r inv t
  within : t.Within bound pos
  settled : Settled (t.layout 0 pos) out

theorem Realizes.size_eq {r : Registry} {bound : Nat} {inv : Invocation} {pos : Nat} {out : Logged}
    {t : ExpansionTree} (h : Realizes r bound inv pos out t) : out.1.size = t.size := by
  rw [h.settled.size_eq, totalSize_layout]

variable {r : Registry} {bound : Nat} {m : Macro} {values : List String} {op : Operation}
  {index pos : Nat}

theorem grows_instr {i : Instr} (ha : action r m values op = .ok (.emit i)) :
    Grows r bound m values op index pos (i.segment op.source pos index, [])
      (.instr op.source i) [⟨[], index, pos, op.source, i⟩] := by
  have hsize := i.size_segment op.source pos index
  constructor
  · exact fun ht => .instr ha ht
  · intro t
    rw [hsize]
    rfl
  · intro t hle ht
    rw [hsize] at hle ht
    exact ⟨hle, ht⟩
  · exact fun t => separate_of_node_eq_nil rfl _
  · exact assembled_instr i op.source pos index

theorem grows_inlined {inv : Invocation} (ha : action r m values op = .ok (.inline inv))
    {out : Logged} {child : ExpansionTree} (h : Realizes r bound inv pos out child) :
    Grows r bound m values op index pos (out.1, out.2.map (Patch.inside index))
      (.inlined child) ((child.layout 0 pos).map (Placed.inside index)) := by
  obtain ⟨m', hm', harity, hc⟩ := h.expands
  constructor
  · exact fun ht => .inlined ha hm' harity hc ht
  · intro t
    rw [h.size_eq]
    rfl
  · intro t hle ht
    rw [h.size_eq] at hle ht
    exact ⟨h.within, hle, ht⟩
  · exact fun t => separate_inlined child t index pos _
  · exact h.settled.inside index

theorem grows_measured {inv : Invocation} (ha : action r m values op = .ok (.measure inv))
    {out : Logged} {child : ExpansionTree} (h : Realizes r bound inv pos out child) :
    Grows r bound m values op index pos (.ofPush op.source (.ofSize out.1.size), [])
      (.measured op.source child)
      [⟨[], index, pos, op.source, .push (.ofSize child.size)⟩] := by
  obtain ⟨m', hm', harity, hc⟩ := h.expands
  rw [h.size_eq]
  have hsize : (Segment.ofPush op.source (.ofSize child.size)).size =
      (Instr.push (.ofSize child.size)).size :=
    (Instr.push (.ofSize child.size)).size_segment op.source pos index
  constructor
  · exact fun ht => .measured ha hm' harity hc ht
  · intro t
    rw [hsize]
    rfl
  · intro t hle ht
    rw [hsize] at hle ht
    exact ⟨h.within, hle, ht⟩
  · exact fun t => separate_of_node_eq_nil rfl _
  · exact assembled_instr (.push (.ofSize child.size)) op.source pos index

/-- An operation whose action cannot be found out has not touched a slot. -/
theorem action_error {e : CompileError Nat} (h : action r m values op = .error e) :
    e.SlotsIntact := by
  have hsite := site?_of_action h
  cases e with
  | placeholderCorruption => cases hsite
  | _ => trivial

/-! ### All operations -/

variable {limits : Limits} {expand : (site : Nat) → Invocation → (pos : Nat) → Step Logged}

/-- An operation grows a tree, if the expander realizes trees. -/
theorem emitLogged_yields
    (hexp : ∀ site inv pos, Yields (expand site inv pos)
      (fun out => ∃ t, Realizes r bound inv pos out t) CompileError.SlotsIntact) :
    Yields (emitLogged r expand m values pos index op)
      (fun out => ∃ grow l, Grows r bound m values op index pos out grow l)
      CompileError.SlotsIntact := by
  -- the action is kept as a fact, since the tree is built from it
  refine Yields.bind (P := fun a => action r m values op = .ok a)
    (Yields.ofResult (Returns.self (fun _ ha => ha) fun e he => action_error he)) ?_
  intro a ha
  cases a with
  | emit i => exact Yields.pure ⟨_, _, grows_instr ha⟩
  | inline inv =>
    refine Yields.bind (hexp op.source inv pos) ?_
    rintro out ⟨child, hchild⟩
    exact Yields.pure ⟨_, _, grows_inlined ha hchild⟩
  | measure inv =>
    refine Yields.bind (hexp op.source inv pos) ?_
    rintro out ⟨child, hchild⟩
    exact Yields.pure ⟨_, _, grows_measured ha hchild⟩

/-- All operations together have a tree, and their code is the code of it. -/
theorem assembleLogged_yields {ops : List Operation}
    (hexp : ∀ site inv pos, Yields (expand site inv pos)
      (fun out => ∃ t, Realizes r limits.bytes inv pos out t) CompileError.SlotsIntact) :
    Yields (assembleLogged limits (emitLogged r expand m values) pos index ops)
      (fun out => ∃ t, Unfolds r m values ops t ∧ t.Within limits.bytes pos ∧
        Assembled (t.layout index pos) out)
      CompileError.SlotsIntact := by
  induction ops generalizing pos index with
  | nil => exact Yields.pure ⟨.done, .done, trivial, assembled_nil⟩
  | cons op ops ih =>
    refine Yields.bind (emitLogged_yields hexp) ?_
    rintro out ⟨grow, l, hgrow⟩
    -- the operations behind are laid out from where this one ends
    by_cases hlt : limits.bytes < pos + out.1.size
    · simp only [if_pos hlt]
      exact Yields.throw trivial
    · simp only [if_neg hlt]
      refine Yields.bind ih ?_
      rintro rest ⟨t, hops, hwithin, hrest⟩
      refine Yields.pure ⟨grow t, hgrow.unfolds hops, ?_, ?_⟩
      · exact hgrow.within t (Nat.le_of_not_lt hlt) hwithin
      · rw [hgrow.layout t]
        exact hgrow.assembled.append hrest (hgrow.separate t)

/-! ### Whole expansions -/

/-- Every expansion realizes a tree, or fails with its slots intact. -/
theorem expandLogged_yields (r : Registry) (limits : Limits) (room : Nat)
    (active : List Invocation) (site? : Option Nat) (inv : Invocation) (pos : Nat) :
    Yields (expandLogged r limits room active site? inv pos)
      (fun out => ∃ t, Realizes r limits.bytes inv pos out t) CompileError.SlotsIntact := by
  induction room generalizing active site? inv pos with
  | zero =>
    rw [expandLogged]
    split
    · exact Yields.throw trivial
    · split <;> exact Yields.throw trivial
  | succ room ih =>
    rw [expandLogged]
    rcases hm : r.getMacro? inv.name with - | m
    · exact Yields.throw trivial
    · by_cases ha : inv ∈ active
      · simp only [if_pos ha]
        exact Yields.throw trivial
      · simp only [if_neg ha]
        refine Yields.bind (Yields.count trivial) fun _ _ => ?_
        by_cases harity : inv.args.length ≠ m.arity
        · simp only [if_pos harity]
          exact Yields.throw trivial
        · simp only [if_neg harity]
          refine Yields.bind (assembleLogged_yields fun site => ih (inv :: active) (some site)) ?_
          rintro out ⟨t, hops, hwithin, hout⟩
          have hexpands : Expands r inv t := ⟨m, hm, Decidable.not_not.1 harity, hops⟩
          refine Yields.ofResult ((resolveLogged_returns (laid_layout t 0 pos) hout).mono ?_)
          exact fun _ hset => ⟨t, hexpands, hwithin, hset⟩

/-- The same for the expander, which keeps no log. -/
theorem expandAt_yields (r : Registry) (limits : Limits) (room : Nat) (active : List Invocation)
    (site? : Option Nat) (inv : Invocation) (pos : Nat) :
    Yields (expandAt r limits room active site? inv pos)
      (fun s => ∃ log t, Realizes r limits.bytes inv pos (s, log) t) CompileError.SlotsIntact := by
  rw [← fst_expandLogged]
  refine Yields.map ((expandLogged_yields r limits room active site? inv pos).mono ?_)
  rintro ⟨s, log⟩ ⟨t, ht⟩
  exact ⟨log, t, ht⟩

end Expansion

end MacroAssembler
