/-
MacroAssembler/Proofs/GraphSearch.lean

What a depth-first search finds.

`Searched next w w'` says what a search may do between two of its states: it
meets more names, finishes each name that it newly meets, and has met all
successors of a name when it finishes it.  Nothing is said about the order.  A
search that starts with nothing met therefore ends with a set of names that no
edge leaves, and that set is what can be reached (`mem_reachableFrom`).

A search may follow paths no longer than its room.  The names on a path are
different, so one more than there are names is enough (`Enough`).
-/
import Mathlib.Logic.Relation
import Mathlib.Data.List.Nodup
import Mathlib.Data.List.Perm.Subperm
import MacroAssembler.CallGraph

namespace MacroAssembler.CallGraph

open Relation

/-! ### Steps of a search -/

/-- What a search does between two of its states. -/
structure Searched (next : String → List String) (w w' : Walk) : Prop where
  met : w.met <:+ w'.met
  finished : w.finished <:+ w'.finished
  nodup : w.met.Nodup → w'.met.Nodup
  /-- A name that is newly met is finished too. -/
  settled : ∀ x ∈ w'.met, x ∈ w.met ∨ x ∈ w'.finished
  /-- All successors of a name that is newly finished have been met. -/
  closed : ∀ x ∈ w'.finished, x ∈ w.finished ∨ ∀ y ∈ next x, y ∈ w'.met

namespace Searched

variable {next : String → List String} {w w' w'' : Walk}

theorem refl (w : Walk) : Searched next w w where
  met := List.suffix_refl _
  finished := List.suffix_refl _
  nodup := id
  settled := fun _ hx => .inl hx
  closed := fun _ hx => .inl hx

theorem trans (h : Searched next w w') (h' : Searched next w' w'') : Searched next w w'' where
  met := h.met.trans h'.met
  finished := h.finished.trans h'.finished
  nodup := h'.nodup ∘ h.nodup
  settled := by
    intro x hx
    obtain hx | hx := h'.settled x hx
    · exact (h.settled x hx).imp_right (h'.finished.subset ·)
    · exact .inr hx
  closed := by
    intro x hx
    obtain hx | hx := h'.closed x hx
    · refine (h.closed x hx).imp_right ?_
      exact fun hmet y hy => h'.met.subset (hmet y hy)
    · exact .inr hx

/-- Once its successors have been dealt with, a new name is finished. -/
theorem visit {v : String} (hv : v ∉ w.met) (h : Searched next { w with met := v :: w.met } w')
    (hmet : ∀ y ∈ next v, y ∈ w'.met) :
    Searched next w { w' with finished := v :: w'.finished } where
  met := (List.suffix_cons v w.met).trans h.met
  finished := h.finished.trans (List.suffix_cons v _)
  nodup := fun hw => h.nodup (List.nodup_cons.2 ⟨hv, hw⟩)
  settled := by
    intro x hx
    obtain hx | hx := h.settled x hx
    · obtain rfl | hx := List.mem_cons.1 hx
      · exact .inr List.mem_cons_self
      · exact .inl hx
    · exact .inr (List.mem_cons_of_mem _ hx)
  closed := by
    intro x hx
    obtain rfl | hx := List.mem_cons.1 hx
    · exact .inr hmet
    · exact h.closed x hx

end Searched

/-! ### Whole searches -/

/-- The search is about the given names, and has room for every path among
those that it has not met. -/
structure Enough (nodes : List String) (room : Nat) (w : Walk) : Prop where
  within : ∀ x ∈ w.met, x ∈ nodes
  nodup : w.met.Nodup
  lt : nodes.length < room + w.met.length

section Search

variable {next : String → List String} {nodes : List String}
  (hnext : ∀ v ∈ nodes, ∀ u ∈ next v, u ∈ nodes)

theorem Enough.room_pos {room : Nat} {w : Walk} (h : Enough nodes room w) : 0 < room := by
  have hle : w.met.length ≤ nodes.length := (List.Nodup.subperm h.nodup h.within).length_le
  have := h.lt
  omega

theorem enough_start (nodes : List String) : Enough nodes (nodes.length + 1) Walk.start where
  within := fun _ hx => absurd hx List.not_mem_nil
  nodup := List.nodup_nil
  lt := Nat.lt_succ_self _

/-- Whatever the edges keep holds of all names that are met. -/
theorem visit_keeps {P : String → Prop} (hP : ∀ v, P v → ∀ u ∈ next v, P u) {room : Nat}
    {v : String} {w : Walk} (hv : P v) (hw : ∀ x ∈ w.met, P x) :
    ∀ x ∈ (visit next room v w).met, P x := by
  induction room generalizing v w with
  | zero => exact hw
  | succ room ih =>
    rw [visit]
    by_cases hmem : v ∈ w.met
    · rw [if_pos hmem]
      exact hw
    · rw [if_neg hmem]
      have hfold : ∀ (us : List String) (w : Walk), (∀ u ∈ us, P u) → (∀ x ∈ w.met, P x) →
          ∀ x ∈ (us.foldl (fun w u => visit next room u w) w).met, P x := by
        intro us
        induction us with
        | nil => exact fun w _ hw => hw
        | cons u us ihus =>
          intro w hus hw
          apply ihus _ fun u' hu' => hus u' (List.mem_cons_of_mem _ hu')
          exact ih (hus u List.mem_cons_self) hw
      apply hfold
      · exact hP v hv
      · intro x hx
        obtain rfl | hx := List.mem_cons.1 hx
        · exact hv
        · exact hw x hx

theorem Enough.of_searched {room : Nat} {w w' : Walk} (h : Enough nodes room w)
    (hs : Searched next w w') (hwithin : ∀ x ∈ w'.met, x ∈ nodes) : Enough nodes room w' where
  within := hwithin
  nodup := hs.nodup h.nodup
  lt := Nat.lt_of_lt_of_le h.lt (Nat.add_le_add_left hs.met.length_le room)

include hnext

/-- A search through several names, if each of them is searched. -/
theorem foldl_searched {room : Nat}
    (hvisit : ∀ v w, v ∈ nodes → Enough nodes room w →
      Searched next w (visit next room v w) ∧ v ∈ (visit next room v w).met)
    {us : List String} (hus : ∀ u ∈ us, u ∈ nodes) {w : Walk} (hw : Enough nodes room w) :
    Searched next w (us.foldl (fun w u => visit next room u w) w) ∧
      ∀ u ∈ us, u ∈ (us.foldl (fun w u => visit next room u w) w).met := by
  induction us generalizing w with
  | nil => exact ⟨.refl w, by simp⟩
  | cons u us ih =>
    have hu : u ∈ nodes := hus u List.mem_cons_self
    obtain ⟨hfirst, hmet⟩ := hvisit u w hu hw
    have hw' : Enough nodes room (visit next room u w) :=
      hw.of_searched hfirst (visit_keeps hnext hu hw.within)
    obtain ⟨hrest, hall⟩ := ih (fun u' hu' => hus u' (List.mem_cons_of_mem _ hu')) hw'
    refine ⟨hfirst.trans hrest, ?_⟩
    intro u' hu'
    obtain rfl | hu' := List.mem_cons.1 hu'
    · exact hrest.met.subset hmet
    · exact hall u' hu'

/-- A search from a name meets it and everything behind it. -/
theorem visit_searched {room : Nat} {v : String} {w : Walk} (hv : v ∈ nodes)
    (hw : Enough nodes room w) :
    Searched next w (visit next room v w) ∧ v ∈ (visit next room v w).met := by
  induction room generalizing v w with
  | zero => exact absurd hw.room_pos (Nat.lt_irrefl 0)
  | succ room ih =>
    rw [visit]
    by_cases hmem : v ∈ w.met
    · rw [if_pos hmem]
      exact ⟨.refl w, hmem⟩
    · rw [if_neg hmem]
      -- with one more name met, one step less of room is enough
      have hw' : Enough nodes room { w with met := v :: w.met } := by
        refine ⟨?_, List.nodup_cons.2 ⟨hmem, hw.nodup⟩, ?_⟩
        · intro x hx
          obtain rfl | hx := List.mem_cons.1 hx
          · exact hv
          · exact hw.within x hx
        · have := hw.lt
          simp only [List.length_cons]
          omega
      obtain ⟨hsearched, hall⟩ :=
        foldl_searched hnext (fun v w hv hw => ih hv hw) (hnext v hv) hw'
      exact ⟨hsearched.visit hmem hall, hsearched.met.subset List.mem_cons_self⟩

/-- A search that starts with nothing meets what can be reached. -/
theorem mem_visit_start {v : String} (hv : v ∈ nodes) {u : String} :
    u ∈ (visit next (nodes.length + 1) v Walk.start).met ↔
      ReflTransGen (fun x y => y ∈ next x) v u := by
  obtain ⟨hsearched, hmet⟩ := visit_searched hnext hv (enough_start nodes)
  constructor
  · apply visit_keeps (P := fun x => ReflTransGen (fun x y => y ∈ next x) v x)
    · exact fun x hx y hy => hx.tail hy
    · exact .refl
    · exact fun x hx => absurd hx List.not_mem_nil
  · intro h
    induction h with
    | refl => exact hmet
    | tail _ hedge ih =>
      -- what has been met is finished, since nothing had been met before
      have hfin := (hsearched.settled _ ih).resolve_left List.not_mem_nil
      exact (hsearched.closed _ hfin).resolve_left List.not_mem_nil _ hedge

theorem nodup_visit_start {v : String} (hv : v ∈ nodes) :
    (visit next (nodes.length + 1) v Walk.start).met.Nodup := by
  exact (visit_searched hnext hv (enough_start nodes)).1.nodup List.nodup_nil

/-- A search through all names finishes all of them. -/
theorem mem_finished_start {v : String} (hv : v ∈ nodes) :
    v ∈ (nodes.foldl (fun w v => visit next (nodes.length + 1) v w) Walk.start).finished := by
  obtain ⟨hsearched, hall⟩ :=
    foldl_searched hnext (fun v w hv hw => visit_searched hnext hv hw) (fun u hu => hu)
      (enough_start nodes)
  exact (hsearched.settled v (hall v hv)).resolve_left List.not_mem_nil

end Search

/-! ### Graphs -/

/-- An edge of the graph. -/
def Edge (g : CallGraph) (v u : String) : Prop := u ∈ g.next v

/-- Edges run between listed names. -/
def Closed (g : CallGraph) : Prop := ∀ v u, g.Edge v u → v ∈ g.nodes ∧ u ∈ g.nodes

namespace Closed

variable {g : CallGraph} (h : g.Closed) {v u : String}

include h

theorem mem_reachableFrom :
    u ∈ g.reachableFrom v ↔ v ∈ g.nodes ∧ ReflTransGen g.Edge v u := by
  rw [reachableFrom]
  by_cases hv : v ∈ g.nodes
  · have hnext : ∀ x ∈ g.nodes, ∀ y ∈ (g.next x).reverse, y ∈ g.nodes :=
      fun x _ y hy => (h x y (List.mem_reverse.1 hy)).2
    have hedge : (fun x y => y ∈ (g.next x).reverse) = g.Edge := by
      funext x y
      exact propext List.mem_reverse
    rw [if_pos hv, List.mem_reverse, room, mem_visit_start hnext hv, hedge]
    exact (and_iff_right hv).symm
  · rw [if_neg hv]
    simp [hv]

theorem nodup_reachableFrom (v : String) : (g.reachableFrom v).Nodup := by
  rw [reachableFrom]
  by_cases hv : v ∈ g.nodes
  · have hnext : ∀ x ∈ g.nodes, ∀ y ∈ (g.next x).reverse, y ∈ g.nodes :=
      fun x _ y hy => (h x y (List.mem_reverse.1 hy)).2
    rw [if_pos hv, List.nodup_reverse]
    exact nodup_visit_start hnext hv
  · rw [if_neg hv]
    exact List.nodup_nil

theorem mem_finishOrder (hv : v ∈ g.nodes) : v ∈ g.finishOrder := by
  rw [finishOrder, List.mem_reverse]
  exact mem_finished_start (fun x _ y hy => (h x y hy).2) hv

/-- Behind a listed name there are only listed names. -/
theorem mem_nodes_of_reach (hreach : ReflTransGen g.Edge v u) (hv : v ∈ g.nodes) :
    u ∈ g.nodes := by
  induction hreach with
  | refl => exact hv
  | tail _ hedge _ => exact (h _ _ hedge).2

end Closed

end MacroAssembler.CallGraph
