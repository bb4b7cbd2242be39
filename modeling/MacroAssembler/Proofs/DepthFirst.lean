/-
MacroAssembler/Proofs/DepthFirst.lean

Depth-first post-order of a graph.

`DepthFirst next met todo order` says that `order` is what a depth-first traversal lists that has
met the points `met` before and has the points `todo` to go to: each point that is new is listed
behind everything new that it leads to.  The graph may be infinite and may have cycles, and there
is at most one such order (`DepthFirst.unique`).

The points listed are those that can be reached (`mem_iff_reaches`), each of them once
(`DepthFirst.nodup`), and behind the points that it leads to, unless these lead back to it
(`DepthFirst.sublist_or_reaches`).
-/
import Mathlib.Data.Set.Insert
import Mathlib.Data.List.Nodup
import Mathlib.Logic.Relation

namespace MacroAssembler

open Relation

/-- Depth-first post-order. -/
inductive DepthFirst {α : Type} (next : α → List α) : (met : Set α) → (todo order : List α) → Prop
  | nil (met : Set α) : DepthFirst next met [] []
  | skip {met : Set α} {x : α} {xs order : List α} : x ∈ met → DepthFirst next met xs order →
      DepthFirst next met (x :: xs) order
  | visit {met : Set α} {x : α} {xs inner outer : List α} : x ∉ met →
      DepthFirst next (insert x met) (next x) inner →
      DepthFirst next (insert x met ∪ {y | y ∈ inner}) xs outer →
      DepthFirst next met (x :: xs) (inner ++ x :: outer)

namespace DepthFirst

variable {α : Type} {next : α → List α} {met : Set α} {todo order : List α}

theorem notMem_met (h : DepthFirst next met todo order) : ∀ y ∈ order, y ∉ met := by
  induction h with
  | nil => simp
  | skip _ _ ih => exact ih
  | visit hx _ _ ihInner ihOuter =>
    intro y hy
    obtain hy | hy := List.mem_append.1 hy
    · exact fun hmet => ihInner y hy (.inr hmet)
    · obtain rfl | hy := List.mem_cons.1 hy
      · exact hx
      · exact fun hmet => ihOuter y hy (.inl (.inr hmet))

theorem nodup (h : DepthFirst next met todo order) : order.Nodup := by
  induction h with
  | nil => exact List.nodup_nil
  | skip _ _ ih => exact ih
  | @visit met x xs inner outer _ hInner hOuter ihInner ihOuter =>
    refine List.nodup_append'.2 ⟨ihInner, List.nodup_cons.2 ⟨?_, ihOuter⟩, ?_⟩
    · exact fun hx => hOuter.notMem_met x hx (.inl (.inl rfl))
    · intro y hy hyOuter
      obtain rfl | hyOuter := List.mem_cons.1 hyOuter
      · exact hInner.notMem_met y hy (.inl rfl)
      · exact hOuter.notMem_met y hyOuter (.inr hy)

/-- Everything that was to be gone to has been met. -/
theorem met_of_todo (h : DepthFirst next met todo order) : ∀ y ∈ todo, y ∈ met ∨ y ∈ order := by
  induction h with
  | nil => simp
  | skip hx _ ih =>
    intro y hy
    obtain rfl | hy := List.mem_cons.1 hy
    · exact .inl hx
    · exact ih y hy
  | visit _ _ _ _ ihOuter =>
    intro y hy
    obtain rfl | hy := List.mem_cons.1 hy
    · exact .inr (by simp)
    · obtain ((rfl | hmet) | hInner) | hOuter := ihOuter y hy
      · exact .inr (by simp)
      · exact .inl hmet
      · exact .inr (List.mem_append_left _ hInner)
      · exact .inr (List.mem_append_right _ (List.mem_cons_of_mem _ hOuter))

/-- Edges stay among the points met. -/
theorem met_of_next (h : DepthFirst next met todo order) :
    ∀ y ∈ order, ∀ z ∈ next y, z ∈ met ∨ z ∈ order := by
  induction h with
  | nil => simp
  | skip _ _ ih => exact ih
  | @visit met x xs inner outer _ hInner _ ihInner ihOuter =>
    have hin : ∀ z, z ∈ insert x met ∨ z ∈ inner → z ∈ met ∨ z ∈ inner ++ x :: outer := by
      rintro z ((rfl | hmet) | hz)
      · exact .inr (by simp)
      · exact .inl hmet
      · exact .inr (List.mem_append_left _ hz)
    intro y hy z hz
    obtain hy | hy := List.mem_append.1 hy
    · exact hin z (ihInner y hy z hz)
    · obtain rfl | hy := List.mem_cons.1 hy
      · exact hin z (hInner.met_of_todo z hz)
      · obtain hmet | hOuter := ihOuter y hy z hz
        · exact hin z hmet
        · exact .inr (List.mem_append_right _ (List.mem_cons_of_mem _ hOuter))

theorem reaches (h : DepthFirst next met todo order) :
    ∀ y ∈ order, ∃ x ∈ todo, ReflTransGen (fun a b => b ∈ next a) x y := by
  induction h with
  | nil => simp
  | skip _ _ ih =>
    intro y hy
    obtain ⟨x, hx, hreach⟩ := ih y hy
    exact ⟨x, List.mem_cons_of_mem _ hx, hreach⟩
  | @visit met x xs inner outer _ _ _ ihInner ihOuter =>
    intro y hy
    obtain hy | hy := List.mem_append.1 hy
    · obtain ⟨z, hz, hreach⟩ := ihInner y hy
      exact ⟨x, List.mem_cons_self, .head hz hreach⟩
    · obtain rfl | hy := List.mem_cons.1 hy
      · exact ⟨y, List.mem_cons_self, .refl⟩
      · obtain ⟨z, hz, hreach⟩ := ihOuter y hy
        exact ⟨z, List.mem_cons_of_mem _ hz, hreach⟩

/-- A point comes behind each point that it leads to, unless that one leads back to it. -/
theorem sublist_or_reaches (h : DepthFirst next met todo order) :
    ∀ a ∈ order, ∀ b ∈ next a,
      b ∈ met ∨ [b, a].Sublist order ∨ ReflTransGen (fun a b => b ∈ next a) b a := by
  induction h with
  | nil => simp
  | skip _ _ ih => exact ih
  | @visit met x xs inner outer _ hInner _ ihInner ihOuter =>
    intro a ha b hb
    obtain haInner | haRest := List.mem_append.1 ha
    · obtain (rfl | hmet) | hsub | hback := ihInner a haInner b hb
      · -- the edge goes back to the point that is being visited
        obtain ⟨y, hy, hreach⟩ := hInner.reaches a haInner
        exact .inr (.inr (.head hy hreach))
      · exact .inl hmet
      · exact .inr (.inl (hsub.trans (List.sublist_append_left _ _)))
      · exact .inr (.inr hback)
    · obtain rfl | haOuter := List.mem_cons.1 haRest
      · obtain (rfl | hmet) | hinner := hInner.met_of_todo b hb
        · exact .inr (.inr .refl)
        · exact .inl hmet
        · refine .inr (.inl ?_)
          exact (List.singleton_sublist.2 hinner).append
            (List.cons_sublist_cons.2 (List.nil_sublist _))
      · obtain (((rfl | hmet) | hinner) | hsub | hback) := ihOuter a haOuter b hb
        · refine .inr (.inl (.trans ?_ (List.sublist_append_right _ _)))
          exact List.cons_sublist_cons.2 (List.singleton_sublist.2 haOuter)
        · exact .inl hmet
        · refine .inr (.inl ?_)
          exact (List.singleton_sublist.2 hinner).append
            (List.singleton_sublist.2 (List.mem_cons_of_mem _ haOuter))
        · exact .inr (.inl (hsub.trans
            ((List.sublist_cons_self _ _).trans (List.sublist_append_right _ _))))
        · exact .inr (.inr hback)

/-- The graph and the points to start from decide the order. -/
theorem unique {order' : List α} (h : DepthFirst next met todo order)
    (h' : DepthFirst next met todo order') : order = order' := by
  induction h generalizing order' with
  | nil =>
    cases h'
    rfl
  | skip hx _ ih =>
    cases h' with
    | skip _ h' => exact ih h'
    | visit hx' => exact absurd hx hx'
  | visit hx _ _ ihInner ihOuter =>
    cases h' with
    | skip hx' => exact absurd hx' hx
    | visit _ hInner hOuter =>
      obtain rfl := ihInner hInner
      rw [ihOuter hOuter]

/-! ### Traversals from one point -/

variable {x : α}

/-- A traversal from one point lists what can be reached from it. -/
theorem mem_iff_reaches (h : DepthFirst next ∅ [x] order) {y : α} :
    y ∈ order ↔ ReflTransGen (fun a b => b ∈ next a) x y := by
  constructor
  · intro hy
    obtain ⟨z, hz, hreach⟩ := h.reaches y hy
    rwa [List.mem_singleton.1 hz] at hreach
  · intro hreach
    induction hreach with
    | refl => exact (h.met_of_todo x (List.mem_singleton.2 rfl)).resolve_left (Set.notMem_empty x)
    | tail _ hedge ih => exact (h.met_of_next _ ih _ hedge).resolve_left (Set.notMem_empty _)

theorem getLast?_eq (h : DepthFirst next ∅ [x] order) : order.getLast? = some x := by
  cases h with
  | skip hx => exact absurd hx (Set.notMem_empty x)
  | visit _ _ hOuter =>
    cases hOuter
    simp

/-- Without cycles, a point comes behind all points that it leads to. -/
theorem sublist_of_acyclic (h : DepthFirst next ∅ [x] order)
    (hacyclic : ∀ y ∈ order, ¬ TransGen (fun a b => b ∈ next a) y y) {a b : α} (ha : a ∈ order)
    (hb : b ∈ next a) : [b, a].Sublist order := by
  obtain hmet | hsub | hback := h.sublist_or_reaches a ha b hb
  · exact absurd hmet (Set.notMem_empty b)
  · exact hsub
  · exact absurd (TransGen.head' hb hback) (hacyclic a ha)

end DepthFirst

end MacroAssembler
