/-
MacroAssembler/Proofs/ShortestCycles.lean

The cycle that is reported is a shortest one.

The search keeps the names that wait and, of each name that was met, the one from
which it was met.  `wayBack` is the same search with a queue of whole paths: a path
is what following the parents from its last name gives (`Traced`), so the two find
the same way back (`roundTrip_eq_wayBack`).

`wayBack` searches breadth first.  Between two of its steps the paths that it has
made fall into those it has gone on from (`done`) and those that wait
(`queue`), and `Spread` says how they lie: they are ordered by length, those that
wait differ by no more than one, and what a finished path leads to is the end
of a path that is at most one longer.  So a walk of any length ends where a
finished path ends, or some path waits that is no longer than the walk
(`Spread.reaches`).  Both halves of the search follow from that one fact.  When
a way back is found, no shorter one was passed over; and as long as there is a
way back at all, some path waits.

No two paths end in the same name, so the names of the component are room
enough for the search.

Main result: `Registry.findCycle_shortest`.
-/
import MacroAssembler.Proofs.StaticCycles

namespace MacroAssembler

open Relation

namespace CallGraph

/-! ### Parents and paths -/

/-- Search breadth first for a way back to `start`.  The queue holds paths from
`start`, each with its last name first; `seen` holds the names already queued. -/
def wayBack (next : String → List String) (start : String) :
    (room : Nat) → (seen : List String) → (queue : List (List String)) → Option (List String)
  | 0, _, _ => none
  | _, _, [] => none
  | room + 1, seen, [] :: queue => wayBack next start room seen queue
  | room + 1, seen, (v :: path) :: queue =>
    if start ∈ next v then some (start :: v :: path).reverse
    else
      let fresh := (next v).filter fun u => u ∉ seen
      wayBack next start room (fresh ++ seen) (queue ++ fresh.map fun u => u :: v :: path)

/-- Each name of the path but the last, which is `start`, has the next one as its
parent. -/
inductive Traced (start : String) (parents : List (String × String)) : List String → Prop
  | start : Traced start parents [start]
  | step {u v p} : u ≠ start → parents.lookup u = some v → Traced start parents (v :: p) →
      Traced start parents (u :: v :: p)

namespace Traced

variable {start : String} {parents : List (String × String)} {v : String} {p : List String}

/-- Following the parents from the end of a path gives the path. -/
theorem pathTo_eq (h : Traced start parents (v :: p)) {room : Nat} (hroom : p.length < room) :
    pathTo start parents room v = v :: p := by
  induction p generalizing v room with
  | nil =>
    cases h
    obtain ⟨room, rfl⟩ : ∃ k, room = k + 1 := ⟨room - 1, by omega⟩
    rw [pathTo, if_pos rfl]
  | cons u p ih =>
    obtain ⟨room, rfl⟩ : ∃ k, room = k + 1 := ⟨room - 1, by omega⟩
    cases h with
    | step hne hparent hrest =>
      rw [pathTo, if_neg hne, hparent, Option.getD_some, ih hrest (Nat.lt_of_succ_lt_succ hroom)]

/-- New parents, of names that have none, leave the paths as they are. -/
theorem append (h : Traced start parents p) {new : List (String × String)}
    (hnew : ∀ e ∈ new, parents.lookup e.1 = none) : Traced start (new ++ parents) p := by
  induction h with
  | start => exact .start
  | @step u v p hne hparent _ ih =>
    have hold : new.lookup u = none := by
      refine List.lookup_eq_none_iff.2 fun e he => ?_
      have hother : u ≠ e.1 := by
        rintro rfl
        rw [hnew e he] at hparent
        cases hparent
      simpa using hother
    exact .step hne (by rw [List.lookup_append, hold, hparent, Option.none_or]) ih

end Traced

theorem lookup_map_pair {v u : String} {fresh : List String} (hu : u ∈ fresh) :
    (fresh.map fun u => (u, v)).lookup u = some v := by
  induction fresh with
  | nil => cases hu
  | cons w fresh ih =>
    rw [List.map_cons, List.lookup_cons]
    by_cases heq : u = w
    · simp [heq]
    · have hother : (u == w) = false := by simpa using heq
      rw [hother]
      exact ih ((List.mem_cons.1 hu).resolve_left heq)

theorem isNone_lookup_eq (parents : List (String × String)) (u : String) :
    (parents.lookup u).isNone = decide (u ∉ parents.map Prod.fst) := by
  rw [Bool.eq_iff_iff, Option.isNone_iff_eq_none, List.lookup_eq_none_iff, decide_eq_true_iff]
  simp only [bne_iff_ne, List.mem_map, not_exists, not_and]
  exact ⟨fun h e he heq => h e he heq.symm, fun h e he heq => h e he heq.symm⟩

/-- The paths that wait can all be traced, in as many steps as there are parents. -/
def Traceable (start : String) (parents : List (String × String)) (paths : List (List String)) :
    Prop :=
  ∀ p ∈ paths, Traced start parents p ∧ p.length ≤ parents.length + 1

theorem traceable_start (start : String) : Traceable start [] [[start]] := by
  intro p hp
  obtain rfl := List.mem_singleton.1 hp
  exact ⟨.start, Nat.le_refl _⟩

/-- The first path is gone on from, to names that have no parent yet. -/
theorem Traceable.advance {start v : String} {parents : List (String × String)} {p : List String}
    {paths : List (List String)} (h : Traceable start parents ((v :: p) :: paths))
    {fresh : List String} (hfresh : ∀ u ∈ fresh, u ≠ start ∧ parents.lookup u = none) :
    Traceable start (fresh.map (fun u => (u, v)) ++ parents)
      (paths ++ fresh.map fun u => u :: v :: p) := by
  have hkept : ∀ {q}, Traced start parents q →
      Traced start (fresh.map (fun u => (u, v)) ++ parents) q := by
    intro q hq
    refine hq.append fun e he => ?_
    obtain ⟨u, hu, rfl⟩ := List.mem_map.1 he
    exact (hfresh u hu).2
  intro q hq
  rw [List.length_append, List.length_map]
  obtain hq | hq := List.mem_append.1 hq
  · obtain ⟨hq, hle⟩ := h q (List.mem_cons_of_mem _ hq)
    exact ⟨hkept hq, by omega⟩
  · obtain ⟨u, hu, rfl⟩ := List.mem_map.1 hq
    obtain ⟨htraced, hle⟩ := h _ List.mem_cons_self
    have hpos := List.length_pos_of_mem hu
    refine ⟨.step (hfresh u hu).1 ?_ (hkept htraced), ?_⟩
    · rw [List.lookup_append, lookup_map_pair hu, Option.some_or]
    · rw [List.length_cons]
      omega

/-- The search with parents finds what the search with paths finds. -/
theorem roundTrip_eq_wayBack {next : String → List String} {start : String} {room : Nat}
    {parents : List (String × String)} {paths : List (List String)}
    (h : Traceable start parents paths) :
    roundTrip next start room parents (paths.filterMap List.head?) =
      wayBack next start room (parents.map Prod.fst) paths := by
  induction room generalizing parents paths with
  | zero => rfl
  | succ room ih =>
    match paths with
    | [] => rfl
    | [] :: paths => nomatch (h [] List.mem_cons_self).1
    | (v :: p) :: paths =>
      have hnames : ((v :: p) :: paths).filterMap List.head? = v :: paths.filterMap List.head? :=
        rfl
      rw [hnames, roundTrip, wayBack]
      by_cases hback : start ∈ next v
      · obtain ⟨htraced, hlength⟩ := h _ List.mem_cons_self
        rw [if_pos hback, if_pos hback, htraced.pathTo_eq hlength, List.reverse_cons (a := start)]
      · rw [if_neg hback, if_neg hback]
        simp only [isNone_lookup_eq]
        generalize hfresh : (next v).filter (fun u => decide (u ∉ parents.map Prod.fst)) = fresh
        have hnew : ∀ u ∈ fresh, u ≠ start ∧ parents.lookup u = none := by
          intro u hu
          rw [← hfresh, List.mem_filter, ← isNone_lookup_eq, Option.isNone_iff_eq_none] at hu
          exact ⟨fun heq => hback (heq ▸ hu.1), hu.2⟩
        -- the names that wait and the names that are met, as the paths and the parents have them
        have hqueue : paths.filterMap List.head? ++ fresh =
            (paths ++ fresh.map fun u => u :: v :: p).filterMap List.head? := by
          rw [List.filterMap_append, List.filterMap_map]
          exact congrArg (_ ++ ·) List.filterMap_some.symm
        have hseen : fresh ++ parents.map Prod.fst =
            (fresh.map (fun u => (u, v)) ++ parents).map Prod.fst := by
          rw [List.map_append, List.map_map]
          exact congrArg (· ++ _) (List.map_id fresh).symm
        rw [hqueue, hseen]
        exact ih (h.advance hnew)

/-! ### Walks of a given length -/

/-- `n` steps along `next` lead from one name to another. -/
inductive Leads (next : String → List String) (v : String) : Nat → String → Prop
  | refl : Leads next v 0 v
  | step {n u w} : Leads next v n u → w ∈ next u → Leads next v (n + 1) w

namespace Leads

variable {next : String → List String} {v u w : String} {n k : Nat}

theorem trans (h : Leads next v n u) (h' : Leads next u k w) : Leads next v (n + k) w := by
  induction h' with
  | refl => exact h
  | step _ hedge ih => exact ih.step hedge

theorem reach (h : Leads next v n u) : ReflTransGen (fun x y => y ∈ next x) v u := by
  induction h with
  | refl => exact .refl
  | step _ hedge ih => exact ih.tail hedge

/-- A chain of names is a walk from its first to its last. -/
theorem of_isChain {l : List String} (h : (v :: l).IsChain fun x y => y ∈ next x)
    (hlast : (v :: l).getLast? = some w) : Leads next v l.length w := by
  induction l generalizing v with
  | nil =>
    obtain rfl : v = w := by simpa using hlast
    exact .refl
  | cons u l ih =>
    obtain ⟨hedge, hrest⟩ := List.isChain_cons_cons.1 h
    rw [List.length_cons, Nat.add_comm]
    exact (Leads.refl.step hedge).trans (ih hrest (by simpa using hlast))

end Leads

/-! ### The state of a search -/

/-- A path from `start`, with its last name first, through names that are seen. -/
structure Path (next : String → List String) (start : String) (seen : List String)
    (p : List String) : Prop where
  chain : p.IsChain fun x y => x ∈ next y
  first : p.getLast? = some start
  nodup : p.Nodup
  passed : ∀ u ∈ p, u = start ∨ u ∈ seen

/-- How the paths of a breadth-first search lie between two steps: `done` are
those that it has gone on from, and `queue` those that wait. -/
structure Spread (next : String → List String) (start : String) (seen : List String)
    (done queue : List (List String)) : Prop where
  paths : ∀ p ∈ done ++ queue, Path next start seen p
  started : [start] ∈ done ++ queue
  /-- A name that is seen is the end of a path. -/
  ends : ∀ u ∈ seen, ∃ p ∈ done ++ queue, p.head? = some u
  /-- No two paths have the same end. -/
  apart : ((done ++ queue).map List.head?).Nodup
  ordered : (done ++ queue).Pairwise fun p q => p.length ≤ q.length
  near : ∀ p ∈ queue, ∀ q ∈ queue, q.length ≤ p.length + 1
  /-- A finished path does not lead back, and where it leads a path ends that is
  at most one longer. -/
  settled : ∀ v p, v :: p ∈ done → start ∉ next v ∧
    ∀ u ∈ next v, ∃ q ∈ done ++ queue, q.head? = some u ∧ q.length ≤ (v :: p).length + 1

section Search

variable {next : String → List String} {start : String} {seen : List String}
  {done queue : List (List String)}

theorem Path.mono {seen' p : List String} (h : Path next start seen p) (hsub : seen ⊆ seen') :
    Path next start seen' p :=
  { h with passed := fun u hu => (h.passed u hu).imp_right (hsub ·) }

theorem Path.ne_nil {p : List String} (h : Path next start seen p) : p ≠ [] := by
  rintro rfl
  cases h.first

/-- One more step from the end of a path. -/
theorem Path.cons {v u : String} {p : List String} (h : Path next start seen (v :: p))
    (hedge : u ∈ next v) (hne : u ≠ start) (hnew : u ∉ seen) :
    Path next start (u :: seen) (u :: v :: p) where
  chain := .cons_cons hedge h.chain
  first := by
    rw [List.getLast?_cons_cons]
    exact h.first
  nodup := by
    refine List.nodup_cons.2 ⟨fun hmem => ?_, h.nodup⟩
    exact (h.passed u hmem).elim hne hnew
  passed := by
    intro x hx
    obtain rfl | hx := List.mem_cons.1 hx
    · exact .inr List.mem_cons_self
    · exact (h.passed x hx).imp_right (List.mem_cons_of_mem _)

theorem spread_start : Spread next start [] [] [[start]] where
  paths := by
    intro p hp
    obtain rfl := List.mem_singleton.1 hp
    exact ⟨.singleton _, rfl, List.nodup_singleton _, by simp⟩
  started := List.mem_singleton_self _
  ends := by simp
  apart := List.nodup_singleton _
  ordered := List.pairwise_singleton _ _
  near := by simp
  settled := by simp

namespace Spread

/-- A walk ends where a finished path ends, or a path waits that is no longer. -/
theorem reaches (h : Spread next start seen done queue) {n : Nat} {u : String}
    (hwalk : Leads next start n u) :
    (∃ p ∈ queue, p.length ≤ n + 1) ∨ ∃ p ∈ done, p.head? = some u ∧ p.length ≤ n + 1 := by
  induction hwalk with
  | refl =>
    obtain hdone | hwaits := List.mem_append.1 h.started
    · exact .inr ⟨_, hdone, rfl, Nat.le_refl _⟩
    · exact .inl ⟨_, hwaits, Nat.le_refl _⟩
  | @step n v u _ hedge ih =>
    obtain ⟨p, hp, hle⟩ | ⟨p, hp, hhead, hle⟩ := ih
    · exact .inl ⟨p, hp, Nat.le_succ_of_le hle⟩
    · -- the finished path has been gone on from
      obtain ⟨p, rfl⟩ := List.head?_eq_some_iff.1 hhead
      obtain ⟨q, hq, hqhead, hqle⟩ := (h.settled v p hp).2 u hedge
      have hle' : q.length ≤ n + 1 + 1 := Nat.le_trans hqle (Nat.succ_le_succ hle)
      obtain hq | hq := List.mem_append.1 hq
      · exact .inr ⟨q, hq, hqhead, hle'⟩
      · exact .inl ⟨q, hq, hle'⟩

/-- A way back has a path that waits and is shorter. -/
theorem exists_queued (h : Spread next start seen done queue) {n : Nat}
    (hround : Leads next start (n + 1) start) : ∃ p ∈ queue, p.length ≤ n + 1 := by
  cases hround with
  | step hwalk hedge =>
    obtain hwaits | ⟨p, hp, hhead, -⟩ := h.reaches hwalk
    · exact hwaits
    · obtain ⟨p, rfl⟩ := List.head?_eq_some_iff.1 hhead
      exact absurd hedge (h.settled _ p hp).1

variable {v : String} {p : List String}

/-- No path is longer than the first that waits by more than one. -/
theorem length_le_first (h : Spread next start seen done ((v :: p) :: queue)) {q : List String}
    (hq : q ∈ done ++ (v :: p) :: queue) : q.length ≤ (v :: p).length + 1 := by
  obtain hq | hq := List.mem_append.1 hq
  · -- a finished path is no longer than one that waits
    have hle := (List.pairwise_append.1 h.ordered).2.2 q hq _ List.mem_cons_self
    exact Nat.le_succ_of_le hle
  · exact h.near _ List.mem_cons_self q hq

/-- Where the first path that waits leads, a path ends that is at most one longer,
among the old ones or the new ones. -/
theorem exists_end (h : Spread next start seen done ((v :: p) :: queue)) {u : String}
    (hu : u ∈ next v) :
    (u ∈ (next v).filter fun u => u ∉ seen) ∨
      ∃ q ∈ done ++ (v :: p) :: queue, q.head? = some u ∧ q.length ≤ (v :: p).length + 1 := by
  by_cases hseen : u ∈ seen
  · obtain ⟨q, hq, hhead⟩ := h.ends u hseen
    exact .inr ⟨q, hq, hhead, h.length_le_first hq⟩
  · exact .inl (by simp [hu, hseen])

/-- The first path that waits is gone on from. -/
theorem advance (h : Spread next start seen done ((v :: p) :: queue)) (hback : start ∉ next v)
    (hnext : (next v).Nodup) :
    Spread next start ((next v).filter (fun u => u ∉ seen) ++ seen) (done ++ [v :: p])
      (queue ++ ((next v).filter fun u => u ∉ seen).map fun u => u :: v :: p) := by
  have hpath : Path next start seen (v :: p) := h.paths _ (by simp)
  generalize hfresh : (next v).filter (fun u => u ∉ seen) = fresh
  have hmem : ∀ u, u ∈ fresh ↔ u ∈ next v ∧ u ∉ seen := by
    intro u
    simp [← hfresh]
  -- the paths of before, and one for each new name
  have hall : ∀ q, q ∈ done ++ [v :: p] ++ (queue ++ fresh.map fun u => u :: v :: p) ↔
      q ∈ done ++ (v :: p) :: queue ∨ ∃ u ∈ fresh, u :: v :: p = q := by
    intro q
    simp only [List.mem_append, List.mem_cons, List.mem_map, List.not_mem_nil, or_false]
    tauto
  have hsplit : done ++ [v :: p] ++ (queue ++ fresh.map fun u => u :: v :: p) =
      done ++ (v :: p) :: queue ++ fresh.map fun u => u :: v :: p := by
    simp
  constructor
  · intro q hq
    obtain hq | ⟨u, hu, rfl⟩ := (hall q).1 hq
    · exact (h.paths q hq).mono (List.subset_append_right _ _)
    · obtain ⟨hedge, hnew⟩ := (hmem u).1 hu
      refine (hpath.cons hedge (fun heq => hback (heq ▸ hedge)) hnew).mono ?_
      exact List.cons_subset.2 ⟨List.mem_append_left _ hu, List.subset_append_right _ _⟩
  · exact (hall _).2 (.inl h.started)
  · intro u hu
    obtain hu | hu := List.mem_append.1 hu
    · exact ⟨_, (hall _).2 (.inr ⟨u, hu, rfl⟩), rfl⟩
    · obtain ⟨q, hq, hhead⟩ := h.ends u hu
      exact ⟨q, (hall q).2 (.inl hq), hhead⟩
  · rw [hsplit, List.map_append, List.map_map]
    refine h.apart.append ?_ ?_
    · rw [← hfresh]
      exact (hnext.filter _).map fun x y hxy => Option.some.inj hxy
    · -- a new name is the end of none of the old paths
      intro x hx hnew
      obtain ⟨q, hq, rfl⟩ := List.mem_map.1 hx
      obtain ⟨u, hu, heq⟩ := List.mem_map.1 hnew
      obtain ⟨hedge, hunseen⟩ := (hmem u).1 hu
      obtain ⟨q', rfl⟩ := List.head?_eq_some_iff.1 heq.symm
      obtain rfl | hseen := (h.paths _ hq).passed u List.mem_cons_self
      · exact hback hedge
      · exact hunseen hseen
  · rw [hsplit]
    refine List.pairwise_append.2 ⟨h.ordered, ?_, ?_⟩
    · exact List.Pairwise.map _ (fun _ _ _ => Nat.le_refl _) (List.pairwise_of_forall fun _ _ => trivial)
    · intro q hq q' hq'
      obtain ⟨u, -, rfl⟩ := List.mem_map.1 hq'
      exact h.length_le_first hq
  · -- all that waits is as long as the path that was gone on from, or one longer
    have hlong : ∀ q ∈ queue ++ fresh.map (fun u => u :: v :: p),
        p.length + 1 ≤ q.length ∧ q.length ≤ p.length + 2 := by
      intro q hq
      obtain hq | hq := List.mem_append.1 hq
      · have hordered := (List.pairwise_append.1 h.ordered).2.1
        exact ⟨(List.pairwise_cons.1 hordered).1 q hq, h.length_le_first (by simp [hq])⟩
      · obtain ⟨u, -, rfl⟩ := List.mem_map.1 hq
        exact ⟨Nat.le_succ _, Nat.le_refl _⟩
    intro q hq q' hq'
    have := hlong q hq
    have := hlong q' hq'
    omega
  · intro w q hq
    obtain hq | hq := List.mem_append.1 hq
    · obtain ⟨hno, hnear⟩ := h.settled w q hq
      refine ⟨hno, fun u hu => ?_⟩
      obtain ⟨q', hq', hrest⟩ := hnear u hu
      exact ⟨q', (hall q').2 (.inl hq'), hrest⟩
    · obtain ⟨rfl, rfl⟩ := List.cons.inj (List.mem_singleton.1 hq)
      refine ⟨hback, fun u hu => ?_⟩
      obtain hnew | ⟨q', hq', hrest⟩ := h.exists_end hu
      · rw [hfresh] at hnew
        exact ⟨_, (hall _).2 (.inr ⟨u, hnew, rfl⟩), rfl, Nat.le_refl _⟩
      · exact ⟨q', (hall q').2 (.inl hq'), hrest⟩

/-- There are no more paths than names that they can end in. -/
theorem length_le (h : Spread next start seen done queue) {names : List String}
    (hstart : start ∈ names) (hnames : ∀ x, ∀ y ∈ next x, y ∈ names) :
    (done ++ queue).length ≤ names.length := by
  have hsub : (done ++ queue).map List.head? ⊆ names.map some := by
    intro x hx
    obtain ⟨q, hq, rfl⟩ := List.mem_map.1 hx
    have hpath := h.paths q hq
    match q, hpath.ne_nil with
    | [w], _ =>
      obtain rfl : w = start := by simpa using hpath.first
      exact List.mem_map_of_mem hstart
    | w :: w' :: q, _ =>
      exact List.mem_map_of_mem (hnames w' w (List.isChain_cons_cons.1 hpath.chain).1)
  simpa using (List.Nodup.subperm h.apart hsub).length_le

end Spread

/-! ### Ways back -/

/-- A way from `start` back to itself that meets no other name twice, and than
which none is shorter. -/
structure ShortestRound (next : String → List String) (start : String) (round : List String) :
    Prop where
  two_le : 2 ≤ round.length
  head : round.head? = some start
  last : round.getLast? = some start
  chain : round.IsChain fun x y => y ∈ next x
  nodup : round.dropLast.Nodup
  least : ∀ n, Leads next start (n + 1) start → round.length ≤ n + 2

/-- A path that leads back is a shortest way back, if no shorter one waits. -/
theorem Spread.shortestRound {v : String} {p : List String}
    (h : Spread next start seen done ((v :: p) :: queue)) (hback : start ∈ next v) :
    ShortestRound next start (start :: v :: p).reverse := by
  have hpath : Path next start seen (v :: p) := h.paths _ (by simp)
  have hfirst := hpath.first
  constructor
  · simp
  · rw [List.head?_reverse, List.getLast?_cons_cons, hfirst]
  · simp
  · rw [List.isChain_reverse]
    exact .cons_cons hback hpath.chain
  · rw [List.dropLast_reverse, List.tail_cons, List.nodup_reverse]
    exact hpath.nodup
  · intro n hround
    obtain ⟨q, hq, hle⟩ := h.exists_queued hround
    have hordered := (List.pairwise_append.1 h.ordered).2.1
    -- the first path that waits is a shortest one
    have hmin : (v :: p).length ≤ q.length := by
      obtain rfl | hq := List.mem_cons.1 hq
      · exact Nat.le_refl _
      · exact (List.pairwise_cons.1 hordered).1 q hq
    simp only [List.length_reverse, List.length_cons] at hmin ⊢
    omega

/-- The search finds a shortest way back, if there is a way back at all. -/
theorem wayBack_shortest {names : List String} (hstart : start ∈ names)
    (hnames : ∀ x, ∀ y ∈ next x, y ∈ names) (hnext : ∀ x, (next x).Nodup) {n : Nat}
    (hround : Leads next start (n + 1) start) {room : Nat}
    (hroom : names.length < room + done.length) (h : Spread next start seen done queue) :
    ∃ round, wayBack next start room seen queue = some round ∧
      ShortestRound next start round := by
  induction room generalizing seen done queue with
  | zero =>
    have hle := h.length_le hstart hnames
    rw [List.length_append] at hle
    omega
  | succ room ih =>
    -- some path waits
    obtain ⟨q, hq, -⟩ := h.exists_queued hround
    match queue, hq with
    | [] :: queue, _ => exact absurd rfl (h.paths [] (by simp)).ne_nil
    | (v :: p) :: queue, _ =>
      rw [wayBack]
      by_cases hback : start ∈ next v
      · rw [if_pos hback]
        exact ⟨_, rfl, h.shortestRound hback⟩
      · rw [if_neg hback]
        refine ih ?_ (h.advance hback (hnext v))
        rw [List.length_append, List.length_singleton]
        omega

end Search

/-! ### Inside a component -/

namespace WellFormed

variable {g : CallGraph} (hg : g.WellFormed) {v start : String}

include hg

/-- A walk that can be continued to its start stays inside the component. -/
theorem leads_restrict (hv : v ∈ g.nodes) (hstart : start ∈ g.component v) {n : Nat} {u : String}
    (hwalk : Leads g.next start n u) (hback : ReflTransGen g.Edge u start) :
    Leads (fun x => (g.next x).filter (g.component v).contains) start n u := by
  induction hwalk with
  | refl => exact .refl
  | @step n u w hwalk hedge ih =>
    have hmem : w ∈ g.component v :=
      (hg.mem_component_congr hv hstart).2 ⟨hwalk.reach.tail hedge, hback⟩
    refine (ih (.head hedge hback)).step (List.mem_filter.2 ⟨hedge, ?_⟩)
    rwa [List.contains_iff_mem]

/-- The cycle through a name of a cyclic component is a shortest one of the
graph. -/
theorem shortestCycle_shortest (hnext : ∀ x, (g.next x).Nodup) (hv : v ∈ g.nodes)
    (hstart : start ∈ g.component v) (hcycle : TransGen g.Edge start start) :
    ShortestRound g.next start (g.shortestCycle start (g.component v)) := by
  have hwithin : ∀ {n}, Leads g.next start n start →
      Leads (fun x => (g.next x).filter (g.component v).contains) start n start :=
    fun hwalk => hg.leads_restrict hv hstart hwalk .refl
  obtain ⟨n, hround⟩ : ∃ n, Leads g.next start (n + 1) start := by
    obtain ⟨u, hedge, hreach⟩ := TransGen.head'_iff.1 hcycle
    obtain ⟨l, hchain, hlast⟩ := List.exists_isChain_cons_of_relationReflTransGen hreach
    refine ⟨l.length, ?_⟩
    rw [Nat.add_comm]
    refine (Leads.refl.step hedge).trans (.of_isChain hchain ?_)
    rw [List.getLast?_eq_some_getLast (List.cons_ne_nil u l), hlast]
  have hnames : ∀ x, ∀ y ∈ (g.next x).filter (g.component v).contains, y ∈ g.component v :=
    fun x y hy => by simpa using (List.mem_filter.1 hy).2
  have hroom : (g.component v).length < (g.component v).length + 1 + ([] : List (List String)).length :=
    Nat.lt_succ_self _
  obtain ⟨round, hround', hshortest⟩ := wayBack_shortest hstart hnames
    (fun x => (hnext x).filter _) (hwithin hround) hroom spread_start
  have heq : g.shortestCycle start (g.component v) = round := by
    have hfound := (roundTrip_eq_wayBack (traceable_start start)).trans hround'
    exact congrArg (Option.getD · [start, start]) hfound
  rw [heq]
  refine { hshortest with chain := ?_, least := fun n hn => hshortest.least n (hwithin hn) }
  exact hshortest.chain.imp fun x y hy => (List.mem_filter.1 hy).1

/-- The cycle that is reported is a shortest one through its first name, which
the entry reaches. -/
theorem findCycle_eq_some (hnext : ∀ x, (g.next x).Nodup) {entry : String} {chain : List String}
    (h : g.findCycle entry = some chain) :
    ∃ start ∈ g.reachableFrom entry, ShortestRound g.next start chain := by
  rw [findCycle] at h
  rcases hfirst : g.firstCyclic (g.reachableFrom entry).contains [] [] g.finishOrder with
    - | members
  · simp only [hfirst] at h
    cases h
  · simp only [hfirst, Option.some.injEq] at h
    obtain ⟨v, hp, rfl, hcyclic⟩ := firstCyclic_sound (by simp) hfirst
    rw [List.contains_iff_mem] at hp
    obtain ⟨hentry, hreach⟩ := hg.closed.mem_reachableFrom.1 hp
    have hv : v ∈ g.nodes := hg.closed.mem_nodes_of_reach hreach hentry
    have hround := (hg.isCyclic_component_iff hv).1 hcyclic
    -- the entry reaches `v`, so its search meets a name of the component
    rcases hfind : (g.reachableFrom entry).find? (g.component v).contains with - | start
    · have hno := List.find?_eq_none.1 hfind v hp
      rw [List.contains_iff_mem] at hno
      exact absurd (hg.mem_component_self hv) hno
    · rw [hfind, Option.getD_some] at h
      have hstart : start ∈ g.component v := by simpa using List.find?_some hfind
      refine ⟨start, List.mem_of_find?_eq_some hfind, ?_⟩
      rw [← h]
      exact hg.shortestCycle_shortest hnext hv hstart
        (exists_caller_of_mem_component hg hv hround hstart).1

end WellFormed

/-- Of a name that occurs more than once, one occurrence is kept. -/
theorem nodup_eraseDups (l : List String) : l.eraseDups.Nodup := by
  match l with
  | [] => exact List.nodup_nil
  | v :: l =>
    rw [List.eraseDups_cons, List.nodup_cons]
    refine ⟨fun hmem => ?_, nodup_eraseDups _⟩
    have hne := (List.mem_filter.1 (List.mem_eraseDups.1 hmem)).2
    simp at hne
termination_by l.length
decreasing_by
  simp only [List.length_cons]
  exact Nat.lt_succ_of_le (List.length_filter_le _ _)

theorem nodup_next_ofRegistry (r : Registry) (v : String) : ((ofRegistry r).next v).Nodup := by
  rw [next_ofRegistry]
  rcases r.getMacro? v with - | m
  · exact List.nodup_nil
  · exact nodup_eraseDups _

end CallGraph

/-! ### Registries -/

namespace Registry

/-- The macro of the first name calls or measures the second. -/
def Refers (r : Registry) (v u : String) : Prop :=
  ∃ m op args, r.getMacro? v = some m ∧ op ∈ m.ops ∧
    (op.kind = .call u args ∨ op.kind = .codeSize u args)

/-- A name that is declared, or that a macro calls or measures. -/
def Mentions (r : Registry) (v : String) : Prop :=
  r.hasMacro v = true ∨ ∃ u, r.Refers u v

/-- Names of which each refers to the next, and the last is the first. -/
structure Cycle (r : Registry) (chain : List String) : Prop where
  two_le : 2 ≤ chain.length
  closed : chain.head? = chain.getLast?
  refers : chain.IsChain r.Refers

theorem edge_iff_refers {r : Registry} {v u : String} :
    (CallGraph.ofRegistry r).Edge v u ↔ r.Refers v u := by
  rw [CallGraph.edge_ofRegistry]
  constructor
  · rintro ⟨m, hm, hu⟩
    obtain ⟨⟨kind, source⟩, hop, hkind⟩ := List.mem_filterMap.1 hu
    cases kind with
    | call name args =>
      obtain rfl : name = u := Option.some.inj hkind
      exact ⟨m, _, args, hm, hop, .inl rfl⟩
    | codeSize name args =>
      obtain rfl : name = u := Option.some.inj hkind
      exact ⟨m, _, args, hm, hop, .inr rfl⟩
    | _ => cases hkind
  · rintro ⟨m, op, args, hm, hop, hkind⟩
    refine ⟨m, hm, List.mem_filterMap.2 ⟨op, hop, ?_⟩⟩
    obtain hkind | hkind := hkind <;> rw [hkind]

theorem edge_eq_refers (r : Registry) : (CallGraph.ofRegistry r).Edge = r.Refers := by
  funext v u
  exact propext edge_iff_refers

theorem mem_nodes_iff {r : Registry} (hr : r.Built) {v : String} :
    v ∈ (CallGraph.ofRegistry r).nodes ↔ r.Mentions v := by
  constructor
  · intro hv
    obtain ⟨m, hm, hv⟩ := List.mem_flatMap.1 (List.mem_eraseDups.1 hv)
    obtain rfl | hv := List.mem_cons.1 hv
    · exact .inl (hasMacro_iff.2 ⟨m, hm, rfl⟩)
    · refine .inr ⟨m.name, edge_iff_refers.1 ?_⟩
      apply ((CallGraph.wellFormed_ofRegistry hr).edge_iff).2
      exact ⟨_, List.mem_map_of_mem hm, List.mem_eraseDups.2 hv⟩
  · rintro (hknown | ⟨u, hrefers⟩)
    · obtain ⟨m, hm, rfl⟩ := hasMacro_iff.1 hknown
      exact List.mem_eraseDups.2 (List.mem_flatMap.2 ⟨m, hm, List.mem_cons_self⟩)
    · exact ((CallGraph.wellFormed_ofRegistry hr).closed u v (edge_iff_refers.2 hrefers)).2

namespace Cycle

variable {r : Registry} {chain : List String}

/-- A cycle through a name is a walk from the name back to it. -/
theorem leads (h : r.Cycle chain) {v : String} (hv : v ∈ chain) :
    ∃ n, chain.length = n + 2 ∧
      CallGraph.Leads (CallGraph.ofRegistry r).next v (n + 1) v := by
  obtain ⟨n, hn⟩ : ∃ n, chain.length = n + 2 := ⟨chain.length - 2, by have := h.two_le; omega⟩
  refine ⟨n, hn, ?_⟩
  obtain ⟨front, back, rfl⟩ := List.append_of_mem hv
  have hedges : (front ++ v :: back).IsChain fun x y => y ∈ (CallGraph.ofRegistry r).next x :=
    h.refers.imp fun x y hxy => edge_iff_refers.2 hxy
  obtain ⟨w, hw⟩ : ∃ w, (v :: back).getLast? = some w :=
    ⟨_, List.getLast?_eq_some_getLast (List.cons_ne_nil v back)⟩
  have hbehind := CallGraph.Leads.of_isChain hedges.right_of_append hw
  have hclosed := h.closed
  rw [List.getLast?_append, hw, Option.some_or] at hclosed
  match front with
  | [] =>
    obtain rfl : v = w := by simpa using hclosed
    have hlength : back.length = n + 1 := by simpa using hn
    rwa [← hlength]
  | x :: front =>
    -- from `v` to the end, which is the beginning, and on to `v`
    obtain rfl : x = w := by simpa using hclosed
    have hfront : ((x :: front) ++ [v]).IsChain fun a b => b ∈ (CallGraph.ofRegistry r).next a := by
      apply (show ((x :: front) ++ [v] ++ back).IsChain _ by simpa using hedges).left_of_append
    have hend : (x :: (front ++ [v])).getLast? = some v := by
      rw [← List.cons_append, List.getLast?_concat]
    have hlength : back.length + (front ++ [v]).length = n + 1 := by
      simp only [List.length_append, List.length_cons, List.length_nil] at hn ⊢
      omega
    rw [← hlength]
    exact hbehind.trans (CallGraph.Leads.of_isChain hfront hend)

theorem transGen (h : r.Cycle chain) {v : String} (hv : v ∈ chain) : TransGen r.Refers v v := by
  obtain ⟨n, -, hlead⟩ := h.leads hv
  cases hlead with
  | step hwalk hedge =>
    have hreach : ReflTransGen (CallGraph.ofRegistry r).Edge v _ := hwalk.reach
    rw [edge_eq_refers] at hreach
    exact .tail' hreach (edge_iff_refers.1 hedge)

end Cycle

theorem reach_of_isChain {r : Registry} {v : String} {l : List String}
    (h : (v :: l).IsChain r.Refers) : ∀ u ∈ v :: l, ReflTransGen r.Refers v u := by
  intro u hu
  obtain rfl | hu := List.mem_cons.1 hu
  · exact .refl
  · exact h.cons_induction (ReflTransGen r.Refers v) l (fun _ _ hxy hx => hx.tail hxy) .refl u hu

theorem exists_cycle_of_transGen {r : Registry} {v : String} (h : TransGen r.Refers v v) :
    ∃ chain, r.Cycle chain ∧ ∀ u ∈ chain, ReflTransGen r.Refers v u := by
  obtain ⟨u, hedge, hreach⟩ := TransGen.head'_iff.1 h
  obtain ⟨l, hchain, hlast⟩ := List.exists_isChain_cons_of_relationReflTransGen hreach
  refine ⟨v :: u :: l, ⟨by simp, ?_, .cons_cons hedge hchain⟩, ?_⟩
  · rw [List.getLast?_cons_cons, List.getLast?_eq_some_getLast (List.cons_ne_nil u l), hlast]
    rfl
  · exact reach_of_isChain (.cons_cons hedge hchain)

/-- The search from a name meets each name that it reaches once, and no other.
A cycle is reported exactly when one lies on names that it reaches.  The chain
that is reported goes round once, on names that are reached, and no cycle
through its first name is shorter. -/
theorem findCycle_shortest (r : Registry) (hr : r.Built) (entry : String) :
    ((CallGraph.ofRegistry r).reachableFrom entry).Nodup ∧
    (∀ v, v ∈ (CallGraph.ofRegistry r).reachableFrom entry ↔
      r.Mentions entry ∧ ReflTransGen r.Refers entry v) ∧
    ((CallGraph.ofRegistry r).findCycle entry ≠ none ↔
      ∃ c, r.Cycle c ∧ ∀ v ∈ c, ReflTransGen r.Refers entry v) ∧
    ∀ chain, (CallGraph.ofRegistry r).findCycle entry = some chain →
      r.Cycle chain ∧ chain.dropLast.Nodup ∧
      (∀ v ∈ chain, v ∈ (CallGraph.ofRegistry r).reachableFrom entry) ∧
      ∀ v c, chain.head? = some v → r.Cycle c → v ∈ c → chain.length ≤ c.length := by
  have hg := CallGraph.wellFormed_ofRegistry hr
  have hmem : ∀ v, v ∈ (CallGraph.ofRegistry r).reachableFrom entry ↔
      r.Mentions entry ∧ ReflTransGen r.Refers entry v := by
    intro v
    rw [hg.closed.mem_reachableFrom, mem_nodes_iff hr, edge_eq_refers]
  refine ⟨hg.closed.nodup_reachableFrom entry, hmem, ?_, ?_⟩
  · rw [CallGraph.findCycle_ne_none_iff hg, edge_eq_refers]
    constructor
    · rintro ⟨v, hreach, hcycle⟩
      obtain ⟨c, hc, hall⟩ := exists_cycle_of_transGen hcycle
      exact ⟨c, hc, fun u hu => hreach.trans (hall u hu)⟩
    · rintro ⟨c, hc, hall⟩
      match c, hc.two_le with
      | v :: c, _ => exact ⟨v, hall v List.mem_cons_self, hc.transGen List.mem_cons_self⟩
  · intro chain h
    obtain ⟨start, hstart, hround⟩ := hg.findCycle_eq_some (CallGraph.nodup_next_ofRegistry r) h
    have hcycle : r.Cycle chain :=
      ⟨hround.two_le, hround.head.trans hround.last.symm,
        hround.chain.imp fun x y hxy => edge_iff_refers.1 hxy⟩
    refine ⟨hcycle, hround.nodup, ?_, ?_⟩
    · intro v hv
      obtain ⟨hentry, hreach⟩ := (hmem start).1 hstart
      obtain ⟨rest, rfl⟩ := List.head?_eq_some_iff.1 hround.head
      exact (hmem v).2 ⟨hentry, hreach.trans (reach_of_isChain hcycle.refers v hv)⟩
    · intro v c hv hc hvc
      obtain rfl : start = v := Option.some.inj (hround.head.symm.trans hv)
      obtain ⟨n, hn, hlead⟩ := hc.leads hvc
      rw [hn]
      exact hround.least n hlead

/-- `A` leads back to itself through `B` and `C`, and through `C` alone, which it
measures.  `MAIN` also calls a name that is not declared, and nothing leads to
the loop of `D`. -/
def detour : Registry where
  macros := [
    { Macro.ofName "D" with ops := [⟨.call "D" [], 1⟩] },
    { Macro.ofName "MAIN" with ops := [⟨.call "GONE" [], 2⟩, ⟨.call "A" [], 3⟩] },
    { Macro.ofName "A" with ops := [⟨.call "B" [], 4⟩, ⟨.codeSize "C" [], 5⟩] },
    { Macro.ofName "B" with ops := [⟨.call "C" [], 6⟩] },
    { Macro.ofName "C" with ops := [⟨.call "A" [], 7⟩] }]

theorem findCycle_shortest_detour :
    (CallGraph.ofRegistry detour).findCycle "MAIN" = some ["A", "C", "A"] ∧
    (∀ c, detour.Cycle c → "A" ∈ c → 3 ≤ c.length) ∧
    (CallGraph.ofRegistry detour).reachableFrom "MAIN" = ["MAIN", "A", "C", "B", "GONE"] ∧
    (∀ v, v ∈ ["MAIN", "A", "C", "B", "GONE"] ↔
      detour.Mentions "MAIN" ∧ ReflTransGen detour.Refers "MAIN" v) ∧
    ¬ ∃ c, detour.Cycle c ∧ ∀ v ∈ c, ReflTransGen detour.Refers "GONE" v := by
  have hbuilt : detour.Built := built_of_nodup (by decide) (by decide)
  have hchain : (CallGraph.ofRegistry detour).findCycle "MAIN" = some ["A", "C", "A"] := by
    decide +kernel
  have hreach : (CallGraph.ofRegistry detour).reachableFrom "MAIN" =
      ["MAIN", "A", "C", "B", "GONE"] := by
    decide +kernel
  have hnone : (CallGraph.ofRegistry detour).findCycle "GONE" = none := by decide +kernel
  obtain ⟨-, hmem, -, hshortest⟩ := findCycle_shortest detour hbuilt "MAIN"
  obtain ⟨-, -, hsome, -⟩ := findCycle_shortest detour hbuilt "GONE"
  refine ⟨hchain, ?_, hreach, ?_, fun hcycle => hsome.2 hcycle hnone⟩
  · exact fun c hc hv => (hshortest _ hchain).2.2.2 "A" c rfl hc hv
  · rw [← hreach]
    exact hmem

end Registry

end MacroAssembler
