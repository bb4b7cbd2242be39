/-
MacroAssembler/Proofs/Flattening.lean

What flattening a set of files lists, and when it fails.

Files include one another through the directives at their heads (`Include.Heads`,
`Library.Includes`).  Flattening is a depth-first traversal of that graph: what it does between
two of its states is `Library.Explored`, and its order is the depth-first post-order of the names
(`DepthFirst`), whatever sharing and cycles the graph has.

The depth of a traversal is bounded by the number of files.  That is enough
(`Library.Room`): a chain of includes meets a new name at each step, and only the last of them can
be missing.  So the bound never decides the answer (`Library.visit_eq_of_room`), and a traversal
fails only at a file that is missing or has an unclosed comment (`Library.blames_of_visit`).

Main result: `Library.flatten_postorder`.
-/
import Mathlib.Data.Finset.Card
import MacroAssembler.Proofs.CommentRegions
import MacroAssembler.Proofs.DepthFirst
import MacroAssembler.Proofs.Locating

namespace MacroAssembler

open Relation Outcome

/-! ### Directives at the head of a text -/

namespace Include

/-- A text begins with directives, with only blanks in front of each, and no directive follows. -/
inductive Heads : (t : Text) → List Include → (rest : Text) → Prop
  | stop {t : Text} : (∀ blanks directive u path, t = blanks ++ directive ++ u →
      (∀ ch ∈ blanks, Text.isBlank ch = true) → ¬ IsDirective path directive) → Heads t [] t
  | directive {i : Include} {is : List Include} {u rest : Text} :
      (∀ ch ∈ i.blanks, Text.isBlank ch = true) → IsDirective i.path.toList i.directive →
      Heads u is rest → Heads (i.blanks ++ i.directive ++ u) (i :: is) rest

theorem Heads.eq_append {t rest : Text} {is : List Include} (h : Heads t is rest) :
    t = is.flatMap (fun i => i.blanks ++ i.directive) ++ rest := by
  induction h with
  | stop => rfl
  | @directive i is u rest _ _ _ ih =>
    rw [List.flatMap_cons, List.append_assoc (i.blanks ++ i.directive), ← ih]

theorem heads_leading (c : Cursor) : Heads c.rest (leading c).1 (leading c).2 := by
  fun_induction leading c with
  | case1 c hnone =>
    refine .stop fun blanks directive u path hrest hblanks hdirective => ?_
    have hsome : read? c = some (⟨String.ofList path, blanks, directive⟩,
        ⟨c.offset + Text.byteLength (blanks ++ directive), u⟩) := by
      refine read?_eq_some_iff.2 ⟨⟨hrest, rfl⟩, hblanks, ?_⟩
      rwa [String.toList_ofList]
    rw [hnone] at hsome
    cases hsome
  | case2 c i d hsome _ is rest hrest ih =>
    obtain ⟨hread, hblanks, hdirective⟩ := read?_eq_some_iff.1 hsome
    rw [hrest] at ih
    rw [hread.rest]
    exact .directive hblanks hdirective ih

theorem leading_of_some {c d : Cursor} {i : Include} (h : read? c = some (i, d)) :
    leading c = (i :: (leading d).1, (leading d).2) := by
  rw [leading]
  split
  · rename_i hnone
    rw [hnone] at h
    cases h
  · rename_i i' d' hsome
    obtain ⟨rfl, rfl⟩ : i' = i ∧ d' = d := by simpa using hsome.symm.trans h
    rfl

theorem leading_of_none {c : Cursor} (h : read? c = none) : leading c = ([], c.rest) := by
  rw [leading]
  split
  · rfl
  · rename_i hsome
    rw [hsome] at h
    cases h

/-- The directives at the head of a text are determined. -/
theorem Heads.leading_eq {t rest : Text} {is : List Include} (h : Heads t is rest) (offset : Nat) :
    leading ⟨offset, t⟩ = (is, rest) := by
  induction h generalizing offset with
  | @stop t hstop =>
    refine leading_of_none (Option.eq_none_iff_forall_not_mem.2 ?_)
    rintro ⟨i, d⟩ hsome
    obtain ⟨hread, hblanks, hdirective⟩ := read?_eq_some_iff.1 hsome
    exact hstop _ _ _ _ hread.rest hblanks hdirective
  | @directive i is u rest hblanks hdirective _ ih =>
    have hsome : read? ⟨offset, i.blanks ++ i.directive ++ u⟩ =
        some (i, ⟨offset + Text.byteLength (i.blanks ++ i.directive), u⟩) :=
      read?_eq_some_iff.2 ⟨⟨rfl, rfl⟩, hblanks, hdirective⟩
    rw [leading_of_some hsome, ih]

end Include

namespace Library

/-! ### The graph of includes -/

/-- The text that a set of files has under a name: a later file replaces an earlier one. -/
def contents? (files : List (String × Text)) (name : String) : Option Text :=
  files.reverse.lookup name

/-- The names that a file includes, in their order. -/
def includesOf (files : List (String × Text)) (name : String) : List String :=
  ((contents? files name).map Include.names).getD []

/-- A file has a leading directive for another, its comments being blanked. -/
def Includes (files : List (String × Text)) (name included : String) : Prop :=
  ∃ raw text is rest, contents? files name = some raw ∧ Comment.strip raw = .ok text ∧
    Include.Heads text is rest ∧ included ∈ is.map Include.path

/-- A file is reached through directives. -/
def Reaches (files : List (String × Text)) : String → String → Prop :=
  ReflTransGen (Includes files)

/-- A file is missing, or has a comment that is not closed. -/
def Broken (files : List (String × Text)) (name : String) : Prop :=
  contents? files name = none ∨
    ∃ raw before, contents? files name = some raw ∧ Comment.Unclosed raw before

/-- What a file becomes: its comments are blanked, and then the directives at its head, which name
the files that it includes. -/
def Segment (files : List (String × Text)) (name : String) (segment : Text) : Prop :=
  ∃ raw text is rest, contents? files name = some raw ∧ Comment.strip raw = .ok text ∧
    Include.Heads text is rest ∧ includesOf files name = is.map Include.path ∧
    text = is.flatMap (fun i => i.blanks ++ i.directive) ++ rest ∧
    segment = is.flatMap (fun i => i.blanks ++ Text.spaces i.directive) ++ rest ∧
    Text.byteLength segment = Text.byteLength raw ∧
    ∀ i : Nat, segment.utf8[i]? = some Text.newline ↔ (Text.utf8 raw)[i]? = some Text.newline

/-- An error is about a file that is reached: a missing one, with the file that includes it, or one
with an unclosed comment, with the line of that comment. -/
inductive Blames (files : List (String × Text)) (entry : String) : SourceError → Prop
  | entry : contents? files entry = none → Blames files entry (.includeNotFound entry entryName)
  | missing {name includer : String} : Reaches files entry includer → Includes files includer name →
      contents? files name = none → Blames files entry (.includeNotFound name includer)
  | unclosed {name : String} {raw before : Text} : Reaches files entry name →
      contents? files name = some raw → Comment.Unclosed raw before →
      Blames files entry (.unterminatedComment name (1 + before.count '\n'))

variable {files : List (String × Text)}

theorem includesOf_of_strip {name : String} {raw text : Text}
    (hraw : contents? files name = some raw) (htext : Comment.strip raw = .ok text) :
    includesOf files name = (Include.leading (Cursor.ofText text)).1.map Include.path := by
  rw [includesOf, hraw, Option.map_some, Option.getD_some, Include.names, htext]

theorem includes_iff {name included : String} :
    Includes files name included ↔ included ∈ includesOf files name := by
  constructor
  · rintro ⟨raw, text, is, rest, hraw, htext, hheads, hmem⟩
    rw [includesOf_of_strip hraw htext, Cursor.ofText, hheads.leading_eq]
    exact hmem
  · intro hmem
    rcases hraw : contents? files name with - | raw
    · simp [includesOf, hraw] at hmem
    rcases htext : Comment.strip raw with line | text
    · simp [includesOf, hraw, Include.names, htext] at hmem
    · rw [includesOf_of_strip hraw htext] at hmem
      exact ⟨raw, text, _, _, hraw, htext, Include.heads_leading (Cursor.ofText text), hmem⟩

theorem Segment.not_broken {name : String} {segment : Text} (h : Segment files name segment) :
    ¬ Broken files name := by
  obtain ⟨raw, text, -, -, hraw, htext, -⟩ := h
  rintro (hnone | ⟨raw', before, hraw', hunclosed⟩)
  · rw [hraw] at hnone
    cases hnone
  · obtain rfl := Option.some.inj (hraw.symm.trans hraw')
    rw [Comment.strip_of_unclosed hunclosed] at htext
    cases htext

theorem segment_of_strip {name : String} {raw text : Text}
    (hraw : contents? files name = some raw) (htext : Comment.strip raw = .ok text) :
    Segment files name (Include.blankLeading (Include.leading (Cursor.ofText text)).1
      (Include.leading (Cursor.ofText text)).2) := by
  have hheads := Include.heads_leading (Cursor.ofText text)
  have hblanks := (Comment.blanks_of_strip htext).trans
    (Include.blanks_leading (Cursor.ofText text))
  exact ⟨raw, text, _, _, hraw, htext, hheads, includesOf_of_strip hraw htext, hheads.eq_append, rfl,
    hblanks.byteLength_eq.symm, hblanks.newline_iff⟩

/-! ### Visiting one file -/

theorem load_of_some {name : String} {raw : Text} (h : contents? files name = some raw)
    (includer : Option String) : (ofFiles files).load name includer = .ok raw := by
  rw [contents?] at h
  simp [ofFiles, h]

theorem load_of_none {name : String} (h : contents? files name = none)
    (includer : Option String) :
    (ofFiles files).load name includer =
      .error (.includeNotFound name (includer.getD entryName)) := by
  rw [contents?] at h
  simp [ofFiles, h]

variable {depth : Nat} {includer : Option String} {path : String} {p p' q : Progress}

/-- A missing file is reported, whatever depth is left. -/
theorem visit_of_missing (h : contents? files path = none) :
    visit (ofFiles files) depth includer path p =
      .error (.includeNotFound path (includer.getD entryName)) := by
  cases depth with
  | zero => rfl
  | succ depth =>
    rw [visit, load_of_none h]
    rfl

theorem visit_of_error {raw : Text} {line : Nat} (hraw : contents? files path = some raw)
    (hline : Comment.strip raw = .error line) :
    visit (ofFiles files) (depth + 1) includer path p =
      .error (.unterminatedComment path line) := by
  simp only [visit, load_of_some hraw, hline, bind, Except.bind]

/-- A file without a fault is listed behind what it includes. -/
theorem visit_of_ok {raw text : Text} (hraw : contents? files path = some raw)
    (htext : Comment.strip raw = .ok text) :
    visit (ofFiles files) (depth + 1) includer path p =
      (fun q => { q with files := q.files ++ [(path, Include.blankLeading
        (Include.leading (Cursor.ofText text)).1 (Include.leading (Cursor.ofText text)).2)] }) <$>
      visitAll (visit (ofFiles files) depth (some path))
        (Include.leading (Cursor.ofText text)).1 p := by
  simp only [visit, load_of_some hraw, htext, bind, Except.bind, pure, Except.pure]
  rfl

/-! ### What a traversal lists -/

/-- What a traversal does between two of its states: it lists an order of names, and meets them. -/
structure Explored (files : List (String × Text)) (todo : List String) (p p' : Progress)
    (order : List String) : Prop where
  depthFirst : DepthFirst (includesOf files) {x | x ∈ p.seen} todo order
  seen : ∀ x, x ∈ p'.seen ↔ x ∈ p.seen ∨ x ∈ order
  listed : ∃ new, p'.files = p.files ++ new ∧ new.map Prod.fst = order ∧
    ∀ f ∈ new, Segment files f.1 f.2

/-- What a visit to a file does: it explores what the file includes, and lists the file. -/
def Visited (files : List (String × Text)) (path : String) (p p' : Progress) : Prop :=
  ∃ q order segment, Explored files (includesOf files path) p q order ∧
    Segment files path segment ∧ p' = { q with files := q.files ++ [(path, segment)] }

theorem Explored.nil (p : Progress) : Explored files [] p p [] where
  depthFirst := .nil _
  seen := by simp
  listed := ⟨[], by simp⟩

theorem Explored.skip {x : String} {xs order : List String} (hx : x ∈ p.seen)
    (h : Explored files xs p p' order) : Explored files (x :: xs) p p' order :=
  ⟨.skip hx h.depthFirst, h.seen, h.listed⟩

theorem Explored.visit {x : String} {xs inner outer : List String} {segment : Text}
    (hx : x ∉ p.seen)
    (hinner : Explored files (includesOf files x) { p with seen := x :: p.seen } q inner)
    (hsegment : Segment files x segment)
    (houter : Explored files xs { q with files := q.files ++ [(x, segment)] } p' outer) :
    Explored files (x :: xs) p p' (inner ++ x :: outer) where
  depthFirst := by
    have hstart : {y | y ∈ x :: p.seen} = insert x {y | y ∈ p.seen} := by
      ext y
      simp
    have hmiddle : {y | y ∈ q.seen} = insert x {y | y ∈ p.seen} ∪ {y | y ∈ inner} := by
      ext y
      simp [hinner.seen]
    refine .visit hx ?_ ?_
    · rw [← hstart]
      exact hinner.depthFirst
    · rw [← hmiddle]
      exact houter.depthFirst
  seen := by
    intro y
    rw [houter.seen, hinner.seen, List.mem_append, List.mem_cons, List.mem_cons]
    tauto
  listed := by
    obtain ⟨new, hnew, hnames, hsegments⟩ := hinner.listed
    obtain ⟨new', hnew', hnames', hsegments'⟩ := houter.listed
    refine ⟨new ++ (x, segment) :: new', ?_, ?_, ?_⟩
    · rw [hnew', hnew]
      simp
    · rw [List.map_append, List.map_cons, hnames, hnames']
    · intro f hf
      obtain hf | hf := List.mem_append.1 hf
      · exact hsegments f hf
      · obtain rfl | hf := List.mem_cons.1 hf
        · exact hsegment
        · exact hsegments' f hf

/-- Includes are explored one after the other, if each visit explores its file. -/
theorem explored_of_visitAll {visit : String → Progress → Except SourceError Progress}
    (hvisit : ∀ {path p p'}, visit path p = .ok p' → Visited files path p p')
    {includes : List Include} (h : visitAll visit includes p = .ok p') :
    ∃ order, Explored files (includes.map Include.path) p p' order := by
  induction includes generalizing p with
  | nil =>
    obtain rfl := Except.ok.inj h
    exact ⟨[], .nil p⟩
  | cons i is ih =>
    rw [visitAll] at h
    split at h
    · rename_i hseen
      obtain ⟨order, horder⟩ := ih h
      exact ⟨order, horder.skip hseen⟩
    · rename_i hnew
      obtain ⟨q, hq, h⟩ := bind_eq_ok.1 h
      obtain ⟨q, inner, segment, hinner, hsegment, rfl⟩ := hvisit hq
      obtain ⟨outer, houter⟩ := ih h
      exact ⟨_, hinner.visit hnew hsegment houter⟩

theorem visited_of_visit (h : visit (ofFiles files) depth includer path p = .ok p') :
    Visited files path p p' := by
  induction depth generalizing includer path p p' with
  | zero => cases h
  | succ depth ih =>
    rcases hraw : contents? files path with - | raw
    · rw [visit_of_missing hraw] at h
      cases h
    rcases htext : Comment.strip raw with line | text
    · rw [visit_of_error hraw htext] at h
      cases h
    · rw [visit_of_ok hraw htext] at h
      obtain ⟨q, hq, rfl⟩ := map_eq_ok.1 h
      obtain ⟨order, horder⟩ := explored_of_visitAll ih hq
      rw [← includesOf_of_strip hraw htext] at horder
      exact ⟨q, order, _, horder, segment_of_strip hraw htext, rfl⟩

/-! ### Room for every chain of includes -/

/-- The names of files that have not been met. -/
def unmet (files : List (String × Text)) (seen : List String) : Finset String :=
  (files.map Prod.fst).toFinset \ seen.toFinset

/-- A visit goes deep enough: to each file that may still be met, or to none if its own file is
missing. -/
def Room (files : List (String × Text)) (depth : Nat) (path : String) (p : Progress) : Prop :=
  contents? files path = none ∨ (unmet files p.seen).card < depth

theorem card_unmet_le (files : List (String × Text)) (seen : List String) :
    (unmet files seen).card ≤ files.length :=
  calc (unmet files seen).card
      ≤ (files.map Prod.fst).toFinset.card := Finset.card_le_card Finset.sdiff_subset
    _ ≤ (files.map Prod.fst).length := List.toFinset_card_le _
    _ = files.length := List.length_map _

theorem unmet_subset {seen seen' : List String} (h : ∀ x ∈ seen, x ∈ seen') :
    unmet files seen' ⊆ unmet files seen := by
  refine Finset.sdiff_subset_sdiff (Finset.Subset.refl _) ?_
  intro x hx
  exact List.mem_toFinset.2 (h x (List.mem_toFinset.1 hx))

theorem mem_names_of_contents? {raw : Text} (h : contents? files path = some raw) :
    path ∈ files.map Prod.fst := by
  obtain ⟨before, after, hfiles, -⟩ := List.lookup_eq_some_iff.1 h
  have hmem : (path, raw) ∈ files.reverse := by simp [hfiles]
  exact List.mem_map_of_mem (List.mem_reverse.1 hmem)

/-- Meeting the name of a file leaves fewer files. -/
theorem unmet_cons_ssubset {raw : Text} {seen : List String}
    (hraw : contents? files path = some raw) (hpath : path ∉ seen) :
    unmet files (path :: seen) ⊂ unmet files seen := by
  have hsubset : unmet files (path :: seen) ⊆ unmet files seen :=
    unmet_subset fun _ hx => List.mem_cons_of_mem _ hx
  refine (Finset.ssubset_iff_of_subset hsubset).2 ⟨path, ?_, ?_⟩
  · exact Finset.mem_sdiff.2 ⟨List.mem_toFinset.2 (mem_names_of_contents? hraw),
      fun hmem => hpath (List.mem_toFinset.1 hmem)⟩
  · exact fun hmem => (Finset.mem_sdiff.1 hmem).2 (List.mem_toFinset.2 List.mem_cons_self)

/-- A name that is new takes one step of the depth, and a missing file needs none. -/
theorem room_of_notMem (hroom : (unmet files p.seen).card ≤ depth) (hpath : path ∉ p.seen) :
    Room files depth path { p with seen := path :: p.seen } := by
  rcases hraw : contents? files path with - | raw
  · exact .inl hraw
  · exact .inr (Nat.lt_of_lt_of_le (Finset.card_lt_card (unmet_cons_ssubset hraw hpath)) hroom)

theorem Visited.card_unmet_le (h : Visited files path { p with seen := path :: p.seen } p')
    (hroom : (unmet files p.seen).card ≤ depth) : (unmet files p'.seen).card ≤ depth := by
  obtain ⟨q, order, segment, hexplored, -, rfl⟩ := h
  have hseen : ∀ x ∈ p.seen, x ∈ q.seen :=
    fun x hx => (hexplored.seen x).2 (.inl (List.mem_cons_of_mem _ hx))
  exact Nat.le_trans (Finset.card_le_card (unmet_subset hseen)) hroom

/-! ### Depth decides nothing -/

theorem visitAll_congr {visit visit' : String → Progress → Except SourceError Progress}
    {depth' : Nat} (hvisited : ∀ {path p p'}, visit path p = .ok p' → Visited files path p p')
    (heq : ∀ {path p}, Room files depth path p → Room files depth' path p →
      visit path p = visit' path p)
    (hroom : (unmet files p.seen).card ≤ depth) (hroom' : (unmet files p.seen).card ≤ depth')
    (includes : List Include) : visitAll visit includes p = visitAll visit' includes p := by
  induction includes generalizing p with
  | nil => rfl
  | cons i is ih =>
    rw [visitAll, visitAll]
    split
    · exact ih hroom hroom'
    · rename_i hnew
      rw [← heq (room_of_notMem hroom hnew) (room_of_notMem hroom' hnew)]
      rcases hvisit : visit i.path { p with seen := i.path :: p.seen } with e | q
      · rfl
      · -- the visit has met more names, so there is room for the other includes as well
        exact ih ((hvisited hvisit).card_unmet_le hroom) ((hvisited hvisit).card_unmet_le hroom')

/-- Two depths that are enough give the same answer. -/
theorem visit_eq_of_room {depth' : Nat} (hroom : Room files depth path p)
    (hroom' : Room files depth' path p) :
    visit (ofFiles files) depth includer path p = visit (ofFiles files) depth' includer path p := by
  induction depth generalizing depth' includer path p with
  | zero =>
    -- no depth at all is enough only for a file that is missing
    have hnone : contents? files path = none := hroom.resolve_right (Nat.not_lt_zero _)
    rw [visit_of_missing hnone, visit_of_missing hnone]
  | succ depth ih =>
    rcases hraw : contents? files path with - | raw
    · rw [visit_of_missing hraw, visit_of_missing hraw]
    have hlt := hroom.resolve_left (by simp [hraw])
    have hlt' := hroom'.resolve_left (by simp [hraw])
    obtain ⟨depth', rfl⟩ := Nat.exists_eq_add_one_of_ne_zero (Nat.ne_zero_of_lt hlt')
    rcases htext : Comment.strip raw with line | text
    · rw [visit_of_error hraw htext, visit_of_error hraw htext]
    · rw [visit_of_ok hraw htext, visit_of_ok hraw htext,
        visitAll_congr visited_of_visit ih (Nat.le_of_lt_succ hlt) (Nat.le_of_lt_succ hlt')]

/-! ### Failures -/

/-- A traversal comes to a file from the file that includes it, or starts there. -/
inductive Arrives (files : List (String × Text)) (entry : String) : Option String → String → Prop
  | start : Arrives files entry none entry
  | follow {includer path : String} : Reaches files entry includer → Includes files includer path →
      Arrives files entry (some includer) path

variable {entry : String} {e : SourceError}

theorem Arrives.reaches (h : Arrives files entry includer path) : Reaches files entry path := by
  cases h with
  | start => exact .refl
  | follow hreaches hincludes => exact hreaches.tail hincludes

theorem Arrives.blames (h : Arrives files entry includer path) (hnone : contents? files path = none) :
    Blames files entry (.includeNotFound path (includer.getD entryName)) := by
  cases h with
  | start => exact .entry hnone
  | follow hreaches hincludes => exact .missing hreaches hincludes hnone

/-- A list of visits fails where one of them does, and each of them has room. -/
theorem blames_of_visitAll {visit : String → Progress → Except SourceError Progress}
    (hvisited : ∀ {path p p'}, visit path p = .ok p' → Visited files path p p')
    {name : String}
    (hvisit : ∀ {path p}, Room files depth path p → Includes files name path →
      visit path p = .error e → Blames files entry e)
    {includes : List Include} (hincludes : ∀ i ∈ includes, Includes files name i.path)
    (hroom : (unmet files p.seen).card ≤ depth) (h : visitAll visit includes p = .error e) :
    Blames files entry e := by
  induction includes generalizing p with
  | nil => cases h
  | cons i is ih =>
    have hrest : ∀ i ∈ is, Includes files name i.path :=
      fun i hi => hincludes i (List.mem_cons_of_mem _ hi)
    rw [visitAll] at h
    split at h
    · exact ih hrest hroom h
    · rename_i hnew
      rcases hq : visit i.path { p with seen := i.path :: p.seen } with e' | q
      · rw [hq] at h
        obtain rfl : e' = e := Except.error.inj h
        exact hvisit (room_of_notMem hroom hnew) (hincludes i List.mem_cons_self) hq
      · rw [hq] at h
        exact ih hrest ((hvisited hq).card_unmet_le hroom) h

/-- A visit with room fails at a file with a fault. -/
theorem blames_of_visit (hroom : Room files depth path p)
    (harrives : Arrives files entry includer path)
    (h : visit (ofFiles files) depth includer path p = .error e) : Blames files entry e := by
  induction depth generalizing includer path p with
  | zero =>
    have hnone : contents? files path = none := hroom.resolve_right (Nat.not_lt_zero _)
    rw [visit_of_missing hnone] at h
    exact Except.error.inj h ▸ harrives.blames hnone
  | succ depth ih =>
    rcases hraw : contents? files path with - | raw
    · rw [visit_of_missing hraw] at h
      exact Except.error.inj h ▸ harrives.blames hraw
    rcases htext : Comment.strip raw with line | text
    · rw [visit_of_error hraw htext] at h
      obtain ⟨before, hunclosed, rfl⟩ := Comment.strip_eq_error_iff.1 htext
      exact Except.error.inj h ▸ .unclosed harrives.reaches hraw hunclosed
    · rw [visit_of_ok hraw htext] at h
      have hincludes : ∀ i ∈ (Include.leading (Cursor.ofText text)).1,
          Includes files path i.path := by
        intro i hi
        rw [includes_iff, includesOf_of_strip hraw htext]
        exact List.mem_map_of_mem hi
      have hlt := hroom.resolve_left (by simp [hraw])
      exact blames_of_visitAll visited_of_visit
        (fun hroom hedge h => ih hroom (.follow harrives.reaches hedge) h)
        hincludes (Nat.le_of_lt_succ hlt) (map_eq_error.1 h)

theorem Blames.exists_broken (h : Blames files entry e) :
    ∃ name, Reaches files entry name ∧ Broken files name := by
  cases h with
  | entry hnone => exact ⟨entry, .refl, .inl hnone⟩
  | missing hreaches hincludes hnone => exact ⟨_, hreaches.tail hincludes, .inl hnone⟩
  | unclosed hreaches hraw hunclosed => exact ⟨_, hreaches, .inr ⟨_, _, hraw, hunclosed⟩⟩

/-! ### Flattening -/

/-- What flattening makes of files. -/
structure Flattened (files : List (String × Text)) (entry : String) (l : Listing) : Prop where
  nodup : (l.files.map ListedFile.name).Nodup
  reached : ∀ name, name ∈ l.files.map ListedFile.name ↔ Reaches files entry name
  postorder : ∀ order, DepthFirst (includesOf files) ∅ [entry] order ↔
    order = l.files.map ListedFile.name
  last : (l.files.map ListedFile.name).getLast? = some entry
  /-- Without cycles, a file comes behind all files that it includes. -/
  acyclic : (∀ name, Reaches files entry name → ¬ TransGen (Includes files) name name) →
    ∀ a b, Reaches files entry a → Includes files a b →
      [b, a].Sublist (l.files.map ListedFile.name)
  segments : ∀ f ∈ l.files, Segment files f.name f.text

theorem includes_eq : Includes files = fun a b => b ∈ includesOf files a :=
  funext fun _ => funext fun _ => propext includes_iff

theorem flattened_of_depthFirst {fs : List (String × Text)}
    (h : DepthFirst (includesOf files) ∅ [entry] (fs.map Prod.fst))
    (hsegments : ∀ f ∈ fs, Segment files f.1 f.2) :
    Flattened files entry (Listing.ofFiles fs) := by
  have hnames : (Listing.ofFiles fs).files.map ListedFile.name = fs.map Prod.fst := by
    rw [Listing.files_ofFiles, Listing.map_name_filesFrom]
  have hreached : ∀ name, name ∈ fs.map Prod.fst ↔ Reaches files entry name := by
    intro name
    rw [Reaches, includes_eq]
    exact h.mem_iff_reaches
  constructor
  case nodup => exact hnames ▸ h.nodup
  case reached => exact hnames ▸ hreached
  case postorder =>
    intro order
    rw [hnames]
    exact ⟨fun horder => horder.unique h, fun horder => horder ▸ h⟩
  case last => exact hnames ▸ h.getLast?_eq
  case acyclic =>
    intro hacyclic a b ha hb
    rw [hnames]
    refine h.sublist_of_acyclic (fun y hy => ?_) ((hreached a).2 ha) (includes_iff.1 hb)
    rw [← includes_eq]
    exact hacyclic y ((hreached y).1 hy)
  case segments =>
    intro f hf
    rw [Listing.files_ofFiles] at hf
    exact hsegments _ (Listing.mem_filesFrom hf)

theorem flatten_eq_map (files : List (String × Text)) (entry : String) :
    (ofFiles files).flatten entry = (fun p => Listing.ofFiles p.files) <$>
      visit (ofFiles files) (files.length + 1) none entry ⟨[entry], []⟩ := by
  rw [flatten, bind_pure_comp]
  rfl

theorem flattened_of_flatten {l : Listing} (h : (ofFiles files).flatten entry = .ok l) :
    Flattened files entry l := by
  rw [flatten_eq_map] at h
  obtain ⟨p, hp, rfl⟩ := map_eq_ok.1 h
  obtain ⟨q, inner, segment, hinner, hsegment, rfl⟩ := visited_of_visit hp
  -- visiting the entry is exploring the list of the entry alone
  have hall : Explored files [entry] ⟨[], []⟩ _ (inner ++ entry :: []) :=
    hinner.visit List.not_mem_nil hsegment (.nil _)
  obtain ⟨new, hnew, hnames, hsegments⟩ := hall.listed
  rw [hnew, List.nil_append]
  refine flattened_of_depthFirst ?_ hsegments
  rw [hnames]
  simpa using hall.depthFirst

theorem room_entry {entry : String} (hdepth : files.length < depth) :
    Room files depth path ⟨[entry], []⟩ :=
  .inr (Nat.lt_of_le_of_lt (card_unmet_le files _) hdepth)

theorem blames_of_flatten (h : (ofFiles files).flatten entry = .error e) :
    Blames files entry e := by
  rw [flatten_eq_map] at h
  exact blames_of_visit (room_entry (Nat.lt_succ_self _)) .start (map_eq_error.1 h)

/-- **Flattening lists every included file once, behind what it includes.**  Flattening fails
exactly if a file that is reached is missing or has an unclosed comment, and names such a file.
Otherwise it lists the files that are reached, in depth-first post-order, each as it was but for
comments and leading directives, which are blanked.  Chains of includes are followed to their end:
a greater depth changes nothing, whatever cycles there are. -/
theorem flatten_postorder (files : List (String × Text)) (entry : String) :
    (∀ depth, files.length < depth → (ofFiles files).flatten entry =
        (fun p => Listing.ofFiles p.files) <$>
          visit (ofFiles files) depth none entry ⟨[entry], []⟩) ∧
      ((∃ e, (ofFiles files).flatten entry = .error e) ↔
        ∃ name, Reaches files entry name ∧ Broken files name) ∧
      (∀ e, (ofFiles files).flatten entry = .error e → Blames files entry e) ∧
      ∀ l, (ofFiles files).flatten entry = .ok l → Flattened files entry l := by
  refine ⟨?_, ⟨?_, ?_⟩, fun e => blames_of_flatten, fun l => flattened_of_flatten⟩
  · intro depth hdepth
    rw [flatten_eq_map, visit_eq_of_room (room_entry (Nat.lt_succ_self _)) (room_entry hdepth)]
  · rintro ⟨e, he⟩
    exact (blames_of_flatten he).exists_broken
  · rintro ⟨name, hreaches, hbroken⟩
    -- a success would list the broken file
    rcases hflatten : (ofFiles files).flatten entry with e | l
    · exact ⟨e, rfl⟩
    · have hflattened := flattened_of_flatten hflatten
      obtain ⟨f, hf, rfl⟩ := List.mem_map.1 ((hflattened.reached name).2 hreaches)
      exact absurd hbroken (hflattened.segments f hf).not_broken

/-- Two files that share an include, and one that includes the entry in turn. -/
def shared : List (String × Text) :=
  [("m", "#include\"a\"#include\"b\"".toList), ("a", "#include\"s\"".toList),
    ("b", "//\n#include\"s\"#include\"m\"B".toList), ("s", "S#include\"x\"".toList)]

/-- Sharing and a cycle, and an entry that is missing. -/
theorem flatten_postorder_shared :
    (∃ l, (ofFiles shared).flatten "m" = .ok l ∧
      l.files.map ListedFile.name = ["s", "a", "b", "m"] ∧ Flattened shared "m" l) ∧
    (ofFiles shared).flatten "x" = .error (.includeNotFound "x" "<entry>") ∧
      Blames shared "x" (.includeNotFound "x" "<entry>") := by
  have hnames : ((ofFiles shared).flatten "m").toOption.map (fun l => l.files.map ListedFile.name) =
      some ["s", "a", "b", "m"] := by decide +kernel
  have hmissing : (ofFiles shared).flatten "x" = .error (.includeNotFound "x" "<entry>") := rfl
  obtain ⟨-, -, -, hflattened⟩ := flatten_postorder shared "m"
  obtain ⟨-, -, hblames, -⟩ := flatten_postorder shared "x"
  refine ⟨?_, hmissing, hblames _ hmissing⟩
  rcases hflatten : (ofFiles shared).flatten "m" with e | l
  · rw [hflatten] at hnames
    cases hnames
  · rw [hflatten] at hnames
    exact ⟨l, rfl, Option.some.inj hnames, hflattened l hflatten⟩

end Library

end MacroAssembler
