/-
MacroAssembler/CallGraph.lean

Which macro names which, and whether that goes round in a circle.

An edge runs from a macro to every macro that it calls or measures.  Expansion
follows every edge, so a cycle that the entry macro can reach never ends.
Template arguments can bring in calls that the graph does not show.

The graph is searched depth first.  One search gives two orders: the order in
which names are met and the order in which they are finished.  A component is a
set of names that all reach each other, so it is what a name reaches forwards
and backwards.  Components are ranked by the name of each that finishes last.
The cycle that is reported lies in the first cyclic component that the entry
reaches, starts at the first name of it that the search from the entry meets,
and is a shortest one from there.
-/
import MacroAssembler.Registry

namespace MacroAssembler

/-- Names with the names that they refer to. -/
structure CallGraph where
  /-- All names, in the order of their first occurrence. -/
  nodes : List String
  /-- For each declared name, the distinct names it refers to. -/
  edges : List (String × List String)

namespace CallGraph

/-- The call graph of a registry. -/
def ofRegistry (r : Registry) : CallGraph where
  nodes := (r.macros.flatMap fun m => m.name :: m.callees).eraseDups
  edges := r.macros.map fun m => (m.name, m.callees.eraseDups)

/-- The names that a name refers to. -/
def next (g : CallGraph) (v : String) : List String := (g.edges.lookup v).getD []

/-- Whether a name refers to another directly. -/
def calls (g : CallGraph) (v w : String) : Bool := (g.next v).contains w

/-! ### Depth-first search -/

/-- A state of the search, each list with the latest name first. -/
structure Walk where
  /-- Names met so far. -/
  met : List String
  /-- Names whose successors are all dealt with. -/
  finished : List String

/-- The search that has met nothing. -/
def Walk.start : Walk := ⟨[], []⟩

/-- Search from a name along `next`.  `room` bounds the length of the path. -/
def visit (next : String → List String) : (room : Nat) → String → Walk → Walk
  | 0, _, w => w
  | room + 1, v, w =>
    if v ∈ w.met then w
    else
      let w := (next v).foldl (fun w u => visit next room u w) { w with met := v :: w.met }
      { w with finished := v :: w.finished }

/-- Longest path that a search can follow, one more than there are names. -/
def room (g : CallGraph) : Nat := g.nodes.length + 1

/-- The names that a name reaches, itself first.  Of the names that a name
refers to, the last is followed first. -/
def reachableFrom (g : CallGraph) (v : String) : List String :=
  if v ∈ g.nodes then
    (visit (fun u => (g.next u).reverse) g.room v Walk.start).met.reverse
  else []

/-- All names in the order in which a search through the whole graph finishes
them. -/
def finishOrder (g : CallGraph) : List String :=
  (g.nodes.foldl (fun w v => visit g.next g.room v w) Walk.start).finished.reverse

/-! ### Components -/

/-- The names that refer to a name directly. -/
def callers (g : CallGraph) (v : String) : List String :=
  (g.edges.filter fun e => e.2.contains v).map Prod.fst

/-- The graph with every edge turned round. -/
def flip (g : CallGraph) : CallGraph where
  nodes := g.nodes
  edges := g.nodes.map fun v => (v, g.callers v)

/-- The names that a name reaches and that reach it, itself among them. -/
def component (g : CallGraph) (v : String) : List String :=
  (g.reachableFrom v).filter (g.flip.reachableFrom v).contains

/-- Whether the component of a name holds a cycle: it has a second name, or the
name refers to itself. -/
def isCyclic (g : CallGraph) (v : String) (members : List String) : Bool :=
  1 < members.length || g.calls v v

/-- The first cyclic component with a name that satisfies `p`, in the order of
their last names.  `before` lists the names finished so far, and `opened` the
cyclic components that have been met without their last name.  The last name of
a cyclic component is named by a member, and so by a name that is not finished
later; only names of that kind are looked at closely. -/
def firstCyclic (g : CallGraph) (p : String → Bool) (before : List String)
    (opened : List (List String)) : (rest : List String) → Option (List String)
  | [] => none
  | v :: rest =>
    match opened.find? (·.contains v) with
    | some members =>
      if rest.any members.contains then firstCyclic g p (v :: before) opened rest
      else some members
    | none =>
      if p v && (g.callers v).any (v :: before).contains then
        let members := g.component v
        if !g.isCyclic v members then firstCyclic g p (v :: before) opened rest
        else if rest.any members.contains then
          firstCyclic g p (v :: before) (members :: opened) rest
        else some members
      else firstCyclic g p (v :: before) opened rest

/-! ### Cycles -/

/-- The way from `start` to a name, with the name first, when `parents` says from
which name each was met.  `room` bounds its length. -/
def pathTo (start : String) (parents : List (String × String)) :
    (room : Nat) → String → List String
  | 0, _ => []
  | room + 1, v =>
    if v = start then [v]
    else v :: pathTo start parents room ((parents.lookup v).getD start)

/-- Search breadth first for a way back to `start`.  The queue holds names that
have been met, and every one but `start` has a parent. -/
def roundTrip (next : String → List String) (start : String) :
    (room : Nat) → (parents : List (String × String)) → (queue : List String) →
      Option (List String)
  | 0, _, _ => none
  | _, _, [] => none
  | room + 1, parents, v :: queue =>
    if start ∈ next v then
      some ((pathTo start parents (parents.length + 1) v).reverse ++ [start])
    else
      let fresh := (next v).filter fun u => (parents.lookup u).isNone
      roundTrip next start room (fresh.map (fun u => (u, v)) ++ parents) (queue ++ fresh)

/-- A shortest cycle through `start` inside a component. -/
def shortestCycle (g : CallGraph) (start : String) (members : List String) : List String :=
  let next v := (g.next v).filter members.contains
  (roundTrip next start (members.length + 1) [] [start]).getD [start, start]

/-- A cycle that a name reaches, if there is one, as a chain of names whose
first and last are the same. -/
def findCycle (g : CallGraph) (entry : String) : Option (List String) :=
  let order := g.reachableFrom entry
  match g.firstCyclic order.contains [] [] g.finishOrder with
  | none => none
  | some members => some (g.shortestCycle ((order.find? members.contains).getD entry) members)

end CallGraph

end MacroAssembler
