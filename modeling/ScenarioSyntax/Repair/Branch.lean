import ScenarioSyntax.Lexer.Token
import ScenarioSyntax.Repair.Graph

/-!
The search for the cheapest repair: several branches, each a stack on the shared graph, in the
order in which they are preferred.
-/

namespace ScenarioSyntax

inductive Status where
  | active
  /-- Stopped at a token that does not fit. -/
  | paused (t : Lookahead)
  | halted

/-- A state that a branch has been in, with the number of trees above it. -/
structure Landmark where
  state : StateId
  pos : Nat
  depth : Nat

structure Branch where
  top : Nat
  status : Status
  /-- The weight of the stack when the branch last lost its way. -/
  weightAtError : Nat
  /-- The states to which the branch may go back. -/
  landmarks : Option (List Landmark)

namespace Branch

def isActive (b : Branch) : Bool :=
  match b.status with
  | .active => true
  | _ => false

def isHalted (b : Branch) : Bool :=
  match b.status with
  | .halted => true
  | _ => false

def paused? (b : Branch) : Option Lookahead :=
  match b.status with
  | .paused t => some t
  | _ => none

end Branch

structure Search where
  graph : Graph
  branches : List Branch
  /-- The token read last, and where. -/
  cache : Option (Nat × Lookahead)
  /-- The cheapest whole tree so far. -/
  best : Option Tree
  accepted : Nat
  /-- The furthest position that a branch has reached. -/
  furthest : Nat

namespace Search

def count (r : Search) : Nat := r.branches.length

def branch (r : Search) (i : Nat) : Branch := r.branches.getD i ⟨0, .halted, 0, none⟩

def top (r : Search) (i : Nat) : Vertex := r.graph.vertex (r.branch i).top

def state (r : Search) (i : Nat) : StateId := (r.top i).state

def pos (r : Search) (i : Nat) : Nat := (r.top i).pos

def isActive (r : Search) (i : Nat) : Bool := (r.branch i).isActive

def modify (r : Search) (i : Nat) (f : Branch → Branch) : Search :=
  { r with branches := r.branches.modify i f }

def remove (r : Search) (i : Nat) : Search := { r with branches := r.branches.eraseIdx i }

def halt (r : Search) (i : Nat) : Search := r.modify i ({ · with status := .halted })

/-- Stops a branch at a token that does not fit. -/
def pause (r : Search) (i : Nat) (t : Lookahead) : Search :=
  r.modify i ({ · with status := .paused t, weightAtError := (r.top i).weight })

def resume (r : Search) (i : Nat) : Search := r.modify i ({ · with status := .active })

/-- Puts a tree on the stack of a branch. Without a tree, the branch loses its way. -/
def push (src : Source) (r : Search) (i : Nat) (tree : Option Tree) (s : StateId) : Search :=
  let g := r.graph.put src (r.branch i).top tree s
  let n := r.graph.size
  let r := { r with graph := g }
  if tree.isSome then r.modify i ({ · with top := n })
  else r.modify i ({ · with top := n, weightAtError := (g.vertex n).weight })

def pushAll (src : Source) (r : Search) (i : Nat) (trees : List Tree) (s : StateId) : Search :=
  trees.foldl (fun r t => r.push src i (some t) s) r

/-- A new branch that ends at a vertex in the stack of the branch `i`. -/
def fork (r : Search) (i : Nat) (top : Nat) : Search :=
  { r with branches := r.branches ++ [⟨top, .active, (r.branch i).weightAtError, none⟩] }

/-- A second branch with the stack of the branch `i`. -/
def copy (r : Search) (i : Nat) : Search :=
  { r with branches := r.branches ++ [{ r.branch i with landmarks := none }] }

/-- Moves the branch `i` to the place of an earlier one, `j`, which goes. -/
def replace (r : Search) (i j : Nat) : Search :=
  if i = j then r
  else
    let b := r.branch i
    let b := { b with landmarks := b.landmarks.or (r.branch j).landmarks }
    { r with branches := (r.branches.set j b).eraseIdx i }

def swap (r : Search) (i j : Nat) : Search :=
  { r with branches := (r.branches.set i (r.branch j)).set j (r.branch i) }

def canMerge (r : Search) (i j : Nat) : Bool :=
  r.isActive i && r.isActive j && (r.top i).meets (r.top j)

/-- Merges the branch `j` into the branch `i`, if they meet. -/
def merge? (src : Source) (r : Search) (i j : Nat) : Option Search :=
  if r.canMerge i j then
    let n := (r.branch i).top
    let g := r.graph.join src n (r.branch j).top
    let r := { r with graph := g }
    let r := if (g.vertex n).state = Table.lost then
        r.modify i ({ · with weightAtError := (g.vertex n).weight }) else r
    some (r.remove j)
  else none

/-- The cost of a branch; one that has lost its way and done nothing since pays for that, too. -/
def cost (r : Search) (i : Nat) : Nat :=
  let v := r.top i
  let isLost := v.state = Table.lost && (v.links.head?.all (·.tree.isNone))
  v.cost + (if (r.branch i).paused?.isSome || isLost then Cost.recovery else 0)

/-- Lowers the weight at the last error to that of a stack that has become lighter. -/
def settle (r : Search) (i : Nat) : Search :=
  r.modify i fun b => { b with weightAtError := min b.weightAtError (r.top i).weight }

/-- How much a branch has put on its stack since the last error. -/
def progress (r : Search) (i : Nat) : Nat := (r.top i).weight - (r.branch i).weightAtError

end Search

end ScenarioSyntax
