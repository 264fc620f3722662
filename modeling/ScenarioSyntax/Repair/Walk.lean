import ScenarioSyntax.Repair.Branch

/-!
Ways down through the stacks of a branch. All ways go down side by side, one link at a time; where
a vertex has several links, the way splits.
-/

namespace ScenarioSyntax

/-- A vertex reached, with the trees above it in the order of the text. -/
structure Walk where
  vertex : Nat
  trees : List Tree
  /-- The number of links passed, those through extra trees not counted. -/
  depth : Nat

namespace Walk

def maxWalks : Nat := 64

def follow (w : Walk) (l : Link) : Walk :=
  match l.tree with
  | none => ⟨l.below, w.trees, w.depth + 1⟩
  | some t => ⟨l.below, t :: w.trees, if t.isExtra then w.depth else w.depth + 1⟩

/-- Takes each way one link further. `visit` sees every vertex first and says whether the way ends
there. The first link continues a way in its place, and the others follow behind all ways. -/
def advance {α : Type} (g : Graph) (visit : α → Walk → α × Bool) :
    α → List Walk → List Walk → List Walk → α × List Walk
  | a, kept, [], added => (a, kept.reverse ++ added)
  | a, kept, w :: rest, added =>
    let (a, stop) := visit a w
    match stop, (g.vertex w.vertex).links with
    | false, l :: others =>
      let room := maxWalks - (kept.length + 1 + rest.length + added.length)
      advance g visit a (w.follow l :: kept) rest (added ++ (others.take room).map w.follow)
    | _, _ => advance g visit a kept rest added

def run {α : Type} (g : Graph) (visit : α → Walk → α × Bool) : Nat → α → List Walk → α
  | 0, a, _ => a
  | fuel + 1, a, ws =>
    match advance g visit a [] ws [] with
    | (a, []) => a
    | (a, ws) => run g visit fuel a ws

/-- Visits the stacks below a vertex. No way is longer than the graph is large. -/
def below {α : Type} (g : Graph) (top : Nat) (visit : α → Walk → α × Bool) (a : α) : α :=
  run g visit (g.size + 1) a [⟨top, [], 0⟩]

/-- Keeps the ways that come to fulfil a condition. -/
def collect (c : Walk → Bool) (ws : List Walk) (w : Walk) : List Walk × Bool :=
  if c w then (ws ++ [w], true) else (ws, false)

/-- The ways over `n` trees that are not extra. -/
def ofDepth (g : Graph) (top n : Nat) : List Walk := below g top (collect (·.depth = n)) []

/-- The ways to the bottom. -/
def toBottom (g : Graph) (top : Nat) : List Walk :=
  below g top (collect fun w => (g.vertex w.vertex).links.isEmpty) []

/-- The way over an error on top of the stack, if there is one. -/
def overError (g : Graph) (top : Nat) : Option Walk :=
  below g top
    (fun found w =>
      match w.trees.getLast? with
      | none => (found, false)
      | some t => (if found.isNone && t.isError then some w else found, true)) none

def maxDepth : Nat := 16

/-- The states passed on the way down, each once for its depth. -/
def landmarks (g : Graph) (top : Nat) : List Landmark :=
  below g top
    (fun ls w =>
      let v := g.vertex w.vertex
      if maxDepth < w.depth then (ls, true)
      else if (ls.reverse.takeWhile (w.depth ≤ ·.depth)).any fun l =>
          l.depth = w.depth && l.state = v.state then (ls, false)
      else (ls ++ [⟨v.state, v.pos, w.depth⟩], false)) []

/-- The ways sorted by the vertex they lead to, in the order in which vertices are first reached. -/
def group (ws : List Walk) : List (Nat × List (List Tree)) :=
  ws.foldl
    (fun gs w =>
      if gs.any (·.1 = w.vertex) then
        gs.map fun g => if g.1 = w.vertex then (g.1, g.2 ++ [w.trees]) else g
      else gs ++ [(w.vertex, [w.trees])]) []

end Walk

namespace Search

/-- A new branch for each vertex that the ways lead to, with the trees above it by each way. -/
def forkAll (r : Search) (i : Nat) (ws : List Walk) : Search × List (Nat × List (List Tree)) :=
  (Walk.group ws).foldl (fun (r, out) (v, ts) => (r.fork i v, out ++ [(r.count, ts)])) (r, [])

/-- Takes `n` trees off the stack of a branch, in every way. -/
def pop (r : Search) (i n : Nat) : Search × List (Nat × List (List Tree)) :=
  r.forkAll i (Walk.ofDepth r.graph (r.branch i).top n)

def popToBottom (r : Search) (i : Nat) : Search × List (Nat × List (List Tree)) :=
  r.forkAll i (Walk.toBottom r.graph (r.branch i).top)

def endsInError (r : Search) (i : Nat) : Bool := (r.top i).links.any fun l => l.tree.any (·.isError)

/-- Takes an error off the top of a branch; yields what it holds. -/
def popError (r : Search) (i : Nat) : Search × List Tree :=
  if r.endsInError i then
    match Walk.overError r.graph (r.branch i).top with
    | some w => ((r.fork i w.vertex).replace r.count i, w.trees.flatMap (·.children))
    | none => (r, [])
  else (r, [])

def noteLandmarks (r : Search) (i : Nat) : Search :=
  let ls := Walk.landmarks r.graph (r.branch i).top
  r.modify i ({ · with landmarks := some ls })

end Search

end ScenarioSyntax
