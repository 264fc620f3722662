import ScenarioSyntax.Table.Action
import ScenarioSyntax.Table.Lookup
import ScenarioSyntax.Tree.Cost

/-!
Parse stacks that share what they have in common. A vertex is the top of one or more stacks; a
link leads to a vertex below it, through the tree between the two. A link without a tree marks the
place where the parser lost its way.
-/

namespace ScenarioSyntax

structure Link where
  below : Nat
  tree : Option Tree

structure Vertex where
  state : StateId
  pos : Nat
  cost : Nat
  weight : Nat
  links : List Link

/-- The links of a vertex lead to vertices made before it. -/
abbrev Graph := Array Vertex

/-- The bottom of all stacks. -/
def Vertex.bottom : Vertex := ⟨Table.start, 0, 0, 0, []⟩

/-- The stacks that end here stand at the same place at the same cost. -/
def Vertex.meets (a b : Vertex) : Bool := a.state = b.state && a.pos = b.pos && a.cost = b.cost

namespace Graph

def maxLinks : Nat := 8

def vertex (g : Graph) (i : Nat) : Vertex := g.getD i .bottom

/-- The bytes of the blanks in front of a tree, and of the tree itself. -/
def extent (src : Source) (t : Tree) : Nat × Nat :=
  match (t.measure src).span with
  | some s => (src.bytes s.lead s.start, src.bytes s.start s.stop)
  | none => (0, 0)

/-- Trees of which only one need be kept: with the same symbol, and both faulty or of the same
extent. -/
def alike (src : Source) : Option Tree → Option Tree → Bool
  | none, none => true
  | some a, some b =>
    a.code = b.code &&
      ((0 < a.cost src && 0 < b.cost src) ||
        (extent src a = extent src b && a.children.length = b.children.length &&
          a.isExtra = b.isExtra))
  | _, _ => false

/-- Puts a tree, or the mark of a lost way, on a vertex. -/
def put (src : Source) (g : Graph) (below : Nat) (tree : Option Tree) (s : StateId) : Graph :=
  let v := g.vertex below
  match tree with
  | none => Array.push g ⟨s, v.pos, v.cost, v.weight, [⟨below, none⟩]⟩
  | some t =>
    let m := t.measure src
    let pos := (m.span.map (·.stop)).getD v.pos
    Array.push g ⟨s, pos, v.cost + m.cost, v.weight + t.weight src, [⟨below, some t⟩]⟩

/-- Gives the vertex `n` another link. One that is already there in substance is not added; if
what lies below both meets, the stacks below are joined instead. -/
def addLink (src : Source) : Nat → Graph → Nat → Link → Graph
  | 0, g, _, _ => g
  | fuel + 1, g, n, l =>
    if l.below = n then g
    else
      let v := g.vertex n
      match v.links.find? fun k =>
          alike src k.tree l.tree &&
            (k.below = l.below || (g.vertex k.below).meets (g.vertex l.below)) with
      | some k =>
        if k.below = l.below then g
        else (g.vertex l.below).links.foldl (fun g j => addLink src fuel g k.below j) g
      | none =>
        if maxLinks ≤ v.links.length then g
        else
          let w := (g.vertex l.below).weight + ((l.tree.map (·.weight src)).getD 0)
          g.set! n { v with links := v.links ++ [l], weight := max v.weight w }

/-- Lets the vertex `n` take over the links of `m`. -/
def join (src : Source) (g : Graph) (n m : Nat) : Graph :=
  (g.vertex m).links.foldl (fun g l => addLink src (g.size + 1) g n l) g

end Graph

end ScenarioSyntax
