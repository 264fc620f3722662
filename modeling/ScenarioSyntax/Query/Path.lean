import ScenarioSyntax.Query.Location

/-!
Paths through a tree: by field, by number among the children, or to the parent.
-/

namespace ScenarioSyntax

inductive Step where
  /-- The first child with the field of this spelling. -/
  | field (spelling : String)
  | parent
  /-- The `k`-th named child. -/
  | named (k : Nat)
  /-- The `k`-th child. -/
  | child (k : Nat)
  deriving DecidableEq, Repr

namespace Location

/-- The numbers of the named children among all children. -/
def namedIndices (n : Node) : List Nat :=
  (List.range n.children.length).filter fun i => n.children[i]?.any (·.isNamed)

def step? (l : Location) : Step → Option Location
  | .field s => (Field.ofSpelling? s).bind fun f => l.childBy? (·.data.field = some f)
  | .parent => l.parent?
  | .named k => (namedIndices l.node)[k]?.bind l.child?
  | .child k => l.child? k

/-- Follows a path. If a step leads nowhere, the result is the number of that step, the first being
the `i`-th. -/
def follow (l : Location) (i : Nat) : List Step → Except Nat Location
  | [] => .ok l
  | s :: rest =>
    match l.step? s with
    | some m => m.follow (i + 1) rest
    | none => .error i

end Location

end ScenarioSyntax
