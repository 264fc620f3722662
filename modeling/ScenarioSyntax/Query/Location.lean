import ScenarioSyntax.Tree.Node

/-!
A node together with the way to it from the root. From there its parent, its siblings and its
children can be reached.
-/

namespace ScenarioSyntax

structure Location where
  node : Node
  /-- The ancestors from the parent up, each with the number of the child that leads on. -/
  above : List (Node × Nat)

namespace Location

def ofRoot (n : Node) : Location := ⟨n, []⟩

def depth (l : Location) : Nat := l.above.length

def parent? (l : Location) : Option Location :=
  match l.above with
  | [] => none
  | (p, _) :: rest => some ⟨p, rest⟩

def child? (l : Location) (i : Nat) : Option Location :=
  l.node.children[i]?.map fun c => ⟨c, (l.node, i) :: l.above⟩

/-- The first child with a property. -/
def childBy? (l : Location) (p : Node → Bool) : Option Location :=
  match l.node.children.findIdx? p with
  | some i => l.child? i
  | none => none

def lastChild? (l : Location) : Option Location :=
  match l.node.children.length with
  | 0 => none
  | n + 1 => l.child? n

/-- The children of the parent behind this one. -/
def later (l : Location) : List Node :=
  match l.above with
  | [] => []
  | (p, i) :: _ => p.children.drop (i + 1)

/-- The children of the parent before this one, the nearest first. -/
def earlier (l : Location) : List Node :=
  match l.above with
  | [] => []
  | (p, i) :: _ => (p.children.take i).reverse

/-- The nearest sibling behind this one, among the named ones if so wanted. -/
def nextNode? (l : Location) (namedOnly : Bool) : Option Node :=
  l.later.find? fun n => !namedOnly || n.isNamed

/-- The nearest sibling before this one, among the named ones if so wanted. -/
def previousNode? (l : Location) (namedOnly : Bool) : Option Node :=
  l.earlier.find? fun n => !namedOnly || n.isNamed

def nextSibling? (l : Location) : Option Location :=
  match l.above with
  | [] => none
  | (p, i) :: rest => p.children[i + 1]?.map fun c => ⟨c, (p, i + 1) :: rest⟩

/-- The number of nodes that come before this one in preorder. -/
def index (l : Location) : Nat :=
  l.above.foldr (fun (p, i) n => Node.sizeAll (p.children.take i) + 1 + n) 0

end Location

end ScenarioSyntax
