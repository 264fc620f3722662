import ScenarioSyntax.Text.Source
import ScenarioSyntax.Query.Location

/-!
A cursor that walks over a tree. It stays where it is when a move leads nowhere.
-/

namespace ScenarioSyntax

inductive Motion where
  | firstChild
  | lastChild
  | nextSibling
  | parent
  /-- To the first child that ends at the byte or behind it. -/
  | childAtByte (byte : Nat)
  /-- To a node of the whole tree by its number in preorder, or else to the root. -/
  | descendant (index : Nat)
  deriving DecidableEq, Repr

inductive Motion.Result where
  | moved (success : Bool)
  | child (index : Option Nat)
  | jumped
  deriving DecidableEq, Repr

namespace Location

/-- The root of the tree that a location is in. -/
def root (l : Location) : Node := (l.above.getLast?.map (·.1)).getD l.node

mutual

/-- The location of the `k`-th node in preorder at or below a node. -/
def ofIndex? (above : List (Node × Nat)) (k : Nat) : Node → Option Location
  | .mk d cs =>
    match k with
    | 0 => some ⟨.mk d cs, above⟩
    | k + 1 => ofIndexAll? (.mk d cs) above 0 k cs

def ofIndexAll? (p : Node) (above : List (Node × Nat)) (i k : Nat) :
    List Node → Option Location
  | [] => none
  | c :: cs =>
    if k < c.size then ofIndex? ((p, i) :: above) k c
    else ofIndexAll? p above (i + 1) (k - c.size) cs

end

/-- Tries a move, and stays if it fails. -/
def attempt (l : Location) (target : Option Location) : Motion.Result × Location :=
  match target with
  | some m => (.moved true, m)
  | none => (.moved false, l)

def move (src : Source) (l : Location) : Motion → Motion.Result × Location
  | .firstChild => l.attempt (l.child? 0)
  | .lastChild => l.attempt l.lastChild?
  | .nextSibling => l.attempt l.nextSibling?
  | .parent => l.attempt l.parent?
  | .childAtByte b =>
    let i := l.node.children.findIdx? fun c => b ≤ src.byte c.stop
    (.child i, (i.bind l.child?).getD l)
  | .descendant k => (.jumped, (ofIndex? [] k l.root).getD (ofRoot l.root))

/-- The results of a series of moves, each with the location behind it. -/
def walk (src : Source) (l : Location) : List Motion → List (Motion.Result × Location)
  | [] => []
  | m :: rest => let r := l.move src m; r :: walk src r.2 rest

end Location

end ScenarioSyntax
