import ScenarioSyntax.Highlight.Rule
import ScenarioSyntax.Text.Source

/-!
The nodes of a tree that the highlighting rules apply to.
-/

namespace ScenarioSyntax.Highlight

structure Capture where
  style : Style
  /-- The number of the rule. -/
  rule : Nat
  start : Nat
  stop : Nat
  deriving DecidableEq, Repr

/-- The captures of a single node, in the order of the rules. -/
def capturesAt (parent : Option Kind) (n : NodeData) : List Capture :=
  rules.zipIdx.filterMap fun (r, i) =>
    if r.selector.applies parent n then some ⟨r.style, i, n.start, n.stop⟩ else none

mutual

/-- The captures of a node and its descendants, each node before its children. -/
def capturesBelow (parent : Option Kind) : Node → List Capture
  | .mk d cs => capturesAt parent d ++ capturesAll (some d.kind) cs

def capturesAll (parent : Option Kind) : List Node → List Capture
  | [] => []
  | n :: ns => capturesBelow parent n ++ capturesAll parent ns

end

/-- Captures that begin earlier come first, and of those that begin together the one of the
earlier rule. -/
def Capture.precedes (a b : Capture) : Bool :=
  a.start < b.start || (a.start = b.start && a.rule ≤ b.rule)

def captures (root : Node) : List Capture := (capturesBelow none root).mergeSort Capture.precedes

/-- The captures that share text with the bytes from `a` to `b`. -/
def capturesWithin (src : Source) (a b : Nat) (root : Node) : List Capture :=
  (captures root).filter fun c => a < src.byte c.stop && src.byte c.start < b

end ScenarioSyntax.Highlight
