import ScenarioSyntax.Tree.Basic

/-!
The tree as it shows: hidden trees give way to their children, and every child knows the part it
plays for its parent.
-/

namespace ScenarioSyntax

inductive Form where
  | plain
  | missing
  /-- Characters that are no token, with the one at which the lexer gave up. -/
  | stray (unexpected : Int)
  deriving DecidableEq, Repr

structure NodeData where
  kind : Kind
  field : Option Field
  form : Form
  extra : Bool
  hasError : Bool
  start : Nat
  stop : Nat
  deriving DecidableEq, Repr

inductive Node where
  | mk (data : NodeData) (children : List Node)

namespace Node

def data : Node → NodeData
  | mk d _ => d

def children : Node → List Node
  | mk _ cs => cs

def isNamed (n : Node) : Bool := n.data.kind.isNamed

def start (n : Node) : Nat := n.data.start

def stop (n : Node) : Nat := n.data.stop

mutual

/-- The node and its descendants, each before its children. -/
def preorder : Node → List Node
  | mk d cs => mk d cs :: preorderAll cs

def preorderAll : List Node → List Node
  | [] => []
  | n :: ns => n.preorder ++ preorderAll ns

end

mutual

/-- The number of the node and its descendants. -/
def size : Node → Nat
  | mk _ cs => sizeAll cs + 1

def sizeAll : List Node → Nat
  | [] => 0
  | n :: ns => n.size + sizeAll ns

end

end Node

/-- The nodes that a tree shows, and the stretch of text it covers, if any. -/
structure View where
  span : Option Span
  nodes : List Node

namespace View

def empty : View := ⟨none, []⟩

def append (a b : View) : View where
  span :=
    match a.span, b.span with
    | some s, some t => some (s.join t)
    | some s, none => some s
    | none, s => s
  nodes := a.nodes ++ b.nodes

/-- A node around what its children show. -/
def wrap (kind : Kind) (field : Option Field) (extra hasError : Bool) (v : View) : View :=
  let s := v.span.getD ⟨0, 0, 0⟩
  ⟨v.span, [.mk ⟨kind, field, .plain, extra, hasError, s.start, s.stop⟩ v.nodes]⟩

end View

namespace Tree

mutual

def view (field : Option Field) : Tree → View
  | token t s extra =>
    if t.isVisible then
      ⟨some s, [.mk ⟨.symbol (.terminal t), field, .plain, extra, false, s.start, s.stop⟩ []]⟩
    else ⟨some s, []⟩
  | missing t p =>
    ⟨some ⟨p, p, p⟩, [.mk ⟨.symbol (.terminal t), field, .missing, false, true, p, p⟩ []]⟩
  | stray s c => ⟨some s, [.mk ⟨.error, field, .stray c, false, false, s.start, s.stop⟩ []]⟩
  | node (.rule n l) cs =>
    if n.isVisible then
      (viewAll l 0 cs).wrap (.symbol (.nonterminal n)) field false (anyError cs)
    else viewAll l 0 cs
  | node (.error aside) cs => (viewAll .plain 0 cs).wrap .error field aside true
  | node .skipped cs => viewAll .plain 0 cs

/-- What a list of children shows, the first of them being the `i`-th part of its parent. -/
def viewAll (l : Layout) (i : Nat) : List Tree → View
  | [] => .empty
  | t :: ts =>
    if t.isExtra then (t.view none).append (viewAll l i ts)
    else (t.view (l.field? i)).append (viewAll l (i + 1) ts)

end

/-- The node that the whole tree shows. -/
def toNode (t : Tree) : Node :=
  match (t.view none).nodes with
  | [n] => n
  | ns => .mk ⟨.error, none, .plain, false, true, 0, 0⟩ ns

end Tree

end ScenarioSyntax
