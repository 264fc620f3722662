import ScenarioSyntax.Text.Source
import ScenarioSyntax.Tree.Node

/-!
The smallest node around a stretch of text.
-/

namespace ScenarioSyntax

/-- A way to say where something is: by its byte, or by its row and column. -/
structure Gauge (α : Type) where
  locate : Place → α
  before : α → α → Bool

namespace Gauge

def byte : Gauge Nat := ⟨Place.byte, fun a b => decide (a < b)⟩

def point : Gauge (Nat × Nat) := ⟨Place.point, Place.precedes⟩

end Gauge

namespace Node

variable {α : Type}

/-- The node reaches from within the stretch, or from before it, to its end. -/
def reaches (src : Source) (g : Gauge α) (a b : α) (n : Node) : Bool :=
  let stop := g.locate (src.place n.stop)
  !g.before stop b && g.before a stop

mutual

/-- The last node on the way down to the stretch from `a` to `b`, among those with a property.
At each node the first child that reaches far enough is tried. -/
def around (src : Source) (g : Gauge α) (p : Node → Bool) (a b : α) (last : Node) : Node → Node
  | mk _ cs => aroundAll src g p a b last cs

def aroundAll (src : Source) (g : Gauge α) (p : Node → Bool) (a b : α) (last : Node) :
    List Node → Node
  | [] => last
  | c :: cs =>
    if c.reaches src g a b then
      if g.before a (g.locate (src.place c.start)) then last
      else around src g p a b (if p c then c else last) c
    else aroundAll src g p a b last cs

end

/-- The smallest node around a stretch, the root if there is no other. -/
def smallest (src : Source) (g : Gauge α) (namedOnly : Bool) (a b : α) (root : Node) : Node :=
  around src g (fun n => !namedOnly || n.isNamed) a b root root

end Node

end ScenarioSyntax
