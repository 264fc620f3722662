import ScenarioSyntax.Text.Source
import ScenarioSyntax.Tree.Basic

/-!
What errors cost. Repairs of a faulty text compete, and the cheapest one wins: dear are the number
of places where the parser lost its way, the tokens made up, and the text passed over.
-/

namespace ScenarioSyntax

namespace Cost

def recovery : Nat := 500
def missingToken : Nat := 110
def skippedTree : Nat := 100
def skippedRow : Nat := 30
def skippedByte : Nat := 1

/-- The cost of passing over a stretch of text. -/
def stretch (src : Source) (start stop : Nat) : Nat :=
  skippedByte * src.bytes start stop + skippedRow * src.rows start stop

end Cost

/-- The facts about a tree that costs depend on. -/
structure Measure where
  /-- None for a tree without any token. -/
  span : Option Span
  cost : Nat
  /-- Children that show, those of hidden children included. -/
  shown : Nat
  /-- Descendants that show. -/
  below : Nat

namespace Measure

def empty : Measure := ⟨none, 0, 0, 0⟩

def joinSpan : Option Span → Option Span → Option Span
  | some a, some b => some (a.join b)
  | some a, none => some a
  | none, b => b

/-- What a child adds to an error around it for being passed over. -/
def passedOver (t : Tree) (m : Measure) : Nat :=
  if t.isExtra || (t.isError && t.children.isEmpty) then 0
  else if t.isVisible then Cost.skippedTree
  else if t.children.isEmpty then 0
  else Cost.skippedTree * m.shown

/-- Puts a child, with its own measure, in front of later ones. -/
def prepend (inError : Bool) (t : Tree) (m rest : Measure) : Measure where
  span := joinSpan m.span rest.span
  cost := (if t.isSkipped then 0 else m.cost) + (if inError then passedOver t m else 0) + rest.cost
  shown := (if t.isVisible then 1 else m.shown) + rest.shown
  below := (if t.isVisible then 1 else 0) + m.below + rest.below

/-- The cost of an error itself, on top of that of its children. -/
def lost (src : Source) (m : Measure) : Measure :=
  match m.span with
  | some s => { m with cost := m.cost + Cost.recovery + Cost.stretch src s.start s.stop }
  | none => { m with cost := m.cost + Cost.recovery }

end Measure

namespace Tree

mutual

def measure (src : Source) : Tree → Measure
  | token _ s _ => { Measure.empty with span := some s }
  | missing _ p => { Measure.empty with
      span := some ⟨p, p, p⟩, cost := Cost.missingToken + Cost.recovery }
  | stray s _ => { Measure.empty with span := some s }
  | node (.rule _ _) cs => measureAll src false cs
  | node _ cs => (measureAll src true cs).lost src

def measureAll (src : Source) (inError : Bool) : List Tree → Measure
  | [] => .empty
  | t :: ts => .prepend inError t (t.measure src) (measureAll src inError ts)

end

def cost (src : Source) (t : Tree) : Nat := (t.measure src).cost

/-- The number of visible nodes; a stretch of skipped tokens counts as one more, so that it shows
as progress. -/
def weight (src : Source) (t : Tree) : Nat :=
  (t.measure src).below + (if t.isVisible then 1 else 0) + (if t.isSkipped then 1 else 0)

end Tree

end ScenarioSyntax
