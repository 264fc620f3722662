import ScenarioSyntax.Repair.Rounds

/-!
Parsing a text. A text that follows the grammar is read by the table alone; any other one is
repaired, and its tree shows where.
-/

namespace ScenarioSyntax

/-- The tree of a text that could not be read at all. -/
def Tree.unread : Tree := .node (.error false) []

namespace Search

/-- The number of rounds after which a search gives up. -/
def fuelFor (length : Nat) : Nat := 20 * (length + 10)

/-- The cheapest tree from the place where the parser got stuck. -/
def repair (src : Source) (m : Machine) : Tree :=
  match m.ahead with
  | none => .unread
  | some t => (rounds src (fuelFor src.length) (ofMachine src m t)).best.getD .unread

end Search

def parse (src : Source) : Tree :=
  match (Machine.runText src.points).2 with
  | .accepted t => t
  | .stuck m => Search.repair src m
  | .running _ => .unread

end ScenarioSyntax
