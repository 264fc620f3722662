import ScenarioSyntax.Symbol.Catalog

/-!
Actions of the parser. Each state has at most one action for each terminal.
-/

namespace ScenarioSyntax

abbrev StateId := Nat

inductive Action where
  /-- Take the token and go to the state. -/
  | shift (state : StateId)
  /-- Take the token and stay. -/
  | extra
  /-- Replace the last `arity` trees by one. -/
  | reduce (symbol : Nonterminal) (arity : Nat) (layout : Layout)
  | accept
  /-- The parser has lost its place and looks for one where the token fits. -/
  | recover
  deriving DecidableEq, Repr

/-- What a state does on each terminal other than a comment, and where it goes on each
nonterminal. -/
structure Row where
  actions : List (Terminal × Action)
  gotos : List (Nonterminal × StateId)

/-- The same action on several terminals. -/
def Action.on (a : Action) (ts : List Terminal) : List (Terminal × Action) := ts.map (·, a)

end ScenarioSyntax
