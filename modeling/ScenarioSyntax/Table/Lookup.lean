import ScenarioSyntax.Table.Rows
import ScenarioSyntax.Lexer.State

/-!
The action of a state on a terminal, the state behind a symbol, and the tokens a state looks for.
-/

namespace ScenarioSyntax.Table

def lost : StateId := 0

def start : StateId := 1

def row (s : StateId) : Row := rows.getD s ⟨[], []⟩

/-- A comment is taken in every state. -/
def action? (s : StateId) (t : Terminal) : Option Action :=
  if t = .comment then some .extra else (row s).actions.lookup t

def goto (s : StateId) (n : Nonterminal) : StateId := ((row s).gotos.lookup n).getD lost

def wants (s : StateId) (t : Terminal) : Bool := (action? s t).isSome

/-- The state behind a terminal; `lost` if the terminal is not taken. -/
def after (s : StateId) (t : Terminal) : StateId :=
  match action? s t with
  | some (.shift r) => r
  | some .extra => s
  | _ => lost

def reduces (s : StateId) (t : Terminal) : Bool :=
  match action? s t with
  | some (.reduce ..) => true
  | _ => false

/-- The lexer looks for the tokens that the state can use, and for an identifier where the state
can use a keyword. -/
def mode (s : StateId) : Mode :=
  Terminal.all.filter fun t =>
    !t.isKeyword && (wants s t || (t = .identifier && Terminal.keywords.any (wants s)))

end ScenarioSyntax.Table
