import ScenarioSyntax.Lexer.Token

/-!
The parser up to the first error: a stack of states and trees, and a step that reads a token or
performs the one action that the table has for it.
-/

namespace ScenarioSyntax

structure Entry where
  state : StateId
  tree : Tree

/-- The last entry comes first; below all entries lies the first state. -/
abbrev Stack := List Entry

namespace Stack

def state : Stack → StateId
  | [] => Table.start
  | e :: _ => e.state

def push (st : Stack) (s : StateId) (t : Tree) : Stack := ⟨s, t⟩ :: st

/-- The trees in the order of the text. -/
def trees (st : Stack) : List Tree := (st.map (·.tree)).reverse

/-- Takes entries off until `n` of them were not extra; the trees come in the order of the text. -/
def pop : Nat → Stack → List Tree → List Tree × Stack
  | 0, st, ts => (ts, st)
  | _ + 1, [], ts => (ts, [])
  | n + 1, e :: st, ts =>
    if e.tree.isExtra then pop (n + 1) st (e.tree :: ts) else pop n st (e.tree :: ts)

/-- Replaces the last `arity` trees, and the extra ones between them, by one tree. Extra trees
behind them stay outside. -/
def reduce (st : Stack) (n : Nonterminal) (arity : Nat) (l : Layout) : Stack :=
  let (ts, rest) := pop arity st []
  let (children, trailing) := Tree.splitTrailing ts
  let s := Table.goto rest.state n
  trailing.foldl (fun st t => st.push s t) (rest.push s (.node (.rule n l) children))

end Stack

/-- Reads the token at a position for a state. -/
abbrev Scanner := StateId → Nat → Lookahead

structure Machine where
  stack : Stack
  pos : Nat
  /-- A token that was read and not yet taken. -/
  ahead : Option Lookahead

inductive Event where
  | token (t : Lookahead)
  | shift (s : StateId)
  | extra
  | reduce (n : Nonterminal) (arity : Nat)
  | accept
  /-- A keyword is read as an identifier after all. -/
  | asIdentifier (k : Terminal)
  | error (pos : Nat)

inductive Outcome where
  | running (m : Machine)
  | accepted (t : Tree)
  | stuck (m : Machine)

namespace Machine

def init : Machine := ⟨[], 0, none⟩

def state (m : Machine) : StateId := m.stack.state

/-- Puts a token on the stack. -/
def take (m : Machine) (s : StateId) (t : Lookahead) (extra : Bool) : Machine :=
  ⟨m.stack.push s (t.leaf.withExtra extra), t.span.stop, none⟩

/-- There is no action for the token. -/
def reject (m : Machine) (t : Lookahead) : Event × Outcome :=
  match t.kind? with
  | some k =>
    if t.wordlike && k != .identifier && Table.wants m.state .identifier then
      (.asIdentifier k, .running { m with ahead := some t.asIdentifier })
    else (.error m.pos, .stuck m)
  | none => (.error m.pos, .stuck m)

def act (m : Machine) (t : Lookahead) : Event × Outcome :=
  match t.kind?.bind (Table.action? m.state) with
  | some (.shift s) => (.shift s, .running (m.take s t false))
  | some .extra => (.extra, .running (m.take m.state t true))
  | some (.reduce n k l) => (.reduce n k, .running { m with stack := m.stack.reduce n k l })
  | some .accept => (.accept, .accepted (Tree.root (m.stack.push Table.start t.leaf).trees))
  | some .recover => m.reject t
  | none => m.reject t

def step (scan : Scanner) (m : Machine) : Event × Outcome :=
  match m.ahead with
  | none => let t := scan m.state m.pos; (.token t, .running { m with ahead := some t })
  | some t => m.act t

/-- The events of at most `fuel` steps, and what they lead to. -/
def run (scan : Scanner) : Nat → Machine → List Event × Outcome
  | 0, m => ([], .running m)
  | fuel + 1, m =>
    match m.step scan with
    | (e, .running m') => let (es, o) := run scan fuel m'; (e :: es, o)
    | (e, o) => ([e], o)

/-- Each token takes a step to be read and one to be taken, and pays for five reductions. -/
def fuelFor (length : Nat) : Nat := 8 * (length + 2)

/-- Runs on a text until it is accepted or the first error is found. -/
def runText (points : List Int) : List Event × Outcome :=
  run (Token.read points) (fuelFor points.length) init

end Machine

end ScenarioSyntax
