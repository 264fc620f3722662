import ScenarioSyntax.Parser.Machine
import ScenarioSyntax.Repair.Strategy

/-!
The search from the first error to a whole tree. In each round every branch takes one step beyond
the furthest position so far; then the branches are ranked, and hopeless ones are dropped.
-/

namespace ScenarioSyntax

namespace Lookahead

/-- A token read for one state serves another one that reads in the same mode, and a comment serves
all. An identifier that begins like a keyword is read anew, for what it is depends on the state. -/
def serves (t : Lookahead) (s : StateId) : Bool :=
  match t.kind? with
  | none => false
  | some k =>
    k = .comment ||
      (Table.wants s k && Table.mode t.readIn = Table.mode s &&
        (k != .identifier || (!t.wordlike && t.readIn = s)))

end Lookahead

namespace Search

/-- The token for the branch `i`: the one read last, if it was read at the same place and still
serves, or a new one. -/
def lookahead (src : Source) (r : Search) (i : Nat) : Lookahead × Search :=
  let s := r.state i
  let pos := r.pos i
  match r.cache.filter fun (p, t) => p = pos && t.serves s with
  | some (_, t) => (t, r)
  | none =>
    let t := Token.read src.points s pos
    (t, { r with cache := some (pos, t) })

/-- The token does not fit. -/
def reject (src : Source) (r : Search) (i : Nat) (t : Lookahead) : Search :=
  if r.state i = Table.lost then r.recover src i t else r.pause i t

/-- Performs actions for a token until it is taken, or does not fit. -/
def act (src : Source) (i : Nat) : Nat → Search → Lookahead → Search
  | 0, r, t => r.reject src i t
  | fuel + 1, r, t =>
    let s := r.state i
    let refuse (r : Search) : Search :=
      if t.wordlike && t.kind? ≠ some .identifier && Table.wants s .identifier then
        act src i fuel r t.asIdentifier
      else r.reject src i t
    match t.kind?.bind (Table.action? s) with
    | some (.shift s') => r.push src i (some (t.leaf.withExtra false)) s'
    | some .extra => r.push src i (some (t.leaf.withExtra true)) s
    | some (.reduce n k l) =>
      match r.reduce src i n k l with
      | (r, some j) => act src i fuel (r.replace j i) t
      | (r, none) => refuse r
    | some .accept => r.accept src i [t.leaf]
    | some .recover => r.recover src i t
    | none => refuse r

/-- A token is taken after no more reductions than the stack allows. -/
def advance (src : Source) (r : Search) (i : Nat) : Search :=
  let (t, r) := r.lookahead src i
  act src i (8 * (r.graph.size + 2)) r t

/-- Advances a branch until it is beyond the furthest position, or as far for all branches but the
first. -/
def advancePast (src : Source) (i : Nat) : Nat → Search → Search
  | 0, r => r
  | fuel + 1, r =>
    if r.isActive i then
      let r := r.advance src i
      let pos := r.pos i
      if r.furthest < pos || (0 < i && pos = r.furthest) then { r with furthest := pos }
      else advancePast src i fuel r
    else r

/-- Advances the branches from the `i`-th on, new ones included. -/
def advanceAll (src : Source) : Nat → Nat → Search → Search
  | 0, _, r => r
  | fuel + 1, i, r =>
    if r.count ≤ i then r
    else advanceAll src fuel (i + 1) (advancePast src i (src.length + 2) r)

/-- Ranks the branch `i` against those before it, from `j` on. `s` is its standing at the
beginning. Yields the next branch to rank. -/
def rankFrom (src : Source) (s : Standing) : Nat → Nat → Nat → Search → Nat × Search
  | 0, i, _, r => (i + 1, r)
  | fuel + 1, i, j, r =>
    if i ≤ j then (i + 1, r)
    else
      let r := r.settle j
      match (r.standing j).compare s with
      | .takeLeft => (i, r.remove i)
      | .preferLeft | .equal =>
        match r.merge? src j i with
        | some r => (i, r)
        | none => rankFrom src s fuel i (j + 1) r
      | .preferRight =>
        match r.merge? src j i with
        | some r => (i, r)
        | none => rankFrom src s fuel i (j + 1) (r.swap i j)
      | .takeRight => rankFrom src s fuel (i - 1) j (r.remove j)

/-- The lower of two costs; none is higher than all. -/
def lower (a : Option Nat) (b : Nat) : Option Nat :=
  match a with
  | some a => some (min a b)
  | none => some b

/-- Brings the branches from the `i`-th on into order. Yields the lowest cost of a branch that is
not in error. -/
def rankAll (src : Source) : Nat → Nat → Option Nat → Search → Option Nat × Search
  | 0, _, low, r => (low, r)
  | fuel + 1, i, low, r =>
    if r.count ≤ i then (low, r)
    else if (r.branch i).isHalted then rankAll src fuel i low (r.remove i)
    else
      let r := r.settle i
      let s := r.standing i
      let low := if s.inError then low else lower low s.cost
      let (i, r) := rankFrom src s r.count i 0 r
      rankAll src fuel i low r

/-- Lets the first branch go on that stopped at a token that does not fit, unless a better one has
not stopped. The other branches that stopped are removed. `n` is the number of branches to look
at. -/
def resumeFirst (src : Source) : Nat → Nat → Bool → Option Nat → Search → Option Nat × Search
  | 0, _, _, low, r => (low, r)
  | n + 1, i, isGoing, low, r =>
    match (r.branch i).paused? with
    | none => resumeFirst src n (i + 1) true low r
    | some t =>
      if !isGoing && r.accepted < maxBranches then
        let low := r.cost i
        resumeFirst src n (i + 1) true (some low) ((r.resume i).loseWay src i t)
      else resumeFirst src n i isGoing low (r.remove i)

/-- Ranks the branches, drops hopeless ones, and lets one that stopped go on. -/
def prune (src : Source) (r : Search) : Option Nat × Search :=
  let (low, r) := rankAll src (2 * r.count + 2) 0 none r
  let r := { r with branches := r.branches.take maxBranches }
  resumeFirst src r.count 0 false low r

/-- The cheapest tree is found when no branch can become cheaper. -/
def isDone (src : Source) (r : Search) (low : Option Nat) : Bool :=
  match r.bestCost src, low with
  | some _, none => true
  | some c, some l => c < l
  | none, _ => false

/-- The branch passes over the rest of the text. -/
def passOver (src : Source) (i : Nat) : Nat → Search → Search
  | 0, r => r
  | fuel + 1, r =>
    let t := Token.read src.points Table.lost (r.pos i)
    if t.isEnd then r.accept src i [.node (.error false) [], t.leaf]
    else passOver src i fuel (r.skipToken src i 0 t)

/-- Ends a search that takes too long. If there is no tree yet, the first branch that could go on
passes over what is left. -/
def giveUp (src : Source) (r : Search) : Search :=
  match r.best, r.branches.findIdx? (!·.isHalted) with
  | none, some i => passOver src i (src.length + 1) (r.resume i)
  | _, _ => r

/-- Prunes and advances the branches in turn, until the cheapest tree is found or no branch is
left. -/
def rounds (src : Source) : Nat → Search → Search
  | 0, r => r.giveUp src
  | fuel + 1, r =>
    let (low, r) := r.prune src
    if r.isDone src low || r.count = 0 then r
    else rounds src fuel (advanceAll src 100 0 r)

/-- The search begins where the parser got stuck, with the token that did not fit. -/
def ofMachine (src : Source) (m : Machine) (t : Lookahead) : Search :=
  let g : Graph := m.stack.reverse.foldl
    (fun g e => Graph.put src g (g.size - 1) (some e.tree) e.state) #[Vertex.bottom]
  let top := g.size - 1
  ⟨g, [⟨top, .paused t, (Graph.vertex g top).weight, none⟩], some (m.pos, t), none, 0, m.pos⟩

end Search

end ScenarioSyntax
