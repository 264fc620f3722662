import ScenarioSyntax.Repair.Reduction

/-!
What a branch does at a token that does not fit: go back to a state in which it would have fitted,
pass over it, or make up a token that was left out.
-/

namespace ScenarioSyntax

namespace Search

/-- A whole tree was found. It is kept if it is better than the best one so far. -/
def offer (src : Source) (r : Search) (root : Tree) : Search :=
  let best :=
    match r.best with
    | some old => if old.isReplacedBy src root then root else old
    | none => root
  { r with best := some best, accepted := r.accepted + 1 }

/-- Ends a branch that has come to the end of the text. On top of its stack come the last trees; the
stack as a whole, in every way, is a candidate for the cheapest tree. -/
def accept (src : Source) (r : Search) (i : Nat) (last : List Tree) : Search :=
  let (r, groups) := r.popToBottom i
  let r := (groups.flatMap (·.2)).foldl (fun r ts => r.offer src (Tree.root (ts ++ last))) r
  let r :=
    match groups with
    | (j, _) :: _ => r.remove j
    | [] => r
  (r.pushAll src i last Table.start).halt i

/-- Goes back over `depth` trees to a state, and puts what lies above it into an error. Yields
whether some branch is in the state now. -/
def goBack (src : Source) (r : Search) (i depth : Nat) (s : StateId) : Bool × Search :=
  let (r, groups) := r.pop i depth
  groups.foldl
    (fun (found, r) (j, ways) =>
      if r.state j ≠ s then (found, r.halt j)
      else
        let (r, held) := r.popError j
        let (trees, trailing) := Tree.splitTrailing (held ++ ways.headD [])
        let r := if trees.isEmpty then r
          else r.push src j (some (.node (.error true) trees)) s
        (true, r.pushAll src j trailing s)) (false, r)

/-- One of the first `n` branches is in the state at this position already. -/
def isOccupied (r : Search) (n : Nat) (s : StateId) (pos : Nat) : Bool :=
  (List.range n).any fun j => r.state j = s && r.pos j = pos

/-- Tries the landmarks of the branch `i` one after the other, until going back to one succeeds or
costs too much. -/
def tryLandmarks (src : Source) (i before pos moved cost : Nat) (t : Lookahead) :
    List Landmark → Search → Bool × Search
  | [], r => (false, r)
  | l :: rest, r =>
    if l.state = Table.lost || l.pos = pos || r.isOccupied before l.state pos then
      tryLandmarks src i before pos moved cost t rest r
    else
      let depth := if 0 < moved then l.depth + 1 else l.depth
      let total := cost + l.depth * Cost.skippedTree + Cost.stretch src l.pos pos
      match r.isBeaten src i total with
      | (true, r) => (false, r)
      | (false, r) =>
        if t.kind?.any (Table.wants l.state) then
          match r.goBack src i depth l.state with
          | (true, r) => (true, r)
          | (false, r) => tryLandmarks src i before pos moved cost t rest r
        else tryLandmarks src i before pos moved cost t rest r

/-- Removes the branches from the `n`-th on that are not active. -/
def removeInactiveFrom (r : Search) (n : Nat) : Search :=
  { r with branches := r.branches.take n ++ (r.branches.drop n).filter (·.isActive) }

/-- Passes over the token: it joins the tokens passed over before, if there are any. -/
def skipToken (src : Source) (r : Search) (i moved : Nat) (t : Lookahead) : Search :=
  let leaf := if t.kind? = some .comment then t.leaf.withExtra true else t.leaf
  let skipped := Tree.node .skipped [leaf]
  if 0 < moved then
    match r.pop i 1 with
    | (r, (j, ways) :: _) =>
      let r := ({ r with branches := r.branches.take (j + 1) }).replace j i
      r.push src i (some (.node .skipped (ways.headD [] ++ [skipped]))) Table.lost
    | (r, []) => r.push src i (some skipped) Table.lost
  else r.push src i (some skipped) Table.lost

/-- One step of a branch that has lost its way, at the token `t`. -/
def recover (src : Source) (r : Search) (i : Nat) (t : Lookahead) : Search :=
  let before := r.count
  let pos := r.pos i
  let landmarks := ((r.branch i).landmarks).getD []
  let r := r.settle i
  let moved := r.progress i
  let cost := r.cost i
  let (wentBack, r) :=
    if t.kind?.isSome then tryLandmarks src i before pos moved cost t landmarks r else (false, r)
  let r := r.removeInactiveFrom before
  if wentBack && maxBranches < r.count then r.halt i
  else if t.isEnd then r.accept src i [.node (.error false) [], t.leaf]
  else
    match r.isBeaten src i
        (cost + Cost.skippedTree + Cost.stretch src t.span.lead t.span.stop) with
    | (true, r) => r.halt i
    | (false, r) => r.skipToken src i moved t

/-- Makes up a token on a copy of the branch `i`: the first terminal after which the stack can be
reduced on `t`, and `t` then be taken. -/
def insertMissing (src : Source) (i pos : Nat) (t : Terminal) :
    List Terminal → Search → Bool × Search
  | [], r => (false, r)
  | m :: rest, r =>
    let s := r.state i
    let s' := Table.after s m
    if s' = Table.lost || s' = s || !Table.reduces s' t then insertMissing src i pos t rest r
    else
      let j := r.count
      match ((r.copy i).push src j (some (.missing m pos)) s').reduceAll src j (some t) with
      | (true, r) => (true, r)
      | (false, r) => insertMissing src i pos t rest r

/-- Lets the branches lose their way, after trying to make up a token on one of them. -/
def loseEach (src : Source) (pos : Nat) (t : Lookahead) :
    List Nat → Bool → Search → Search
  | [], _, r => r
  | i :: rest, inserted, r =>
    let (inserted, r) :=
      if inserted then (true, r)
      else
        match t.kind? with
        | some k => r.insertMissing src i pos k Terminal.all.tail
        | none => (false, r)
    loseEach src pos t rest inserted (r.push src i none Table.lost)

/-- Starts the recovery of the branch `i` from a token that does not fit. All stacks that its own
can be reduced to are kept in mind. -/
def loseWay (src : Source) (r : Search) (i : Nat) (t : Lookahead) : Search :=
  let before := r.count
  let (_, r) := r.reduceAll src i none
  let count := r.count
  let r := loseEach src (r.pos i) t (i :: (List.range count).drop before) false r
  let r := (List.range (count - before)).foldl (fun r _ => (r.merge? src i before).getD r) r
  (r.noteLandmarks i).recover src i t

end Search

end ScenarioSyntax
