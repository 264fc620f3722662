import ScenarioSyntax.Repair.Branch

/-!
Which of two branches, and which of two trees, is the better one.
-/

namespace ScenarioSyntax

/-- What branches are judged by. -/
structure Standing where
  cost : Nat
  progress : Nat
  inError : Bool

inductive Preference where
  /-- The left one is so much better that the right one can be dropped. -/
  | takeLeft
  | preferLeft
  | equal
  | preferRight
  | takeRight
  deriving DecidableEq, Repr

namespace Standing

/-- A lead that grows with the progress of the cheaper branch decides from here on. -/
def maxLead : Nat := 1600

def compare (a b : Standing) : Preference :=
  if !a.inError && b.inError then if a.cost < b.cost then .takeLeft else .preferLeft
  else if a.inError && !b.inError then if b.cost < a.cost then .takeRight else .preferRight
  else if a.cost < b.cost then
    if maxLead < (b.cost - a.cost) * (1 + a.progress) then .takeLeft else .preferLeft
  else if b.cost < a.cost then
    if maxLead < (a.cost - b.cost) * (1 + b.progress) then .takeRight else .preferRight
  else .equal

end Standing

namespace Tree

mutual

/-- Compares symbols, then numbers of children, then the children from left to right. -/
def compare : Tree → Tree → Ordering
  | node l cs, u =>
    ((Ord.compare (node l cs).code u.code).then (Ord.compare cs.length u.children.length)).then
      (compareAll cs u.children)
  | t, u => (Ord.compare t.code u.code).then (Ord.compare 0 u.children.length)

def compareAll : List Tree → List Tree → Ordering
  | [], _ => .eq
  | _, [] => .eq
  | t :: ts, u :: us => (compare t u).then (compareAll ts us)

end

/-- Of two trees for the same text, whether the new one replaces the old one: the cheaper one wins,
the new one if both are faulty at the same cost, and the smaller one if there is no fault. -/
def isReplacedBy (src : Source) (old new : Tree) : Bool :=
  let a := old.cost src
  let b := new.cost src
  if b < a then true
  else if a < b then false
  else if 0 < a then true
  else old.compare new = .gt

end Tree

namespace Search

def standing (r : Search) (i : Nat) : Standing :=
  let isPaused := (r.branch i).paused?.isSome
  { cost := r.cost i + (if isPaused then Cost.skippedTree else 0)
    progress := r.progress i
    inError := isPaused || r.state i = Table.lost }

def bestCost (src : Source) (r : Search) : Option Nat := r.best.map (·.cost src)

/-- Looks for a branch, from `j` on, that is at least as far as the branch `i` and would be taken
over it at the given standing, or could take it in. -/
def isBeatenFrom (r : Search) (i : Nat) (s : Standing) : Nat → Nat → Bool × Search
  | 0, _ => (false, r)
  | fuel + 1, j =>
    if r.count ≤ j then (false, r)
    else if j = i || !r.isActive j || r.pos j < r.pos i then r.isBeatenFrom i s fuel (j + 1)
    else
      let r := r.settle j
      match s.compare (r.standing j) with
      | .takeRight => (true, r)
      | .preferRight =>
        if r.canMerge j i then (true, r) else r.isBeatenFrom i s fuel (j + 1)
      | _ => r.isBeatenFrom i s fuel (j + 1)

/-- Whether going on with the branch `i` at this cost is pointless. -/
def isBeaten (src : Source) (r : Search) (i cost : Nat) : Bool × Search :=
  if (r.bestCost src).any (· ≤ cost) then (true, r)
  else
    let r := r.settle i
    r.isBeatenFrom i ⟨cost, r.progress i, false⟩ r.count 0

end Search

end ScenarioSyntax
