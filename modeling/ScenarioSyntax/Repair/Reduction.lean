import ScenarioSyntax.Repair.Walk
import ScenarioSyntax.Repair.Ranking

/-!
Reductions on branches. A stack may be left by several ways; for each vertex they lead to, the best
tree is kept, and branches that come to meet are merged.
-/

namespace ScenarioSyntax

namespace Search

def maxBranches : Nat := 6

/-- Branches beyond this index are given up at once. -/
def maxIndex : Nat := 10

/-- Merges the branch `j` into the first branch that it meets, from `lo` on and before `hi`, leaving
out the branch `skip`. -/
def mergeAmong? (src : Source) (r : Search) (j : Nat) (skip : Option Nat) (lo hi : Nat) :
    Option Search :=
  (((List.range hi).drop lo).filter (some · ≠ skip)).findSome? fun i => r.merge? src i j

/-- The better of two ways to fill a node. -/
def chooseChildren (src : Source) (n : Nonterminal) (l : Layout)
    (old new : List Tree × List Tree) : List Tree × List Tree :=
  if (Tree.node (.rule n l) old.1).isReplacedBy src (.node (.rule n .plain) new.1) then new else old

/-- Puts the new node on each branch that the popping has made. -/
def reduceOnto (src : Source) (i : Nat) (n : Nonterminal) (l : Layout) :
    Search → Nat → List (Nat × List (List Tree)) → Search
  | r, _, [] => r
  | r, removed, (j, ways) :: rest =>
    let j := j - removed
    if maxIndex < j then reduceOnto src i n l (r.remove j) (removed + 1) rest
    else
      match ways.map Tree.splitTrailing with
      | [] => reduceOnto src i n l r removed rest
      | way :: others =>
        let (children, trailing) := others.foldl (chooseChildren src n l) way
        let s := Table.goto (r.state j) n
        let r := r.pushAll src j (.node (.rule n l) children :: trailing) s
        match r.mergeAmong? src j (some i) 0 j with
        | some r => reduceOnto src i n l r (removed + 1) rest
        | none => reduceOnto src i n l r removed rest

/-- Reduces on the branch `i`, which stays as it is. Yields the first of the new branches, unless
all of them were merged into others. -/
def reduce (src : Source) (r : Search) (i : Nat) (n : Nonterminal) (arity : Nat) (l : Layout) :
    Search × Option Nat :=
  let before := r.count
  let (r, groups) := r.pop i arity
  let r := reduceOnto src i n l r 0 groups
  (r, if before < r.count then some before else none)

/-- The different reductions of a state on some terminals. -/
def reductions (s : StateId) (ts : List Terminal) : List (Nonterminal × Nat × Layout) :=
  ts.foldl
    (fun out t =>
      match Table.action? s t with
      | some (.reduce n k l) =>
        if out.any fun e => e.1 = n && e.2.1 = k then out else out ++ [(n, k, l)]
      | _ => out) []

def shifts (s : StateId) (ts : List Terminal) : Bool :=
  ts.any fun t =>
    match Table.action? s t with
    | some (.shift _) => true
    | some .recover => true
    | _ => false

/-- The terminals that a token can be followed up with: itself, or, at the end of the text and
where none is given, every one but the end. -/
def candidates : Option Terminal → List Terminal
  | none => Terminal.all.tail
  | some .endOfText => Terminal.all.tail
  | some t => [t]

/-- Whether the candidates are one given terminal. -/
def isDefinite : Option Terminal → Bool
  | none => false
  | some t => t != .endOfText

/-- Performs the reductions that are possible from the branch `i` on, on one terminal or on any, and
from the branches that come out of them. A branch that can only be reduced gives way to its
reduction. Yields whether a branch comes to take a terminal. -/
def reduceAllFrom (src : Source) (start before : Nat) (t : Option Terminal) :
    Nat → Nat → Search → Nat → Bool → Bool × Search
  | 0, _, r, _, found => (found, r)
  | fuel + 1, round, r, i, found =>
    let count := r.count
    if count ≤ i then (found, r)
    else
      match r.mergeAmong? src i none before i with
      | some r => reduceAllFrom src start before t fuel (round + 1) r i found
      | none =>
        let s := r.state i
        let ts := candidates t
        let (r, last) := (reductions s ts).foldl
          (fun (r, _) (n, k, l) => r.reduce src i n k l) (r, none)
        let next := if i = start then count else i + 1
        if shifts s ts then reduceAllFrom src start before t fuel (round + 1) r next true
        else
          match last with
          | some j =>
            if round < maxBranches then
              reduceAllFrom src start before t fuel (round + 1) (r.replace j i) i found
            else
              reduceAllFrom src start before t fuel (round + 1)
                (if isDefinite t then r.remove i else r) next found
          | none =>
            reduceAllFrom src start before t fuel (round + 1)
              (if isDefinite t then r.remove i else r) next found

def reduceAll (src : Source) (r : Search) (i : Nat) (t : Option Terminal) : Bool × Search :=
  reduceAllFrom src i r.count t 1000 0 r i false

end Search

end ScenarioSyntax
