import ScenarioSyntax.Lexer.Keyword
import ScenarioSyntax.Table.Lookup

/-!
The states of the lexer in a fixed order: the modes as the parser's states first use them, and
within a mode breadth first, by the least character that leads to a state.
-/

namespace ScenarioSyntax

/-- Visits what `next` leads to, breadth first, from the `i`-th element of `found` on. -/
def explore {α : Type} [BEq α] (next : α → List α) : Nat → Nat → List α → List α
  | 0, _, found => found
  | fuel + 1, i, found =>
    match found[i]? with
    | none => found
    | some a =>
      explore next fuel (i + 1)
        ((next a).foldl (fun fs b => if fs.contains b then fs else fs ++ [b]) found)

/-- ASCII distinguishes every two moves that lead to different states. -/
def ascii : List Int := (List.range 128).map Int.ofNat

/-- Reads from the state of a number; without such a state a lexer stops at once. -/
def readFrom {α : Type} (states : Array α) (read : α → List Int → Reading) (n : Nat)
    (points : List Int) : Reading :=
  match states[n]? with
  | some q => read q points
  | none => ⟨none, 0, 0⟩

/-- The modes without repetition, in the order of the states that use them. -/
def Mode.all : List Mode :=
  ((List.range Table.rows.size).map Table.mode).foldl
    (fun ms m => if ms.contains m then ms else ms ++ [m]) []

namespace LexState

def successors (q : LexState) : List LexState :=
  ascii.filterMap fun c =>
    match q.next c with
    | .advance r => some r
    | _ => none

/-- A mode that looks for the end of the text has that state next to its first. -/
def ofMode (m : Mode) : List LexState :=
  explore successors 100 0 (if m.contains .endOfText then [start m, ended] else [start m])

def all : Array LexState := (Mode.all.flatMap ofMode).toArray

/-- Runs the lexer from the state of a number. -/
def readNumbered : Nat → List Int → Reading := readFrom all read

end LexState

/-- The number of the state in which a mode starts. -/
def Mode.index (m : Mode) : Nat := LexState.all.findIdx (· == .start m)

namespace Keyword

def successors (s : State) : List State :=
  ascii.filterMap fun c => if begins (s ++ [c]) then some (s ++ [c]) else none

def states : Array State := (explore successors 1000 0 [[]]).toArray

/-- Recognises keywords from the state of a number. -/
def readNumbered : Nat → List Int → Reading := readFrom states fun s => scan s 0 none

end Keyword

end ScenarioSyntax
