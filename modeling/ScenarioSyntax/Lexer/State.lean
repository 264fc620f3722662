import ScenarioSyntax.Text.Blank
import ScenarioSyntax.Lexer.Lexeme

/-!
The lexer reads the longest token that matches one of the patterns of its mode. It keeps the
patterns that the characters read so far have not ruled out.
-/

namespace ScenarioSyntax

/-- The tokens looked for, in the order of `Terminal.all`. -/
abbrev Mode := List Terminal

structure Thread where
  token : Terminal
  pattern : Pattern
  deriving DecidableEq, Repr

def Thread.step? (enter : Bool) (c : Int) (t : Thread) : Option Thread :=
  let p := t.pattern.step enter c
  if p.live then some ⟨t.token, p⟩ else none

inductive LexState where
  | start (mode : Mode)
  | inside (threads : List Thread)
  /-- The end of the text was wanted and found. -/
  | ended
  deriving DecidableEq, Repr

def Mode.threads (m : Mode) : List Thread :=
  m.filterMap fun t => t.pattern?.map fun p => ⟨t, p⟩

/-- What a character does to the lexer. -/
inductive Move where
  | skip
  | advance (q : LexState)
  | stop

def Move.enter : List Thread → Move
  | [] => .stop
  | threads => .advance (.inside threads)

namespace LexState

/-- Blanks are skipped in front of a token only. -/
def next : LexState → Int → Move
  | start m, c =>
    if isBlank c then .skip else .enter (m.threads.filterMap (·.step? true c))
  | inside threads, c => .enter (threads.filterMap (·.step? false c))
  | ended, _ => .stop

/-- The token that is complete here. -/
def token? : LexState → Option Terminal
  | start _ => none
  | inside threads => (threads.find? (·.pattern.final)).map (·.token)
  | ended => some .endOfText

/-- The state to go to when the text ends. -/
def atEnd : LexState → LexState
  | start m => if m.contains .endOfText then ended else start m
  | q => q

end LexState

/-- What the lexer found: the token with its end, if any, the first position that is not a
skipped blank, and the position where the lexer stopped. -/
structure Reading where
  found : Option (Terminal × Nat)
  start : Nat
  stop : Nat
  deriving DecidableEq, Repr

namespace LexState

/-- The last complete token is kept while a longer one may follow. -/
def best (q : LexState) (pos : Nat) (found : Option (Terminal × Nat)) : Option (Terminal × Nat) :=
  match q.token? with
  | some t => some (t, pos)
  | none => found

def scan (q : LexState) (start pos : Nat) (found : Option (Terminal × Nat)) : List Int → Reading
  | [] => ⟨q.atEnd.best pos found, start, pos⟩
  | c :: rest =>
    match q.next c with
    | .skip => scan q (pos + 1) (pos + 1) (q.best pos found) rest
    | .advance r => scan r start (pos + 1) (q.best pos found) rest
    | .stop => ⟨q.best pos found, start, pos⟩

/-- Reads a text from its first character. -/
def read (q : LexState) (points : List Int) : Reading := q.scan 0 0 none points

end LexState

end ScenarioSyntax
