import ScenarioSyntax.Lexer.Keyword
import ScenarioSyntax.Table.Lookup
import ScenarioSyntax.Tree.Basic

/-!
Reading the next token for a state of the parser. The state's own mode comes first, then the mode
that knows every token, and at last characters are passed over until a token is found.
-/

namespace ScenarioSyntax

/-- A token that the parser looks at. -/
structure Lookahead where
  leaf : Tree
  /-- The state it was read for. -/
  readIn : StateId
  /-- The mode in which it was found. -/
  mode : Mode
  /-- It is a word that begins with a keyword. -/
  wordlike : Bool

namespace Lookahead

def kind? (t : Lookahead) : Option Terminal :=
  match t.leaf with
  | .token k _ _ => some k
  | _ => none

def span (t : Lookahead) : Span :=
  match t.leaf with
  | .token _ s _ => s
  | .stray s _ => s
  | _ => ⟨0, 0, 0⟩

/-- The same word without its special meaning. -/
def asIdentifier (t : Lookahead) : Lookahead :=
  { t with leaf := .token .identifier t.span false }

def isEnd (t : Lookahead) : Bool := t.kind? = some .endOfText

end Lookahead

def byteOrderMark : Int := 0xfeff

/-- Runs the lexer from a position of the text. A byte order mark at the very beginning is skipped
like a blank. -/
def Mode.readAt (m : Mode) (points : List Int) (pos : Nat) : Reading :=
  match points.drop pos with
  | [] => (LexState.start m).scan pos pos none []
  | c :: rest =>
    if pos = 0 && c = byteOrderMark then (LexState.start m).scan 1 1 none rest
    else (LexState.start m).scan pos pos none (c :: rest)

/-- The mode in which every token is found. -/
def Mode.general : Mode := Table.mode Table.lost

namespace Token

/-- Where the stray characters end: the lexer, which gave up at `pos`, is started again from there,
or one character further if it has not moved past `stop`. -/
def strayEnd (points : List Int) : Nat → Nat → Nat → Nat
  | 0, stop, _ => stop
  | fuel + 1, stop, pos =>
    if pos = stop && points.length ≤ pos then stop
    else
      let resume := if pos = stop then pos + 1 else pos
      let r := Mode.general.readAt points resume
      if r.found.isSome then resume else strayEnd points fuel resume r.stop

/-- The token with its keyword, if it is spelled like one that the state can use. -/
def word (points : List Int) (s : StateId) (m : Mode) (lead start stop : Nat) : Lookahead :=
  match Keyword.read (points.drop start) with
  | some (k, n) =>
    let kind := if start + n = stop && Table.wants s k then k else .identifier
    ⟨.token kind ⟨lead, start, stop⟩ false, s, m, true⟩
  | none => ⟨.token .identifier ⟨lead, start, stop⟩ false, s, m, false⟩

def ofReading (points : List Int) (s : StateId) (lead : Nat) (m : Mode) (r : Reading) :
    Option Lookahead :=
  r.found.map fun (t, stop) =>
    if t = .identifier then word points s m lead r.start stop
    else ⟨.token t ⟨lead, r.start, stop⟩ (t = .endOfText), s, m, false⟩

/-- The token at `pos` for the state `s`. -/
def read (points : List Int) (s : StateId) (pos : Nat) : Lookahead :=
  let own := (Table.mode s).readAt points pos
  match ofReading points s pos (Table.mode s) own with
  | some t => t
  | none =>
    let r := Mode.general.readAt points pos
    match ofReading points s pos Mode.general r with
    | some t => t
    | none =>
      let stop := strayEnd points (points.length + 2) r.start r.stop
      ⟨.stray ⟨pos, r.start, stop⟩ (points.getD r.stop 0), s, Mode.general, false⟩

end Token

end ScenarioSyntax
