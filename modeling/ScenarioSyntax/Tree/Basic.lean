import ScenarioSyntax.Symbol.Catalog

/-!
Syntax trees. Positions count code points from the beginning of the text; a tree begins where the
one before it ends, with the blanks in front of its first token.
-/

namespace ScenarioSyntax

/-- Blanks from `lead` to `start`, then the text itself up to `stop`. -/
structure Span where
  lead : Nat
  start : Nat
  stop : Nat
  deriving DecidableEq, Repr

/-- The span from the beginning of one tree to the end of a later one. -/
def Span.join (a b : Span) : Span := ⟨a.lead, a.start, b.stop⟩

/-- What holds children together. -/
inductive Label where
  | rule (symbol : Nonterminal) (layout : Layout)
  /-- A stretch that fits nowhere. An aside stands between the children of a production without
  being one of them. -/
  | error (aside : Bool)
  /-- Tokens passed over one by one while looking for a place to go on; their children belong to
  the error around them. -/
  | skipped
  deriving DecidableEq, Repr

/-- Comments and the end of the text are extra: no production counts them. -/
inductive Tree where
  | token (kind : Terminal) (span : Span) (extra : Bool)
  /-- A token that had to be there and was not. -/
  | missing (kind : Terminal) (pos : Nat)
  /-- Characters that are no token, and the one at which the lexer gave up. -/
  | stray (span : Span) (unexpected : Int)
  | node (label : Label) (children : List Tree)

namespace Tree

def children : Tree → List Tree
  | node _ cs => cs
  | _ => []

def isExtra : Tree → Bool
  | token _ _ extra => extra
  | node (.error aside) _ => aside
  | _ => false

/-- What the tree shows as, if it shows at all. -/
def kind? : Tree → Option Kind
  | token t _ _ => if t.isVisible then some (.symbol (.terminal t)) else none
  | missing t _ => some (.symbol (.terminal t))
  | stray _ _ => some .error
  | node (.rule n _) _ => if n.isVisible then some (.symbol (.nonterminal n)) else none
  | node (.error _) _ => some .error
  | node .skipped _ => none

def isVisible (t : Tree) : Bool := t.kind?.isSome

def isError : Tree → Bool
  | stray _ _ => true
  | node (.error _) _ => true
  | _ => false

def isSkipped : Tree → Bool
  | node .skipped _ => true
  | _ => false

/-- A number for each symbol, those of errors above all others. -/
def code : Tree → Nat
  | token t _ _ => t.index
  | missing t _ => t.index
  | stray _ _ => 65535
  | node (.rule n _) _ => n.index
  | node (.error _) _ => 65535
  | node .skipped _ => 65534

/-- The same leaf, counted as a child or not. -/
def withExtra (extra : Bool) : Tree → Tree
  | token t s _ => token t s extra
  | t => t

mutual

/-- A token is missing or something was passed over. Stray characters by themselves are the
content of an error, and the error is what holds them. -/
def hasError : Tree → Bool
  | token .. => false
  | missing .. => true
  | stray .. => false
  | node (.rule _ _) cs => anyError cs
  | node _ _ => true

def anyError : List Tree → Bool
  | [] => false
  | t :: ts => t.hasError || anyError ts

end

/-- The extra trees at the end of a list, split off. -/
def splitTrailing (ts : List Tree) : List Tree × List Tree :=
  ((ts.reverse.dropWhile isExtra).reverse, (ts.reverse.takeWhile isExtra).reverse)

/-- The whole text as one tree: the last tree that is not extra becomes the root, and what stands
around it joins its children. -/
def root (ts : List Tree) : Tree :=
  match splitTrailing ts with
  | (body, trailing) =>
    match body.getLast? with
    | some (node l cs) => node l (body.dropLast ++ cs ++ trailing)
    | _ => node (.error false) ts

end Tree

end ScenarioSyntax
