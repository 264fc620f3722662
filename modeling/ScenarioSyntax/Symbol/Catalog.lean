import ScenarioSyntax.Symbol.Terminal
import ScenarioSyntax.Symbol.Nonterminal
import ScenarioSyntax.Symbol.Field

/-!
Grammar symbols, the kinds of node a tree can show, and their numbers and names.
-/

namespace ScenarioSyntax

inductive Symbol where
  | terminal (t : Terminal)
  | nonterminal (n : Nonterminal)
  deriving DecidableEq, Repr

namespace Symbol

def all : List Symbol := Terminal.all.map .terminal ++ Nonterminal.all.map .nonterminal

def index : Symbol → Nat
  | .terminal t => t.index
  | .nonterminal n => n.index

def name : Symbol → String
  | .terminal t => t.name
  | .nonterminal n => n.name

def isVisible : Symbol → Bool
  | .terminal t => t.isVisible
  | .nonterminal n => n.isVisible

def isNamed : Symbol → Bool
  | .terminal t => t.isNamed
  | .nonterminal n => n.isVisible

def ofIndex? (n : Nat) : Option Symbol := all[n]?

end Symbol

/-- What a visible node is: an instance of a grammar symbol, or a stretch of text that fits
nowhere. -/
inductive Kind where
  | symbol (s : Symbol)
  | error
  deriving DecidableEq, Repr

namespace Kind

def index : Kind → Nat
  | .symbol s => s.index
  | .error => 65535

def name : Kind → String
  | .symbol s => s.name
  | .error => "ERROR"

def isNamed : Kind → Bool
  | .symbol s => s.isNamed
  | .error => true

def isVisible : Kind → Bool
  | .symbol s => s.isVisible
  | .error => true

def ofIndex? (n : Nat) : Option Kind :=
  if n = 65535 then some .error else (Symbol.ofIndex? n).map .symbol

/-- The number of the visible symbol with this name, zero if there is none. Every beginning of
the word `ERROR`, the empty one included, stands for the error kind. -/
def indexOf (name : String) (named : Bool) : Nat :=
  if name.toList.isPrefixOf Kind.error.name.toList then Kind.error.index
  else
    match Symbol.all.find? fun s => s.isVisible && s.name == name && s.isNamed == named with
    | some s => s.index
    | none => 0

end Kind

end ScenarioSyntax
