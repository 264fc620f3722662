import Mathlib.Tactic.Common
import ScenarioSyntax.Symbol.Catalog

/-!
Rules say what stands below a construct: symbols in sequence, alternatives, optional parts and
lists of any length.

A list of one or more elements is also a hidden construct, its tail. With tails in the place of
lists, a rule has finitely many alternatives, and these are what the parser's states go through.
-/

namespace ScenarioSyntax.Grammar

/-- A symbol with the part that it plays. -/
structure Part where
  field : Option Field
  symbol : Symbol
  deriving DecidableEq, Repr

inductive Rule where
  | nothing
  | part (p : Part)
  | seq (r q : Rule)
  | either (r q : Rule)
  | optional (r : Rule)
  /-- Any number of times. A list that is not empty shows as its tail. -/
  | many (tail : Nonterminal) (r : Rule)
  deriving DecidableEq, Repr

namespace Rule

def token (t : Terminal) : Rule := part ⟨none, .terminal t⟩

def construct (n : Nonterminal) : Rule := part ⟨none, .nonterminal n⟩

def tokenAs (f : Field) (t : Terminal) : Rule := part ⟨some f, .terminal t⟩

def constructAs (f : Field) (n : Nonterminal) : Rule := part ⟨some f, .nonterminal n⟩

def all : List Rule → Rule := List.foldr seq nothing

/-- The sequences of parts that a rule allows, lists written out. -/
inductive Admits : Rule → List Part → Prop
  | nothing : Admits nothing []
  | part (p : Part) : Admits (part p) [p]
  | seq {r q : Rule} {u v : List Part} (hu : Admits r u) (hv : Admits q v) :
      Admits (seq r q) (u ++ v)
  | left {r q : Rule} {u : List Part} (hu : Admits r u) : Admits (either r q) u
  | right {r q : Rule} {u : List Part} (hu : Admits q u) : Admits (either r q) u
  | absent (r : Rule) : Admits (optional r) []
  | present {r : Rule} {u : List Part} (hu : Admits r u) : Admits (optional r) u
  | none (t : Nonterminal) (r : Rule) : Admits (many t r) []
  | more {t : Nonterminal} {r : Rule} {u v : List Part} (hu : Admits r u)
      (hv : Admits (many t r) v) : Admits (many t r) (u ++ v)

/-- The sequences of parts that a rule allows, each list standing as its tail. -/
def alternatives : Rule → List (List Part)
  | nothing => [[]]
  | part p => [[p]]
  | seq r q => r.alternatives.flatMap fun u => q.alternatives.map fun v => u ++ v
  | either r q => r.alternatives ++ q.alternatives
  | optional r => [] :: r.alternatives
  | many t _ => [[], [⟨.none, .nonterminal t⟩]]

lemma mem_alternatives_seq {r q : Rule} {w : List Part} :
    w ∈ (seq r q).alternatives ↔
      ∃ u ∈ r.alternatives, ∃ v ∈ q.alternatives, u ++ v = w := by
  simp [alternatives]

end Rule

end ScenarioSyntax.Grammar
