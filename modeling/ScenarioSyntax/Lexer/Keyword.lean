import ScenarioSyntax.Symbol.Terminal
import ScenarioSyntax.Lexer.State

/-!
Keywords are recognised letter by letter, as far as some keyword begins that way. What follows the
last letter of a keyword is not looked at.
-/

namespace ScenarioSyntax

def Terminal.spelling (t : Terminal) : List Int := t.name.toList.map fun c => (c.toNat : Int)

namespace Keyword

/-- The letters read so far. -/
abbrev State := List Int

def token? (s : State) : Option Terminal := Terminal.keywords.find? fun t => t.spelling == s

def begins (s : State) : Bool := Terminal.keywords.any fun t => s.isPrefixOf t.spelling

def best (s : State) (pos : Nat) (found : Option (Terminal × Nat)) : Option (Terminal × Nat) :=
  match token? s with
  | some t => some (t, pos)
  | none => found

def scan (s : State) (pos : Nat) (found : Option (Terminal × Nat)) : List Int → Reading
  | [] => ⟨best s pos found, 0, pos⟩
  | c :: rest =>
    if begins (s ++ [c]) then scan (s ++ [c]) (pos + 1) (best s pos found) rest
    else ⟨best s pos found, 0, pos⟩

/-- The keyword that a text begins with, and its length. -/
def read (points : List Int) : Option (Terminal × Nat) := (scan [] 0 none points).found

end Keyword

end ScenarioSyntax
