import ScenarioSyntax.Text.Blank

/-!
A normal form for written trees: words are set apart by one space, and no space stands in front of
a closing parenthesis.
-/

namespace ScenarioSyntax.Corpus

def isBlankChar (c : Char) : Bool := isBlank c.toNat

/-- The words of a text; `word` is the one begun, its last letter first. -/
def wordsFrom (word : List Char) : List Char → List (List Char)
  | [] => if word.isEmpty then [] else [word.reverse]
  | c :: cs =>
    if isBlankChar c then
      if word.isEmpty then wordsFrom [] cs else word.reverse :: wordsFrom [] cs
    else wordsFrom (c :: word) cs

def words (s : List Char) : List (List Char) := wordsFrom [] s

/-- Drops each space that a closing parenthesis follows. -/
def closeUp : List Char → List Char
  | [] => []
  | ' ' :: ')' :: cs => ')' :: closeUp cs
  | c :: cs => c :: closeUp cs

def normal (s : List Char) : List Char := closeUp ([' '].intercalate (words s))

def normalize (s : String) : String := String.ofList (normal s.toList)

end ScenarioSyntax.Corpus
