import ScenarioSyntax.Corpus.Normal
import ScenarioSyntax.Parser.Parse
import ScenarioSyntax.Text.Lines
import ScenarioSyntax.Tree.Sexp

/-!
Corpus files: named examples of source texts with the trees expected of them. A name stands
between two rules of equals signs; a rule of hyphens divides the source from the tree.
-/

namespace ScenarioSyntax.Corpus

/-- A line of at least three bytes that repeats one character. -/
def isRule (ch : Char) (l : Line) : Bool := 3 ≤ l.byteLength && l.all (· = ch)

def trimBy (p : Char → Bool) (l : List Char) : List Char :=
  ((l.dropWhile p).reverse.dropWhile p).reverse

structure Case where
  name : List Char
  source : List Char
  expected : List Char
  deriving DecidableEq, Repr

/-- The part of a file that follows a case, given what follows the rule in front of its name. -/
def afterCase (ls : List Line) : List Line :=
  (((ls.drop 2).dropWhile fun l => !isRule '-' l).drop 1).dropWhile fun l => !isRule '=' l

def caseOf (ls : List Line) : Case where
  name := trimBy isBlankChar (ls.headD [])
  source := trimBy (· = '\n') (Line.join ((ls.drop 2).takeWhile fun l => !isRule '-' l)) ++ ['\n']
  expected := Line.join
    ((((ls.drop 2).dropWhile fun l => !isRule '-' l).drop 1).takeWhile fun l => !isRule '=' l)

theorem afterCase_sublist (ls : List Line) : (afterCase ls).Sublist ls := by
  unfold afterCase
  refine (List.dropWhile_sublist _).trans ((List.drop_sublist _ _).trans ?_)
  exact (List.dropWhile_sublist _).trans (List.drop_sublist _ _)

/-- A case is shorter than the lines it is taken from, which begin with its rule. -/
theorem length_afterCase_lt {p : Line → Bool} {ls rest : List Line} {l : Line}
    (h : ls.dropWhile p = l :: rest) : (afterCase rest).length < ls.length := by
  have h1 := (List.dropWhile_sublist p (l := ls)).length_le
  have h2 := (afterCase_sublist rest).length_le
  rw [h, List.length_cons] at h1
  omega

/-- The cases in the order of the file. What stands in front of the first is left out. -/
def casesOf (ls : List Line) : List Case :=
  match _ : ls.dropWhile fun l => !isRule '=' l with
  | [] => []
  | _ :: rest => caseOf rest :: casesOf (afterCase rest)
termination_by ls.length
decreasing_by exact length_afterCase_lt (by assumption)

def parseCases (content : String) : List Case := casesOf (Line.ofChars content.toList)

/-- What came of a case, both trees in normal form. -/
structure Verdict where
  expected : String
  actual : String
  deriving DecidableEq, Repr

def Verdict.passes (v : Verdict) : Bool := v.actual == v.expected

def Case.check (c : Case) : Verdict where
  expected := normalize (String.ofList c.expected)
  actual := normalize (parse (.ofString .utf8 (String.ofList c.source))).toNode.sexp

end ScenarioSyntax.Corpus
