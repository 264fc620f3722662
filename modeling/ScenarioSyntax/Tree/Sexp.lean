import ScenarioSyntax.Tree.Node

/-!
Trees as text: each named node in parentheses, its children behind its kind, each with the field it
has. A token that is missing or characters that are none are named as such.
-/

namespace ScenarioSyntax

/-- A character that was not expected: in quotes if it can be printed, else by number. -/
def showUnexpected (c : Int) : String :=
  if c = -1 then "INVALID"
  else if c = 0 then "'\\0'"
  else if c = 10 then "'\\n'"
  else if c = 9 then "'\\t'"
  else if c = 13 then "'\\r'"
  else if 32 ≤ c && c ≤ 126 then "'" ++ String.ofList [Char.ofNat c.toNat] ++ "'"
  else toString c

namespace NodeData

/-- Anonymous tokens are left out unless they are missing. -/
def isWritten (d : NodeData) : Bool := d.kind.isNamed || d.form = .missing

def label (d : NodeData) : String :=
  match d.field with
  | some f => f.spelling ++ ": "
  | none => ""

end NodeData

namespace Node

mutual

def sexp : Node → String
  | mk d cs =>
    match d.form with
    | .missing =>
      if d.kind.isNamed then "(MISSING " ++ d.kind.name ++ ")"
      else "(MISSING \"" ++ d.kind.name ++ "\")"
    | .stray c =>
      if d.start < d.stop then "(UNEXPECTED " ++ showUnexpected c ++ ")"
      else "(" ++ d.kind.name ++ ")"
    | .plain => "(" ++ d.kind.name ++ sexpAll cs ++ ")"

def sexpAll : List Node → String
  | [] => ""
  | n :: ns => (if n.data.isWritten then " " ++ n.data.label ++ n.sexp else "") ++ sexpAll ns

end

end Node

end ScenarioSyntax
