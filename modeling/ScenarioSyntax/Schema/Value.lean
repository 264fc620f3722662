/-!
Nested values as indented text.
-/

namespace ScenarioSyntax.Schema

inductive Value where
  | text (s : String)
  | flag (b : Bool)
  | list (vs : List Value)
  | record (entries : List (String × Value))

namespace Value

def quoted (s : String) : String := "\"" ++ s ++ "\""

def newline (indent : Nat) : String := "\n" ++ String.ofList (List.replicate indent ' ')

/-- Items on lines of their own, between brackets. -/
def block (indent : Nat) (opening closing : String) : List String → String
  | [] => opening ++ closing
  | items =>
    opening ++ newline (indent + 2) ++ ("," ++ newline (indent + 2)).intercalate items ++
      newline indent ++ closing

mutual

/-- The items of a list and the entries of a record stand two columns further in than what is
around them. -/
def render (indent : Nat) : Value → String
  | text s => quoted s
  | flag true => "true"
  | flag false => "false"
  | list vs => block indent "[" "]" (renderAll (indent + 2) vs)
  | record es => block indent "\x7b" "\x7d" (renderEntries (indent + 2) es)

def renderAll (indent : Nat) : List Value → List String
  | [] => []
  | v :: vs => v.render indent :: renderAll indent vs

def renderEntries (indent : Nat) : List (String × Value) → List String
  | [] => []
  | (k, v) :: es => (quoted k ++ ": " ++ v.render indent) :: renderEntries indent es

end

end Value

end ScenarioSyntax.Schema
