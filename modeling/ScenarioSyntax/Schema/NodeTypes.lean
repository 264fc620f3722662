import ScenarioSyntax.Symbol.Catalog
import ScenarioSyntax.Schema.Value

/-!
Which nodes a tree can hold, with the children that each of them has: by field, and without one.
-/

namespace ScenarioSyntax.Schema

/-- A place for children. -/
structure Slot where
  multiple : Bool
  required : Bool
  types : List Symbol
  deriving DecidableEq, Repr

/-- The children of a construct. Those with a field come in the order of the fields' names. -/
structure Shape where
  fields : List (Field × Slot)
  others : Option Slot
  deriving DecidableEq, Repr

namespace Slot

/-- Exactly one child, of one type. -/
def one (s : Symbol) : Slot := ⟨false, true, [s]⟩

def token (t : Terminal) : Slot := one (.terminal t)

def construct (n : Nonterminal) : Slot := one (.nonterminal n)

/-- At most one child. -/
def orNone (n : Nonterminal) : Slot := ⟨false, false, [.nonterminal n]⟩

/-- Any number of children. -/
def many (n : Nonterminal) : Slot := ⟨true, false, [.nonterminal n]⟩

/-- At least one child. -/
def several (ns : List Nonterminal) : Slot := ⟨true, true, ns.map .nonterminal⟩

end Slot

namespace Shape

def bare : Shape := ⟨[], none⟩

def only (s : Slot) : Shape := ⟨[], some s⟩

end Shape

open Shape Slot in
def shape : Nonterminal → Shape
  | .sourceFile => only (several [.scenarioAttributes, .scenarioDeclaration, .useDeclaration])
  | .useDeclaration => ⟨[(.path, token .string)], none⟩
  | .scenarioAttributes => only (construct .annotationList)
  | .scenarioDeclaration =>
    ⟨[(.name, token .identifier), (.params, orNone .annotationList)],
      some (several [.expectBlock, .injectionBlock, .trafficBlock])⟩
  | .annotationList => only (several [.annotationItem])
  | .annotationItem => ⟨[(.key, token .identifier), (.value, construct .value)], none⟩
  | .trafficBlock => only (many .streamStatement)
  | .streamStatement =>
    ⟨[(.rate, construct .rateExpression), (.stream, token .identifier)], none⟩
  | .rateExpression => only ⟨false, true, [.nonterminal .burstExpression, .terminal .rateConstant,
      .nonterminal .timelineExpression, .nonterminal .waveExpression]⟩
  | .waveExpression =>
    ⟨[(.amp, token .rateConstant), (.base, token .rateConstant), (.period, token .duration),
      (.shape, orNone .waveShape)], none⟩
  | .waveShape => bare
  | .burstExpression =>
    ⟨[(.base, token .rateConstant), (.every, token .duration), (.hold, token .duration),
      (.peak, token .rateConstant)], none⟩
  | .timelineExpression => only (many .timelineSegment)
  | .timelineSegment =>
    ⟨[(.finish, token .duration), (.rate, token .rateConstant), (.start, token .duration)], none⟩
  | .injectionBlock => only (many .injectionCase)
  | .injectionCase =>
    ⟨[(.mode, construct .modeKeyword), (.percent, token .percent), (.stream, token .identifier)],
      some (construct .sequenceBlock)⟩
  | .modeKeyword => bare
  | .sequenceBlock => ⟨[(.entity, token .identifier)], some (several [.useStatement])⟩
  | .useStatement =>
    ⟨[(.count, token .number), (.predicates, construct .predicateList),
      (.window, token .duration)], none⟩
  | .predicateList => only (several [.predicate])
  | .predicate => ⟨[(.key, token .identifier), (.value, construct .literal)], none⟩
  | .expectBlock => only (many .expectStatement)
  | .expectStatement =>
    ⟨[(.metric, construct .expectFunction), (.operator, token .comparisonOperator),
      (.rule, token .identifier), (.threshold, token .percent)], none⟩
  | .expectFunction => bare
  | .value => only ⟨false, true, [.terminal .duration, .nonterminal .literal]⟩
  | .literal => only ⟨false, true, [.nonterminal .boolean, .terminal .number, .terminal .string]⟩
  | .boolean => bare
  | _ => bare

/-- The symbols of the nodes that trees can hold, in the order of their names. -/
def nodeTypes : List Symbol :=
  (Symbol.all.filter (·.isVisible)).mergeSort fun a b => decide (a.name ≤ b.name)

/-! ### The schema as text -/

def typeEntries (s : Symbol) : List (String × Value) :=
  [("type", .text s.name), ("named", .flag s.isNamed)]

def Slot.value (s : Slot) : Value :=
  .record [("multiple", .flag s.multiple), ("required", .flag s.required),
    ("types", .list (s.types.map fun t => .record (typeEntries t)))]

def Shape.entries (s : Shape) : List (String × Value) :=
  ("fields", .record (s.fields.map fun (f, c) => (f.spelling, c.value))) ::
    (match s.others with
    | some c => [("children", c.value)]
    | none => [])

def entry : Symbol → Value
  | .terminal t => .record (typeEntries (.terminal t))
  | .nonterminal n => .record (typeEntries (.nonterminal n) ++ (shape n).entries)

def text : String := (Value.list (nodeTypes.map entry)).render 0 ++ "\n"

end ScenarioSyntax.Schema
