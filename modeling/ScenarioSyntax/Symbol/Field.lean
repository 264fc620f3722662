/-!
Fields name the parts of a construct. A layout says which child of a production plays which
part; children are counted from zero, and comments are not counted.
-/

namespace ScenarioSyntax

inductive Field where
  | amp | base | count | finish | entity | every | hold | key | metric | mode | name | operator
  | params | path | peak | percent | period | predicates | rate | rule | shape | start | stream
  | threshold | value | window
  deriving DecidableEq, Repr

namespace Field

/-- In the order of their spellings. -/
def all : List Field :=
  [.amp, .base, .count, .finish, .entity, .every, .hold, .key, .metric, .mode, .name, .operator,
   .params, .path, .peak, .percent, .period, .predicates, .rate, .rule, .shape, .start, .stream,
   .threshold, .value, .window]

/-- Fields are numbered from one. -/
def index (f : Field) : Nat := f.ctorIdx + 1

def spelling : Field → String
  | .amp => "amp"
  | .base => "base"
  | .count => "count"
  | .finish => "end"
  | .entity => "entity"
  | .every => "every"
  | .hold => "hold"
  | .key => "key"
  | .metric => "metric"
  | .mode => "mode"
  | .name => "name"
  | .operator => "operator"
  | .params => "params"
  | .path => "path"
  | .peak => "peak"
  | .percent => "percent"
  | .period => "period"
  | .predicates => "predicates"
  | .rate => "rate"
  | .rule => "rule"
  | .shape => "shape"
  | .start => "start"
  | .stream => "stream"
  | .threshold => "threshold"
  | .value => "value"
  | .window => "window"

def ofSpelling? (s : String) : Option Field := all.find? (·.spelling == s)

def ofIndex? (n : Nat) : Option Field := all.find? (·.index == n)

end Field

/-- The ways in which a production labels its children. Productions of different length share a
layout when their labelled parts stand at the same places. -/
inductive Layout where
  | plain | useDeclaration | parametrisedScenario | scenario | assignment | streamStatement
  | shapedWave | wave | burst | timelineSegment | injectionCase | sequenceBlock | useStatement
  | expectStatement
  deriving DecidableEq, Repr

namespace Layout

def index (l : Layout) : Nat := l.ctorIdx

def parts : Layout → List (Nat × Field)
  | .plain => []
  | .useDeclaration => [(1, .path)]
  | .parametrisedScenario => [(1, .name), (3, .params)]
  | .scenario => [(1, .name)]
  | .assignment => [(0, .key), (2, .value)]
  | .streamStatement => [(1, .stream), (3, .rate)]
  | .shapedWave => [(4, .base), (8, .amp), (12, .period), (16, .shape)]
  | .wave => [(4, .base), (8, .amp), (12, .period)]
  | .burst => [(4, .base), (8, .peak), (12, .every), (16, .hold)]
  | .timelineSegment => [(0, .start), (2, .finish), (4, .rate)]
  | .injectionCase => [(0, .mode), (2, .percent), (4, .stream)]
  | .sequenceBlock => [(0, .entity)]
  | .useStatement => [(2, .predicates), (6, .count), (8, .window)]
  | .expectStatement => [(0, .metric), (2, .rule), (4, .operator), (5, .threshold)]

/-- The part that the `i`-th child plays. -/
def field? (l : Layout) (i : Nat) : Option Field := l.parts.lookup i

end Layout

end ScenarioSyntax
