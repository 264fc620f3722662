import ScenarioSyntax.Tree.Node

/-!
Highlighting rules: which nodes are shown in which style, and the rules as text.
-/

namespace ScenarioSyntax.Highlight

inductive Style where
  | comment | keyword | builtinFunction | builtinProperty | builtinConstant | type | variableName
  | function | attribute | property | specialString | string | number | boolean | operator
  | bracket | specialPunctuation | delimiter
  deriving DecidableEq, Repr

def Style.name : Style → String
  | .comment => "comment"
  | .keyword => "keyword"
  | .builtinFunction => "function.builtin"
  | .builtinProperty => "property.builtin"
  | .builtinConstant => "constant.builtin"
  | .type => "type"
  | .variableName => "variable"
  | .function => "function"
  | .attribute => "attribute"
  | .property => "property"
  | .specialString => "string.special"
  | .string => "string"
  | .number => "number"
  | .boolean => "boolean"
  | .operator => "operator"
  | .bracket => "punctuation.bracket"
  | .specialPunctuation => "punctuation.special"
  | .delimiter => "punctuation.delimiter"

/-- What a rule applies to. -/
inductive Selector where
  /-- Every node of a kind. -/
  | kind (s : Symbol)
  /-- A word or sign with a fixed spelling. -/
  | sign (t : Terminal)
  | oneOf (ts : List Terminal)
  /-- A terminal that plays a part in a construct. -/
  | part (parent : Nonterminal) (field : Field) (kind : Terminal)
  deriving DecidableEq, Repr

structure Rule where
  selector : Selector
  style : Style
  deriving DecidableEq, Repr

/-- The rules in groups. -/
def groups : List (List Rule) := [
  [⟨.kind (.terminal .comment), .comment⟩],
  [⟨.oneOf [.kwUse, .kwScenario, .kwTraffic, .kwStream, .kwGen, .kwInjection, .kwSeq, .kwWith,
    .kwExpect], .keyword⟩],
  [⟨.oneOf [.kwWave, .kwBurst, .kwTimeline], .builtinFunction⟩],
  [⟨.oneOf [.kwBase, .kwAmp, .kwPeriod, .kwShape, .kwPeak, .kwEvery, .kwHold],
    .builtinProperty⟩],
  [⟨.kind (.nonterminal .waveShape), .builtinConstant⟩,
   ⟨.kind (.nonterminal .modeKeyword), .keyword⟩,
   ⟨.kind (.nonterminal .expectFunction), .builtinFunction⟩],
  [⟨.part .scenarioDeclaration .name .identifier, .type⟩],
  [⟨.part .streamStatement .stream .identifier, .variableName⟩],
  [⟨.part .injectionCase .stream .identifier, .variableName⟩],
  [⟨.part .sequenceBlock .entity .identifier, .variableName⟩],
  [⟨.part .expectStatement .rule .identifier, .function⟩],
  [⟨.part .annotationItem .key .identifier, .attribute⟩],
  [⟨.part .predicate .key .identifier, .property⟩],
  [⟨.part .useDeclaration .path .string, .specialString⟩],
  [⟨.kind (.terminal .string), .string⟩,
   ⟨.kind (.terminal .number), .number⟩,
   ⟨.kind (.nonterminal .boolean), .boolean⟩,
   ⟨.kind (.terminal .duration), .number⟩,
   ⟨.kind (.terminal .percent), .number⟩,
   ⟨.kind (.terminal .rateConstant), .number⟩],
  [⟨.kind (.terminal .comparisonOperator), .operator⟩],
  [⟨.oneOf [.equals, .dots], .operator⟩],
  [⟨.oneOf [.leftParen, .rightParen, .leftBrace, .rightBrace, .rightBracket, .less, .greater],
    .bracket⟩],
  [⟨.sign .hashBracket, .specialPunctuation⟩],
  [⟨.sign .comma, .delimiter⟩]]

def rules : List Rule := groups.flatten

def Selector.applies (parent : Option Kind) (n : NodeData) : Selector → Bool
  | .kind s => n.kind = .symbol s
  | .sign t => n.kind = .symbol (.terminal t)
  | .oneOf ts => ts.any fun t => n.kind = .symbol (.terminal t)
  | .part p f k =>
    n.kind = .symbol (.terminal k) && n.field = some f && parent = some (.symbol (.nonterminal p))

/-! ### The rules as text -/

def quoted (s : String) : String := "\"" ++ s ++ "\""

def Selector.text (style : String) : Selector → String
  | .kind s => "(" ++ s.name ++ ") @" ++ style
  | .sign t => quoted t.name ++ " @" ++ style
  | .oneOf ts =>
    "[\n" ++ String.join (ts.map fun t => "  " ++ quoted t.name ++ "\n") ++ "] @" ++ style
  | .part p f k =>
    "(" ++ p.name ++ "\n  " ++ f.spelling ++ ": (" ++ k.name ++ ") @" ++ style ++ ")"

def Rule.text (r : Rule) : String := r.selector.text r.style.name

/-- Groups are set apart by an empty line. -/
def text : String :=
  "\n\n".intercalate (groups.map fun g => "\n".intercalate (g.map Rule.text)) ++ "\n"

end ScenarioSyntax.Highlight
