/-!
The nonterminals of scenario files. The last eight stand for the tails of lists; they leave no
node of their own, and their children take their place.
-/

namespace ScenarioSyntax

inductive Nonterminal where
  | sourceFile | useDeclaration | scenarioAttributes | scenarioDeclaration | annotationList
  | annotationItem | trafficBlock | streamStatement | rateExpression | waveExpression
  | waveShape | burstExpression | timelineExpression | timelineSegment | injectionBlock
  | injectionCase | modeKeyword | sequenceBlock | useStatement | predicateList | predicate
  | expectBlock | expectStatement | expectFunction | value | literal | boolean
  | useDeclarations | annotationTail | streamStatements | timelineSegments | injectionCases
  | useStatements | predicateTail | expectStatements
  deriving DecidableEq, Repr

namespace Nonterminal

def all : List Nonterminal :=
  [.sourceFile, .useDeclaration, .scenarioAttributes, .scenarioDeclaration, .annotationList,
   .annotationItem, .trafficBlock, .streamStatement, .rateExpression, .waveExpression,
   .waveShape, .burstExpression, .timelineExpression, .timelineSegment, .injectionBlock,
   .injectionCase, .modeKeyword, .sequenceBlock, .useStatement, .predicateList, .predicate,
   .expectBlock, .expectStatement, .expectFunction, .value, .literal, .boolean,
   .useDeclarations, .annotationTail, .streamStatements, .timelineSegments, .injectionCases,
   .useStatements, .predicateTail, .expectStatements]

/-- Nonterminals are numbered after the 47 terminals. -/
def index (n : Nonterminal) : Nat := 47 + n.ctorIdx

def name : Nonterminal → String
  | .sourceFile => "source_file"
  | .useDeclaration => "use_declaration"
  | .scenarioAttributes => "scenario_attributes"
  | .scenarioDeclaration => "scenario_declaration"
  | .annotationList => "annotation_list"
  | .annotationItem => "annotation_item"
  | .trafficBlock => "traffic_block"
  | .streamStatement => "stream_statement"
  | .rateExpression => "rate_expression"
  | .waveExpression => "wave_expression"
  | .waveShape => "wave_shape"
  | .burstExpression => "burst_expression"
  | .timelineExpression => "timeline_expression"
  | .timelineSegment => "timeline_segment"
  | .injectionBlock => "injection_block"
  | .injectionCase => "injection_case"
  | .modeKeyword => "mode_keyword"
  | .sequenceBlock => "sequence_block"
  | .useStatement => "use_statement"
  | .predicateList => "predicate_list"
  | .predicate => "predicate"
  | .expectBlock => "expect_block"
  | .expectStatement => "expect_statement"
  | .expectFunction => "expect_function"
  | .value => "value"
  | .literal => "literal"
  | .boolean => "boolean"
  | .useDeclarations => "source_file_repeat1"
  | .annotationTail => "annotation_list_repeat1"
  | .streamStatements => "traffic_block_repeat1"
  | .timelineSegments => "timeline_expression_repeat1"
  | .injectionCases => "injection_block_repeat1"
  | .useStatements => "sequence_block_repeat1"
  | .predicateTail => "predicate_list_repeat1"
  | .expectStatements => "expect_block_repeat1"

/-- A list tail is hidden: the tree shows its children in its place. -/
def isVisible : Nonterminal → Bool
  | .useDeclarations | .annotationTail | .streamStatements | .timelineSegments |
    .injectionCases | .useStatements | .predicateTail | .expectStatements => false
  | _ => true

end Nonterminal

end ScenarioSyntax
