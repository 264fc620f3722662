/-!
The terminals of scenario files: words, literals, punctuation, comments and the end of the text.
They are listed in the order that settles ties between tokens of equal length.
-/

namespace ScenarioSyntax

inductive Terminal where
  | endOfText | identifier | kwUse | string | hashBracket | rightBracket | kwScenario | less
  | greater | leftBrace | rightBrace | comma | equals | kwTraffic | kwStream | kwGen
  | rateConstant | kwWave | leftParen | kwBase | kwAmp | kwPeriod | duration | kwShape
  | rightParen | kwSine | kwTriangle | kwSquare | kwBurst | kwPeak | kwEvery | kwHold
  | kwTimeline | dots | kwInjection | percent | kwHit | kwNearMiss | kwMiss | kwSeq | kwWith
  | number | kwExpect | comparisonOperator | kwTrue | kwFalse | comment
  deriving DecidableEq, Repr

namespace Terminal

def all : List Terminal :=
  [.endOfText, .identifier, .kwUse, .string, .hashBracket, .rightBracket, .kwScenario, .less,
   .greater, .leftBrace, .rightBrace, .comma, .equals, .kwTraffic, .kwStream, .kwGen,
   .rateConstant, .kwWave, .leftParen, .kwBase, .kwAmp, .kwPeriod, .duration, .kwShape,
   .rightParen, .kwSine, .kwTriangle, .kwSquare, .kwBurst, .kwPeak, .kwEvery, .kwHold,
   .kwTimeline, .dots, .kwInjection, .percent, .kwHit, .kwNearMiss, .kwMiss, .kwSeq, .kwWith,
   .number, .kwExpect, .comparisonOperator, .kwTrue, .kwFalse, .comment]

/-- The place of a terminal in `all`. -/
def index (t : Terminal) : Nat := t.ctorIdx

/-- A word is known by its spelling, punctuation by its signs, and every other terminal by a name
of its own. -/
def name : Terminal → String
  | .endOfText => "end"
  | .identifier => "identifier"
  | .kwUse => "use"
  | .string => "string"
  | .hashBracket => "#["
  | .rightBracket => "]"
  | .kwScenario => "scenario"
  | .less => "<"
  | .greater => ">"
  | .leftBrace => "\x7b"
  | .rightBrace => "\x7d"
  | .comma => ","
  | .equals => "="
  | .kwTraffic => "traffic"
  | .kwStream => "stream"
  | .kwGen => "gen"
  | .rateConstant => "rate_constant"
  | .kwWave => "wave"
  | .leftParen => "("
  | .kwBase => "base"
  | .kwAmp => "amp"
  | .kwPeriod => "period"
  | .duration => "duration"
  | .kwShape => "shape"
  | .rightParen => ")"
  | .kwSine => "sine"
  | .kwTriangle => "triangle"
  | .kwSquare => "square"
  | .kwBurst => "burst"
  | .kwPeak => "peak"
  | .kwEvery => "every"
  | .kwHold => "hold"
  | .kwTimeline => "timeline"
  | .dots => ".."
  | .kwInjection => "injection"
  | .percent => "percent"
  | .kwHit => "hit"
  | .kwNearMiss => "near_miss"
  | .kwMiss => "miss"
  | .kwSeq => "seq"
  | .kwWith => "with"
  | .number => "number"
  | .kwExpect => "expect"
  | .comparisonOperator => "comparison_operator"
  | .kwTrue => "true"
  | .kwFalse => "false"
  | .comment => "comment"

/-- The words with a meaning of their own; each of them is also an identifier. -/
def keywords : List Terminal :=
  [.kwUse, .kwScenario, .kwTraffic, .kwStream, .kwGen, .kwWave, .kwBase, .kwAmp, .kwPeriod,
   .kwShape, .kwSine, .kwTriangle, .kwSquare, .kwBurst, .kwPeak, .kwEvery, .kwHold,
   .kwTimeline, .kwInjection, .kwHit, .kwNearMiss, .kwMiss, .kwSeq, .kwWith, .kwExpect,
   .kwTrue, .kwFalse]

def isKeyword (t : Terminal) : Bool := keywords.contains t

/-- Terminals with a name of their own, rather than a fixed spelling. -/
def isNamed : Terminal → Bool
  | .identifier | .string | .rateConstant | .duration | .percent | .number |
    .comparisonOperator | .comment => true
  | _ => false

/-- The end of the text leaves no node of its own. -/
def isVisible (t : Terminal) : Bool := t != .endOfText

end Terminal

end ScenarioSyntax
