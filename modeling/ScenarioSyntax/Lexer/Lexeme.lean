import ScenarioSyntax.Symbol.Terminal
import ScenarioSyntax.Lexer.Pattern

/-!
The patterns of the tokens. A keyword has none of its own: it is first read as an identifier.
-/

namespace ScenarioSyntax

namespace Pattern

def digits : Pattern := many1 (one .digit)

/-- Digits, and digits behind a point. -/
def decimal : Pattern := seq digits (optional (seq (one (.only '.')) digits))

def identifier : Pattern := seq (one .letter) (many (one .wordChar))

def rate : Pattern := seq decimal (literal '/' ['s'])

def percent : Pattern := seq decimal (one (.only '%'))

def duration : Pattern := seq digits (one .timeUnit)

/-- A quoted text; a backslash takes the character behind it along, unless that is a newline. -/
def string : Pattern :=
  seq (one (.only '"'))
    (seq (many (either (one .quoted) (seq (one (.only '\\')) (one .inLine)))) (one (.only '"')))

def comment : Pattern := seq (literal '/' ['/']) (many (one .inLine))

def comparison : Pattern :=
  either (literal '>' ['=']) (either (literal '<' ['=']) (either (literal '>' [])
    (either (literal '<' []) (literal '=' ['=']))))

end Pattern

def Terminal.pattern? : Terminal → Option Pattern
  | .identifier => some .identifier
  | .string => some .string
  | .rateConstant => some .rate
  | .duration => some .duration
  | .percent => some .percent
  | .number => some .decimal
  | .comparisonOperator => some .comparison
  | .comment => some .comment
  | .hashBracket => some (.literal '#' ['['])
  | .rightBracket => some (.literal ']' [])
  | .less => some (.literal '<' [])
  | .greater => some (.literal '>' [])
  | .leftBrace => some (.literal '{' [])
  | .rightBrace => some (.literal '}' [])
  | .comma => some (.literal ',' [])
  | .equals => some (.literal '=' [])
  | .leftParen => some (.literal '(' [])
  | .rightParen => some (.literal ')' [])
  | .dots => some (.literal '.' ['.'])
  | _ => none

end ScenarioSyntax
