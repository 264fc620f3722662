/-!
Token patterns. A pattern carries marks: a character class is marked when the last character read
can be the one it stands for. Reading a character moves the marks, and the text read so far
matches when a mark stands at an end of the pattern.
-/

namespace ScenarioSyntax

/-- Code point 0 belongs to no class. -/
inductive CharClass where
  | only (c : Char)
  | digit
  | letter
  | wordChar
  | timeUnit
  | quoted
  | inLine
  deriving DecidableEq, Repr

namespace CharClass

def isDigit (c : Int) : Bool := 48 ≤ c && c ≤ 57

/-- ASCII letters and the underscore. -/
def isLetter (c : Int) : Bool := (65 ≤ c && c ≤ 90) || c = 95 || (97 ≤ c && c ≤ 122)

def holds : CharClass → Int → Bool
  | only d, c => c = d.toNat
  | digit, c => isDigit c
  | letter, c => isLetter c
  | wordChar, c => isLetter c || isDigit c
  | timeUnit, c => c = 's'.toNat || c = 'm'.toNat || c = 'h'.toNat || c = 'd'.toNat
  | quoted, c => c ≠ 0 && c ≠ '"'.toNat && c ≠ '\\'.toNat
  | inLine, c => c ≠ 0 && c ≠ '\n'.toNat

end CharClass

inductive Pattern where
  | char (marked : Bool) (k : CharClass)
  | seq (p q : Pattern)
  | either (p q : Pattern)
  | optional (p : Pattern)
  | many (p : Pattern)
  | many1 (p : Pattern)
  deriving DecidableEq, Repr

namespace Pattern

/-- One character of the class, not yet read. -/
def one (k : CharClass) : Pattern := char false k

/-- A fixed spelling. -/
def literal (c : Char) : List Char → Pattern
  | [] => one (.only c)
  | d :: rest => seq (one (.only c)) (literal d rest)

def nullable : Pattern → Bool
  | char _ _ => false
  | seq p q => p.nullable && q.nullable
  | either p q => p.nullable || q.nullable
  | optional _ => true
  | many _ => true
  | many1 p => p.nullable

/-- A mark stands at an end: what was read matches as a whole. -/
def final : Pattern → Bool
  | char m _ => m
  | seq p q => (p.final && q.nullable) || q.final
  | either p q => p.final || q.final
  | optional p => p.final
  | many p => p.final
  | many1 p => p.final

/-- Some mark is left: what was read can still become a match, or is one. -/
def live : Pattern → Bool
  | char m _ => m
  | seq p q => p.live || q.live
  | either p q => p.live || q.live
  | optional p => p.live
  | many p => p.live
  | many1 p => p.live

/-- The marks after reading `c`; `enter` says that a match may begin at `c`. -/
def step (enter : Bool) (c : Int) : Pattern → Pattern
  | char _ k => char (enter && k.holds c) k
  | seq p q => seq (p.step enter c) (q.step (enter && p.nullable || p.final) c)
  | either p q => either (p.step enter c) (q.step enter c)
  | optional p => optional (p.step enter c)
  | many p => many (p.step (enter || p.final) c)
  | many1 p => many1 (p.step (enter || p.final) c)

end Pattern

end ScenarioSyntax
