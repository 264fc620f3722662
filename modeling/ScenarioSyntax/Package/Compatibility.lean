import ScenarioSyntax.Table.Lookup

/-!
Which language descriptions can be loaded: the version of their format has to be supported, and
they have to define at least one kind of node beside the end of the text.
-/

namespace ScenarioSyntax

/-- What is checked of a language before it is used. -/
structure LanguageHeader where
  version : Nat
  kinds : Nat
  deriving DecidableEq, Repr

inductive LoadError where
  | unsupportedVersion (version : Nat)
  | empty
  /-- Refused by the parser itself. -/
  | rejected (version : Nat)
  deriving DecidableEq, Repr

namespace LanguageHeader

def minVersion : Nat := 13

def maxVersion : Nat := 14

/-- The header of this language. -/
def ours : LanguageHeader := ⟨14, Symbol.all.length⟩

def stateCount : Nat := Table.rows.size

def fieldCount : Nat := Field.all.length

def isSupported (version : Nat) : Bool := minVersion ≤ version && version ≤ maxVersion

def checkVersion (version : Nat) : Except LoadError Unit :=
  if isSupported version then .ok () else .error (.unsupportedVersion version)

def checkKinds (kinds : Nat) : Except LoadError Unit :=
  if 1 < kinds then .ok () else .error .empty

/-- The version is looked at first. -/
def validate (h : LanguageHeader) : Except LoadError Unit := do
  checkVersion h.version
  checkKinds h.kinds

def load (h : LanguageHeader) : Except LoadError LanguageHeader := do
  h.validate
  return h

/-- Gives a language to the parser. -/
def assign (version : Nat) : Except LoadError Unit :=
  if isSupported version then .ok () else .error (.rejected version)

/-- A parser that is ready for a language. -/
def newParser (h : LanguageHeader) : Except LoadError LanguageHeader := do
  let h ← h.load
  assign h.version
  return h

end LanguageHeader

namespace LoadError

open LanguageHeader in
def message : LoadError → String
  | unsupportedVersion v =>
    "language ABI version " ++ toString v ++ " is outside the supported range " ++
      toString minVersion ++ "..=" ++ toString maxVersion
  | empty => "language defines no node kinds"
  | rejected v =>
    "parser rejected language: Incompatible language version " ++ toString v ++
      ". Expected minimum " ++ toString minVersion ++ ", maximum " ++ toString maxVersion

end LoadError

/-! ### The log -/

inductive LogLevel where
  | debug | warn
  deriving DecidableEq, Repr

def LogLevel.name : LogLevel → String
  | .debug => "DEBUG"
  | .warn => "WARN"

inductive LogValue where
  | number (n : Nat)
  | text (s : String)
  deriving DecidableEq, Repr

inductive LoadEvent where
  | loaded (h : LanguageHeader)
  | refused (e : LoadError)
  deriving DecidableEq, Repr

namespace LoadEvent

def level : LoadEvent → LogLevel
  | loaded _ => .debug
  | refused _ => .warn

def message : LoadEvent → String
  | loaded _ => "loaded grammar"
  | refused _ => "rejecting grammar"

/-- What is recorded beside the message. -/
def fields : LoadEvent → List (String × LogValue)
  | loaded h => [("version", .number h.version), ("node_kinds", .number h.kinds),
      ("fields", .number LanguageHeader.fieldCount)]
  | refused e => [("err", .text e.message)]

end LoadEvent

/-- What loading leaves in the log. -/
def LanguageHeader.log (h : LanguageHeader) : LoadEvent :=
  match h.load with
  | .ok h => .loaded h
  | .error e => .refused e

end ScenarioSyntax
