/-!
Edits of a text as bytes.
-/

namespace ScenarioSyntax

/-- Puts `text` in the place of the bytes from `start` to `stop`. -/
structure Edit where
  start : Nat
  stop : Nat
  text : List UInt8
  deriving DecidableEq, Repr

namespace Edit

def fits (e : Edit) (bytes : List UInt8) : Bool := e.start ≤ e.stop && e.stop ≤ bytes.length

def result? (e : Edit) (bytes : List UInt8) : Option (List UInt8) :=
  if e.fits bytes then some (bytes.take e.start ++ e.text ++ bytes.drop e.stop) else none

/-- The texts after each of a series of edits. An edit that does not fit is left out. -/
def results (bytes : List UInt8) : List Edit → List (Option (List UInt8))
  | [] => []
  | e :: es =>
    match e.result? bytes with
    | some b => some b :: results b es
    | none => none :: results bytes es

end Edit

end ScenarioSyntax
