/-!
A source text as a sequence of code points, with the place in bytes, rows and columns of every
boundary between them.
-/

namespace ScenarioSyntax

inductive Encoding where
  | utf8 | utf16
  deriving DecidableEq, Repr

/-- The number of bytes of a code point. One that is negative stands for a single byte that could
not be read. -/
def Encoding.width : Encoding → Int → Nat
  | .utf8, c => if c < 0x80 then 1 else if c < 0x800 then 2 else if c < 0x10000 then 3 else 4
  | .utf16, c => if c < 0x10000 then 2 else 4

def newline : Int := 10

/-- The column counts bytes since the last newline. -/
structure Place where
  byte : Nat
  row : Nat
  column : Nat
  deriving DecidableEq, Repr, Inhabited

namespace Place

def origin : Place := ⟨0, 0, 0⟩

/-- The place behind a code point. -/
def after (e : Encoding) (p : Place) (c : Int) : Place :=
  if c = newline then ⟨p.byte + e.width c, p.row + 1, 0⟩
  else ⟨p.byte + e.width c, p.row, p.column + e.width c⟩

/-- The places before, between and behind the code points of a text that starts at `p`. -/
def along (e : Encoding) (p : Place) : List Int → List Place
  | [] => [p]
  | c :: rest => p :: along e (p.after e c) rest

/-- Row and column in the order in which texts are read. -/
def precedes (p q : Nat × Nat) : Bool := p.1 < q.1 || (p.1 = q.1 && p.2 < q.2)

def point (p : Place) : Nat × Nat := (p.row, p.column)

end Place

structure Source where
  encoding : Encoding
  points : List Int
  places : Array Place
  places_eq : places = (Place.along encoding Place.origin points).toArray

namespace Source

def ofPoints (e : Encoding) (points : List Int) : Source := ⟨e, points, _, rfl⟩

/-- The text of a string, read without error. -/
def ofString (e : Encoding) (s : String) : Source :=
  ofPoints e (s.toList.map fun c => (c.toNat : Int))

def length (s : Source) : Nat := s.points.length

/-- The place of the boundary before the `i`-th code point. -/
def place (s : Source) (i : Nat) : Place := s.places.getD i default

def byte (s : Source) (i : Nat) : Nat := (s.place i).byte

def row (s : Source) (i : Nat) : Nat := (s.place i).row

/-- The number of bytes between two boundaries. -/
def bytes (s : Source) (start stop : Nat) : Nat := s.byte stop - s.byte start

/-- The number of rows begun between two boundaries. -/
def rows (s : Source) (start stop : Nat) : Nat := s.row stop - s.row start

end Source

end ScenarioSyntax
