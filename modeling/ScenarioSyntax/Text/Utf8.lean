/-!
Reading UTF-8. A character is one to four bytes, shortest form only, surrogates excluded. What is
not a character is read one byte at a time as `unreadable`.
-/

namespace ScenarioSyntax.Utf8

/-- The code point that stands for a byte outside every character. -/
def unreadable : Int := -1

def isTail (b : UInt8) : Bool := 0x80 ≤ b && b ≤ 0xbf

/-- The second bytes that may follow a lead byte of three or four bytes. -/
def secondFits (lead second : UInt8) : Bool :=
  if lead = 0xe0 then 0xa0 ≤ second && second ≤ 0xbf
  else if lead = 0xed then 0x80 ≤ second && second ≤ 0x9f
  else if lead = 0xf0 then 0x90 ≤ second && second ≤ 0xbf
  else if lead = 0xf4 then 0x80 ≤ second && second ≤ 0x8f
  else isTail second

def bits (b : UInt8) (width : Nat) : Nat := b.toNat % (1 <<< width)

/-- How much of a character the bytes begin with: its code point if it is whole, and the number of
bytes that belong to it. A byte that begins no character is a piece of one byte. -/
def piece : List UInt8 → Option Nat × Nat
  | [] => (none, 0)
  | a :: rest =>
    if a < 0x80 then (some a.toNat, 1)
    else if 0xc2 ≤ a && a ≤ 0xdf then
      match rest with
      | b :: _ => if isTail b then (some (bits a 5 * 64 + bits b 6), 2) else (none, 1)
      | [] => (none, 1)
    else if 0xe0 ≤ a && a ≤ 0xef then
      match rest with
      | b :: rest =>
        if secondFits a b then
          match rest with
          | c :: _ =>
            if isTail c then (some ((bits a 4 * 64 + bits b 6) * 64 + bits c 6), 3) else (none, 2)
          | [] => (none, 2)
        else (none, 1)
      | [] => (none, 1)
    else if 0xf0 ≤ a && a ≤ 0xf4 then
      match rest with
      | b :: rest =>
        if secondFits a b then
          match rest with
          | c :: rest =>
            if isTail c then
              match rest with
              | d :: _ =>
                if isTail d then
                  (some (((bits a 3 * 64 + bits b 6) * 64 + bits c 6) * 64 + bits d 6), 4)
                else (none, 3)
              | [] => (none, 3)
            else (none, 2)
          | [] => (none, 2)
        else (none, 1)
      | [] => (none, 1)
    else (none, 1)

/-- Reads on after `skip` bytes that belong to the character before. -/
def decodeFrom : Nat → List UInt8 → List Int
  | _, [] => []
  | skip + 1, _ :: rest => decodeFrom skip rest
  | 0, a :: rest =>
    match piece (a :: rest) with
    | (some c, n) => c :: decodeFrom (n - 1) rest
    | (none, _) => unreadable :: decodeFrom 0 rest

/-- The code points of a text, with `unreadable` for each byte outside a character. -/
def decode (bytes : List UInt8) : List Int := decodeFrom 0 bytes

def showFrom : Nat → List UInt8 → List Char
  | _, [] => []
  | skip + 1, _ :: rest => showFrom skip rest
  | 0, a :: rest =>
    match piece (a :: rest) with
    | (some c, n) => Char.ofNat c :: showFrom (n - 1) rest
    | (none, n) => '\ufffd' :: showFrom (n - 1) rest

/-- The text for a reader: each longest beginning of a character that is cut short, and each byte
that begins none, is shown as U+FFFD. -/
def display (bytes : List UInt8) : String := String.ofList (showFrom 0 bytes)

/-- The bytes from `start` to `stop`, for a reader. -/
def excerpt (bytes : List UInt8) (start stop : Nat) : String :=
  display ((bytes.drop start).take (stop - start))

end ScenarioSyntax.Utf8
