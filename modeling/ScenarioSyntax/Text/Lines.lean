/-!
The lines of a text. A line ends with a line feed, and a carriage return in front of it belongs to
the line's end. What follows the last line feed is a line too, unless it is empty.
-/

namespace ScenarioSyntax

abbrev Line := List Char

namespace Line

/-- Reads on in a line that has begun; its characters so far come last first. -/
def splitFrom (line : Line) : List Char → List Line
  | [] => if line.isEmpty then [] else [line.reverse]
  | '\n' :: cs =>
    (match line with
    | '\r' :: rest => rest.reverse
    | _ => line.reverse) :: splitFrom [] cs
  | c :: cs => splitFrom (c :: line) cs

def ofChars (s : List Char) : List Line := splitFrom [] s

def byteLength (l : Line) : Nat := l.foldr (fun c n => c.utf8Size + n) 0

/-- Sets line feeds between lines. -/
def join (ls : List Line) : List Char := ['\n'].intercalate ls

end Line

end ScenarioSyntax
