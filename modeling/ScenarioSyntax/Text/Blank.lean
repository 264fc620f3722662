/-!
White space: the characters that separate tokens without belonging to any.
-/

namespace ScenarioSyntax

/-- The characters with the Unicode property White_Space. -/
def isBlank (c : Int) : Bool :=
  (9 ≤ c && c ≤ 13) || c = 32 || c = 0x85 || c = 0xa0 || c = 0x1680 ||
  (0x2000 ≤ c && c ≤ 0x200a) || (0x2028 ≤ c && c ≤ 0x2029) || c = 0x202f || c = 0x205f ||
  c = 0x3000

end ScenarioSyntax
