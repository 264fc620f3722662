import ScenarioSyntax.Proofs.Lexer.Reading
import ScenarioSyntax.Proofs.Text.Printing

/-!
Where the printed tokens of a file end: each one stops at the gap or at the token behind it, though
the gap may be empty.
-/

namespace ScenarioSyntax

namespace Table

open Terminal

/-- What the states behind a number and behind a comparison look for. -/
def followers (r : Row) : Bool :=
  r.actions.all fun (t, a) =>
    match t, a with
    | .number, .shift q => (row q).actions.all fun (u, _) =>
        u = .rightBracket || u = .greater || u = .comma || u = .rightParen
    | .comparisonOperator, .shift q => (row q).actions.all fun (u, _) => u = .percent
    | _, _ => true

lemma followers_rows : (rows.toList.zipIdx.all fun (r, _) => followers r) = true := by
  decide +kernel

/-- The terminal may stand behind another one, as far as the text needs it. -/
def Follows (k u : Terminal) : Prop :=
  (k = .number → u ∈ [.rightBracket, .greater, .comma, .rightParen]) ∧
    (k = .comparisonOperator → u = .percent)

lemma follows_of_wants {s r : StateId} {k u : Terminal} (h : action? s k = some (.shift r))
    (hu : wants r u = true) (hc : u ≠ .comment) : Follows k u := by
  have hk := action?_eq h (by simp)
  obtain ⟨a, ha⟩ := mem_row_of_wants hu hc
  rcases row_cases (P := fun _ => followers) followers_rows s with hs | hs
  · have := List.all_eq_true.1 hs _ hk
    constructor
    · rintro rfl
      simpa [or_assoc] using List.all_eq_true.1 this _ ha
    · rintro rfl
      simpa using List.all_eq_true.1 this _ ha
  · simp [hs] at hk

end Table

namespace Terminal

lemma timeUnit_isLetter {c : Int} (h : CharClass.timeUnit.holds c = true) :
    CharClass.isLetter c = true := by
  rcases timeUnit_cases h with rfl | rfl | rfl | rfl <;> decide

/-- No token goes on with a character that a gap begins with. -/
lemma foreign_of_gap {c : Int} (h : isBlank c = true ∨ c = 47) :
    CharClass.wordChar.holds c = false ∧ Pattern.isDecimal c = false ∧ c ≠ 37 ∧
      CharClass.timeUnit.holds c = false ∧ c ≠ 61 := by
  simp only [isBlank, Bool.or_eq_true, Bool.and_eq_true, decide_eq_true_eq] at h
  have hunit : CharClass.timeUnit.holds c = false := by
    by_contra hu
    have := timeUnit_cases (by simpa using hu)
    omega
  refine ⟨?_, ?_, by omega, hunit, by omega⟩
  · simp only [CharClass.holds, CharClass.isLetter, CharClass.isDigit, Bool.or_eq_false_iff,
      Bool.and_eq_false_iff, decide_eq_false_iff_not]
    omega
  · simp only [Pattern.isDecimal, CharClass.isDigit, Bool.or_eq_false_iff,
      Bool.and_eq_false_iff, decide_eq_false_iff_not]
    omega

/-- Every token but a comment stops at a blank and at a comment. -/
lemma stops_of_gap {k : Terminal} (hk : k ≠ .comment) {r : List Int}
    (h : ∀ c ∈ r.head?, isBlank c = true ∨ r.take 2 = [47, 47]) : k.Stops r := by
  intro c hc
  obtain ⟨r, rfl⟩ := List.head?_eq_some_iff.1 hc
  have hfront := h c rfl
  obtain ⟨hword, hdecimal, hpercent, hunit, hequals⟩ := foreign_of_gap
    (hfront.imp_right fun h2 => (List.cons.inj h2).1)
  cases k
  case identifier => exact hword
  case number =>
    refine ⟨hdecimal, hpercent, hunit, fun h2 => ?_⟩
    rcases hfront with hb | h2'
    · obtain ⟨rfl, -⟩ := List.cons.inj h2
      cases hb
    · rw [h2'] at h2
      cases h2
  case comparisonOperator => exact hequals
  case comment => exact absurd rfl hk
  all_goals exact trivial

/-- What stops at a text stops at every other one that begins with the same two characters, or like
it up to a blank. -/
lemma Stops.of_head {k : Terminal} {r r' : List Int} (h : k.Stops r) (hk : k ≠ .comment)
    (hr : ∀ c ∈ r'.head?, isBlank c = true ∨
      r.head? = some c ∧ ∀ d ∈ r'.tail.head?, isBlank d = true ∨ r.tail.head? = some d) :
    k.Stops r' := by
  intro c hc
  rcases hr c hc with hblank | ⟨hhead, htail⟩
  · refine stops_of_gap hk (fun d hd => .inl ?_) c hc
    obtain rfl : c = d := Option.some.inj (hc.symm.trans hd)
    exact hblank
  · have hstop := h c hhead
    cases k
    case number =>
      refine ⟨hstop.1, hstop.2.1, hstop.2.2.1, fun htake => hstop.2.2.2 ?_⟩
      obtain ⟨s, rfl⟩ := List.head?_eq_some_iff.1 hhead
      obtain ⟨s', rfl⟩ := List.head?_eq_some_iff.1 hc
      rcases s' with _ | ⟨d, s'⟩
      · simp at htake
      obtain ⟨rfl, rfl⟩ : c = 47 ∧ d = 115 := by simpa using htake
      rcases htail 115 rfl with hblank | hd
      · cases hblank
      · obtain ⟨s, rfl⟩ := List.head?_eq_some_iff.1 hd
        rfl
    all_goals exact hstop

/-- A number stops at the brackets, commas and parentheses behind it. -/
lemma number_stops {u : Terminal} (hu : u ∈ [rightBracket, greater, comma, rightParen])
    {l : List Int} (hl : u.Lexeme l) (r : List Int) : number.Stops (l ++ r) := by
  obtain ⟨c, v, rfl, -⟩ := hl.exists_cons
  have hmem : leadOf c ∈ [93, 60, 44, 41] := by
    have key : ∀ u ∈ [rightBracket, greater, comma, rightParen],
        u.scanned.lead ∈ ([93, 60, 44, 41] : List Int) := by decide
    rw [hl.matches.shape.lead]
    exact key u hu
  have hdigit : CharClass.isDigit c = false := by
    by_contra h
    rw [leadOf_digit (by simpa using h)] at hmem
    revert hmem
    decide
  have hletter : CharClass.isLetter c = false := by
    by_contra h
    rw [leadOf_letter (by simpa using h)] at hmem
    revert hmem
    decide
  have hne : ∀ x ∈ ([46, 37, 47] : List Int), c ≠ x := by
    rintro x hx rfl
    revert hmem
    simp only [List.mem_cons, List.not_mem_nil, or_false] at hx
    rcases hx with rfl | rfl | rfl <;> decide
  intro d hd
  obtain rfl : c = d := by simpa using hd
  refine ⟨by simp [Pattern.isDecimal, hdigit, hne 46], hne 37 (by simp), ?_, fun h => ?_⟩
  · by_contra h
    rw [timeUnit_isLetter (by simpa using h)] at hletter
    cases hletter
  · exact hne 47 (by simp) (List.cons.inj h).1

/-- A comparison stops at the digits of a percentage. -/
lemma comparison_stops {l : List Int} (hl : percent.Lexeme l) (r : List Int) :
    comparisonOperator.Stops (l ++ r) := by
  obtain ⟨c, v, rfl, -⟩ := hl.exists_cons
  have hlead := hl.matches.shape.lead
  intro d hd
  obtain rfl : c = d := by simpa using hd
  rintro rfl
  revert hlead
  decide

end Terminal

lemma Gap.front {g : List Int} (h : Gap g) (hne : g ≠ []) (r : List Int) :
    ∀ c ∈ (g ++ r).head?, isBlank c = true ∨ (g ++ r).take 2 = [47, 47] := by
  cases h with
  | nil => exact absurd rfl hne
  | blank hc _ =>
    intro d hd
    obtain rfl : _ = d := by simpa using hd
    exact .inl hc
  | comment _ _ => exact fun _ _ => .inr rfl

/-- **A printed token stops** where the text goes on. -/
theorem Printed.stops {k : Terminal} {ts : List (Terminal × List Int)} {r : List Int}
    (h : Printed k.isWord ts r) (hk : k ≠ .comment)
    (hf : ∀ x ∈ ts.head?, Table.Follows k x.1) : k.scanned.Stops r := by
  have hscanned : k.scanned ≠ .comment := by
    unfold Terminal.scanned
    split
    · decide
    · exact hk
  generalize hw : k.isWord = w at h
  cases h with
  | last hl =>
    refine Terminal.stops_of_gap hscanned ?_
    cases hl with
    | gap hg =>
      by_cases hne : r = []
      · simp [hne]
      · simpa using hg.front hne []
    | @comment g v hg _ =>
      by_cases hne : g = []
      · subst hne
        exact fun _ _ => .inr rfl
      · exact hg.front hne _
  | @token _ u l g text ts gap lexeme apart _ =>
    by_cases hne : g = []
    · subst hne
      obtain ⟨c, v, rfl, -⟩ := lexeme.exists_cons
      by_cases hword : k.scanned = .identifier
      · rw [hword]
        intro d hd
        exact apart (by rw [← hw, Terminal.isWord, hword]; rfl) rfl d (by simpa using hd)
      · have hk' := Terminal.scanned_eq_self hword
        have hfollows := hf (u, c :: v) rfl
        rw [hk'] at hword hscanned ⊢
        cases k
        case identifier => exact absurd rfl hword
        case number => exact Terminal.number_stops (hfollows.1 rfl) lexeme text
        case comparisonOperator =>
          obtain rfl := hfollows.2 rfl
          exact Terminal.comparison_stops lexeme text
        case comment => exact absurd rfl hscanned
        all_goals exact fun _ _ => trivial
    · exact Terminal.stops_of_gap hscanned (gap.front hne _)

end ScenarioSyntax
