import ScenarioSyntax.Proofs.Grammar.Rule

/-!
The grammar of scenario files.
-/

namespace ScenarioSyntax.Grammar

open Rule Terminal

/-- What a list repeats. Tails stand for lists of one or more elements. -/
def element : Nonterminal → Option Rule
  | .useDeclarations => some (construct .useDeclaration)
  | .annotationTail => some (seq (token comma) (construct .annotationItem))
  | .streamStatements => some (construct .streamStatement)
  | .timelineSegments => some (construct .timelineSegment)
  | .injectionCases => some (construct .injectionCase)
  | .useStatements => some (construct .useStatement)
  | .predicateTail => some (seq (token comma) (construct .predicate))
  | .expectStatements => some (construct .expectStatement)
  | _ => none

def rule : Nonterminal → Rule
  | .sourceFile => all [many .useDeclarations (construct .useDeclaration),
      optional (construct .scenarioAttributes), construct .scenarioDeclaration]
  | .useDeclaration => all [token kwUse, tokenAs .path string]
  | .scenarioAttributes => all [token hashBracket, construct .annotationList, token rightBracket]
  | .scenarioDeclaration => all [token kwScenario, tokenAs .name identifier,
      optional (all [token less, constructAs .params .annotationList, token greater]),
      token leftBrace, construct .trafficBlock, optional (construct .injectionBlock),
      optional (construct .expectBlock), token rightBrace]
  | .annotationList => all [construct .annotationItem,
      many .annotationTail (seq (token comma) (construct .annotationItem))]
  | .annotationItem => all [tokenAs .key identifier, token equals, constructAs .value .value]
  | .trafficBlock => all [token kwTraffic, token leftBrace,
      many .streamStatements (construct .streamStatement), token rightBrace]
  | .streamStatement => all [token kwStream, tokenAs .stream identifier, token kwGen,
      constructAs .rate .rateExpression]
  | .rateExpression => either (token rateConstant) (either (construct .waveExpression)
      (either (construct .burstExpression) (construct .timelineExpression)))
  | .waveExpression => all [token kwWave, token leftParen, token kwBase, token equals,
      tokenAs .base rateConstant, token comma, token kwAmp, token equals,
      tokenAs .amp rateConstant, token comma, token kwPeriod, token equals,
      tokenAs .period duration,
      optional (all [token comma, token kwShape, token equals, constructAs .shape .waveShape]),
      token rightParen]
  | .waveShape => either (token kwSine) (either (token kwTriangle) (token kwSquare))
  | .burstExpression => all [token kwBurst, token leftParen, token kwBase, token equals,
      tokenAs .base rateConstant, token comma, token kwPeak, token equals,
      tokenAs .peak rateConstant, token comma, token kwEvery, token equals,
      tokenAs .every duration, token comma, token kwHold, token equals, tokenAs .hold duration,
      token rightParen]
  | .timelineExpression => all [token kwTimeline, token leftBrace,
      many .timelineSegments (construct .timelineSegment), token rightBrace]
  | .timelineSegment => all [tokenAs .start duration, token dots, tokenAs .finish duration,
      token equals, tokenAs .rate rateConstant]
  | .injectionBlock => all [token kwInjection, token leftBrace,
      many .injectionCases (construct .injectionCase), token rightBrace]
  | .injectionCase => all [constructAs .mode .modeKeyword, token less,
      tokenAs .percent percent, token greater, tokenAs .stream identifier, token leftBrace,
      construct .sequenceBlock, token rightBrace]
  | .modeKeyword => either (token kwHit) (either (token kwNearMiss) (token kwMiss))
  | .sequenceBlock => all [tokenAs .entity identifier, token kwSeq, token leftBrace,
      construct .useStatement, many .useStatements (construct .useStatement), token rightBrace]
  | .useStatement => all [token kwUse, token leftParen,
      constructAs .predicates .predicateList, token rightParen, token kwWith, token leftParen,
      tokenAs .count number, token comma, tokenAs .window duration, token rightParen]
  | .predicateList => all [construct .predicate,
      many .predicateTail (seq (token comma) (construct .predicate))]
  | .predicate => all [tokenAs .key identifier, token equals, constructAs .value .literal]
  | .expectBlock => all [token kwExpect, token leftBrace,
      many .expectStatements (construct .expectStatement), token rightBrace]
  | .expectStatement => all [constructAs .metric .expectFunction, token leftParen,
      tokenAs .rule identifier, token rightParen, tokenAs .operator comparisonOperator,
      tokenAs .threshold percent]
  | .expectFunction => either (token kwHit) (either (token kwNearMiss) (token kwMiss))
  | .value => either (construct .literal) (token duration)
  | .literal => either (token string) (either (token number) (construct .boolean))
  | .boolean => either (token kwTrue) (token kwFalse)
  | _ => nothing

/-- The part stands for one tree of its own. -/
def Part.isShown (p : Part) : Bool :=
  match p.symbol with
  | .terminal _ => true
  | .nonterminal n => n.isVisible

/-- Hidden constructs occur as tails of lists only, each of them for its own list. -/
def Rule.tidy : Rule → Bool
  | nothing => true
  | part p => p.isShown
  | seq r q => r.tidy && q.tidy
  | either r q => r.tidy && q.tidy
  | optional r => r.tidy
  | many t r => !t.isVisible && (element t = some r) && r.tidy

lemma tidy_rule (n : Nonterminal) : (rule n).tidy = true := by cases n <;> rfl

lemma tidy_element {n : Nonterminal} {r : Rule} (h : element n = some r) : r.tidy = true := by
  cases n <;> simp only [element, reduceCtorEq, Option.some.injEq] at h <;> subst h <;> rfl

lemma element_eq_none_iff (n : Nonterminal) : element n = none ↔ n.isVisible = true := by
  cases n <;> simp [element, Nonterminal.isVisible]

/-- The alternatives of a construct. A tail is one element, or one element in front of another
tail. -/
def productions (n : Nonterminal) : List (List Part) :=
  match element n with
  | none => (rule n).alternatives
  | some r => r.alternatives.flatMap fun u => [u, u ++ [⟨none, .nonterminal n⟩]]

lemma productions_of_visible {n : Nonterminal} (h : n.isVisible = true) :
    productions n = (rule n).alternatives := by
  simp [productions, (element_eq_none_iff n).2 h]

lemma mem_productions_of_element {n : Nonterminal} {r : Rule} (h : element n = some r)
    {u : List Part} : u ∈ productions n ↔
      ∃ v ∈ r.alternatives, u = v ∨ u = v ++ [⟨none, .nonterminal n⟩] := by
  simp [productions, h]

/-! ### Lists in the place of tails -/

/-- What a construct is made of: by its rule, and a tail of one element or more. -/
def Consists (n : Nonterminal) (v : List Part) : Prop :=
  match element n with
  | none => (rule n).Admits v
  | some r => (many n r).Admits v ∧ v ≠ []

/-- The parts with the elements of a list in the place of every tail. -/
inductive Unfolds : List Part → List Part → Prop
  | nil : Unfolds [] []
  | shown {p : Part} {u v : List Part} (shown : p.isShown = true) (rest : Unfolds u v) :
      Unfolds (p :: u) (p :: v)
  | tail {f : Option Field} {n : Nonterminal} {w u v : List Part} (hidden : n.isVisible = false)
      (list : Consists n w) (rest : Unfolds u v) : Unfolds (⟨f, .nonterminal n⟩ :: u) (w ++ v)

lemma consists_iff_of_element {n : Nonterminal} {r : Rule} (h : element n = some r)
    {v : List Part} : Consists n v ↔ (many n r).Admits v ∧ v ≠ [] := by simp [Consists, h]

lemma consists_iff_of_visible {n : Nonterminal} (h : n.isVisible = true) {v : List Part} :
    Consists n v ↔ (rule n).Admits v := by simp [Consists, (element_eq_none_iff n).2 h]

namespace Unfolds

variable {u v w : List Part}

lemma append_iff : Unfolds (u ++ v) w ↔ ∃ x y, w = x ++ y ∧ Unfolds u x ∧ Unfolds v y := by
  constructor
  · intro h
    induction u generalizing w with
    | nil => exact ⟨[], w, rfl, .nil, h⟩
    | cons p u ih =>
      cases h with
      | shown shown rest =>
        obtain ⟨x, y, rfl, hx, hy⟩ := ih rest
        exact ⟨p :: x, y, rfl, .shown shown hx, hy⟩
      | tail hidden list rest =>
        obtain ⟨x, y, rfl, hx, hy⟩ := ih rest
        exact ⟨_, y, (List.append_assoc ..).symm, .tail hidden list hx, hy⟩
  · rintro ⟨x, y, rfl, hx, hy⟩
    induction hx with
    | nil => exact hy
    | shown shown _ ih => exact .shown shown ih
    | tail hidden list _ ih =>
      rw [List.cons_append, List.append_assoc]
      exact .tail hidden list ih

lemma eq_nil (h : Unfolds [] v) : v = [] := by
  cases h
  rfl

lemma eq_singleton {p : Part} (hp : p.isShown = true) (h : Unfolds [p] v) : v = [p] := by
  cases h with
  | shown _ rest => rw [rest.eq_nil]
  | tail hidden _ _ => simp [Part.isShown, hidden] at hp

lemma ne_nil {p : Part} (hp : p.isShown = true) (h : Unfolds (p :: u) v) : v ≠ [] := by
  cases h with
  | shown _ _ => exact List.cons_ne_nil _ _
  | tail hidden _ _ => simp [Part.isShown, hidden] at hp

lemma consists {f : Option Field} {n : Nonterminal} (hidden : n.isVisible = false)
    (h : Unfolds [⟨f, .nonterminal n⟩] v) : Consists n v := by
  cases h with
  | shown shown _ => simp [Part.isShown, hidden] at shown
  | tail _ list rest => rwa [rest.eq_nil, List.append_nil]

/-- An alternative with its tails unfolded is admitted by the rule. -/
theorem admits {r : Rule} (hr : r.tidy = true) (hu : u ∈ r.alternatives) (h : Unfolds u v) :
    r.Admits v := by
  induction r generalizing u v with
  | nothing =>
    obtain rfl : u = [] := by simpa [alternatives] using hu
    rw [h.eq_nil]
    exact .nothing
  | part p =>
    obtain rfl : u = [p] := by simpa [alternatives] using hu
    rw [h.eq_singleton hr]
    exact .part p
  | seq r q ihr ihq =>
    simp only [Rule.tidy, Bool.and_eq_true] at hr
    obtain ⟨x, hx, y, hy, rfl⟩ := mem_alternatives_seq.1 hu
    obtain ⟨v, w, rfl, hv, hw⟩ := append_iff.1 h
    exact .seq (ihr hr.1 hx hv) (ihq hr.2 hy hw)
  | either r q ihr ihq =>
    simp only [Rule.tidy, Bool.and_eq_true] at hr
    rcases List.mem_append.1 hu with hu | hu
    · exact .left (ihr hr.1 hu h)
    · exact .right (ihq hr.2 hu h)
  | optional r ih =>
    rcases List.mem_cons.1 hu with rfl | hu
    · rw [h.eq_nil]
      exact .absent r
    · exact .present (ih hr hu h)
  | many t r _ =>
    simp only [Rule.tidy, Bool.and_eq_true, Bool.not_eq_true', decide_eq_true_eq] at hr
    simp only [alternatives, List.mem_cons, List.not_mem_nil, or_false] at hu
    rcases hu with rfl | rfl
    · rw [h.eq_nil]
      exact .none t r
    · exact ((consists_iff_of_element hr.1.2).1 (h.consists hr.1.1)).1

end Unfolds

/-- An element begins with a part that is shown. -/
lemma exists_shown_of_element {n : Nonterminal} {r : Rule} (h : element n = some r)
    {u : List Part} (hu : u ∈ r.alternatives) : ∃ p w, u = p :: w ∧ p.isShown = true := by
  cases n <;> simp only [element, reduceCtorEq, Option.some.injEq] at h <;> subst h
  all_goals
    simp only [alternatives, construct, token, List.flatMap_cons, List.map_cons, List.map_nil,
      List.flatMap_nil, List.append_nil, List.cons_append, List.nil_append,
      List.mem_singleton] at hu
    subst hu
    exact ⟨_, _, rfl, rfl⟩

/-- **What a production stands for**: with its tails unfolded, it is what the construct consists
of. -/
theorem consists_of_unfolds {n : Nonterminal} {u v : List Part} (hu : u ∈ productions n)
    (h : Unfolds u v) : Consists n v := by
  rcases he : element n with _ | r
  · have hvisible := (element_eq_none_iff n).1 he
    rw [productions_of_visible hvisible] at hu
    exact (consists_iff_of_visible hvisible).2 (h.admits (tidy_rule n) hu)
  · have hr := tidy_element he
    have hhidden : n.isVisible = false := by
      rw [← Bool.not_eq_true, ← element_eq_none_iff, he]
      exact Option.some_ne_none r
    obtain ⟨x, hx, hor⟩ := (mem_productions_of_element he).1 hu
    obtain ⟨p, w, rfl, hp⟩ := exists_shown_of_element he hx
    have hne : v ≠ [] := by
      rcases hor with rfl | rfl
      · exact h.ne_nil hp
      · exact h.ne_nil hp
    refine (consists_iff_of_element he).2 ⟨?_, hne⟩
    rcases hor with rfl | rfl
    · have hmore := Admits.more (h.admits hr hx) (.none n r)
      rwa [List.append_nil] at hmore
    · obtain ⟨a, b, rfl, ha, hb⟩ := Unfolds.append_iff.1 h
      exact .more (ha.admits hr hx) ((consists_iff_of_element he).1 (hb.consists hhidden)).1

lemma exists_consists_of_hidden {n : Nonterminal} (h : n.isVisible = false) :
    ∃ v, Consists n v := by
  cases n <;> simp only [Nonterminal.isVisible, reduceCtorEq] at h
  all_goals
    first
    | exact ⟨_, .more (.part _) (.none ..), by simp⟩
    | exact ⟨_, .more (.seq (.part _) (.part _)) (.none ..), by simp⟩

lemma exists_unfolds (u : List Part) : ∃ v, Unfolds u v := by
  induction u with
  | nil => exact ⟨[], .nil⟩
  | cons p u ih =>
    obtain ⟨v, hv⟩ := ih
    rcases p with ⟨f, t | n⟩
    · exact ⟨_, .shown rfl hv⟩
    · by_cases hn : n.isVisible = true
      · exact ⟨_, .shown hn hv⟩
      · have hidden := Bool.eq_false_iff.2 hn
        obtain ⟨w, hw⟩ := exists_consists_of_hidden hidden
        exact ⟨_, .tail hidden hw hv⟩

end ScenarioSyntax.Grammar
