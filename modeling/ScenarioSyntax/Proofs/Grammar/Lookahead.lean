import ScenarioSyntax.Proofs.Grammar.Ast

/-!
The terminals that a construct begins with, and those that may stand behind it.
-/

namespace ScenarioSyntax.Grammar

open Terminal

def first : Symbol → List Terminal
  | .terminal t => [t]
  | .nonterminal n =>
    match n with
    | .sourceFile => [kwUse, hashBracket, kwScenario]
    | .useDeclaration | .useDeclarations | .useStatement | .useStatements => [kwUse]
    | .scenarioAttributes => [hashBracket]
    | .scenarioDeclaration => [kwScenario]
    | .annotationList | .annotationItem | .sequenceBlock | .predicateList | .predicate =>
      [identifier]
    | .trafficBlock => [kwTraffic]
    | .streamStatement | .streamStatements => [kwStream]
    | .rateExpression => [rateConstant, kwWave, kwBurst, kwTimeline]
    | .waveExpression => [kwWave]
    | .waveShape => [kwSine, kwTriangle, kwSquare]
    | .burstExpression => [kwBurst]
    | .timelineExpression => [kwTimeline]
    | .timelineSegment | .timelineSegments => [duration]
    | .injectionBlock => [kwInjection]
    | .injectionCase | .injectionCases | .modeKeyword | .expectStatement | .expectStatements |
      .expectFunction => [kwHit, kwNearMiss, kwMiss]
    | .expectBlock => [kwExpect]
    | .value => [string, number, kwTrue, kwFalse, duration]
    | .literal => [string, number, kwTrue, kwFalse]
    | .boolean => [kwTrue, kwFalse]
    | .annotationTail | .predicateTail => [comma]

def follow : Nonterminal → List Terminal
  | .sourceFile | .scenarioDeclaration => [endOfText]
  | .useDeclaration => [kwUse, hashBracket, kwScenario]
  | .scenarioAttributes => [kwScenario]
  | .useDeclarations => [hashBracket, kwScenario]
  | .annotationList | .annotationTail => [rightBracket, greater]
  | .annotationItem | .value => [rightBracket, greater, comma]
  | .literal | .boolean => [rightBracket, greater, comma, rightParen]
  | .trafficBlock => [rightBrace, kwInjection, kwExpect]
  | .streamStatement | .rateExpression | .waveExpression | .burstExpression |
    .timelineExpression => [rightBrace, kwStream]
  | .waveShape | .predicateList | .predicateTail => [rightParen]
  | .timelineSegment => [rightBrace, duration]
  | .injectionBlock => [rightBrace, kwExpect]
  | .injectionCase | .expectStatement => [rightBrace, kwHit, kwNearMiss, kwMiss]
  | .modeKeyword => [less]
  | .useStatement => [kwUse, rightBrace]
  | .predicate => [comma, rightParen]
  | .expectFunction => [leftParen]
  | .sequenceBlock | .expectBlock | .streamStatements | .timelineSegments | .injectionCases |
    .useStatements | .expectStatements => [rightBrace]

/-- The terminals that parts begin with; `behind` are those that stand behind all of them. -/
def firstOf (behind : List Terminal) : List Part → List Terminal
  | [] => behind
  | p :: _ => first p.symbol

/-- Behind each construct among the parts stands what may follow it. -/
def followed (behind : List Terminal) : List Part → Bool
  | [] => true
  | p :: u =>
    (match p.symbol with
    | .terminal _ => true
    | .nonterminal m => (firstOf behind u).all (follow m).contains) && followed behind u

lemma mem_all (n : Nonterminal) : n ∈ Nonterminal.all := by cases n <;> decide

lemma ne_nil_of_mem_productions {n : Nonterminal} {u : List Part} (h : u ∈ productions n) :
    u ≠ [] := by
  have key : ∀ n ∈ Nonterminal.all, ∀ u ∈ productions n, u ≠ [] := by decide +kernel
  exact key n (mem_all n) u h

lemma firstOf_subset {n : Nonterminal} {u : List Part} (h : u ∈ productions n)
    (behind : List Terminal) {t : Terminal} (ht : t ∈ firstOf behind u) :
    t ∈ first (.nonterminal n) := by
  have key : ∀ n ∈ Nonterminal.all, ∀ u ∈ productions n, ∀ t ∈ firstOf [] u,
      t ∈ first (.nonterminal n) := by decide +kernel
  cases u with
  | nil => exact absurd rfl (ne_nil_of_mem_productions h)
  | cons p u => exact key n (mem_all n) _ h t ht

lemma followed_of_mem_productions {n : Nonterminal} {u : List Part} (h : u ∈ productions n) :
    followed (follow n) u = true := by
  have key : ∀ n ∈ Nonterminal.all, ∀ u ∈ productions n, followed (follow n) u = true := by
    decide +kernel
  exact key n (mem_all n) u h

variable {α : Type}

/-- A part has a first token, and it is one of those that the part begins with. -/
lemma tokens_of_shows {p : Part} {as : List (Ast α)} (h : Shows p as) :
    ∃ t a ts, Ast.tokensAll as = (t, a) :: ts ∧ t ∈ first p.symbol := by
  have step : ∀ (n : Nonterminal) (u : List Part) (as : List (Ast α)), u ∈ productions n →
      Joined (fun p as => Shows p as ∧
        ∃ t a ts, Ast.tokensAll as = (t, a) :: ts ∧ t ∈ first p.symbol) u as →
      ∃ t a ts, Ast.tokensAll as = (t, a) :: ts ∧ t ∈ first (.nonterminal n) := by
    intro n u as hu h
    cases h with
    | nil => exact absurd rfl (ne_nil_of_mem_productions hu)
    | cons head tail =>
      obtain ⟨-, t, a, ts, hts, ht⟩ := head
      exact ⟨t, a, _, by rw [Ast.tokensAll_append, hts, List.cons_append],
        firstOf_subset hu [] (by simpa [firstOf] using ht)⟩
  refine Shows.ind (fun f t a => ?leaf) (fun f n u as _ hu h => ?visible)
    (fun f n u as _ hu h => ?hidden) h
  case leaf => exact ⟨t, a, [], by simp, by simp [first]⟩
  case visible => simpa using step n u as hu h
  case hidden => exact step n u as hu h

end ScenarioSyntax.Grammar
