import ScenarioSyntax.Proofs.Grammar.Lookahead
import ScenarioSyntax.Table.Lookup

/-!
How the states of the parser belong to the grammar.

Each alternative of a construct leads through the same states wherever the construct begins, its
trail. So a state tells which construct is being read and how much of it has been read, and the
last state of a trail performs the reduction on every terminal that may stand behind the
construct. All this is checked against the table once, here.
-/

namespace ScenarioSyntax

/-- The symbols with the parts that a layout gives them, the first one being the `i`-th child. -/
def Layout.label (l : Layout) (i : Nat) : List Symbol → List Grammar.Part
  | [] => []
  | x :: xs => ⟨l.field? i, x⟩ :: l.label (i + 1) xs

namespace Table

open Grammar

/-- The state behind a symbol. -/
def next? (s : StateId) : Symbol → Option StateId
  | .terminal t =>
    match action? s t with
    | some (.shift r) => some r
    | _ => none
  | .nonterminal n => (row s).gotos.lookup n

def walk? (s : StateId) : List Part → Option StateId
  | [] => some s
  | p :: u => (next? s p.symbol).bind fun r => walk? r u

/-- The states that the alternatives of a construct lead through, in the order of
`Grammar.productions`. -/
def trails : Nonterminal → List (List StateId)
  | .sourceFile => [[4], [3, 12], [2, 11], [2, 10, 19]]
  | .useDeclaration => [[5, 13]]
  | .scenarioAttributes => [[6, 14, 20]]
  | .scenarioDeclaration => [[7, 17, 25, 36, 42], [7, 17, 25, 36, 41, 49], [7, 17, 25, 36, 40, 48],
      [7, 17, 25, 36, 40, 47, 57], [7, 17, 24, 35, 39, 46, 56, 77],
      [7, 17, 24, 35, 39, 46, 56, 76, 87], [7, 17, 24, 35, 39, 46, 56, 75, 86],
      [7, 17, 24, 35, 39, 46, 56, 75, 85, 98]]
  | .annotationList => [[15], [15, 21]]
  | .annotationItem => [[16, 23, 27]]
  | .trafficBlock => [[37, 45, 53], [37, 45, 52, 72]]
  | .streamStatement => [[54, 73, 84, 90]]
  | .rateExpression => [[91], [92], [93], [94]]
  | .waveExpression =>
    [[95, 101, 106, 114, 121, 126, 130, 135, 141, 148, 154, 159, 163, 167],
     [95, 101, 106, 114, 121, 126, 130, 135, 141, 148, 154, 159, 163, 166, 170, 173, 176, 181]]
  | .waveShape => [[177], [178], [179]]
  | .burstExpression =>
    [[96, 102, 107, 115, 122, 127, 131, 136, 142, 149, 155, 160, 164, 168, 171, 174, 180, 182]]
  | .timelineExpression => [[97, 103, 109], [97, 103, 108, 116]]
  | .timelineSegment => [[110, 117, 123, 128, 132]]
  | .injectionBlock => [[43, 50, 59], [43, 50, 58, 78]]
  | .injectionCase => [[60, 79, 88, 99, 104, 112, 119, 124]]
  | .modeKeyword => [[61], [62], [63]]
  | .sequenceBlock => [[120, 125, 129, 133, 138], [120, 125, 129, 133, 137, 143]]
  | .useStatement => [[134, 140, 145, 150, 156, 161, 165, 169, 172, 175]]
  | .predicateList => [[146], [146, 151]]
  | .predicate => [[147, 153, 158]]
  | .expectBlock => [[44, 51, 66], [44, 51, 65, 81]]
  | .expectStatement => [[67, 82, 89, 100, 105, 113]]
  | .expectFunction => [[68], [69], [70]]
  | .value => [[28], [29]]
  | .literal => [[30], [31], [32]]
  | .boolean => [[33], [34]]
  | .useDeclarations => [[8], [8, 18]]
  | .annotationTail => [[22, 26], [22, 26, 38]]
  | .streamStatements => [[55], [55, 74]]
  | .timelineSegments => [[111], [111, 118]]
  | .injectionCases => [[64], [64, 80]]
  | .useStatements => [[139], [139, 144]]
  | .predicateTail => [[152, 157], [152, 157, 162]]
  | .expectStatements => [[71], [71, 83]]

/-- What is being read, and the symbols read of it so far, the last one first. Without a goal it
is the whole text. -/
structure Progress where
  goal : Option Nonterminal
  done : List Symbol
  deriving DecidableEq, Repr

def Progress.along (n : Nonterminal) (done : List Symbol) :
    List Part → List StateId → List (StateId × Progress)
  | p :: u, s :: ss => (s, ⟨some n, p.symbol :: done⟩) :: along n (p.symbol :: done) u ss
  | _, _ => []

def progresses : List (StateId × Progress) :=
  (9, ⟨none, [.nonterminal .sourceFile]⟩) ::
    Nonterminal.all.flatMap fun n =>
      ((productions n).zip (trails n)).flatMap fun (u, ss) => Progress.along n [] u ss

def progress (s : StateId) : Progress := (progresses.lookup s).getD ⟨none, []⟩

/-- The state is one in which a construct, or the whole text, begins. -/
def opens (s : StateId) : Option Nonterminal → Bool
  | none => s = start
  | some n => ((row s).gotos.lookup n).isSome

lemma next?_of_opens {s : StateId} {n : Nonterminal} (h : opens s (some n) = true) :
    next? s (.nonterminal n) = some (goto s n) := by
  simp only [opens] at h
  obtain ⟨r, hr⟩ := Option.isSome_iff_exists.1 h
  simp [next?, goto, hr]

/-- These symbols of the goal have been read when the parser is in the state. -/
def hasRead (s : StateId) (p : Progress) : Bool :=
  if p.done = [] then opens s p.goal else progress s = p

/-! ### What has been read -/

/-- The symbol is the last one read in the state behind it. -/
def arrives (s : StateId) (x : Symbol) (r : StateId) : Bool :=
  match progress r with
  | ⟨g, y :: done⟩ => y = x && hasRead s ⟨g, done⟩
  | ⟨_, []⟩ => false

/-- An alternative of the construct has been read, and the layout labels it. -/
def completes (s : StateId) (n : Nonterminal) (arity : Nat) (l : Layout) : Bool :=
  match progress s with
  | ⟨g, done⟩ =>
    g = some n && done.length = arity && (productions n).contains (l.label 0 done.reverse)

def readsBack (s : StateId) (r : Row) : Bool :=
  (r.actions.all fun (t, a) =>
    match a with
    | .shift q => arrives s (.terminal t) q && t != .endOfText
    | .reduce n k l => completes s n k l
    | .accept => t = .endOfText && progress s = ⟨none, [.nonterminal .sourceFile]⟩
    | .recover => s = lost
    | .extra => false) &&
  r.gotos.all fun (n, q) => arrives s (.nonterminal n) q

lemma readsBack_rows : (rows.toList.zipIdx.all fun (r, s) => readsBack s r) = true := by
  decide +kernel

/-- Every alternative of a construct that begins in the state ends in its reduction. -/
def readsOn (s : StateId) (r : Row) : Bool :=
  r.gotos.all fun (n, _) => (productions n).all fun u =>
    match walk? s u with
    | none => false
    | some q => (follow n).all fun a =>
      match action? q a with
      | some (.reduce m k l) => m = n && k = u.length && l.label 0 (u.map (·.symbol)) = u
      | _ => false

lemma readsOn_rows : (rows.toList.zipIdx.all fun (r, s) => readsOn s r) = true := by
  decide +kernel

/-- What holds of all rows holds of each state, unless its row is empty. -/
lemma row_cases {P : StateId → Row → Bool}
    (h : (rows.toList.zipIdx.all fun (r, s) => P s r) = true) (s : StateId) :
    P s (row s) = true ∨ row s = ⟨[], []⟩ := by
  rcases Nat.lt_or_ge s rows.size with hs | hs
  · left
    have := List.all_eq_true.1 h (rows[s], s) (by rw [List.mem_zipIdx_iff_getElem?]; simp [hs])
    simpa [row, hs] using this
  · right; simp [row, hs]

lemma mem_of_lookup {κ β : Type} [BEq κ] [LawfulBEq κ] {k : κ} {b : β} {l : List (κ × β)}
    (h : l.lookup k = some b) : (k, b) ∈ l := by
  obtain ⟨l₁, l₂, rfl, -⟩ := List.lookup_eq_some_iff.1 h
  simp

variable {s r : StateId}

lemma action?_eq {t : Terminal} {a : Action} (h : action? s t = some a) (ha : a ≠ .extra) :
    (t, a) ∈ (row s).actions := by
  unfold action? at h
  split at h
  · simp at h; exact absurd h.symm ha
  · exact mem_of_lookup h

lemma readsBack_of_action {t : Terminal} {a : Action} (h : action? s t = some a)
    (ha : a ≠ .extra) : readsBack s (row s) = true := by
  rcases row_cases readsBack_rows s with hs | hs
  · exact hs
  · have := action?_eq h ha
    simp [hs] at this

lemma next?_eq_arrives {x : Symbol} (h : next? s x = some r) : arrives s x r = true := by
  cases x with
  | terminal t =>
    simp only [next?] at h
    split at h
    · rename_i q hq
      obtain rfl : q = r := by simpa using h
      have hs := readsBack_of_action hq (by simp)
      simp only [readsBack, Bool.and_eq_true, List.all_eq_true] at hs
      have := hs.1 _ (action?_eq hq (by simp))
      simp at this
      exact this.1
    · simp at h
  | nonterminal n =>
    have hm := mem_of_lookup h
    rcases row_cases readsBack_rows s with hs | hs
    · simp only [readsBack, Bool.and_eq_true, List.all_eq_true] at hs
      exact hs.2 _ hm
    · simp [hs] at hm

/-- A step to the next state reads one symbol more. -/
theorem progress_of_next {x : Symbol} (h : next? s x = some r) :
    ∃ g done, progress r = ⟨g, x :: done⟩ ∧ hasRead s ⟨g, done⟩ = true := by
  have h := next?_eq_arrives h
  unfold arrives at h
  split at h
  · rename_i g y done hp
    simp only [Bool.and_eq_true, decide_eq_true_eq] at h
    exact ⟨g, done, by rw [hp, h.1], h.2⟩
  · simp at h

/-- A reduction takes what has been read of its construct. -/
theorem progress_of_reduce {a : Terminal} {n : Nonterminal} {k : Nat} {l : Layout}
    (h : action? s a = some (.reduce n k l)) :
    ∃ done, progress s = ⟨some n, done⟩ ∧ done.length = k ∧
      l.label 0 done.reverse ∈ productions n := by
  have hs := readsBack_of_action h (by simp)
  simp only [readsBack, Bool.and_eq_true, List.all_eq_true] at hs
  have hc := hs.1 _ (action?_eq h (by simp))
  simp only [completes] at hc
  rcases hp : progress s with ⟨g, done⟩
  simp only [hp, Bool.and_eq_true, decide_eq_true_eq, List.contains_eq_mem] at hc
  exact ⟨done, by rw [hc.1.1], hc.1.2, hc.2⟩

/-- The text is accepted at its end, when it has been read as a whole. -/
theorem progress_of_accept {a : Terminal} (h : action? s a = some .accept) :
    a = .endOfText ∧ progress s = ⟨none, [.nonterminal .sourceFile]⟩ := by
  have hs := readsBack_of_action h (by simp)
  simp only [readsBack, Bool.and_eq_true, List.all_eq_true] at hs
  have hc := hs.1 _ (action?_eq h (by simp))
  simpa using hc

theorem ne_endOfText_of_shift {a : Terminal} (h : action? s a = some (.shift r)) :
    a ≠ .endOfText := by
  have hs := readsBack_of_action h (by simp)
  simp only [readsBack, Bool.and_eq_true, List.all_eq_true] at hs
  have hc := hs.1 _ (action?_eq h (by simp))
  simp at hc
  exact hc.2

@[simp] lemma progress_start : progress start = ⟨none, []⟩ := by decide +kernel

/-! ### What can be read -/

/-- Where a construct begins, all its alternatives can be read, and then reduced on whatever may
follow the construct. -/
theorem exists_reduce {n : Nonterminal} (h : next? s (.nonterminal n) = some r) {u : List Part}
    (hu : u ∈ productions n) : ∃ q, walk? s u = some q ∧ ∀ a ∈ follow n, ∃ l : Layout,
      action? q a = some (.reduce n u.length l) ∧ l.label 0 (u.map (·.symbol)) = u := by
  have hm := mem_of_lookup h
  rcases row_cases readsOn_rows s with hs | hs
  · have hs := List.all_eq_true.1 (List.all_eq_true.1 hs _ hm) u hu
    split at hs
    · simp at hs
    · rename_i q hq
      refine ⟨q, hq, fun a ha => ?_⟩
      have ha := List.all_eq_true.1 hs a ha
      split at ha
      · rename_i m k l hr
        simp only [Bool.and_eq_true, decide_eq_true_eq] at ha
        obtain ⟨⟨rfl, rfl⟩, hl⟩ := ha
        exact ⟨l, hr, hl⟩
      · simp at ha
  · simp [hs] at hm

lemma next?_start : next? start (.nonterminal .sourceFile) = some 9 := by decide +kernel

lemma action?_accept : action? 9 .endOfText = some .accept := by decide +kernel

end Table

end ScenarioSyntax
