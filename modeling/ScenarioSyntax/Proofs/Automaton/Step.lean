import Mathlib.Logic.Relation
import ScenarioSyntax.Proofs.Automaton.Trail

/-!
The automaton of the table on a sequence of tokens, without text and comments.

A frame of the stack holds a state and the trees read in front of it. Which field these have is
known only when a reduction takes them, so they are kept as a function of it.
-/

namespace ScenarioSyntax.Automaton

open Grammar Table

variable {α : Type}

/-- The trees that a symbol stands for, given the field that they get. -/
abbrev Growth (α : Type) := Option Field → List (Ast α)

namespace Growth

def token (t : Terminal) (a : α) : Growth α := fun f => [.leaf f t a]

/-- Children side by side, the first one being the `i`-th of its parent. -/
def joined (l : Layout) (i : Nat) : List (Growth α) → List (Ast α)
  | [] => []
  | g :: gs => g (l.field? i) ++ joined l (i + 1) gs

def construct (n : Nonterminal) (l : Layout) (gs : List (Growth α)) : Growth α := fun f =>
  if n.isVisible then [.node f n (joined l 0 gs)] else joined l 0 gs

lemma joined_append (l : Layout) (i : Nat) (gs hs : List (Growth α)) :
    joined l i (gs ++ hs) = joined l i gs ++ joined l (i + gs.length) hs := by
  induction gs generalizing i with
  | nil => simp [joined]
  | cons g gs ih =>
    simp only [List.cons_append, joined, ih, List.append_assoc, List.length_cons]
    congr 3; omega

end Growth

structure Frame (α : Type) where
  state : StateId
  growth : Growth α

/-- The state of the last frame, which comes first. -/
def top : List (Frame α) → StateId
  | [] => start
  | f :: _ => f.state

@[simp] lemma top_nil : top ([] : List (Frame α)) = start := rfl

@[simp] lemma top_cons (f : Frame α) (st : List (Frame α)) : top (f :: st) = f.state := rfl

/-- Replaces the last `k` frames by one. -/
def reduce (st : List (Frame α)) (n : Nonterminal) (k : Nat) (l : Layout) : List (Frame α) :=
  ⟨goto (top (st.drop k)) n, .construct n l ((st.take k).reverse.map (·.growth))⟩ :: st.drop k

structure Config (α : Type) where
  stack : List (Frame α)
  input : List (Terminal × α)

/-- The terminal that the automaton looks at. -/
def ahead : List (Terminal × α) → Terminal
  | [] => .endOfText
  | (t, _) :: _ => t

@[simp] lemma ahead_nil : ahead ([] : List (Terminal × α)) = .endOfText := rfl

@[simp] lemma ahead_cons (t : Terminal) (a : α) (ts : List (Terminal × α)) :
    ahead ((t, a) :: ts) = t := rfl

inductive Step : Config α → Config α → Prop
  | shift {st : List (Frame α)} {t : Terminal} {a : α} {ts : List (Terminal × α)} {s : StateId}
      (h : action? (top st) t = some (.shift s)) :
      Step ⟨st, (t, a) :: ts⟩ ⟨⟨s, .token t a⟩ :: st, ts⟩
  | reduce {st : List (Frame α)} {ts : List (Terminal × α)} {n : Nonterminal} {k : Nat}
      {l : Layout} (h : action? (top st) (ahead ts) = some (.reduce n k l)) :
      Step ⟨st, ts⟩ ⟨reduce st n k l, ts⟩

abbrev Steps : Config α → Config α → Prop := Relation.ReflTransGen Step

lemma Step.unique {c d e : Config α} (hd : Step c d) (he : Step c e) : d = e := by
  cases hd with
  | shift h =>
    cases he with
    | shift h' => rw [h] at h'; cases h'; rfl
    | reduce h' => rw [ahead_cons, h] at h'; cases h'
  | reduce h =>
    cases he with
    | shift h' => rw [ahead_cons, h'] at h; cases h
    | reduce h' => rw [h] at h'; cases h'; rfl

/-- The automaton has come to rest: the text is accepted, or there is no action. -/
def AtRest (c : Config α) : Prop :=
  (∀ s, action? (top c.stack) (ahead c.input) ≠ some (.shift s)) ∧
    ∀ n k l, action? (top c.stack) (ahead c.input) ≠ some (.reduce n k l)

lemma AtRest.not_step {c d : Config α} (h : AtRest c) : ¬ Step c d := by
  rintro (hs | hr)
  · exact h.1 _ hs
  · exact h.2 _ _ _ hr

/-- There is one way only to come to rest. -/
theorem Steps.eq_of_atRest {c d e : Config α} (hd : Steps c d) (he : Steps c e) (rd : AtRest d)
    (re : AtRest e) : d = e := by
  have hu : Relator.RightUnique (Step (α := α)) := fun _ _ _ => Step.unique
  rcases Relation.ReflTransGen.total_of_right_unique hu hd he with h | h
  · rcases h.cases_head with rfl | ⟨_, h, -⟩
    · rfl
    · exact absurd h rd.not_step
  · rcases h.cases_head with rfl | ⟨_, h, -⟩
    · rfl
    · exact absurd h re.not_step

end ScenarioSyntax.Automaton
