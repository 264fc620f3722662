import Mathlib.Algebra.GroupWithZero.Nat
import ScenarioSyntax.Proofs.Automaton.Soundness

/-!
How many reductions there can be. A shifted token brings a number of units with it, and every
reduction uses one of them up.
-/

namespace ScenarioSyntax.Automaton

open Grammar Table

variable {α : Type}

/-- The units left when a symbol stands on the stack. -/
def units : Symbol → Nat
  | .terminal _ => 5
  | .nonterminal n =>
    match n with
    | .sourceFile | .useDeclarations | .annotationTail | .streamStatements | .timelineSegments |
      .injectionCases | .useStatements | .predicateTail | .expectStatements => 1
    | .value => 2
    | .literal | .annotationList | .predicateList | .rateExpression => 3
    | _ => 4

lemma units_lt {n : Nonterminal} {u : List Part} (h : u ∈ productions n) :
    units (.nonterminal n) < ((u.map (·.symbol)).map units).sum := by
  have key : ∀ n ∈ Nonterminal.all, ∀ u ∈ productions n,
      units (.nonterminal n) < ((u.map (·.symbol)).map units).sum := by decide +kernel
  exact key n (mem_all n) u h

/-- The units of a state are those of the symbol in front of it. -/
def unitsAt (s : StateId) : Nat := ((progress s).done.head?.map units).getD 0

def unitsOf (st : List (Frame α)) : Nat := (st.map fun f => unitsAt f.state).sum

lemma unitsAt_of_next {s r : StateId} {x : Symbol} (h : next? s x = some r) :
    unitsAt r = units x := by
  obtain ⟨g, done, hp, -⟩ := progress_of_next h
  simp [unitsAt, hp]

lemma Spells.unitsOf_eq {done : List Symbol} {frs : List (Frame α)} {v : List (Terminal × α)}
    (h : Spells done frs v) : unitsOf frs = (done.map units).sum := by
  induction h with
  | nil => rfl
  | cons _ last _ ih =>
    simp only [unitsOf, List.map_cons, List.sum_cons] at ih ⊢
    rw [ih]
    simp [unitsAt, last]

lemma map_symbol_label (l : Layout) (i : Nat) (xs : List Symbol) :
    (l.label i xs).map (·.symbol) = xs := by
  induction xs generalizing i with
  | nil => rfl
  | cons x xs ih => simp [Layout.label, ih]

/-- A reduction uses up a unit. -/
theorem unitsOf_reduce_lt {st : List (Frame α)} {u : List (Terminal × α)} (h : Valid st u)
    {a : Terminal} {n : Nonterminal} {k : Nat} {l : Layout}
    (ha : action? (top st) a = some (.reduce n k l)) :
    unitsOf (reduce st n k l) < unitsOf st := by
  obtain ⟨done, v, w, -, -, -, hs, hm, hn⟩ := h.exists_of_reduce ha
  have hlt := units_lt hm
  rw [map_symbol_label, List.map_reverse, List.sum_reverse, ← hs.unitsOf_eq] at hlt
  have hsplit : unitsOf st = unitsOf (st.take k) + unitsOf (st.drop k) := by
    unfold unitsOf
    rw [← List.sum_append, ← List.map_append, List.take_append_drop]
  have hred : unitsOf (reduce st n k l) = units (.nonterminal n) + unitsOf (st.drop k) := by
    simp only [unitsOf, reduce, List.map_cons, List.sum_cons, unitsAt_of_next hn]
  omega

end ScenarioSyntax.Automaton
