import Mathlib.Tactic.Common
import ScenarioSyntax.Tree.Node

/-!
Trees without any error: tokens of the text and reductions, nothing else.
-/

namespace ScenarioSyntax

/-- No production counts it. -/
def Terminal.isExtra (t : Terminal) : Bool := t = .comment || t = .endOfText

namespace Tree

inductive Clean : Tree → Prop
  | token (t : Terminal) (s : Span) : Clean (token t s t.isExtra)
  | node (n : Nonterminal) (l : Layout) {cs : List Tree} (children : ∀ c ∈ cs, Clean c) :
      Clean (node (.rule n l) cs)

/-- The symbol that a tree stands for on the stack. -/
def symbol? : Tree → Option Symbol
  | token t _ _ => some (.terminal t)
  | node (.rule n _) _ => some (.nonterminal n)
  | _ => none

lemma anyError_eq_false {ts : List Tree} (h : ∀ t ∈ ts, t.hasError = false) :
    anyError ts = false := by
  induction ts with
  | nil => simp [anyError]
  | cons t ts ih => simp [anyError, h t (by simp), ih fun t ht => h t (by simp [ht])]

theorem Clean.hasError {t : Tree} (h : t.Clean) : t.hasError = false := by
  induction h with
  | token t s => simp [Tree.hasError]
  | node n l _ ih => simpa [Tree.hasError] using anyError_eq_false ih

lemma eq_node_of_symbol? {t : Tree} {n : Nonterminal} (h : t.symbol? = some (.nonterminal n)) :
    ∃ l cs, t = node (.rule n l) cs := by
  match t, h with
  | node (.rule m l) cs, h =>
    obtain rfl : m = n := by simpa [symbol?] using h
    exact ⟨l, cs, rfl⟩

lemma eq_token_of_symbol? {t : Tree} {k : Terminal} (h : t.symbol? = some (.terminal k)) :
    ∃ s e, t = token k s e := by
  unfold symbol? at h
  split at h
  · cases h
    exact ⟨_, _, rfl⟩
  · cases h
  · cases h

end Tree

end ScenarioSyntax
