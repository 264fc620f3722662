import ScenarioSyntax.Proofs.Repair.Openings
import ScenarioSyntax.Tree.Node

/-!
The trees that a repair can end with. Either an error holds all of the text, or there is a tree for
a file that reaches, but for comments, from the beginning of the text to its end. If there is no
error in such a tree, the text prints a file; and whatever errors there are, the text has the tokens
that every file opens with.
-/

namespace ScenarioSyntax

open Automaton Grammar Table

/-- The tree stands for a text as a whole. -/
inductive Tree.Whole (points : List Int) : Tree → Prop
  | file {l : Layout} {front cs back : List Tree} {p : Nat} {s : StateId}
      (front_extra : ∀ t ∈ front, t.isExtra = true) (back_extra : ∀ t ∈ back, t.isExtra = true)
      (lies : LiesAll points (front ++ node (.rule .sourceFile l) cs :: back) 0 p)
      (ended : (Token.read points s p).kind? = some .endOfText) :
      Whole points
        (node (.rule .sourceFile l) (front ++ cs ++ (back ++ [(Token.read points s p).leaf])))
  | lost {cs : List Tree} {p : Nat} {s : StateId} (lies : LiesAll points cs 0 p)
      (ended : (Token.read points s p).kind? = some .endOfText) :
      Whole points (node (.error false) (cs ++ [(Token.read points s p).leaf]))

namespace Tree

variable {points : List Int} {p q : Nat}

lemma anyError_append (ts us : List Tree) : anyError (ts ++ us) = (anyError ts || anyError us) := by
  induction ts with
  | nil => rfl
  | cons t ts ih => rw [List.cons_append, anyError, anyError, ih, Bool.or_assoc]

lemma shapes_of_extra {ts : List Tree} (h : ∀ t ∈ ts, t.isExtra = true) : shapes ts = [] := by
  induction ts with
  | nil => rfl
  | cons t ts ih =>
    rw [shapes_cons_extra (h t (by simp)), ih fun t ht => h t (by simp [ht])]

/-- Trees for one construct are a tree for it, and extra ones around it. -/
lemma exists_of_shapes {ts : List Tree} {n : Nonterminal}
    (h : shapes ts = [some (.nonterminal n)]) :
    ∃ front l cs back, ts = front ++ node (.rule n l) cs :: back ∧
      (∀ t ∈ front, t.isExtra = true) ∧ ∀ t ∈ back, t.isExtra = true := by
  obtain ⟨t, hfilter, ht⟩ := List.map_eq_singleton_iff.1 h
  obtain ⟨front, back, rfl, hfront, -, hback⟩ := List.filter_eq_cons_iff.1 hfilter
  have hnot : ∀ t : Tree, ¬ (!t.isExtra) = true → t.isExtra = true := fun t => by simp
  match t, ht with
  | node (.rule _ l) cs, rfl =>
    exact ⟨front, l, cs, back, rfl, fun t ht => hnot t (hfront t ht),
      fun t ht => hnot t (List.filter_eq_nil_iff.1 hback t ht)⟩

/-- Extra trees without error are comments. -/
lemma LiesAll.exists_comments {ts : List Tree} (h : LiesAll points ts p q)
    (hextra : ∀ t ∈ ts, t.isExtra = true) (he : anyError ts = false) :
    ∃ as, Chain (Token.read points) p as q ∧
      (∀ a ∈ as, ∃ k, a.kind? = some k ∧ k ≠ .endOfText) ∧ kept (slice points) as = [] := by
  obtain ⟨as, hchain, hkinds, hgrows⟩ := h.exists_chain he
    (show shapes ts = [].map some from shapes_of_extra hextra)
  obtain ⟨-, htokens⟩ := hgrows .plain 0
  refine ⟨as, hchain, hkinds, ?_⟩
  rw [← htokens, List.filter_eq_nil_iff.2 fun t ht => by simp [hextra t ht]]
  rfl

namespace Whole

variable {t : Tree}

/-- **No error** in the tree means that the text prints a file. -/
theorem exists_isPrinting (h : t.Whole points) (he : t.hasError = false) :
    ∃ d, IsPrinting points d := by
  cases h with
  | @file l front cs back p s front_extra back_extra lies ended =>
    rw [hasError, anyError_append, anyError_append, anyError_append, Bool.or_eq_false_iff,
      Bool.or_eq_false_iff, Bool.or_eq_false_iff] at he
    obtain ⟨⟨hfront, hcs⟩, hback, -⟩ := he
    obtain ⟨i, hi, j, hnode, hj⟩ := liesAll_append_iff.1 lies
    obtain ⟨as, has, hkinds, hkept⟩ := hi.exists_comments front_extra hfront
    obtain ⟨bs, hbs, hkinds', -, hgrows⟩ := hnode.exists_chain hcs (.inr rfl)
    obtain ⟨es, hes, hkinds'', hkept''⟩ := LiesAll.exists_comments hj back_extra hback
    obtain ⟨d, -, hd, htokens⟩ := (hgrows rfl (.nonterminal .sourceFile) rfl).exists_isFile
    refine ⟨d, Token.isPrinting_of_chain (has.append (hbs.append hes)) ?_ ended hd ?_⟩
    · exact List.forall_mem_append.2 ⟨hkinds, List.forall_mem_append.2 ⟨hkinds', hkinds''⟩⟩
    · rw [kept_append, kept_append, hkept, hkept'', List.nil_append, List.append_nil, htokens]
  | lost _ _ => cases he

/-- **The root** is a file, and the text has the tokens that a file opens with; or it is an
error. -/
theorem kind_eq (h : t.Whole points) :
    t.toNode.data.kind = .symbol (.nonterminal .sourceFile) ∧ Mentions Terminal.header points ∨
      t.toNode.data.kind = .error := by
  cases h with
  | @file l front cs back p s front_extra back_extra lies ended =>
    refine .inl ⟨rfl, ?_⟩
    have hshapes : shapes (front ++ node (.rule .sourceFile l) cs :: back) =
        [Symbol.nonterminal .sourceFile].map some := by
      rw [shapes_append, shapes_of_extra front_extra, shapes_cons rfl, shapes_of_extra back_extra]
      rfl
    obtain ⟨as, hchain, hopening⟩ := lies.exists_opening
    exact ⟨as, p, s, hchain, ended, hopening _ hshapes⟩
  | lost _ _ => exact .inr rfl

lemma hasError_toNode (h : t.Whole points) : t.toNode.data.hasError = t.hasError := by
  cases h with
  | file _ _ _ _ => rfl
  | lost _ _ => rfl

end Whole

end Tree

end ScenarioSyntax
