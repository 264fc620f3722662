import ScenarioSyntax.Proofs.Grammar.Subtree
import ScenarioSyntax.Proofs.Schema.Slots
import ScenarioSyntax.Proofs.Tree.Bare
import ScenarioSyntax.Proofs.Tree.Clean

/-!
What trees without errors show: comments, tokens and constructs. All but the comments stand for
trees within the abstract syntax tree.
-/

namespace ScenarioSyntax

open Grammar

namespace Node

def isComment (ν : Node) : Bool := ν.data.kind = .symbol (.terminal .comment)

/-- The children besides comments. -/
def proper (ν : Node) : List Node := ν.children.filter fun c => !c.isComment

/-- The field and the kind of a child. -/
def role (ν : Node) : Option Field × Kind := (ν.data.field, ν.data.kind)

/-- Nodes without errors, and without a part to play for comments. -/
inductive Neat : Node → Prop
  | comment (e : Bool) (start stop : Nat) :
      Neat (mk ⟨.symbol (.terminal .comment), none, .plain, true, e, start, stop⟩ [])
  | token {t : Terminal} (ht : t.isExtra = false) (f : Option Field) (e : Bool)
      (start stop : Nat) : Neat (mk ⟨.symbol (.terminal t), f, .plain, false, e, start, stop⟩ [])
  | construct {n : Nonterminal} (visible : n.isVisible = true) (f : Option Field) (e : Bool)
      (start stop : Nat) {cs : List Node} (children : ∀ c ∈ cs, Neat c) :
      Neat (mk ⟨.symbol (.nonterminal n), f, .plain, false, e, start, stop⟩ cs)

end Node

/-! ### From trees to nodes -/

namespace Tree

/-- All that a list shows is shown by one of its trees. -/
lemma mem_viewAll {cs : List Tree} {l : Layout} {i : Nat} {ν : Node}
    (h : ν ∈ (viewAll l i cs).nodes) :
    ∃ t ∈ cs, ∃ f, (t.isExtra = true → f = none) ∧ ν ∈ (t.view f).nodes := by
  induction cs generalizing i with
  | nil => simp [viewAll, View.empty] at h
  | cons t cs ih =>
    have tail : ∀ i, ν ∈ (viewAll l i cs).nodes →
        ∃ t' ∈ t :: cs, ∃ f, (t'.isExtra = true → f = none) ∧ ν ∈ (t'.view f).nodes := by
      intro i hi
      obtain ⟨t', ht', hf⟩ := ih hi
      exact ⟨t', List.mem_cons_of_mem _ ht', hf⟩
    by_cases he : t.isExtra
    · rw [viewAll, if_pos he, nodes_append, List.mem_append] at h
      rcases h with h | h
      · exact ⟨t, by simp, none, fun _ => rfl, h⟩
      · exact tail i h
    · rw [viewAll, if_neg he, nodes_append, List.mem_append] at h
      rcases h with h | h
      · exact ⟨t, by simp, _, fun he' => absurd he' he, h⟩
      · exact tail (i + 1) h

theorem Clean.neat_view {t : Tree} (h : t.Clean) (f : Option Field)
    (hf : t.isExtra = true → f = none) : ∀ ν ∈ (t.view f).nodes, ν.Neat := by
  induction h generalizing f with
  | token t s =>
    intro ν hν
    by_cases hend : t = .endOfText
    · simp [view, hend, Terminal.isVisible] at hν
    have hv : t.isVisible = true := by simpa [Terminal.isVisible] using hend
    simp only [view, hv, if_true, List.mem_singleton] at hν
    subst hν
    by_cases hc : t = .comment
    · subst hc
      rw [hf rfl]
      exact .comment false s.start s.stop
    · have he : t.isExtra = false := by simp [Terminal.isExtra, hc, hend]
      rw [he]
      exact .token he f false s.start s.stop
  | @node n l cs _ ih =>
    have hall : ∀ ν ∈ (viewAll l 0 cs).nodes, ν.Neat := by
      intro ν hν
      obtain ⟨c, hc, g, hg, hshown⟩ := mem_viewAll hν
      exact ih c hc g hg ν hshown
    by_cases hv : n.isVisible
    · simp only [view, hv, if_true, View.wrap, List.mem_singleton, forall_eq]
      exact .construct hv f _ _ _ hall
    · simpa [view, hv] using hall

/-- The whole tree is shown by its root. -/
lemma Clean.neat_toNode {t : Tree} (h : t.Clean) {n : Nonterminal}
    (hs : t.symbol? = some (.nonterminal n)) (hn : n.isVisible = true) : t.toNode.Neat := by
  obtain ⟨l, cs, rfl⟩ := eq_node_of_symbol? hs
  have hnode : (Tree.node (.rule n l) cs).toNode ∈
      ((Tree.node (.rule n l) cs).view none).nodes := by
    simp [toNode, view, hn, View.wrap]
  exact h.neat_view none (fun _ => rfl) _ hnode

end Tree

/-! ### Nodes within a tree -/

namespace Node

variable {α : Type} {text : Nat → Nat → α} {ν : Node} {cs : List Node}

lemma mem_bareAll {x : Ast α} : x ∈ bareAll text cs ↔ ∃ c ∈ cs, x ∈ c.bare text := by
  induction cs with
  | nil => simp
  | cons c cs ih => simp [ih]

lemma mem_preorderAll : ν ∈ preorderAll cs ↔ ∃ c ∈ cs, ν ∈ c.preorder := by
  induction cs with
  | nil => simp [preorderAll]
  | cons c cs ih => simp [preorderAll, ih]

lemma preorder_eq (ν : Node) : ν.preorder = ν :: preorderAll ν.children := by
  cases ν
  rfl

lemma mem_preorder_self (ν : Node) : ν ∈ ν.preorder := by
  rw [preorder_eq]
  exact List.mem_cons_self

mutual

/-- What is below a node is below every node above it. -/
lemma mem_preorder_of_mem {ν μ : Node} (h : μ ∈ ν.preorder) (ρ : Node) (hν : ν ∈ ρ.preorder) :
    μ ∈ ρ.preorder := by
  cases ρ with
  | mk d cs =>
    rw [preorder, List.mem_cons] at hν ⊢
    rcases hν with rfl | hν
    · rwa [preorder, List.mem_cons] at h
    · exact .inr (mem_preorderAll_of_mem h cs hν)

lemma mem_preorderAll_of_mem {ν μ : Node} (h : μ ∈ ν.preorder) (cs : List Node)
    (hν : ν ∈ preorderAll cs) : μ ∈ preorderAll cs := by
  cases cs with
  | nil => cases hν
  | cons c cs =>
    rw [preorderAll, List.mem_append] at hν ⊢
    exact hν.imp (mem_preorder_of_mem h c) (mem_preorderAll_of_mem h cs)

end

lemma mem_preorder_child {ρ c : Node} (hν : ν ∈ ρ.preorder) (hc : c ∈ ν.children) :
    c ∈ ρ.preorder := by
  refine mem_preorder_of_mem ?_ ρ hν
  rw [preorder_eq, List.mem_cons, mem_preorderAll]
  exact .inr ⟨c, hc, mem_preorder_self c⟩

/-- Every node but a comment shows one tree, which plays the part that the node plays. -/
lemma Neat.exists_bare (h : ν.Neat) (hc : ν.isComment = false) (text : Nat → Nat → α) :
    ∃ x, ν.bare text = [x] ∧ Schema.role x.part = ν.role := by
  cases h with
  | comment e start stop => cases hc
  | token ht f e start stop => exact ⟨_, bare_terminal text rfl rfl [], rfl⟩
  | construct visible f e start stop children => exact ⟨_, bare_nonterminal text rfl rfl _, rfl⟩

lemma Neat.bare_of_isComment (h : ν.Neat) (hc : ν.isComment = true) : ν.bare text = [] := by
  cases h with
  | comment e start stop => exact bare_of_extra text rfl []
  | token ht f e start stop =>
    simp only [isComment, data, Kind.symbol.injEq, Symbol.terminal.injEq, decide_eq_true_eq] at hc
    subst hc
    cases ht
  | construct visible f e start stop children => simp [isComment, data] at hc

/-- The trees that children show play the parts that the children play. -/
lemma role_bareAll (text : Nat → Nat → α) (h : ∀ c ∈ cs, c.Neat) :
    ((bareAll text cs).map fun x => Schema.role x.part) =
      (cs.filter fun c => !c.isComment).map role := by
  induction cs with
  | nil => simp
  | cons c cs ih =>
    have ih := ih fun c hc => h c (by simp [hc])
    rcases hc : c.isComment with _ | _
    · obtain ⟨x, hx, hr⟩ := (h c (by simp)).exists_bare hc text
      simp [hx, hr, hc, ih]
    · simp [(h c (by simp)).bare_of_isComment hc, hc, ih]

/-- **Every node below** is a comment, or stands for a tree within the one that is shown. -/
theorem Neat.of_mem_preorder (text : Nat → Nat → α) {ρ : Node} (h : ρ.Neat)
    (hν : ν ∈ ρ.preorder) : ν.Neat ∧ ∀ x ∈ ν.bare text, ∃ d ∈ ρ.bare text, x.Within d := by
  induction h with
  | comment e start stop =>
    obtain rfl : ν = _ := by simpa [preorder, preorderAll] using hν
    exact ⟨.comment e start stop, fun x hx => ⟨x, hx, .refl⟩⟩
  | token ht f e start stop =>
    obtain rfl : ν = _ := by simpa [preorder, preorderAll] using hν
    exact ⟨.token ht f e start stop, fun x hx => ⟨x, hx, .refl⟩⟩
  | @construct n visible f e start stop cs children ih =>
    rw [preorder, List.mem_cons, mem_preorderAll] at hν
    rcases hν with rfl | ⟨c, hc, hν⟩
    · exact ⟨.construct visible f e start stop children, fun x hx => ⟨x, hx, .refl⟩⟩
    · obtain ⟨hneat, hwithin⟩ := ih c hc hν
      refine ⟨hneat, fun x hx => ?_⟩
      obtain ⟨d, hd, hxd⟩ := hwithin x hx
      refine ⟨.node f n (bareAll text cs), ?_, .child f n (mem_bareAll.2 ⟨c, hc, hd⟩) hxd⟩
      rw [bare_nonterminal text rfl rfl]
      simp

end Node

end ScenarioSyntax
