import Mathlib.Data.List.Basic
import ScenarioSyntax.Proofs.Tree.Shown

/-!
Constructs begin and end with something of their own: a comment at the edge of a construct belongs
to what is around it.
-/

namespace ScenarioSyntax

namespace Tree

/-- The first and the last child of a construct are no comments, and the end of the text is not
part of it. -/
inductive Tight : Tree → Prop
  | token {t : Terminal} (ht : t ≠ .endOfText) (s : Span) : Tight (token t s t.isExtra)
  | node (n : Nonterminal) (l : Layout) {cs : List Tree} (ne : cs ≠ [])
      (first : ∀ c ∈ cs.head?, c.isExtra = false) (last : ∀ c ∈ cs.getLast?, c.isExtra = false)
      (children : ∀ c ∈ cs, Tight c) : Tight (node (.rule n l) cs)

/-- All that is extra is a comment. -/
lemma Tight.isExtra_iff {t : Tree} (h : t.Tight) :
    t.isExtra = true ↔ t.symbol? = some (.terminal .comment) := by
  cases h with
  | token ht s => simp [isExtra, symbol?, Terminal.isExtra, ht]
  | node n l ne first last children => simp [isExtra, symbol?]

end Tree

namespace Node

/-- The nodes neither begin nor end with a comment. -/
structure Enclosed (cs : List Node) : Prop where
  ne : cs ≠ []
  first : ∀ c ∈ cs.head?, c.isComment = false
  last : ∀ c ∈ cs.getLast?, c.isComment = false

/-- No construct at or below the node begins or ends with a comment. -/
inductive Tight : Node → Prop
  | leaf (d : NodeData) : Tight (mk d [])
  | node (d : NodeData) {cs : List Node} (enclosed : Enclosed cs) (children : ∀ c ∈ cs, Tight c) :
      Tight (mk d cs)

lemma Tight.of_mem {ν c : Node} (h : ν.Tight) (hc : c ∈ ν.children) : c.Tight := by
  cases h with
  | leaf d => cases hc
  | node d enclosed children => exact children c hc

/-- Nodes that begin as enclosed ones do, and end as enclosed ones do. -/
lemma Enclosed.of_append {ns as bs cs ds : List Node} (ha : Enclosed as) (hd : Enclosed ds)
    (h : ns = as ++ bs) (h' : ns = cs ++ ds) : Enclosed ns := by
  refine ⟨by simp [h, ha.ne], fun c hc => ?_, fun c hc => ?_⟩
  · rw [h, List.head?_append_of_ne_nil _ ha.ne] at hc
    exact ha.first c hc
  · rw [h', List.getLast?_append_of_ne_nil _ hd.ne] at hc
    exact hd.last c hc

/-- A comment among enclosed nodes stands between two others. -/
lemma Enclosed.two_le_length {cs : List Node} (h : Enclosed cs) {c : Node} (hc : c ∈ cs)
    (hcomment : c.isComment = true) : 2 ≤ (cs.filter fun c => !c.isComment).length := by
  obtain ⟨a, cs, rfl⟩ := List.exists_cons_of_ne_nil h.ne
  have ha : a.isComment = false := h.first a rfl
  have hmem : c ∈ cs := by
    rcases List.mem_cons.1 hc with rfl | hc
    · rw [ha] at hcomment
      cases hcomment
    · exact hc
  obtain ⟨b, hb⟩ : ∃ b, cs.getLast? = some b :=
    Option.isSome_iff_exists.1 (List.getLast?_isSome.2 (List.ne_nil_of_mem hmem))
  have hlast : b ∈ cs.filter fun c => !c.isComment := by
    refine List.mem_filter.2 ⟨List.mem_of_getLast? hb, ?_⟩
    rw [h.last b (by simp [List.getLast?_cons, hb])]
    rfl
  have hpos := List.length_pos_of_mem hlast
  rw [List.filter_cons_of_pos (by simp [ha]), List.length_cons]
  omega

end Node

/-! ### What tight trees show -/

namespace Tree

variable {t : Tree} {cs : List Tree}

lemma exists_nodes_cons (l : Layout) (i : Nat) (t : Tree) (cs : List Tree) :
    ∃ f j, (viewAll l i (t :: cs)).nodes = (t.view f).nodes ++ (viewAll l j cs).nodes := by
  by_cases h : t.isExtra
  · exact ⟨none, i, by rw [viewAll, if_pos h, nodes_append]⟩
  · exact ⟨_, i + 1, by rw [viewAll, if_neg h, nodes_append]⟩

lemma exists_nodes_concat (l : Layout) (i : Nat) (cs : List Tree) (t : Tree) :
    ∃ f ns, (viewAll l i (cs ++ [t])).nodes = ns ++ (t.view f).nodes := by
  induction cs generalizing i with
  | nil =>
    obtain ⟨f, j, h⟩ := exists_nodes_cons l i t []
    exact ⟨f, [], by simpa [viewAll, View.empty] using h⟩
  | cons c cs ih =>
    obtain ⟨f, j, h⟩ := exists_nodes_cons l i c (cs ++ [t])
    obtain ⟨f', ns, h'⟩ := ih j
    exact ⟨f', (c.view f).nodes ++ ns, by rw [List.cons_append, h, h', List.append_assoc]⟩

/-- What a list shows is enclosed if its first and its last tree show enclosed nodes. -/
lemma enclosed_viewAll (ne : cs ≠ [])
    (first : ∀ c ∈ cs.head?, ∀ f, Node.Enclosed (c.view f).nodes)
    (last : ∀ c ∈ cs.getLast?, ∀ f, Node.Enclosed (c.view f).nodes) (l : Layout) (i : Nat) :
    Node.Enclosed (viewAll l i cs).nodes := by
  obtain ⟨c, cs', hcs⟩ := List.exists_cons_of_ne_nil ne
  obtain ⟨ds, d, hds⟩ := (List.eq_nil_or_concat' cs).resolve_left ne
  obtain ⟨f, j, hf⟩ := exists_nodes_cons l i c cs'
  obtain ⟨g, ns, hg⟩ := exists_nodes_concat l i ds d
  rw [← hcs] at hf
  rw [← hds] at hg
  exact .of_append (first c (by simp [hcs]) f) (last d (by simp [hds]) g) hf hg

/-- **What a tight tree shows** is tight, and enclosed unless it is a comment. -/
theorem Tight.view (h : t.Tight) (f : Option Field) : (∀ ν ∈ (t.view f).nodes, ν.Tight) ∧
    (t.isExtra = false → Node.Enclosed (t.view f).nodes) := by
  induction h generalizing f with
  | @token t ht s =>
    have hv : t.isVisible = true := by simpa [Terminal.isVisible] using ht
    simp only [Tree.view, hv, if_true, List.mem_singleton, forall_eq]
    refine ⟨.leaf _, fun he => ?_⟩
    have hc : t ≠ .comment := by
      rintro rfl
      cases he
    exact ⟨by simp, by simp [Node.isComment, Node.data, hc],
      by simp [Node.isComment, Node.data, hc]⟩
  | @node n l cs ne first last _ ih =>
    have hall : ∀ ν ∈ (viewAll l 0 cs).nodes, ν.Tight := by
      intro ν hν
      obtain ⟨c, hc, g, -, hg⟩ := mem_viewAll hν
      exact (ih c hc g).1 ν hg
    have hencl := enclosed_viewAll ne
      (fun c hc g => (ih c (List.mem_of_mem_head? hc) g).2 (first c hc))
      (fun c hc g => (ih c (List.mem_of_mem_getLast? hc) g).2 (last c hc)) l 0
    by_cases hv : n.isVisible
    · simp only [Tree.view, hv, if_true, View.wrap, List.mem_singleton, forall_eq]
      refine ⟨.node _ hencl hall, fun _ => ⟨by simp, ?_, ?_⟩⟩
      · simp [Node.isComment, Node.data]
      · simp [Node.isComment, Node.data]
    · simp only [Tree.view, hv]
      exact ⟨hall, fun _ => hencl⟩

end Tree

end ScenarioSyntax
