import ScenarioSyntax.Proofs.Tree.Tight

/-!
The tokens at the bottom of a tree, in the order of the text. They show as the nodes without
children, and every other node reaches from the first of them below it to the last.
-/

namespace ScenarioSyntax

namespace Tree

mutual

/-- The tokens of a tree with their places, hidden ones among them. -/
def fringe : Tree → List (Terminal × Span)
  | token k s _ => [(k, s)]
  | missing _ _ => []
  | stray _ _ => []
  | node _ cs => fringeAll cs

def fringeAll : List Tree → List (Terminal × Span)
  | [] => []
  | t :: ts => t.fringe ++ fringeAll ts

end

lemma fringeAll_append (ts us : List Tree) :
    fringeAll (ts ++ us) = fringeAll ts ++ fringeAll us := by
  induction ts with
  | nil => rfl
  | cons t ts ih => rw [List.cons_append, fringeAll, fringeAll, ih, List.append_assoc]

lemma mem_fringeAll {ts : List Tree} {x : Terminal × Span} :
    x ∈ fringeAll ts ↔ ∃ t ∈ ts, x ∈ t.fringe := by
  induction ts with
  | nil => simp [fringeAll]
  | cons t ts ih => simp [fringeAll, ih]

lemma fringeAll_singleton (t : Tree) : fringeAll [t] = t.fringe := List.append_nil _

lemma fringe_withExtra (e : Bool) (t : Tree) : (t.withExtra e).fringe = t.fringe := by
  cases t <;> rfl

/-! ### The stretch that tokens cover -/

/-- The stretch from the beginning of the first of two stretches, if there are two. -/
def join? : Option Span → Option Span → Option Span
  | some s, some t => some (s.join t)
  | some s, none => some s
  | none, s => s

lemma join?_assoc (a b c : Option Span) : join? (join? a b) c = join? a (join? b c) := by
  cases a <;> cases b <;> cases c <;> rfl

lemma span_append (v w : View) : (v.append w).span = join? v.span w.span := by
  rw [View.append]
  cases v.span <;> cases w.span <;> rfl

/-- The stretch from the first of some tokens to the last. -/
def hull : List (Terminal × Span) → Option Span
  | [] => none
  | a :: ls => join? (some a.2) (hull ls)

lemma hull_append (ls ms : List (Terminal × Span)) :
    hull (ls ++ ms) = join? (hull ls) (hull ms) := by
  induction ls with
  | nil => rfl
  | cons a ls ih => rw [List.cons_append, hull, hull, ih, join?_assoc]

lemma exists_hull {ls : List (Terminal × Span)} (h : ls ≠ []) : ∃ s, hull ls = some s := by
  obtain ⟨a, ls, rfl⟩ := List.exists_cons_of_ne_nil h
  rw [hull]
  cases hull ls <;> exact ⟨_, rfl⟩

lemma head?_eq_of_hull {ls : List (Terminal × Span)} {s : Span} (h : hull ls = some s) :
    ∃ a, ls.head? = some a ∧ a.2.start = s.start := by
  cases ls with
  | nil => cases h
  | cons a ls =>
    refine ⟨a, rfl, ?_⟩
    rw [hull] at h
    cases hl : hull ls <;> rw [hl] at h <;> cases h <;> rfl

lemma getLast?_eq_of_hull {ls : List (Terminal × Span)} {s : Span} (h : hull ls = some s) :
    ∃ a, ls.getLast? = some a ∧ a.2.stop = s.stop := by
  induction ls generalizing s with
  | nil => cases h
  | cons a ls ih =>
    rw [hull] at h
    rcases hl : hull ls with _ | t <;> rw [hl] at h <;> cases h
    · cases ls with
      | nil => exact ⟨a, rfl, rfl⟩
      | cons b ls =>
        obtain ⟨s, hs⟩ := exists_hull (List.cons_ne_nil b ls)
        rw [hl] at hs
        cases hs
    · obtain ⟨b, hb, hstop⟩ := ih hl
      exact ⟨b, by rw [List.getLast?_cons, hb]; rfl, hstop⟩

lemma span_viewAll {cs : List Tree} (h : ∀ c ∈ cs, ∀ f, (c.view f).span = hull c.fringe)
    (l : Layout) (i : Nat) : (viewAll l i cs).span = hull (fringeAll cs) := by
  induction cs generalizing i with
  | nil => rfl
  | cons c cs ih =>
    have ih := fun i => ih (fun c hc => h c (List.mem_cons_of_mem _ hc)) i
    rw [fringeAll, hull_append]
    by_cases he : c.isExtra
    · rw [viewAll, if_pos he, span_append, ih, h c List.mem_cons_self]
    · rw [viewAll, if_neg he, span_append, ih, h c List.mem_cons_self]

/-- A tree covers the text from its first token to its last. -/
theorem Clean.span_view {t : Tree} (h : t.Clean) (f : Option Field) :
    (t.view f).span = hull t.fringe := by
  induction h generalizing f with
  | token k s =>
    have : ((Tree.token k s k.isExtra).view f).span = some s := by
      rw [Tree.view]
      split <;> rfl
    rw [this]
    rfl
  | @node n l cs _ ih =>
    have : ((Tree.node (.rule n l) cs).view f).span = (viewAll l 0 cs).span := by
      rw [Tree.view]
      split <;> rfl
    rw [this, span_viewAll ih, fringe]

end Tree

/-! ### Leaves -/

namespace Node

/-- The nodes without children, in the order of the text. -/
def leavesAll (ns : List Node) : List Node := (preorderAll ns).filter fun n => n.children.isEmpty

def leaves (ν : Node) : List Node := ν.preorder.filter fun n => n.children.isEmpty

@[simp] lemma leavesAll_nil : leavesAll [] = [] := rfl

@[simp] lemma leavesAll_cons (n : Node) (ns : List Node) :
    leavesAll (n :: ns) = n.leaves ++ leavesAll ns := by
  rw [leavesAll, preorderAll, List.filter_append, leaves, leavesAll]

@[simp] lemma leavesAll_append (ms ns : List Node) :
    leavesAll (ms ++ ns) = leavesAll ms ++ leavesAll ns := by
  induction ms with
  | nil => rfl
  | cons m ms ih => rw [List.cons_append, leavesAll_cons, leavesAll_cons, ih, List.append_assoc]

@[simp] lemma leaves_of_nil (d : NodeData) : (mk d []).leaves = [mk d []] := rfl

lemma leaves_of_ne_nil (d : NodeData) {cs : List Node} (h : cs ≠ []) :
    (mk d cs).leaves = leavesAll cs := by
  rw [leaves, preorder, List.filter_cons_of_neg (by simpa [children] using h), leavesAll]

/-- What the node shows of the text, and where. -/
def extent (ν : Node) : Kind × Nat × Nat := (ν.data.kind, ν.start, ν.stop)

/-- The node reaches from its first leaf to its last, and begins and ends with something of its
own: the two are comments only if the node is one itself. -/
structure Wraps (ν : Node) : Prop where
  exists_first : ∃ l, ν.leaves.head? = some l ∧ l.start = ν.start ∧
    (l.isComment = true → ν.isComment = true)
  exists_last : ∃ l, ν.leaves.getLast? = some l ∧ l.stop = ν.stop ∧
    (l.isComment = true → ν.isComment = true)

/-- The leaves at the two ends of a node are comments only if the node is one. -/
lemma Tight.edges {ν : Node} (h : ν.Tight) :
    (∃ l, ν.leaves.head? = some l ∧ (l.isComment = true → ν.isComment = true)) ∧
      ∃ l, ν.leaves.getLast? = some l ∧ (l.isComment = true → ν.isComment = true) := by
  induction h with
  | leaf d => exact ⟨⟨_, rfl, id⟩, _, rfl, id⟩
  | @node d cs enclosed children ih =>
    rw [leaves_of_ne_nil d enclosed.ne]
    constructor
    · obtain ⟨c, cs', rfl⟩ := List.exists_cons_of_ne_nil enclosed.ne
      obtain ⟨⟨l, hl, hcomment⟩, -⟩ := ih c List.mem_cons_self
      refine ⟨l, by rw [leavesAll_cons, List.head?_append, hl]; rfl, fun h => ?_⟩
      rw [enclosed.first c rfl] at hcomment
      cases hcomment h
    · obtain ⟨cs', c, rfl⟩ := (List.eq_nil_or_concat' cs).resolve_left enclosed.ne
      obtain ⟨-, l, hl, hcomment⟩ := ih c (by simp)
      refine ⟨l, ?_, fun h => ?_⟩
      · rw [leavesAll_append, leavesAll_cons, leavesAll_nil, List.append_nil,
          List.getLast?_append, hl]
        rfl
      · rw [enclosed.last c (by simp)] at hcomment
        cases hcomment h

/-- What shows of a token. -/
def extentOf (x : Terminal × Span) : Kind × Nat × Nat :=
  (.symbol (.terminal x.1), x.2.start, x.2.stop)

lemma Tight.wraps {ν : Node} (h : ν.Tight) {ls : List (Terminal × Span)}
    (hl : ν.leaves.map extent = ls.map extentOf) {s : Span} (hs : Tree.hull ls = some s)
    (hstart : ν.start = s.start) (hstop : ν.stop = s.stop) : ν.Wraps := by
  obtain ⟨⟨l, hfirst, hedge⟩, l', hlast, hedge'⟩ := h.edges
  obtain ⟨a, ha, hastart⟩ := Tree.head?_eq_of_hull hs
  obtain ⟨b, hb, hbstop⟩ := Tree.getLast?_eq_of_hull hs
  have hfirst' : l.extent = extentOf a := by
    have := congrArg List.head? hl
    simpa [hfirst, ha] using this
  have hlast' : l'.extent = extentOf b := by
    have := congrArg List.getLast? hl
    simpa [hlast, hb] using this
  have hl : l.start = a.2.start := congrArg (·.2.1) hfirst'
  have hl' : l'.stop = b.2.stop := congrArg (·.2.2) hlast'
  exact ⟨⟨l, hfirst, by rw [hl, hastart, hstart], hedge⟩,
    l', hlast, by rw [hl', hbstop, hstop], hedge'⟩

lemma mem_preorderAll_viewAll {cs : List Tree} {l : Layout} {i : Nat} {ν : Node}
    (h : ν ∈ preorderAll (Tree.viewAll l i cs).nodes) :
    ∃ c ∈ cs, ∃ f, ν ∈ preorderAll (c.view f).nodes := by
  obtain ⟨μ, hμ, hν⟩ := mem_preorderAll.1 h
  obtain ⟨c, hc, f, -, hshown⟩ := Tree.mem_viewAll hμ
  exact ⟨c, hc, f, mem_preorderAll.2 ⟨μ, hshown, hν⟩⟩

end Node

namespace Tree

/-- The tokens that show. -/
def shown (ls : List (Terminal × Span)) : List (Terminal × Span) := ls.filter (·.1.isVisible)

lemma shown_append (ls ms : List (Terminal × Span)) : shown (ls ++ ms) = shown ls ++ shown ms :=
  List.filter_append ..

lemma leaves_viewAll {cs : List Tree} (h : ∀ c ∈ cs, ∀ f,
      (Node.leavesAll (c.view f).nodes).map Node.extent = (shown c.fringe).map Node.extentOf)
    (l : Layout) (i : Nat) : (Node.leavesAll (viewAll l i cs).nodes).map Node.extent =
      (shown (fringeAll cs)).map Node.extentOf := by
  induction cs generalizing i with
  | nil => rfl
  | cons c cs ih =>
    obtain ⟨f, j, heq⟩ := exists_nodes_cons l i c cs
    rw [heq, Node.leavesAll_append, List.map_append, h c List.mem_cons_self,
      ih (fun c hc => h c (List.mem_cons_of_mem _ hc)), fringeAll, shown_append, List.map_append]

lemma enclosed_of_children {cs : List Tree} (ne : cs ≠ [])
    (first : ∀ c ∈ cs.head?, c.isExtra = false) (last : ∀ c ∈ cs.getLast?, c.isExtra = false)
    (children : ∀ c ∈ cs, Tight c) (l : Layout) (i : Nat) :
    Node.Enclosed (viewAll l i cs).nodes :=
  enclosed_viewAll ne
    (fun c hc g => ((children c (List.mem_of_mem_head? hc)).view g).2 (first c hc))
    (fun c hc g => ((children c (List.mem_of_mem_getLast? hc)).view g).2 (last c hc)) l i

namespace Tight

variable {t : Tree}

lemma clean (h : t.Tight) : t.Clean := by
  induction h with
  | token _ s => exact .token _ s
  | node n l _ _ _ _ ih => exact .node n l ih

/-- All tokens show. -/
lemma shown_fringe (h : t.Tight) : shown t.fringe = t.fringe := by
  rw [shown, List.filter_eq_self]
  induction h with
  | @token k hk s => simpa [fringe, Terminal.isVisible] using hk
  | node n l _ _ _ _ ih =>
    intro x hx
    obtain ⟨c, hc, hx⟩ := mem_fringeAll.1 hx
    exact ih c hc x hx

/-- **The leaves** that a tight tree shows are its tokens. -/
theorem leaves_view (h : t.Tight) (f : Option Field) :
    (Node.leavesAll (t.view f).nodes).map Node.extent = (shown t.fringe).map Node.extentOf := by
  induction h generalizing f with
  | @token k hk s =>
    have hv : k.isVisible = true := by simpa [Terminal.isVisible] using hk
    simp [Tree.view, hv, fringe, shown, Node.extent, Node.extentOf, Node.data, Node.start,
      Node.stop]
  | @node n l cs ne first last children ih =>
    rw [fringe, ← leaves_viewAll ih l 0]
    by_cases hv : n.isVisible
    · have hencl := enclosed_of_children ne first last children l 0
      simp [Tree.view, hv, View.wrap, Node.leaves_of_ne_nil _ hencl.ne]
    · simp [Tree.view, hv]

/-- A node around the whole tree wraps its leaves. -/
lemma wraps_of_view (h : t.Tight) {f : Option Field} {ν : Node} (hν : (t.view f).nodes = [ν])
    (hstart : ν.start = ((t.view f).span.getD ⟨0, 0, 0⟩).start)
    (hstop : ν.stop = ((t.view f).span.getD ⟨0, 0, 0⟩).stop) : ν.Wraps := by
  have hleaves := h.leaves_view f
  have htight := (h.view f).1 ν (by simp [hν])
  rw [hν, Node.leavesAll_cons, Node.leavesAll_nil, List.append_nil, h.shown_fringe] at hleaves
  rw [h.clean.span_view] at hstart hstop
  have hne : t.fringe ≠ [] := by
    obtain ⟨⟨l, hl, -⟩, -⟩ := htight.edges
    intro hnil
    rw [hnil, List.map_nil, List.map_eq_nil_iff] at hleaves
    rw [hleaves] at hl
    cases hl
  obtain ⟨s, hs⟩ := exists_hull hne
  rw [hs] at hstart hstop
  exact htight.wraps hleaves hs hstart hstop

/-- **Every node** that a tight tree shows wraps its leaves. -/
theorem wraps_view (h : t.Tight) (f : Option Field) :
    ∀ ν ∈ Node.preorderAll (t.view f).nodes, ν.Wraps := by
  have htight := h
  induction h generalizing f with
  | @token k hk s =>
    have hv : k.isVisible = true := by simpa [Terminal.isVisible] using hk
    intro ν hν
    have hnodes : ((Tree.token k s k.isExtra).view f).nodes = [ν] := by
      simpa [Tree.view, hv, Node.preorderAll, Node.preorder, eq_comm] using hν
    refine htight.wraps_of_view hnodes ?_ ?_ <;>
    · simp only [Tree.view, hv, if_true, List.cons.injEq, and_true] at hnodes ⊢
      rw [← hnodes]
      rfl
  | @node n l cs ne first last children ih =>
    intro ν hν
    have below : ν ∈ Node.preorderAll (viewAll l 0 cs).nodes → ν.Wraps := by
      intro h
      obtain ⟨c, hc, g, h⟩ := Node.mem_preorderAll_viewAll h
      exact ih c hc g (children c hc) ν h
    by_cases hv : n.isVisible
    · have hview : (Tree.node (.rule n l) cs).view f =
          (viewAll l 0 cs).wrap (.symbol (.nonterminal n)) f false (anyError cs) := by
        rw [Tree.view, if_pos hv]
      rw [hview, View.wrap, Node.preorderAll, Node.preorderAll, List.append_nil, Node.preorder,
        List.mem_cons] at hν
      rcases hν with rfl | hν
      · exact htight.wraps_of_view (by rw [hview]; rfl) (by rw [hview]; rfl) (by rw [hview]; rfl)
      · exact below hν
    · rw [Tree.view, if_neg hv] at hν
      exact below hν

end Tight

/-! ### Below the root -/

section Root

variable {cs : List Tree} (h : ∀ c ∈ cs, c.Tight ∨ c.symbol? = some (.terminal .endOfText))
include h

lemma leaves_viewAll_of_tight (l : Layout) (i : Nat) :
    (Node.leavesAll (viewAll l i cs).nodes).map Node.extent =
      (shown (fringeAll cs)).map Node.extentOf := by
  refine leaves_viewAll (fun c hc f => ?_) l i
  rcases h c hc with htight | hend
  · exact htight.leaves_view f
  · obtain ⟨s, e, rfl⟩ := eq_token_of_symbol? hend
    rfl

lemma wraps_viewAll_of_tight (l : Layout) (i : Nat) :
    ∀ ν ∈ Node.preorderAll (viewAll l i cs).nodes, ν.Wraps := by
  intro ν hν
  obtain ⟨c, hc, f, hν⟩ := Node.mem_preorderAll_viewAll hν
  rcases h c hc with htight | hend
  · exact htight.wraps_view f ν hν
  · obtain ⟨s, e, rfl⟩ := eq_token_of_symbol? hend
    cases hν

end Root

end Tree

end ScenarioSyntax
