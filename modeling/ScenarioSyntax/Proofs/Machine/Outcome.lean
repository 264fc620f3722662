import ScenarioSyntax.Proofs.Automaton.Completeness
import ScenarioSyntax.Proofs.Automaton.Viable
import ScenarioSyntax.Proofs.Machine.Tracks

/-!
How a run of the parser ends: with the file that the tokens taken make up, or at a token that
cannot stand behind them.
-/

namespace ScenarioSyntax

open Automaton Table

variable {α : Type}

namespace Automaton

/-- The automaton is at rest where there is no action. -/
lemma atRest_of_none {st : List (Frame α)} {inp : List (Terminal × α)}
    (h : action? (top st) (ahead inp) = none) : AtRest ⟨st, inp⟩ := by
  simp [AtRest, h]

/-- No file has tokens on which the automaton comes to rest before it accepts. -/
lemma ne_tokens_of_rest {st : List (Frame α)} {u inp : List (Terminal × α)}
    (h : Steps ⟨[], u ++ inp⟩ ⟨st, inp⟩) (hn : action? (top st) (ahead inp) = none) {d : Ast α}
    (hd : d.IsFile) : d.tokens ≠ u ++ inp := by
  intro he
  obtain ⟨g, hg, -⟩ := steps_of_isFile hd
  rw [he] at hg
  obtain ⟨rfl, rfl⟩ : st = [⟨9, g⟩] ∧ inp = [] := by
    simpa using h.eq_of_atRest hg (atRest_of_none hn) (atRest_accept g)
  rw [top_cons, ahead_nil, action?_accept] at hn
  cases hn

end Automaton

namespace Event

lemma taken_error (t : Option Lookahead) (es : List Event) (p : Nat) :
    taken t (es ++ [.error p]) = taken t es := by
  induction es generalizing t with
  | nil => rfl
  | cons e es ih => cases e <;> simp [taken, ih]

lemma taken_accept (t : Option Lookahead) (es : List Event) :
    taken t (es ++ [.accept]) = taken t es := by
  induction es generalizing t with
  | nil => rfl
  | cons e es ih => cases e <;> simp [taken, ih]

end Event

namespace Machine

variable {scan : Scanner} {text : Nat → Nat → α} {m m' : Machine} {ts : List Lookahead}
  {es : List Event}

theorem Tracks.of_reaches (hs : scan.Honest) (h : Tracks scan text m ts)
    (hr : Reaches scan m es m') : Tracks scan text m' (ts ++ Event.taken m.ahead es) :=
  hr.preserves (fun h hm => h.step hs hm) h

/-! ### The parser is stuck -/

theorem tracks_of_stuck (hs : scan.Honest) (text : Nat → Nat → α) {fuel : Nat}
    (h : run scan fuel init = (es, .stuck m)) : ∃ es' t, es = es' ++ [.error m.pos] ∧
      (∀ p, .error p ∉ es') ∧ Tracks scan text m (Event.taken none es') ∧
      m.ahead = some t ∧ m.Refuses t := by
  rcases exists_of_run h with ⟨m', ho, -⟩ | ⟨es', e, m', rfl, hr, hlast, -⟩
  · simp at ho
  · have ht := (tracks_init scan text).of_reaches hs hr
    cases turn_of_step hlast with
    | @error t ahead refuses => exact ⟨es', t, rfl, hr.error_notMem, ht, ahead, refuses⟩

theorem error_notMem_of_accepted {fuel : Nat} {tree : Tree}
    (h : run scan fuel init = (es, .accepted tree)) (p : Nat) : .error p ∉ es := by
  rcases exists_of_run h with ⟨m', ho, -⟩ | ⟨es', e, m', rfl, hr, hlast, -⟩
  · simp at ho
  · intro hmem
    rcases List.mem_append.1 hmem with hmem | hmem
    · exact hr.error_notMem p hmem
    · obtain rfl := List.mem_singleton.1 hmem
      cases turn_of_step hlast

namespace Tracks

/-- What has been taken begins a file. -/
theorem viable [Inhabited α] (h : Tracks scan text m ts) :
    ∃ (d : Ast α) (w : List (Terminal × α)), d.IsFile ∧ d.tokens = kept text ts ++ w :=
  h.valid.viable

/-- The token that is refused cannot stand behind what has been taken. -/
theorem ne_tokens (h : Tracks scan text m ts) {t : Lookahead} (ht : m.ahead = some t)
    (hr : m.Refuses t) {k : Terminal} (hk : t.kind? = some k) {inp : List (Terminal × α)}
    (hinp : Automaton.ahead inp = k) {d : Ast α} (hd : d.IsFile) :
    d.tokens ≠ kept text ts ++ inp := by
  have hsees : m.Sees inp := fun t' k' ht' hk' _ => by
    obtain rfl : t = t' := by simpa [ht] using ht'
    simpa [hinp, hk] using hk'
  refine ne_tokens_of_rest (h.steps inp hsees) ?_ hd
  rw [h.top_eq, hinp]
  exact h.action?_eq_none hr hk

end Tracks

/-! ### The parser accepts -/

/-- A stack that stands for one frame holds one tree besides comments. -/
lemma exists_of_frames_eq {st : Stack} {f : Frame α} (h : st.frames text = [f]) :
    ∃ front back e, st = front ++ e :: back ∧ (∀ x ∈ front, x.tree.isExtra = true) ∧
      (∀ x ∈ back, x.tree.isExtra = true) ∧ e.tree.isExtra = false ∧
      f = ⟨e.state, e.tree.growth text⟩ := by
  obtain ⟨e, he, rfl⟩ := List.map_eq_singleton_iff.1 h
  have hfilter := List.filter_eq_cons_iff.1 he
  obtain ⟨front, back, rfl, hfront, hextra, hback⟩ := hfilter
  refine ⟨front, back, e, rfl, ?_, ?_, by simpa using hextra, rfl⟩
  · simpa using hfront
  · simpa [List.filter_eq_nil_iff] using hback

/-- The root is the one tree on the stack with the comments around it. -/
lemma root_eq {front back : List Tree} {l : Label} {cs : List Tree}
    (hf : ∀ t ∈ front, t.isExtra = true) (hn : (Tree.node l cs).isExtra = false) :
    Tree.root (back ++ .node l cs :: front) = .node l (back ++ cs ++ front) := by
  have htake : (front.reverse ++ Tree.node l cs :: back.reverse).takeWhile Tree.isExtra =
      front.reverse := by
    rw [List.takeWhile_append_of_pos (by simpa using hf), List.takeWhile_cons_of_neg (by simp [hn])]
    simp
  have hdrop : (front.reverse ++ Tree.node l cs :: back.reverse).dropWhile Tree.isExtra =
      Tree.node l cs :: back.reverse := by
    rw [List.dropWhile_append_of_pos (by simpa using hf), List.dropWhile_cons_of_neg (by simp [hn])]
  simp [Tree.root, Tree.splitTrailing, htake, hdrop]

lemma bare_toNode {n : Nonterminal} (hn : n.isVisible = true) (l : Layout) (cs : List Tree) :
    (Tree.node (.rule n l) cs).toNode.bare text = (Tree.node (.rule n l) cs).growth text none := by
  simp [Tree.toNode, Tree.growth, Tree.view, hn, View.wrap]

lemma filter_eq_nil_of_extra {ts : List Tree} (h : ∀ t ∈ ts, t.isExtra = true) :
    (ts.filter fun t => !t.isExtra) = [] := by
  simpa [List.filter_eq_nil_iff] using h

/-- When a whole file has been read, the root stands for it. -/
lemma root_of_frames {st : Stack} (hfits : st.Fits) {s : StateId} {g : Growth α}
    (hst : st.frames text = [⟨s, g⟩])
    (hs : (progress s).done.head? = some (.nonterminal .sourceFile)) {leaf : Tree}
    (hleaf : leaf.Clean) (hextra : leaf.isExtra = true) {tree : Tree}
    (htree : tree = Tree.root (st.push start leaf).trees) :
    tree.toNode.bare text = g none ∧ tree.Clean ∧
      tree.symbol? = some (.nonterminal .sourceFile) := by
  obtain ⟨front, back, e, rfl, hfront, hback, he, hf⟩ := exists_of_frames_eq hst
  obtain ⟨rfl, rfl⟩ : s = e.state ∧ g = e.tree.growth text := by simpa using hf
  obtain ⟨hclean, hsym⟩ := hfits e (by simp)
  obtain ⟨l, cs, hnode⟩ := Tree.eq_node_of_symbol? (hsym he _ hs)
  rw [hnode] at he hclean
  have htrailing : ∀ t ∈ (front.map (·.tree)).reverse ++ [leaf], t.isExtra = true ∧ t.Clean := by
    intro t ht
    rcases List.mem_append.1 ht with ht | ht
    · obtain ⟨x, hx, rfl⟩ := List.mem_map.1 (List.mem_reverse.1 ht)
      exact ⟨hfront x hx, (hfits x (by simp [hx])).1⟩
    · obtain rfl : t = leaf := by simpa using ht
      exact ⟨hextra, hleaf⟩
  have hleading : ∀ t ∈ (back.map (·.tree)).reverse, t.isExtra = true ∧ t.Clean := by
    intro t ht
    obtain ⟨x, hx, rfl⟩ := List.mem_map.1 (List.mem_reverse.1 ht)
    exact ⟨hback x hx, (hfits x (by simp [hx])).1⟩
  have htrees : (Stack.push (front ++ e :: back) start leaf).trees =
      (back.map (·.tree)).reverse ++
        .node (.rule .sourceFile l) cs :: ((front.map (·.tree)).reverse ++ [leaf]) := by
    simp [Stack.push, Stack.trees, hnode]
  rw [htrees, root_eq (fun t ht => (htrailing t ht).1) he] at htree
  subst htree
  refine ⟨?_, .node _ l fun t ht => ?_, rfl⟩
  · rw [bare_toNode rfl, Tree.growth_node, List.filter_append, List.filter_append,
      filter_eq_nil_of_extra fun t ht => (hleading t ht).1,
      filter_eq_nil_of_extra fun t ht => (htrailing t ht).1, hnode, Tree.growth_node]
    simp
  · rcases List.mem_append.1 ht with ht | ht
    · rcases List.mem_append.1 ht with ht | ht
      · exact (hleading t ht).2
      · cases hclean with
        | node _ _ children => exact children t ht
    · exact (htrailing t ht).2

/-- **The tree of a text that is accepted**, without its comments, is the file that the tokens
make up. -/
theorem exists_isFile_of_accepted (hs : scan.Honest) (text : Nat → Nat → α) {fuel : Nat}
    {tree : Tree} (h : run scan fuel init = (es, .accepted tree)) :
    ∃ m t d, Tracks scan text m (Event.taken none es) ∧ m.ahead = some t ∧
      t.kind? = some .endOfText ∧ d.IsFile ∧ d.tokens = kept text (Event.taken none es) ∧
      tree.toNode.bare text = [d] ∧ tree.Clean ∧
      tree.symbol? = some (.nonterminal .sourceFile) := by
  rcases exists_of_run h with ⟨m', ho, -⟩ | ⟨es', e, m, rfl, hr, hlast, -⟩
  · simp at ho
  have ht := (tracks_init scan text).of_reaches hs hr
  cases turn_of_step hlast with
  | @accept t k ahead kind action =>
    rw [Event.taken_accept]
    obtain ⟨rfl, hp⟩ := progress_of_accept action
    obtain ⟨s, g, d, hst, hg, hd, htok⟩ := ht.valid.isFile_of_accept (by rwa [ht.top_eq])
    have hstate : m.state = s := by rw [← ht.top_eq, hst, top_cons]
    have hleaf := ht.leaf_eq hs ahead kind
    have hclean : t.leaf.Clean := by
      rw [hleaf]
      exact .token .endOfText t.span
    obtain ⟨hbare, hc, hsym⟩ := root_of_frames ht.fits hst (by simp [← hstate, hp]) hclean
      (by simp [hleaf, Tree.isExtra]) rfl
    exact ⟨m, t, d, ht, ahead, kind, hd, htok, hbare.trans hg, hc, hsym⟩

end Machine

end ScenarioSyntax
