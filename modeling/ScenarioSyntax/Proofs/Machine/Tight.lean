import ScenarioSyntax.Proofs.Machine.Outcome
import ScenarioSyntax.Proofs.Tree.Tight

/-!
The trees that the parser builds are tight. A reduction takes entries off until it has found all
the children that count, so the first one counts, and it leaves the comments behind the last one
outside.
-/

namespace ScenarioSyntax

open Automaton Table

lemma Tree.isExtra_of_getLast?_body {ts : List Tree} :
    ∀ c ∈ (splitTrailing ts).1.getLast?, c.isExtra = false := by
  intro c hc
  rw [splitTrailing, List.getLast?_reverse] at hc
  have h := List.head?_dropWhile_not isExtra ts.reverse
  rw [Option.mem_def.1 hc] at h
  exact h

namespace Stack

/-- The entries that count as children of a production. -/
def proper (st : Stack) : Stack := st.filter fun e => !e.tree.isExtra

def Tight (st : Stack) : Prop := ∀ e ∈ st, e.tree.Tight

lemma frames_eq_map {α : Type} (text : Nat → Nat → α) (st : Stack) :
    st.frames text = st.proper.map fun e => ⟨e.state, e.tree.growth text⟩ := rfl

lemma length_frames {α : Type} (text : Nat → Nat → α) (st : Stack) :
    (st.frames text).length = st.proper.length := by rw [frames_eq_map, List.length_map]

lemma exists_pop_cons {n : Nat} {st : Stack} (hn : 0 < n) (h : n ≤ st.proper.length)
    (ts : List Tree) : ∃ t ts', (pop n st ts).1 = t :: ts' ∧ t.isExtra = false := by
  induction st generalizing n ts with
  | nil =>
    simp only [proper, List.filter_nil, List.length_nil] at h
    omega
  | cons e st ih =>
    obtain ⟨n, rfl⟩ := Nat.exists_eq_succ_of_ne_zero hn.ne'
    by_cases he : e.tree.isExtra
    · simp only [pop, he, if_true]
      exact ih hn (by simpa [proper, he] using h) _
    · simp only [pop, he]
      rcases n.eq_zero_or_pos with rfl | hpos
      · exact ⟨e.tree, ts, by simp [pop], by simpa using he⟩
      · exact ih hpos (by simpa [proper, he] using h) _

lemma Tight.push {st : Stack} (h : st.Tight) {s : StateId} {t : Tree} (ht : t.Tight) :
    (st.push s t).Tight := by
  intro e he
  rcases List.mem_cons.1 he with rfl | he
  · exact ht
  · exact h e he

lemma Tight.foldl_push {st : Stack} (h : st.Tight) {s : StateId} {ts : List Tree}
    (hts : ∀ t ∈ ts, t.Tight) : Tight (ts.foldl (fun st t => st.push s t) st) := by
  induction ts generalizing st with
  | nil => exact h
  | cons t ts ih => exact ih (h.push (hts t (by simp))) fun t ht => hts t (by simp [ht])

/-- A reduction builds a tight tree from tight trees. -/
lemma Tight.reduce {st : Stack} (h : st.Tight) {n : Nonterminal} {k : Nat} {l : Layout}
    (hk : 0 < k) (hle : k ≤ st.proper.length) : (st.reduce n k l).Tight := by
  obtain ⟨ts, rest, hp⟩ : ∃ ts rest, pop k st [] = (ts, rest) := ⟨_, _, rfl⟩
  obtain ⟨hts, hrest⟩ := pop_subset k st []
  obtain ⟨t, ts', hcons, ht⟩ := exists_pop_cons hk hle []
  rw [hp] at hts hrest hcons
  dsimp only at hts hrest hcons
  have htight : ∀ t ∈ ts, t.Tight := by
    intro t ht
    obtain ⟨e, he, rfl⟩ := (hts t ht).resolve_left (by simp)
    exact h e he
  have happend := splitTrailing_append ts
  have hne : (Tree.splitTrailing ts).1 ≠ [] := by
    intro hnil
    have hmem : t ∈ (Tree.splitTrailing ts).1.filter fun t => !t.isExtra := by
      rw [filter_splitTrailing, hcons]
      simp [ht]
    simp [hnil] at hmem
  have hfirst : ∀ c ∈ (Tree.splitTrailing ts).1.head?, c.isExtra = false := by
    intro c hc
    rw [← List.head?_append_of_ne_nil _ hne, happend, hcons] at hc
    obtain rfl : t = c := by simpa using hc
    exact ht
  have hnode : (Tree.node (.rule n l) (Tree.splitTrailing ts).1).Tight := by
    refine .node n l hne hfirst Tree.isExtra_of_getLast?_body fun c hc => htight c ?_
    rw [← happend]
    exact List.mem_append_left _ hc
  rw [Stack.reduce, hp]
  refine Tight.foldl_push (Tight.push (fun e he => h e (hrest e he)) hnode) fun c hc => htight c ?_
  rw [← happend]
  exact List.mem_append_right _ hc

end Stack

namespace Machine

variable {α : Type} {scan : Scanner} {text : Nat → Nat → α} {m m' : Machine}
  {ts : List Lookahead} {es : List Event}

namespace Tracks

/-- A step keeps the stack tight. -/
theorem tight_step (hs : scan.Honest) (h : Tracks scan text m ts) (ht : m.stack.Tight) {e : Event}
    (hm : m.step scan = (e, .running m')) : m'.stack.Tight := by
  cases turn_of_step hm with
  | read ahead => exact ht
  | @shift t k s ahead kind action =>
    have hend := ne_endOfText_of_shift action
    have hextra : k.isExtra = false := by
      simp [Terminal.isExtra, hend, ne_comment_of_action action (by simp)]
    refine ht.push ?_
    rw [h.leaf_shift hs ahead kind, ← hextra]
    exact .token hend t.span
  | @extra t k ahead kind action =>
    obtain rfl := eq_comment_of_extra action
    refine ht.push ?_
    rw [h.leaf_extra hs ahead kind]
    exact .token (t := .comment) (by simp) t.span
  | @reduce t k n a l ahead kind action =>
    obtain ⟨done, -, hlen, hmem⟩ := progress_of_reduce action
    have hpos : 0 < a := by
      rw [← hlen]
      refine List.length_pos_iff.2 ?_
      rintro rfl
      exact Grammar.ne_nil_of_mem_productions hmem rfl
    exact ht.reduce hpos (by rw [← Stack.length_frames text]; exact h.arity_le action)
  | asIdentifier ahead kind refuses wordlike ne wants => exact ht

end Tracks

theorem tight_of_reaches (hs : scan.Honest) (hr : Reaches scan init es m) : m.stack.Tight := by
  have hinit : Tracks scan (fun _ _ => ()) init [] ∧ init.stack.Tight :=
    ⟨tracks_init scan _, by simp [init, Stack.Tight]⟩
  exact (hr.preserves (I := fun m ts => Tracks scan (fun _ _ => ()) m ts ∧ m.stack.Tight)
    (fun h hm => ⟨h.1.step hs hm, h.1.tight_step hs h.2 hm⟩) hinit).2

/-! ### The root -/

lemma mem_children_root {ts : List Tree} {c : Tree} (h : c ∈ (Tree.root ts).children) :
    c ∈ ts ∨ ∃ l cs, .node l cs ∈ ts ∧ c ∈ cs := by
  have happend := Stack.splitTrailing_append ts
  unfold Tree.root at h
  split at h
  rename_i body trailing hsplit
  rw [hsplit] at happend
  split at h
  · rename_i l cs hlast
    simp only [Tree.children, List.mem_append] at h
    rcases h with (h | h) | h
    · left
      rw [← happend]
      exact List.mem_append_left _ (List.dropLast_subset _ h)
    · right
      refine ⟨l, cs, ?_, h⟩
      rw [← happend]
      exact List.mem_append_left _ (List.mem_of_getLast? hlast)
    · left
      rw [← happend]
      exact List.mem_append_right _ h
  · exact .inl h

/-- **Tightness**: all trees below the root of an accepted text are tight, up to the end of the
text. -/
theorem tight_of_accepted (hs : scan.Honest) {fuel : Nat} {tree : Tree}
    (h : run scan fuel init = (es, .accepted tree)) :
    ∀ c ∈ tree.children, c.Tight ∨ c.symbol? = some (.terminal .endOfText) := by
  rcases exists_of_run h with ⟨m', ho, -⟩ | ⟨es', e, m, -, hr, hlast, -⟩
  · simp at ho
  have htracks := (tracks_init scan fun _ _ => ()).of_reaches hs hr
  have htight := tight_of_reaches hs hr
  cases turn_of_step hlast with
  | @accept t k ahead kind action =>
    obtain ⟨rfl, -⟩ := progress_of_accept action
    have hleaf := htracks.leaf_eq hs ahead kind
    intro c hc
    have hmem : ∀ x ∈ (m.stack.push start t.leaf).trees, x.Tight ∨ x = t.leaf := by
      intro x hx
      simp only [Stack.trees, Stack.push, List.map_cons, List.mem_reverse, List.mem_cons,
        List.mem_map] at hx
      rcases hx with rfl | ⟨e, he, rfl⟩
      · exact .inr rfl
      · exact .inl (htight e he)
    rcases mem_children_root hc with hc | ⟨l, cs, hnode, hc⟩
    · refine (hmem c hc).imp_right ?_
      rintro rfl
      rw [hleaf, Tree.symbol?]
    · rcases hmem _ hnode with htight | heq
      · cases htight with
        | node _ _ _ _ _ children => exact .inl (children c hc)
      · rw [hleaf] at heq
        cases heq

end Machine

end ScenarioSyntax
