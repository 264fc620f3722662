import Mathlib.Data.List.TakeWhile
import ScenarioSyntax.Parser.Machine
import ScenarioSyntax.Proofs.Tree.Bare

/-!
The stack of the parser as a stack of the automaton: comments are left out, and of the trees
only what they stand for is kept.
-/

namespace ScenarioSyntax.Stack

open Automaton

variable {α : Type} (text : Nat → Nat → α)

def frames (st : Stack) : List (Frame α) :=
  (st.filter fun e => !e.tree.isExtra).map fun e => ⟨e.state, e.tree.growth text⟩

/-- An extra tree leaves the state as it was. -/
def Neat : Stack → Prop
  | [] => True
  | e :: st => (e.tree.isExtra = true → e.state = state st) ∧ Neat st

@[simp] lemma frames_nil : frames text [] = [] := rfl

lemma frames_push_extra {t : Tree} (h : t.isExtra = true) (st : Stack) (s : StateId) :
    (st.push s t).frames text = st.frames text := by simp [frames, push, h]

lemma frames_push {t : Tree} (h : t.isExtra = false) (st : Stack) (s : StateId) :
    (st.push s t).frames text = ⟨s, t.growth text⟩ :: st.frames text := by simp [frames, push, h]

lemma top_frames {st : Stack} (h : st.Neat) : top (st.frames text) = st.state := by
  induction st with
  | nil => rfl
  | cons e st ih =>
    by_cases he : e.tree.isExtra
    · rw [show frames text (e :: st) = frames text st by simp [frames, he], ih h.2]
      exact (h.1 he).symm
    · simp [frames, he, state]

lemma Neat.of_append {st rest : Stack} (h : Neat (st ++ rest)) : Neat rest := by
  induction st with
  | nil => exact h
  | cons e st ih => exact ih h.2

/-- Taking entries off, until `n` of them were not extra. -/
lemma exists_pop {n : Nat} {st : Stack} (h : n ≤ (st.filter fun e => !e.tree.isExtra).length)
    (ts : List Tree) : ∃ taken rest : Stack, st = taken ++ rest ∧
      (taken.filter fun e => !e.tree.isExtra).length = n ∧
      pop n st ts = ((taken.map (·.tree)).reverse ++ ts, rest) := by
  induction st generalizing n ts with
  | nil =>
    obtain rfl : n = 0 := by simpa using h
    exact ⟨[], [], rfl, rfl, by simp [pop]⟩
  | cons e st ih =>
    cases n with
    | zero => exact ⟨[], e :: st, rfl, rfl, by simp [pop]⟩
    | succ n =>
      by_cases he : e.tree.isExtra
      · obtain ⟨taken, rest, rfl, hn, hp⟩ := ih (n := n + 1) (by simpa [he] using h) (e.tree :: ts)
        exact ⟨e :: taken, rest, rfl, by simpa [he] using hn, by simp [pop, he, hp]⟩
      · obtain ⟨taken, rest, rfl, hn, hp⟩ := ih (n := n) (by simpa [he] using h) (e.tree :: ts)
        exact ⟨e :: taken, rest, rfl, by simpa [he] using hn, by simp [pop, he, hp]⟩

lemma frames_append (st rest : Stack) :
    frames text (st ++ rest) = frames text st ++ frames text rest := by simp [frames]

/-- The state that a reduction goes on from. -/
lemma state_pop {st : Stack} (hst : st.Neat) {k : Nat} (hk : k ≤ (st.frames text).length) :
    state (pop k st []).2 = top ((st.frames text).drop k) := by
  obtain ⟨taken, rest, rfl, hn, hp⟩ := exists_pop (by simpa [frames] using hk) []
  have hlen : (frames text taken).length = k := by simpa [frames] using hn
  rw [hp, frames_append, List.drop_left' hlen, top_frames text hst.of_append]

lemma splitTrailing_append (ts : List Tree) :
    (Tree.splitTrailing ts).1 ++ (Tree.splitTrailing ts).2 = ts := by
  rw [Tree.splitTrailing, ← List.reverse_append, List.takeWhile_append_dropWhile,
    List.reverse_reverse]

lemma filter_splitTrailing (ts : List Tree) :
    (Tree.splitTrailing ts).1.filter (fun t => !t.isExtra) = ts.filter fun t => !t.isExtra := by
  have h : ∀ ts : List Tree, (ts.dropWhile Tree.isExtra).filter (fun t => !t.isExtra) =
      ts.filter fun t => !t.isExtra := by
    intro ts
    induction ts with
    | nil => rfl
    | cons t ts ih => by_cases ht : t.isExtra <;> simp [ht, ih]
  simp [Tree.splitTrailing, List.filter_reverse, h]

lemma isExtra_of_mem_trailing {ts : List Tree} {t : Tree} (h : t ∈ (Tree.splitTrailing ts).2) :
    t.isExtra = true := by
  simp only [Tree.splitTrailing, List.mem_reverse] at h
  exact List.mem_takeWhile_imp h

/-- Extra trees on top change neither the frames nor the state. -/
lemma foldl_push_extra {ts : List Tree} (h : ∀ t ∈ ts, t.isExtra = true) {st : Stack}
    (hst : st.Neat) {s : StateId} (hs : st.state = s) :
    (ts.foldl (fun st t => st.push s t) st).frames text = st.frames text ∧
      Neat (ts.foldl (fun st t => st.push s t) st) ∧
      (ts.foldl (fun st t => st.push s t) st).state = s := by
  induction ts generalizing st with
  | nil => exact ⟨rfl, hst, hs⟩
  | cons t ts ih =>
    have hpush : Neat (st.push s t) := ⟨fun _ => hs.symm, hst⟩
    obtain ⟨h1, h2, h3⟩ := ih (fun t ht => h t (by simp [ht])) hpush rfl
    exact ⟨h1.trans (frames_push_extra text (h t (by simp)) st s), h2, h3⟩

/-- **A reduction of the parser is one of the automaton.** -/
theorem frames_reduce {st : Stack} (hst : st.Neat) {k : Nat} (hk : k ≤ (st.frames text).length)
    (n : Nonterminal) (l : Layout) :
    (st.reduce n k l).frames text = Automaton.reduce (st.frames text) n k l ∧
      Neat (st.reduce n k l) := by
  obtain ⟨taken, rest, rfl, hn, hp⟩ := exists_pop (by simpa [frames] using hk) []
  have hrest := hst.of_append
  obtain ⟨s, hs⟩ : ∃ s, s = Table.goto rest.state n := ⟨_, rfl⟩
  obtain ⟨ts, hts⟩ : ∃ ts, ts = (taken.map (·.tree)).reverse := ⟨_, rfl⟩
  obtain ⟨node, hnode⟩ : ∃ t, t = Tree.node (.rule n l) (Tree.splitTrailing ts).1 := ⟨_, rfl⟩
  have hred : (taken ++ rest).reduce n k l =
      (Tree.splitTrailing ts).2.foldl (fun st t => st.push s t) (rest.push s node) := by
    simp [reduce, hp, hs, hnode, hts]
  have hextra : node.isExtra = false := by simp [hnode, Tree.isExtra]
  have htop : Neat (rest.push s node) := ⟨fun h => by simp [hextra] at h, hrest⟩
  have htrailing : ∀ t ∈ (Tree.splitTrailing ts).2, t.isExtra = true :=
    fun t ht => isExtra_of_mem_trailing ht
  have hstate : state (rest.push s node) = s := rfl
  obtain ⟨hf, hneat, -⟩ := foldl_push_extra text htrailing htop hstate
  rw [hred]
  refine ⟨?_, hneat⟩
  have hlen : (frames text taken).length = k := by simpa [frames] using hn
  have hgs : (ts.filter fun t => !t.isExtra).map (Tree.growth text) =
      (frames text taken).reverse.map (·.growth) := by
    simp [hts, frames, List.filter_map, Function.comp_def]
  rw [hf, frames_push text hextra, Automaton.reduce, frames_append, List.drop_left' hlen,
    List.take_left' hlen, top_frames text hrest, ← hs, hnode, Tree.growth_node,
    filter_splitTrailing, hgs]

end ScenarioSyntax.Stack
