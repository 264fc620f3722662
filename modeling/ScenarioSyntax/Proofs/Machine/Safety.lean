import ScenarioSyntax.Proofs.Machine.Tight
import ScenarioSyntax.Proofs.Text.FirstError

/-!
The parser never goes wrong on its own stack. It takes the number of children and the state to go
on in from the table, without looking at what it takes off; the stack always bears the table out,
on the way to an error too.
-/

namespace ScenarioSyntax

open Automaton Table Grammar

variable {α : Type}

namespace Stack

variable {text : Nat → Nat → α} {st : Stack}

/-- The trees are of the symbols that their frames spell. -/
lemma map_symbol?_of_spells {done : List Symbol} {w : List (Terminal × α)}
    (hst : ∀ e ∈ st, ∀ x, (progress e.state).done.head? = some x → e.tree.symbol? = some x)
    (h : Spells done (st.map fun e => ⟨e.state, e.tree.growth text⟩) w) :
    st.map (·.tree.symbol?) = done.map some := by
  induction st generalizing done w with
  | nil =>
    cases h
    rfl
  | cons e st ih =>
    cases h with
    | cons below last grows =>
      rw [List.map_cons, List.map_cons, hst e (by simp) _ last,
        ih (fun e he => hst e (by simp [he])) below]

lemma Fits.proper (h : st.Fits) : ∀ e ∈ st.proper, ∀ x, (progress e.state).done.head? = some x →
    e.tree.symbol? = some x := by
  intro e he
  obtain ⟨hmem, hextra⟩ := List.mem_filter.1 he
  exact (h e hmem).2 (by simpa using hextra)

end Stack

namespace Machine

/-- What the parser relies on when it acts. -/
structure Safe (m : Machine) : Prop where
  /-- All entries count but the comments. -/
  proper : ∀ e ∈ m.stack, e ∈ m.stack.proper ↔ e.tree.symbol? ≠ some (.terminal .comment)
  /-- The last entries are the children of the construct, and below them is a state that goes on
  behind it. -/
  reduce : ∀ a n k l, action? m.state a = some (.reduce n k l) →
    k ≤ m.stack.proper.length ∧
    (∃ xs : List Symbol, (m.stack.proper.take k).reverse.map (·.tree.symbol?) = xs.map some ∧
      l.label 0 xs ∈ productions n ∧ (∃ v, Unfolds (l.label 0 xs) v) ∧
      ∀ v, Unfolds (l.label 0 xs) v → Consists n v) ∧
    ∃ s, (row (Stack.pop k m.stack []).2.state).gotos.lookup n = some s ∧ s ≠ lost
  /-- A comment can be taken, and changes nothing. -/
  extra : ∀ scan t, t.kind? = some .comment →
    ∃ m', { m with ahead := some t }.step scan = (.extra, .running m') ∧ m'.state = m.state ∧
      m'.stack.proper = m.stack.proper
  /-- Only a whole file is accepted. -/
  accept : ∀ a, action? m.state a = some .accept → a = .endOfText ∧
    m.stack.proper.map (·.tree.symbol?) = [some (.nonterminal .sourceFile)]

variable {scan : Scanner} {text : Nat → Nat → α} {m : Machine} {ts : List Lookahead}

lemma step_comment (m : Machine) (scan : Scanner) {t : Lookahead} (ht : t.kind? = some .comment) :
    ∃ m', { m with ahead := some t }.step scan = (.extra, .running m') ∧ m'.state = m.state ∧
      m'.stack.proper = m.stack.proper := by
  have haction : (some Terminal.comment).bind (action? m.state) = some .extra := by simp [action?]
  refine ⟨m.take m.state t true, ?_, rfl, ?_⟩
  · simp only [step, act, state, ht] at haction ⊢
    rw [haction]
    rfl
  · have hleaf : (t.leaf.withExtra true).isExtra = true := by
      unfold Lookahead.kind? at ht
      split at ht
      · rename_i k s e hleaf
        rw [hleaf]
        rfl
      · cases ht
    simp [take, Stack.push, Stack.proper, hleaf]

/-- **Safety** of one machine: the stack is what the automaton has built. -/
theorem Tracks.safe (h : Tracks scan text m ts) (ht : m.stack.Tight) : m.Safe where
  proper := by
    intro e he
    rw [Stack.proper, List.mem_filter, ne_eq, ← (ht e he).isExtra_iff]
    simp [he]
  reduce := by
    intro a n k l ha
    have haction : action? (top (m.stack.frames text)) a = some (.reduce n k l) := by
      rwa [h.top_eq]
    obtain ⟨done, v, w, -, rfl, -, hspells, hmem, hnext⟩ := h.valid.exists_of_reduce haction
    have hle := h.arity_le ha
    have hsymbols : (m.stack.proper.take done.length).map (·.tree.symbol?) = done.map some := by
      rw [Stack.frames_eq_map, ← List.map_take] at hspells
      exact Stack.map_symbol?_of_spells
        (fun e he => h.fits.proper e (List.mem_of_mem_take he)) hspells
    refine ⟨by rwa [← Stack.length_frames text],
      ⟨done.reverse, ?_, hmem, exists_unfolds _, fun v => ?_⟩,
      goto (top ((m.stack.frames text).drop done.length)) n, ?_, ?_⟩
    · rw [List.map_reverse, hsymbols, List.map_reverse]
    · exact consists_of_unfolds hmem
    · rw [Stack.state_pop text h.neat hle]
      exact hnext
    · exact ne_lost_of_next hnext
  extra := fun scan t ht => m.step_comment scan ht
  accept := by
    intro a ha
    obtain ⟨rfl, hp⟩ := progress_of_accept ha
    obtain ⟨s, g, d, hst, -, -, -⟩ := h.valid.isFile_of_accept (by rwa [h.top_eq])
    refine ⟨rfl, ?_⟩
    rw [Stack.frames_eq_map] at hst
    obtain ⟨e, he, hframe⟩ := List.map_eq_singleton_iff.1 hst
    have hstate : e.state = m.state := by
      rw [← h.top_eq, Stack.frames_eq_map, he]
      rfl
    rw [he, List.map_singleton, h.fits.proper e (by simp [he]) (.nonterminal .sourceFile)]
    rw [hstate, hp]
    rfl

/-- **Safety**: whatever is fed, and whatever the text, the parser relies on nothing that is not so
before the first error. -/
theorem safe_of_reaches :
    (∀ (w : List Terminal) (es : List Event) (m : Machine), Reaches (feed w) init es m → m.Safe) ∧
      ∀ (points : List Int) (es : List Event) (m : Machine),
        Reaches (Token.read points) init es m → m.Safe := by
  have hsafe : ∀ {scan : Scanner} {es m}, scan.Honest → Reaches scan init es m → m.Safe :=
    fun hs h => ((tracks_init _ fun _ _ => ()).of_reaches hs h).safe (tight_of_reaches hs h)
  exact ⟨fun w _ _ => hsafe (honest_feed w), fun points _ _ => hsafe (Token.honest_read points)⟩

open Terminal in
theorem safe_commented_use : ∃ es m, Reaches (feed [comment, kwUse, comment, string]) init es m ∧
    action? m.state kwScenario = some (.reduce .useDeclaration 2 .useDeclaration) ∧
      2 ≤ m.stack.proper.length := by
  have h : ((run (feed [comment, kwUse, comment, string]) 8 init).2.running?.any fun m =>
      action? m.state kwScenario = some (.reduce .useDeclaration 2 .useDeclaration)) = true := by
    decide +kernel
  obtain ⟨m, hm, ha⟩ := (Option.any_eq_true _ _).1 h
  have hr := reaches_of_running? hm
  have ha := of_decide_eq_true ha
  exact ⟨_, m, hr, ha, ((safe_of_reaches.1 _ _ _ hr).reduce _ _ _ _ ha).1⟩

end Machine

end ScenarioSyntax
