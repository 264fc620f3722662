import Mathlib.Data.List.GetD
import ScenarioSyntax.Proofs.Machine.Halting
import ScenarioSyntax.Proofs.Machine.Outcome

/-!
The parser on a sequence of terminals, without any text: it accepts the sequences that the grammar
derives, and builds the one derivation tree of each.
-/

namespace ScenarioSyntax

open Automaton Table

/-- Gives the terminals one by one, and the end behind them. -/
def feed (w : List Terminal) : Scanner := fun s i =>
  ⟨.token (w.getD i .endOfText) ⟨i, i, i + 1⟩ (decide (w.getD i .endOfText = .endOfText)), s, [],
    false⟩

/-- The tree follows the grammar, and its leaves are the terminals of the sequence, each with the
place at which it stands. -/
def IsDerivation (w : List Terminal) (d : Ast Nat) : Prop := d.IsFile ∧ d.tokens = w.zipIdx

section Feed

variable {w : List Terminal} {s : StateId} {i : Nat}

@[simp] lemma kind?_feed : (feed w s i).kind? = some (w.getD i .endOfText) := rfl

@[simp] lemma span_feed : (feed w s i).span = ⟨i, i, i + 1⟩ := rfl

lemma honest_feed (w : List Terminal) : (feed w).Honest where
  leaf_eq := by
    intro s i k h
    obtain rfl : w.getD i .endOfText = k := by simpa using h
    rfl
  wanted := by
    intro s i k _ hw
    cases hw

lemma lt_length_of_getD (h : w.getD i .endOfText ≠ .endOfText) : i < w.length := by
  by_contra hi
  rw [List.getD_eq_default _ _ (by omega)] at h
  exact h rfl

lemma within_feed (w : List Terminal) : (feed w).Within w.length := by
  intro s i k h hne
  obtain rfl : w.getD i .endOfText = k := by simpa using h
  have := lt_length_of_getD hne
  simp only [span_feed]
  omega

/-- The tokens taken are the first ones of the sequence. -/
lemma kept_of_chain {p q : Nat} {ts : List Lookahead} (h : Chain (feed w) p ts q)
    (hp : p ≤ w.length) (hk : ∀ t ∈ ts, ∃ k, t.kind? = some k ∧ k ≠ .endOfText) :
    p ≤ q ∧ q ≤ w.length ∧ kept (fun start _ => start) ts =
      (((w.drop p).take (q - p)).zipIdx p).filter fun x => x.1 ≠ .comment := by
  induction h with
  | nil p => simp [hp]
  | @cons s p q ts _ ih =>
    obtain ⟨k, hk₀, hne⟩ := hk _ (List.mem_cons_self ..)
    obtain rfl : w.getD p .endOfText = k := by simpa using hk₀
    have hlt := lt_length_of_getD hne
    obtain ⟨hle, hq, hkept⟩ := ih hlt fun t ht => hk t (by simp [ht])
    simp only [span_feed] at hle hkept
    refine ⟨by omega, hq, ?_⟩
    have hsub : q - p = q - (p + 1) + 1 := by omega
    rw [← List.singleton_append, kept_append, hkept, List.drop_eq_getElem_cons hlt, hsub,
      List.take_succ_cons, List.zipIdx_cons, List.filter_cons]
    by_cases hc : w[p] = .comment <;> simp [kept, List.getElem?_eq_getElem hlt, hc]

end Feed

def Outcome.isAccepted : Outcome → Bool
  | .accepted _ => true
  | _ => false

lemma Outcome.exists_of_isAccepted {o : Outcome} (h : o.isAccepted = true) :
    ∃ t, o = .accepted t := by
  cases o with
  | accepted t => exact ⟨t, rfl⟩
  | running m => cases h
  | stuck m => cases h

namespace Machine

variable {w : List Terminal} {m : Machine} {ts : List Lookahead}

/-- What was taken, and what is still to come. -/
lemma kept_append_rest (hw : ∀ t ∈ w, t ≠ .comment)
    (h : Tracks (feed w) (fun start _ => start) m ts) :
    kept (fun start _ => start) ts ++ (w.drop m.pos).zipIdx m.pos = w.zipIdx := by
  obtain ⟨-, hle, hkept⟩ := kept_of_chain h.chain (by simp) h.known
  have hfilter : ((w.take m.pos).zipIdx.filter fun x => x.1 ≠ .comment) =
      (w.take m.pos).zipIdx := by
    rw [List.filter_eq_self]
    rintro ⟨t, i⟩ hx
    have ht := List.mem_of_mem_take (List.fst_mem_of_mem_zipIdx hx)
    simpa using hw t ht
  rw [hkept, List.drop_zero, Nat.sub_zero, hfilter]
  conv_rhs => rw [← List.take_append_drop m.pos w, List.zipIdx_append]
  simp [hle]

lemma ahead_rest (w : List Terminal) (i : Nat) :
    Automaton.ahead ((w.drop i).zipIdx i) = w.getD i .endOfText := by
  rcases Nat.lt_or_ge i w.length with hi | hi
  · rw [List.drop_eq_getElem_cons hi, List.zipIdx_cons, Automaton.ahead_cons,
      List.getD_eq_getElem _ _ hi]
  · rw [List.drop_eq_nil_of_le hi, List.getD_eq_default _ _ hi]; rfl

/-- What is accepted has a derivation, and the tree that is built is this derivation. -/
lemma exists_isDerivation_of_accepted (hw : ∀ t ∈ w, t ≠ .comment ∧ t ≠ .endOfText) {fuel : Nat}
    {t : Tree} (h : (run (feed w) fuel init).2 = .accepted t) :
    ∃ d, IsDerivation w d ∧ t.toNode.bare (fun start _ => start) = [d] := by
  obtain ⟨m, a, d, htr, ha, hk, hd, htok, hbare, -, -⟩ :=
    exists_isFile_of_accepted (honest_feed w) (fun start _ => start) (Prod.ext rfl h)
  refine ⟨d, ⟨hd, ?_⟩, hbare⟩
  obtain ⟨st, rfl, -, -⟩ := htr.fresh a ha
  have hend : w.length ≤ m.pos := by
    by_contra hlt
    simp only [not_le] at hlt
    have := (hw _ (List.getElem_mem hlt)).2
    simp [List.getElem?_eq_getElem hlt, this] at hk
  have hrest := kept_append_rest (fun t ht => (hw t ht).1) htr
  rwa [List.drop_eq_nil_of_le hend, List.zipIdx_nil, List.append_nil, ← htok] at hrest

/-- What has a derivation is accepted, within the fuel that there is. -/
lemma accepted_of_isDerivation (hw : ∀ t ∈ w, t ≠ .comment ∧ t ≠ .endOfText) {d : Ast Nat}
    (h : IsDerivation w d) : ∃ t, (run (feed w) (fuelFor w.length) init).2 = .accepted t := by
  rcases ho : (run (feed w) (fuelFor w.length) init).2 with m | t | m
  · exact absurd ho (run_init_ne_running (honest_feed w) (within_feed w))
  · exact ⟨t, rfl⟩
  · obtain ⟨es, a, -, -, htr, ha, hr⟩ :=
      tracks_of_stuck (honest_feed w) (fun start _ => start) (Prod.ext rfl ho)
    obtain ⟨st, rfl, -, -⟩ := htr.fresh a ha
    refine absurd ?_ (htr.ne_tokens ha hr kind?_feed (ahead_rest w m.pos) h.1)
    rw [h.2, kept_append_rest (fun t ht => (hw t ht).1) htr]

/-- **The table decides the grammar.** A sequence of terminals is accepted if and only if it has a
derivation, and the tree built for it, without its hidden nodes, is its only one. -/
theorem recognizes_grammar (w : List Terminal)
    (hw : ∀ t ∈ w, t ≠ .comment ∧ t ≠ .endOfText) :
    (∀ m, (run (feed w) (fuelFor w.length) init).2 ≠ .running m) ∧
    ((∃ fuel t, (run (feed w) fuel init).2 = .accepted t) ↔ ∃ d, IsDerivation w d) ∧
    ∀ fuel t, (run (feed w) fuel init).2 = .accepted t →
      ∀ d, IsDerivation w d ↔ t.toNode.bare (fun start _ => start) = [d] := by
  refine ⟨fun m => run_init_ne_running (honest_feed w) (within_feed w), ⟨?_, ?_⟩, ?_⟩
  · rintro ⟨fuel, t, h⟩
    obtain ⟨d, hd, -⟩ := exists_isDerivation_of_accepted hw h
    exact ⟨d, hd⟩
  · rintro ⟨d, hd⟩
    exact ⟨_, accepted_of_isDerivation hw hd⟩
  · intro fuel t h d
    obtain ⟨e, he, hbare⟩ := exists_isDerivation_of_accepted hw h
    rw [hbare]
    refine ⟨fun hd => ?_, fun hd => ?_⟩
    · rw [eq_of_tokens_eq he.1 hd.1 (he.2.trans hd.2.symm)]
    · obtain rfl : e = d := by simpa using hd
      exact he

open Terminal in
theorem recognizes_smallest_file : ∃ d, IsDerivation [kwScenario, identifier, leftBrace, kwTraffic,
    leftBrace, rightBrace, rightBrace] d := by
  refine (recognizes_grammar _ (by decide)).2.1.1 ⟨fuelFor 7, ?_⟩
  apply Outcome.exists_of_isAccepted
  decide +kernel

end Machine

end ScenarioSyntax
