import ScenarioSyntax.Proofs.Lexer.Overrun
import ScenarioSyntax.Proofs.Text.FirstError
import ScenarioSyntax.Proofs.Text.Places

/-!
How much work a text takes. The lexer makes a transition for every character and one more, every
token that the parser takes has a byte at least, and it pays for five reductions.
-/

namespace ScenarioSyntax

/-! ### Stray characters -/

namespace Token

variable {points : List Int}

/-- The lexer stops in the text, and not in front of the token. -/
lemma stop_readAt (m : Mode) {pos : Nat} (h : pos ≤ points.length) :
    pos ≤ (m.readAt points pos).stop ∧
      (m.readAt points pos).start ≤ (m.readAt points pos).stop ∧
      (m.readAt points pos).stop ≤ points.length := by
  have horigin := origin_le h
  have hle := le_origin points pos
  rw [readAt_eq]
  obtain ⟨hstop, hlength⟩ := LexState.stop_scan (.start m) (origin points pos)
    (origin points pos) none (points.drop (origin points pos))
  rw [List.length_drop] at hlength
  exact ⟨hle.trans hstop, LexState.start_le_stop le_rfl, by omega⟩

/-- Passing over stray characters ends: with fuel for every character that is left, more of it makes
no difference. -/
theorem strayEnd_eq {fuel fuel' stop pos : Nat} (hle : stop ≤ pos) (hpos : pos ≤ points.length)
    (hf : points.length - stop < fuel) (hf' : points.length - stop < fuel') :
    strayEnd points fuel stop pos = strayEnd points fuel' stop pos := by
  induction fuel generalizing fuel' stop pos with
  | zero => omega
  | succ fuel ih =>
    obtain ⟨fuel', rfl⟩ := Nat.exists_eq_succ_of_ne_zero (show fuel' ≠ 0 by omega)
    rw [strayEnd, strayEnd]
    by_cases hend : (decide (pos = stop) && decide (points.length ≤ pos)) = true
    · rw [if_pos hend, if_pos hend]
    · rw [if_neg hend, if_neg hend]
      rw [Bool.and_eq_true, decide_eq_true_eq, decide_eq_true_eq] at hend
      -- the lexer starts again behind the place where it started before
      obtain ⟨resume, hresume⟩ : ∃ r, r = if pos = stop then pos + 1 else pos := ⟨_, rfl⟩
      have hmoved : stop < resume ∧ resume ≤ points.length := by
        rw [hresume]
        split <;> omega
      obtain ⟨hstop, -, hlength⟩ := stop_readAt Mode.general hmoved.2
      dsimp only
      rw [← hresume]
      rw [ih hstop hlength (show _ < fuel by omega) (show _ < fuel' by omega)]

end Token

namespace Machine

open Automaton

variable {α : Type} {scan : Scanner} {text : Nat → Nat → α} {m m' : Machine}
  {ts : List Lookahead} {es : List Event} {o : Outcome}

/-! ### Reductions -/

/-- The reductions of a run are paid for by its tokens, and by what is on the stack. -/
theorem Reaches.units_le (hs : scan.Honest) (h : Tracks scan text m ts)
    (hr : Reaches scan m es m') :
    unitsOf (m'.stack.frames text) + es.countP Event.isReduce ≤
      unitsOf (m.stack.frames text) + 5 * es.countP Event.isShift := by
  induction hr generalizing ts with
  | refl m => simp
  | @step m m₁ m' e es head _ ih =>
    have hstep := units_of_step hs h head
    have hrun := ih (h.step hs head)
    rw [List.countP_cons, List.countP_cons]
    omega

/-- What is put on the stack is taken and no comment. -/
lemma Reaches.countP_isShift (hr : Reaches scan m es m') :
    es.countP Event.isShift = (terminals (Event.taken m.ahead es)).length := by
  induction hr with
  | refl m => rfl
  | @step m m₁ m' e es head _ ih =>
    rw [List.countP_cons, ih, taken_of_step head, terminals_append, List.length_append,
      Nat.add_comm, Nat.add_right_cancel_iff]
    cases turn_of_step head with
    | read ahead => rfl
    | @shift t k s ahead kind action =>
      have hk := Table.ne_comment_of_action action (by simp)
      simp [Event.takes, ahead, terminals, kind, hk]
    | @extra t k ahead kind action =>
      obtain rfl := Table.eq_comment_of_extra action
      simp [Event.takes, ahead, terminals, kind]
    | reduce ahead kind action => rfl
    | asIdentifier ahead kind refuses wordlike ne wants => rfl

/-- The last event of a run is neither a token taken nor a reduction. -/
lemma exists_reaches_of_run {fuel : Nat} (h : run scan fuel m = (es, o)) :
    ∃ es' m', Reaches scan m es' m' ∧ Event.taken m.ahead es = Event.taken m.ahead es' ∧
      es.countP Event.isReduce = es'.countP Event.isReduce := by
  rcases exists_of_run h with ⟨m', rfl, hr⟩ | ⟨es', e, m', rfl, hr, hlast, hne⟩
  · exact ⟨es, m', hr, rfl, rfl⟩
  · refine ⟨es', m', hr, ?_⟩
    cases turn_of_step hlast with
    | accept => exact ⟨Event.taken_accept _ _, by simp⟩
    | error => exact ⟨Event.taken_error _ _ _, by simp⟩
    | _ => exact absurd rfl (hne _)

theorem reductions_le (hs : scan.Honest) {fuel : Nat} (h : run scan fuel init = (es, o)) :
    es.countP Event.isReduce ≤ 5 * (shifted es).length := by
  obtain ⟨es', m', hr, htaken, hreduce⟩ := exists_reaches_of_run h
  have hunits := hr.units_le hs (tracks_init scan fun _ _ => ())
  rw [hr.countP_isShift] at hunits
  rw [shifted, show none = init.ahead from rfl, htaken, hreduce]
  exact (Nat.le_add_left _ _).trans (hunits.trans (by simp [init, unitsOf]))

/-! ### Tokens and events -/

lemma length_run_le (scan : Scanner) (fuel : Nat) (m : Machine) :
    (run scan fuel m).1.length ≤ fuel := by
  induction fuel generalizing m with
  | zero => exact le_rfl
  | succ fuel ih =>
    unfold run
    split
    · exact Nat.succ_le_succ (ih _)
    · exact Nat.succ_le_succ (Nat.zero_le fuel)

/-- Every token that is taken has a byte. -/
theorem byte_lt_of_taken (src : Source) {fuel : Nat}
    (h : run (Token.read src.points) fuel init = (es, o)) {t : Lookahead}
    (ht : t ∈ Event.taken none es) : src.byte t.span.start < src.byte t.span.stop := by
  obtain ⟨es', m', hr, htaken, -⟩ := exists_reaches_of_run h
  have htracks := (tracks_init _ fun _ _ => ()).of_reaches (Token.honest_read src.points) hr
  rw [List.nil_append, ← htaken] at htracks
  obtain ⟨s, i, rfl⟩ := htracks.chain.exists_of_mem ht
  obtain ⟨k, hk, hne⟩ := htracks.known _ ht
  obtain ⟨n, hn⟩ := Token.exists_isRead hk hne
  rw [hn.span_eq]
  exact src.byte_lt (Nat.lt_add_of_pos_right hn.zero_lt) hn.le

/-- **Linear work.** From each of its states, on every text, the lexer halts after one transition
more, at most, than there are characters left. The parser accepts a text or finds an error, with a
number of events that is linear in its length; every token that it takes has a byte, and there are
five reductions at most for a token that is no comment. Where no token is found, the place where the
next one begins does not depend on the fuel for the search. -/
theorem work_is_linear :
    (∀ x : Lexing, x.state ∈ LexState.all →
      ∃ k ≤ x.rest.length + 1, x.Halts k (x.state.scan x.start x.pos x.found x.rest)) ∧
    ∀ src : Source,
      ((∃ tree, (runText src.points).2 = .accepted tree) ∨
        ∃ m, (runText src.points).2 = .stuck m) ∧
      (runText src.points).1.length ≤ 8 * (src.length + 2) ∧
      (∀ t ∈ Event.taken none (runText src.points).1,
        src.byte t.span.start < src.byte t.span.stop) ∧
      (runText src.points).1.countP Event.isReduce ≤
        5 * (shifted (runText src.points).1).length ∧
      ∀ pos ≤ src.length, ∀ fuel > src.length,
        let r := Mode.general.readAt src.points pos
        Token.strayEnd src.points fuel r.start r.stop =
          Token.strayEnd src.points (src.length + 2) r.start r.stop := by
  refine ⟨fun x hx => ?_, fun src => ?_⟩
  · exact Lexing.halts_scan x.start x.pos x.found (LexState.reached_of_mem_all hx) x.rest
  have hs := Token.honest_read src.points
  have hw := Token.within_read src.points
  refine ⟨?_, length_run_le _ _ _, fun t ht => byte_lt_of_taken src rfl ht, reductions_le hs rfl,
    fun pos hpos fuel hfuel => ?_⟩
  · rcases ho : (runText src.points).2 with m | tree | m
    · exact absurd ho (run_init_ne_running hs hw)
    · exact .inl ⟨tree, rfl⟩
    · exact .inr ⟨m, rfl⟩
  · obtain ⟨-, hle, hlength⟩ := Token.stop_readAt Mode.general hpos
    have hlen : src.points.length = src.length := rfl
    exact Token.strayEnd_eq hle hlength (by omega) (by omega)

/-- A string that is not closed: the lexer comes to the end of the text, where it cannot move on,
and halts. -/
theorem halts_unclosed_string : ∃ k ≤ 3,
    Lexing.Halts ⟨.start Mode.general, 0, 0, none, [34, 97]⟩ k ⟨none, 0, 2⟩ := by
  have hmem : LexState.start Mode.general ∈ LexState.all :=
    LexState.start_mem_all (Mode.general_prefix_all.subset List.mem_cons_self)
  have hscan : (LexState.start Mode.general).scan 0 0 none [34, 97] = ⟨none, 0, 2⟩ := by
    decide +kernel
  rw [← hscan]
  exact work_is_linear.1 ⟨.start Mode.general, 0, 0, none, [34, 97]⟩ hmem

end Machine

end ScenarioSyntax
