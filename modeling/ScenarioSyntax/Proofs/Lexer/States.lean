import ScenarioSyntax.Proofs.Lexer.Modes

/-!
The states that the lexer gets into, and its transitions one by one. Behind the text there is the
character 0 to look at, and it cannot be passed, so the lexer stays where it is; it halts there
because no token holds that character.
-/

namespace ScenarioSyntax

open Computability

/-! ### The character behind the text -/

namespace Pattern

/-- No class of the pattern holds of the character. -/
def avoids (c : Int) : Pattern → Bool
  | char _ k => !k.holds c
  | seq p q => p.avoids c && q.avoids c
  | either p q => p.avoids c && q.avoids c
  | optional p => p.avoids c
  | many p => p.avoids c
  | many1 p => p.avoids c

lemma notMem_of_avoids {p : Pattern} {c : Int} (h : p.avoids c = true) {u : List Int}
    (hu : u ∈ p.language) : c ∉ u := by
  have star : ∀ {p : Pattern} {u : List Int}, (∀ v ∈ p.language, c ∉ v) →
      u ∈ p.language∗ → c ∉ u := by
    intro p u hp hu hc
    obtain ⟨L, rfl, hL⟩ := Language.mem_kstar.1 hu
    obtain ⟨v, hv, hcv⟩ := List.mem_flatten.1 hc
    exact hp v (hL v hv) hcv
  induction p generalizing u with
  | char m k =>
    obtain ⟨d, hd, rfl⟩ := mem_language_char.1 hu
    rw [List.mem_singleton]
    rintro rfl
    simp [avoids, hd] at h
  | seq p q ihp ihq =>
    rw [avoids, Bool.and_eq_true] at h
    obtain ⟨v, hv, w, hw, rfl⟩ := mem_seq.1 hu
    exact List.mem_append.not.2 (not_or.2 ⟨ihp h.1 hv, ihq h.2 hw⟩)
  | either p q ihp ihq =>
    rw [avoids, Bool.and_eq_true] at h
    exact (mem_either.1 hu).elim (ihp h.1) (ihq h.2)
  | optional p ih =>
    rcases mem_optional.1 hu with rfl | hu
    · exact List.not_mem_nil
    · exact ih h hu
  | many p ih => exact star (fun v hv => ih h hv) hu
  | many1 p ih =>
    obtain ⟨v, hv, w, hw, rfl⟩ := Language.mem_mul.1 hu
    exact List.mem_append.not.2 (not_or.2 ⟨ih h hv, star (fun v hv => ih h hv) hw⟩)

end Pattern

lemma Terminal.Matches.zero_notMem {t : Terminal} {u : List Int} (h : t.Matches u) : 0 ∉ u := by
  have key : ∀ t ∈ Terminal.all, ∀ p ∈ t.pattern?, p.avoids 0 = true := by decide
  obtain ⟨p, hp, hu⟩ := h
  exact Pattern.notMem_of_avoids (key t t.mem_all p hp) hu

/-- No token goes on with it. -/
lemma Mode.threadsAfter_zero (m : Mode) (u : List Int) : m.threadsAfter (u ++ [0]) = [] := by
  obtain ⟨c, v, h⟩ := List.exists_cons_of_ne_nil (List.concat_ne_nil 0 u)
  rw [h, threadsAfter_eq_nil_iff]
  intro t _ s ht
  exact ht.zero_notMem (List.mem_append_left s (by simp [← h]))

/-! ### The numbered states -/

namespace LexState

/-- A mode has been entered, characters of its tokens have been read, or the end has been found. -/
inductive Reached : LexState → Prop
  | start (m : Mode) : Reached (start m)
  | inside (m : Mode) (c : Int) (u : List Int) : Reached (inside (m.threadsAfter (c :: u)))
  | ended : Reached ended

variable {q r : LexState}

lemma Reached.advance (hq : q.Reached) {c : Int} (h : q.next c = .advance r) : r.Reached := by
  have enter : ∀ {ths}, Move.enter ths = .advance r → r = .inside ths := by
    rintro (_ | ⟨th, ths⟩) h
    · cases h
    · injection h with h
      exact h.symm
  cases hq with
  | start m =>
    by_cases hc : isBlank c
    · rw [next_start_of_blank hc] at h
      cases h
    · rw [next_start (by simpa using hc)] at h
      rw [enter h]
      exact .inside m c []
  | inside m d u =>
    rw [next_inside] at h
    rw [enter h]
    exact .inside m d _
  | ended => cases h

/-- Behind the text nothing but the end is found. -/
lemma Reached.next_zero (hq : q.Reached) : q.next 0 = .stop := by
  cases hq with
  | start m =>
    rw [next_start (by decide), ← List.nil_append [0], m.threadsAfter_zero, Move.enter_nil]
  | inside m c u => rw [next_inside, ← List.cons_append, m.threadsAfter_zero, Move.enter_nil]
  | ended => rfl

theorem reached_of_mem_all (h : q ∈ all) : q.Reached := by
  rw [all, List.mem_toArray, List.mem_flatMap] at h
  obtain ⟨m, -, hq⟩ := h
  refine forall_mem_explore (fun p hp r hr => ?_) (fun p hp => ?_) q hq
  · obtain ⟨c, -, hc⟩ := List.mem_filterMap.1 hr
    split at hc
    · rename_i s hs
      obtain rfl := Option.some.inj hc
      exact hp.advance hs
    · cases hc
  · split at hp
    · rcases List.mem_pair.1 hp with rfl | rfl
      · exact .start m
      · exact .ended
    · rw [List.mem_singleton.1 hp]
      exact .start m

end LexState

/-! ### The lexer on its way -/

/-- The lexer in front of the rest of a text. -/
structure Lexing where
  state : LexState
  start : Nat
  pos : Nat
  /-- The last token that was complete in an earlier state. -/
  found : Option (Terminal × Nat)
  rest : List Int

namespace Lexing

/-- The last token that is complete, here or before. -/
def best (x : Lexing) : Option (Terminal × Nat) := x.state.best x.pos x.found

def reading (x : Lexing) : Reading := ⟨x.best, x.start, x.pos⟩

/-- The character ahead, or 0 where there is none. -/
def lookahead (x : Lexing) : Int := x.rest.headD 0

/-- Goes to a state behind the character ahead; where there is none, the position stays. A skipped
character lies in front of the token. -/
def pass (x : Lexing) (skipped : Bool) (q : LexState) : Lexing :=
  match x.rest with
  | [] => ⟨q, x.start, x.pos, x.best, []⟩
  | _ :: rest => ⟨q, if skipped then x.pos + 1 else x.start, x.pos + 1, x.best, rest⟩

/-- One transition. The end of the text is looked for first. -/
def next? (x : Lexing) : Option Lexing :=
  if x.rest = [] ∧ x.state.atEnd ≠ x.state then some (x.pass false x.state.atEnd)
  else
    match x.state.next x.lookahead with
    | .skip => some (x.pass true x.state)
    | .advance q => some (x.pass false q)
    | .stop => none

/-- The lexer halts after a number of transitions. -/
inductive Halts : Lexing → Nat → Reading → Prop
  | here {x : Lexing} (h : x.next? = none) : Halts x 0 x.reading
  | after {x y : Lexing} {k : Nat} {r : Reading} (h : x.next? = some y) (rest : Halts y k r) :
      Halts x (k + 1) r

variable {q : LexState} (start pos : Nat) (found : Option (Terminal × Nat))

lemma next?_cons (q : LexState) (c : Int) (rest : List Int) :
    next? ⟨q, start, pos, found, c :: rest⟩ = match q.next c with
    | .skip => some ⟨q, pos + 1, pos + 1, q.best pos found, rest⟩
    | .advance r => some ⟨r, start, pos + 1, q.best pos found, rest⟩
    | .stop => none := by
  rw [next?, if_neg (by simp)]
  rfl

/-- At the end of the text there is one transition at most. -/
lemma halts_nil (hq : q.Reached) :
    ∃ k ≤ 1, Halts ⟨q, start, pos, found, []⟩ k (q.scan start pos found []) := by
  by_cases h : q.atEnd = q
  · have hnone : next? ⟨q, start, pos, found, []⟩ = none := by
      rw [next?, if_neg (by simp [h])]
      simp only [lookahead, List.headD_nil, hq.next_zero]
    refine ⟨0, Nat.zero_le 1, ?_⟩
    rw [LexState.scan, h]
    exact .here hnone
  · have hended : q.atEnd = .ended := by
      cases q with
      | start m =>
        rw [LexState.atEnd] at h ⊢
        split at h
        · rename_i hm
          rw [if_pos hm]
        · exact absurd rfl h
      | inside ths => exact absurd rfl h
      | ended => rfl
    have hsome : next? ⟨q, start, pos, found, []⟩ =
        some ⟨.ended, start, pos, q.best pos found, []⟩ := by
      rw [next?, if_pos ⟨rfl, h⟩, hended]
      rfl
    refine ⟨1, le_rfl, ?_⟩
    rw [LexState.scan, hended]
    exact .after hsome (.here rfl)

/-- **Halting of the lexer**: from every state, each character of the text takes one transition at
most, and its end another one. What the lexer has found then is what it reads. -/
theorem halts_scan (hq : q.Reached) (rest : List Int) : ∃ k ≤ rest.length + 1,
    Halts ⟨q, start, pos, found, rest⟩ k (q.scan start pos found rest) := by
  induction rest generalizing q start pos found with
  | nil => exact halts_nil start pos found hq
  | cons c rest ih =>
    have hnext := next?_cons start pos found q c rest
    rcases hmove : q.next c with _ | r | _ <;> rw [hmove] at hnext
    · obtain ⟨k, hk, h⟩ := ih (pos + 1) (pos + 1) (q.best pos found) hq
      rw [LexState.scan_of_skip _ _ _ _ hmove]
      exact ⟨k + 1, by simpa using hk, .after hnext h⟩
    · obtain ⟨k, hk, h⟩ := ih start (pos + 1) (q.best pos found) (hq.advance hmove)
      rw [LexState.scan_of_advance _ _ _ _ hmove]
      exact ⟨k + 1, by simpa using hk, .after hnext h⟩
    · rw [LexState.scan_of_stop _ _ _ _ hmove]
      exact ⟨0, by omega, .here hnext⟩

end Lexing

end ScenarioSyntax
