import ScenarioSyntax.Lexer.State
import ScenarioSyntax.Proofs.Lexer.Language

/-!
The lexer finds the longest token: behind the blanks it keeps the patterns that may still match,
and remembers the last place where one of them was complete. Of several tokens that are complete
there it takes the first one of its mode.
-/

namespace ScenarioSyntax

/-- The whole text is a token of this kind, as far as its pattern says. -/
def Terminal.Matches (t : Terminal) (u : List Int) : Prop :=
  ∃ p, t.pattern? = some p ∧ u ∈ p.language

def Terminal.accepts (t : Terminal) (u : List Int) : Bool :=
  match t.pattern? with
  | some p => (p.after u).final
  | none => false

lemma Terminal.mem_all (t : Terminal) : t ∈ Terminal.all := by cases t <;> decide

section Patterns

variable {t : Terminal} {p : Pattern}

/-- Nothing has been read of the patterns of tokens, and no token is empty. -/
lemma fresh_of_pattern? (h : t.pattern? = some p) : p.live = false ∧ p.nullable = false := by
  have key : ∀ t ∈ Terminal.all, ∀ p ∈ t.pattern?, p.live = false ∧ p.nullable = false := by
    decide
  exact key t t.mem_all p h

lemma Terminal.Matches.ne_nil {u : List Int} (h : t.Matches u) : u ≠ [] := by
  rintro rfl
  obtain ⟨p, hp, hu⟩ := h
  have := (fresh_of_pattern? hp).2
  rw [Pattern.nullable_iff.2 hu] at this
  cases this

lemma Terminal.accepts_iff {u : List Int} : t.accepts u = true ↔ t.Matches u := by
  rcases hp : t.pattern? with _ | p
  · simp [accepts, Matches, hp]
  obtain ⟨hlive, hnull⟩ := fresh_of_pattern? hp
  simp only [accepts, Matches, hp, Option.some.injEq, exists_eq_left']
  cases u with
  | nil =>
    simp only [Pattern.after, Pattern.final_iff, Pattern.notMem_rest hlive, false_iff]
    simp [← Pattern.nullable_iff, hnull]
  | cons c u => exact Pattern.final_after_iff hlive

end Patterns

namespace Mode

/-- The patterns that are left after reading a text. -/
def threadsAfter (m : Mode) (u : List Int) : List Thread :=
  m.filterMap fun t => t.pattern?.bind fun p =>
    if (p.after u).live then some ⟨t, p.after u⟩ else none

/-- The first token of the mode that the text is. -/
def first? (m : Mode) (u : List Int) : Option Terminal := m.find? fun t => t.accepts u

variable {m : Mode} {c d : Int} {u : List Int}

lemma first?_eq_none_iff : m.first? u = none ↔ ∀ t ∈ m, ¬ t.Matches u := by
  simp [first?, ← Terminal.accepts_iff]

lemma matches_of_first? {t : Terminal} (h : m.first? u = some t) : t ∈ m ∧ t.Matches u := by
  have hacc : t.accepts u = true := by simpa using List.find?_some h
  exact ⟨List.mem_of_find?_eq_some h, Terminal.accepts_iff.1 hacc⟩

lemma threads_step (m : Mode) (c : Int) :
    m.threads.filterMap (·.step? true c) = m.threadsAfter [c] := by
  rw [threads, threadsAfter, List.filterMap_filterMap]
  congr 1
  funext t
  cases t.pattern? <;> rfl

lemma threadsAfter_step (m : Mode) (c : Int) (u : List Int) (d : Int) :
    (m.threadsAfter (c :: u)).filterMap (·.step? false d) = m.threadsAfter (c :: u ++ [d]) := by
  rw [threadsAfter, threadsAfter, List.filterMap_filterMap]
  congr 1
  funext t
  rcases hp : t.pattern? with _ | p
  · rfl
  have hlive := (fresh_of_pattern? hp).1
  simp only [Option.bind_some, Pattern.after_concat]
  by_cases h : (p.after (c :: u)).live
  · simp [h, Thread.step?]
  · have hd : ((p.after (c :: u)).step false d).live = false := by
      rw [← Pattern.after_concat, Bool.eq_false_iff]
      intro hd
      obtain ⟨s, hs⟩ := (Pattern.live_after_iff hlive).1 (by simpa using hd)
      exact h ((Pattern.live_after_iff hlive).2 ⟨d :: s, by simpa using hs⟩)
    simp [h, hd]

lemma token?_inside (m : Mode) (c : Int) (u : List Int) :
    (LexState.inside (m.threadsAfter (c :: u))).token? = m.first? (c :: u) := by
  induction m with
  | nil => rfl
  | cons t m ih =>
    rw [first?, List.find?_cons]
    rcases hp : t.pattern? with _ | p
    · rw [show Terminal.accepts t (c :: u) = false by simp [Terminal.accepts, hp]]
      simpa [threadsAfter, hp, first?] using ih
    · have hacc : t.accepts (c :: u) = (p.after (c :: u)).final := by simp [Terminal.accepts, hp]
      rw [hacc]
      by_cases hf : (p.after (c :: u)).final
      · have hlive : (p.after (c :: u)).live = true :=
          Pattern.live_iff.2 ⟨[], Pattern.final_iff.1 hf⟩
        simp [threadsAfter, hp, hlive, LexState.token?, hf]
      · by_cases hlive : (p.after (c :: u)).live
        · simpa [threadsAfter, hp, hlive, LexState.token?, hf, first?] using ih
        · simpa [threadsAfter, hp, hlive, hf, first?] using ih

/-- Patterns are left as long as some token goes on. -/
lemma threadsAfter_eq_nil_iff :
    m.threadsAfter (c :: u) = [] ↔ ∀ t ∈ m, ∀ s, ¬ t.Matches (c :: u ++ s) := by
  rw [threadsAfter, List.filterMap_eq_nil_iff]
  refine forall₂_congr fun t _ => ?_
  rcases hp : t.pattern? with _ | p
  · simp [Terminal.Matches, hp]
  · have hlive := Pattern.live_after_iff (c := c) (u := u) (fresh_of_pattern? hp).1
    simp only [Terminal.Matches, hp, Option.bind_some, Option.some.injEq, exists_eq_left',
      ite_eq_right_iff, reduceCtorEq, imp_false, hlive, not_exists]

/-- Without patterns left, no longer text is a token. -/
lemma first?_eq_none_of_threadsAfter (h : m.threadsAfter (c :: u) = []) (s : List Int) :
    m.first? (c :: u ++ s) = none :=
  first?_eq_none_iff.2 fun t ht => threadsAfter_eq_nil_iff.1 h t ht s

/-- The longest beginning of the text that is a token of the mode, with the first token it is. -/
structure Longest (m : Mode) (cs : List Int) (t : Terminal) (n : Nat) : Prop where
  le_length : n ≤ cs.length
  first : m.first? (cs.take n) = some t
  longest : ∀ k, n < k → k ≤ cs.length → m.first? (cs.take k) = none

/-- What is found in a text that begins without blanks. -/
inductive Finds (m : Mode) : List Int → Option (Terminal × Nat) → Prop
  | ended (h : Terminal.endOfText ∈ m) : Finds m [] (some (.endOfText, 0))
  | token {cs : List Int} {t : Terminal} {n : Nat} (h : m.Longest cs t n) :
      Finds m cs (some (t, n))
  | nothing {cs : List Int} (h : ∀ k ≤ cs.length, m.first? (cs.take k) = none)
      (ended : cs = [] → Terminal.endOfText ∉ m) : Finds m cs none

lemma Longest.pos {cs : List Int} {t : Terminal} {n : Nat} (h : m.Longest cs t n) : 0 < n := by
  rcases n with _ | n
  · exact absurd rfl (matches_of_first? h.first).2.ne_nil
  · omega

lemma Longest.ne_nil {cs : List Int} {t : Terminal} {n : Nat} (h : m.Longest cs t n) :
    cs ≠ [] := by
  rintro rfl
  have hpos := h.pos
  have hle := h.le_length
  rw [List.length_nil] at hle
  omega

/-- There is one longest token only. -/
lemma Longest.eq {cs : List Int} {t t' : Terminal} {n n' : Nat} (h : m.Longest cs t n)
    (h' : m.Longest cs t' n') : t = t' ∧ n = n' := by
  have hn : n = n' := by
    rcases Nat.lt_trichotomy n n' with hlt | heq | hlt
    · have := h.longest n' hlt h'.le_length
      simp [h'.first] at this
    · exact heq
    · have := h'.longest n hlt h.le_length
      simp [h.first] at this
  subst hn
  have := h.first.symm.trans h'.first
  exact ⟨Option.some.inj this, rfl⟩

lemma Finds.eq_of_longest {cs : List Int} {f : Option (Terminal × Nat)} (hf : m.Finds cs f)
    {t : Terminal} {n : Nat} (h : m.Longest cs t n) : f = some (t, n) := by
  cases hf with
  | ended _ => exact absurd rfl h.ne_nil
  | token h' =>
    obtain ⟨rfl, rfl⟩ := h.eq h'
    rfl
  | nothing h' _ =>
    have := h' n h.le_length
    simp [h.first] at this

/-- What is found is settled by the text. -/
lemma Finds.unique {cs : List Int} {f g : Option (Terminal × Nat)} (hf : m.Finds cs f)
    (hg : m.Finds cs g) : f = g := by
  cases hf with
  | ended h =>
    cases hg with
    | ended _ => rfl
    | token h' => exact absurd rfl h'.ne_nil
    | nothing _ ended => exact absurd h (ended rfl)
  | token h => exact (hg.eq_of_longest h).symm
  | nothing h ended =>
    cases hg with
    | ended h' => exact absurd h' (ended rfl)
    | token h' =>
      have := h _ h'.le_length
      simp [h'.first] at this
    | nothing _ _ => rfl

/-- Where a beginning of the text is a token, one at least as long is found. -/
lemma Finds.exists_longest {cs : List Int} {f : Option (Terminal × Nat)} (hf : m.Finds cs f)
    {t : Terminal} {n : Nat} (hn : n ≤ cs.length) (ht : m.first? (cs.take n) = some t) :
    ∃ t' n', f = some (t', n') ∧ n ≤ n' ∧ m.Longest cs t' n' := by
  cases hf with
  | ended _ =>
    rw [List.take_nil] at ht
    exact absurd rfl (matches_of_first? ht).2.ne_nil
  | @token _ t' n' h =>
    refine ⟨t', n', rfl, ?_, h⟩
    by_contra hlt
    rw [h.longest n (by omega) hn] at ht
    cases ht
  | nothing h _ =>
    rw [h n hn] at ht
    cases ht

/-- The longest token that `v` goes on to be in the text behind it, and how far it goes on. -/
inductive FindsFrom (m : Mode) (v rest : List Int) : Option (Terminal × Nat) → Prop
  | token {t : Terminal} {n : Nat} (le_length : n ≤ rest.length)
      (first : m.first? (v ++ rest.take n) = some t)
      (longest : ∀ k, n < k → k ≤ rest.length → m.first? (v ++ rest.take k) = none) :
      FindsFrom m v rest (some (t, n))
  | nothing (h : ∀ k ≤ rest.length, m.first? (v ++ rest.take k) = none) : FindsFrom m v rest none

/-- If `v` does not go on, the token is `v` itself. -/
lemma FindsFrom.of_none {v rest : List Int}
    (h : ∀ k, 0 < k → k ≤ rest.length → m.first? (v ++ rest.take k) = none) :
    m.FindsFrom v rest ((m.first? v).map fun t => (t, 0)) := by
  rcases hf : m.first? v with _ | t
  · refine .nothing fun k hk => ?_
    rcases k with _ | k
    · simpa using hf
    · exact h _ (by omega) hk
  · exact .token (by omega) (by simpa using hf) h

/-- What is found behind one more character is what is found, if it is anything. -/
lemma FindsFrom.cons {v rest : List Int} {d : Int} {f : Option (Terminal × Nat)}
    (h : m.FindsFrom (v ++ [d]) rest f) : m.FindsFrom v (d :: rest)
      ((f.map fun x => (x.1, x.2 + 1)).or ((m.first? v).map fun t => (t, 0))) := by
  have shift : ∀ k, v ++ (d :: rest).take (k + 1) = v ++ [d] ++ rest.take k := by simp
  cases h with
  | token le_length first longest =>
    refine .token (by simpa using le_length) (by rw [shift]; exact first) fun k hk hle => ?_
    obtain ⟨k, rfl⟩ := Nat.exists_eq_succ_of_ne_zero (by omega : k ≠ 0)
    rw [shift]
    exact longest k (by omega) (by simpa using hle)
  | nothing hnone =>
    refine .of_none fun k hk hle => ?_
    obtain ⟨k, rfl⟩ := Nat.exists_eq_succ_of_ne_zero hk.ne'
    rw [shift]
    exact hnone k (by simpa using hle)

/-- Behind its first character, a token of the whole text is found. -/
lemma FindsFrom.finds {c : Int} {rest : List Int} {f : Option (Terminal × Nat)}
    (h : m.FindsFrom [c] rest f) : m.Finds (c :: rest) (f.map fun x => (x.1, x.2 + 1)) := by
  cases h with
  | token le_length first longest =>
    refine .token ⟨by simpa using le_length, first, fun k hk hle => ?_⟩
    obtain ⟨k, rfl⟩ := Nat.exists_eq_succ_of_ne_zero (by omega : k ≠ 0)
    exact longest k (by omega) (by simpa using hle)
  | nothing hnone =>
    refine .nothing (fun k hk => ?_) (by simp)
    rcases k with _ | k
    · rw [List.take_zero, first?_eq_none_iff]
      exact fun t _ ht => ht.ne_nil rfl
    · exact hnone k (by simpa using hk)

end Mode

namespace Move

@[simp] lemma enter_nil : enter [] = .stop := rfl

lemma enter_of_ne_nil {ths : List Thread} (h : ths ≠ []) : enter ths = .advance (.inside ths) := by
  obtain ⟨th, ths, rfl⟩ := List.exists_cons_of_ne_nil h
  rfl

end Move

namespace LexState

variable {m : Mode}

/-! ### One character -/

section Character

variable {q r : LexState} {c : Int}

lemma next_start_of_blank (h : isBlank c = true) : (start m).next c = .skip := by
  rw [next, if_pos h]

lemma next_start (h : isBlank c = false) :
    (start m).next c = .enter (m.threadsAfter [c]) := by
  rw [next, if_neg (by simp [h]), Mode.threads_step]

lemma next_inside (c : Int) (u : List Int) (d : Int) :
    (inside (m.threadsAfter (c :: u))).next d = .enter (m.threadsAfter (c :: (u ++ [d]))) := by
  rw [next, Mode.threadsAfter_step]
  rfl

variable (start pos : Nat) (found : Option (Terminal × Nat)) (rest : List Int)

lemma scan_of_skip (h : q.next c = .skip) : q.scan start pos found (c :: rest) =
    q.scan (pos + 1) (pos + 1) (q.best pos found) rest := by
  rw [scan, h]

lemma scan_of_advance (h : q.next c = .advance r) : q.scan start pos found (c :: rest) =
    r.scan start (pos + 1) (q.best pos found) rest := by
  rw [scan, h]

lemma scan_of_stop (h : q.next c = .stop) :
    q.scan start pos found (c :: rest) = ⟨q.best pos found, start, pos⟩ := by
  rw [scan, h]

end Character

/-! ### The longest token -/

/-- No token is complete before it begins. -/
lemma best_start (m : Mode) (pos : Nat) (found : Option (Terminal × Nat)) :
    (start m).best pos found = found := rfl

lemma best_inside (m : Mode) (c : Int) (u : List Int) (pos : Nat)
    (found : Option (Terminal × Nat)) : (inside (m.threadsAfter (c :: u))).best pos found =
      ((m.first? (c :: u)).map fun t => (t, pos)).or found := by
  cases hf : m.first? (c :: u) <;> simp [best, Mode.token?_inside, hf]

/-- Inside a token: the longest one is found, or what was found before. -/
lemma scan_inside (m : Mode) (c : Int) (u : List Int) (start pos : Nat)
    (found : Option (Terminal × Nat)) (rest : List Int) :
    ((inside (m.threadsAfter (c :: u))).scan start pos found rest).start = start ∧
    ∃ f, m.FindsFrom (c :: u) rest f ∧
      ((inside (m.threadsAfter (c :: u))).scan start pos found rest).found =
        (f.map fun x => (x.1, pos + x.2)).or found := by
  induction rest generalizing u pos found with
  | nil =>
    refine ⟨rfl, _, .of_none fun k hk hle => ?_, ?_⟩
    · rw [List.length_nil] at hle
      omega
    · simp only [scan, atEnd, best_inside, Option.map_map]
      rfl
  | cons d rest ih =>
    have hnext := next_inside (m := m) c u d
    by_cases ht : m.threadsAfter (c :: (u ++ [d])) = []
    · rw [ht, Move.enter_nil] at hnext
      rw [scan_of_stop start pos found rest hnext]
      refine ⟨rfl, _, .of_none fun k hk _ => ?_, ?_⟩
      · obtain ⟨k, rfl⟩ := Nat.exists_eq_succ_of_ne_zero hk.ne'
        have := Mode.first?_eq_none_of_threadsAfter ht (rest.take k)
        simpa using this
      · rw [best_inside, Option.map_map]
        rfl
    · rw [Move.enter_of_ne_nil ht] at hnext
      obtain ⟨hstart, f, hf, hfound⟩ := ih (u ++ [d]) (pos + 1)
        ((inside (m.threadsAfter (c :: u))).best pos found)
      rw [scan_of_advance start pos found rest hnext]
      refine ⟨hstart, _, Mode.FindsFrom.cons (v := c :: u) hf, ?_⟩
      rw [hfound, best_inside]
      cases f <;> simp [Option.map_map, Function.comp_def, Nat.add_comm, Nat.add_left_comm]

/-- **Longest match.** Behind the blanks, the lexer finds the longest token of its mode. -/
theorem scan_start (m : Mode) (pos : Nat) (cs : List Int) :
    ((start m).scan pos pos none cs).start = pos + (cs.takeWhile isBlank).length ∧
    ∃ f, m.Finds (cs.dropWhile isBlank) f ∧ ((start m).scan pos pos none cs).found =
      f.map fun x => (x.1, pos + (cs.takeWhile isBlank).length + x.2) := by
  induction cs generalizing pos with
  | nil =>
    refine ⟨rfl, ?_⟩
    by_cases h : Terminal.endOfText ∈ m
    · exact ⟨_, .ended h, by simp [scan, atEnd, h, best, token?]⟩
    · refine ⟨none, .nothing (fun k _ => ?_) fun _ => h, by simp [scan, atEnd, h, best, token?]⟩
      rw [Mode.first?_eq_none_iff]
      intro t _ ht
      exact ht.ne_nil (by simp)
  | cons c rest ih =>
    by_cases hc : isBlank c
    · obtain ⟨hstart, f, hf, hfound⟩ := ih (pos + 1)
      rw [scan_of_skip pos pos none rest (next_start_of_blank hc), best_start,
        List.takeWhile_cons_of_pos hc, List.dropWhile_cons_of_pos hc, List.length_cons]
      refine ⟨by omega, f, hf, ?_⟩
      rw [hfound]
      congr 2
      funext x
      rw [Prod.mk.injEq]
      exact ⟨rfl, by omega⟩
    · rw [List.takeWhile_cons_of_neg hc, List.dropWhile_cons_of_neg hc, List.length_nil]
      have hnext := next_start (m := m) (by simpa using hc)
      by_cases ht : m.threadsAfter [c] = []
      · rw [ht, Move.enter_nil] at hnext
        have hf : m.FindsFrom [c] rest none :=
          .nothing fun k _ => Mode.first?_eq_none_of_threadsAfter ht _
        rw [scan_of_stop pos pos none rest hnext]
        exact ⟨rfl, none, hf.finds, rfl⟩
      · rw [Move.enter_of_ne_nil ht] at hnext
        obtain ⟨hstart, f, hf, hfound⟩ := scan_inside m c [] pos (pos + 1) none rest
        rw [scan_of_advance pos pos none rest hnext, best_start]
        refine ⟨hstart, _, hf.finds, ?_⟩
        rw [hfound, Option.or_none, Option.map_map]
        congr 1
        funext x
        simp only [Function.comp_apply, Prod.mk.injEq, true_and]
        omega

end LexState

end ScenarioSyntax
