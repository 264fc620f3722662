import ScenarioSyntax.Proofs.Lexer.States

/-!
How far the lexer looks. What it reads depends on the characters up to the place where it stops and
on the one that stops it, and it stops behind its token or one character further: a token that goes
on by two characters is, somewhere on the way, a token again.
-/

namespace ScenarioSyntax

/-! ### Tokens without a gap -/

namespace Pattern

variable {v w x y : List Int}

lemma digits_concat {d : Int} (hv : v ∈ digits.language) (hd : CharClass.isDigit d = true) :
    v ++ [d] ∈ digits.language := by
  obtain ⟨-, hall⟩ := mem_digits.1 hv
  exact mem_digits.2 ⟨by simp, List.forall_mem_append.2 ⟨hall, List.forall_mem_singleton.2 hd⟩⟩

lemma decimal_concat {d : Int} (hv : v ∈ decimal.language) (hd : CharClass.isDigit d = true) :
    v ++ [d] ∈ decimal.language := by
  rcases mem_decimal_iff.1 hv with hv | ⟨a, ha, b, hb, rfl⟩
  · exact mem_decimal_iff.2 (.inl (digits_concat hv hd))
  · exact mem_decimal_iff.2 (.inr ⟨a, ha, b ++ [d], digits_concat hb hd, by simp⟩)

/-- A decimal that goes on with a point has none before, and digits behind it. -/
lemma digits_of_point (hv : v ∈ decimal.language) (hw : v ++ 46 :: x ∈ decimal.language) :
    v ∈ digits.language ∧ x ∈ digits.language := by
  have point : ∀ {u z : List Int}, u ++ 46 :: z ∉ digits.language := by
    intro u z h
    exact absurd ((mem_digits.1 h).2 46 (by simp)) (by decide)
  have split : ∀ {a b c d : List Int}, a ∈ digits.language → c ∈ digits.language →
      a ++ 46 :: b = c ++ 46 :: d → a = c ∧ b = d := by
    intro a b c d ha hc h
    have hpoint : ∀ x : List Int, ∀ y ∈ (46 :: x).head?, CharClass.isDigit y = false := by
      rintro x y ⟨⟩
      rfl
    obtain ⟨rfl, hbd⟩ := Terminal.append_eq_append (mem_digits.1 ha).2 (mem_digits.1 hc).2
      (hpoint b) (hpoint d) h
    exact ⟨rfl, (List.cons.inj hbd).2⟩
  rcases mem_decimal_iff.1 hw with hw | ⟨a, ha, b, hb, hab⟩
  · exact absurd hw point
  rcases mem_decimal_iff.1 hv with hv | ⟨a', ha', b', hb', rfl⟩
  · obtain ⟨rfl, rfl⟩ := split hv ha hab
    exact ⟨hv, hb⟩
  · rw [List.append_assoc, List.cons_append] at hab
    obtain ⟨-, rfl⟩ := split ha' ha hab
    exact absurd hb point

end Pattern

namespace Terminal

open Pattern

variable {t t' : Terminal} {v : List Int} {d e : Int} {s : List Int}

/-- A number goes on by a digit, by a point and a digit, or by the sign of a rate. -/
lemma number_gap (hv : v ∈ decimal.language) (h' : t'.Matches (v ++ d :: e :: s)) :
    number.Matches (v ++ [d]) ∨ number.Matches (v ++ [d, e]) ∨ t'.Matches (v ++ [d, e]) := by
  have hnumber : number.Matches v := ⟨_, rfl, hv⟩
  obtain ⟨w, s', hq, hw⟩ := h'.shape.exists_quantity (hnumber.lead_eq h').symm
  obtain ⟨hdecimal, hhead⟩ := isDecimal_of_quantity hq
  have hwdec : w ∈ decimal.language := by cases hq <;> assumption
  by_cases hdigit : CharClass.isDigit d = true
  · exact .inl ⟨_, rfl, decimal_concat hv hdigit⟩
  by_cases hpoint : d = 46
  · subst hpoint
    have hall : ∀ c ∈ v ++ [46], isDecimal c = true :=
      List.forall_mem_append.2 ⟨(mem_decimal hv).2, by decide⟩
    obtain ⟨z, rfl, hz⟩ := exists_append (x := e :: s) hall hhead (by simpa using hw.symm)
    rw [List.append_assoc, List.singleton_append] at hwdec
    obtain ⟨hvd, hzd⟩ := digits_of_point hv hwdec
    obtain ⟨hne, hz'⟩ := mem_digits.1 hzd
    obtain ⟨c, z, rfl⟩ := List.exists_cons_of_ne_nil hne
    obtain ⟨rfl, -⟩ := List.cons.inj hz
    have he : [e] ∈ digits.language :=
      mem_digits.2 ⟨by simp, List.forall_mem_singleton.2 (hz' e (by simp))⟩
    exact .inr (.inl ⟨_, rfl, mem_decimal_iff.2 (.inr ⟨v, hvd, [e], he, rfl⟩)⟩)
  · have hd : isDecimal d = false := by simp [isDecimal, hdigit, hpoint]
    have hrest : ∀ c ∈ (d :: e :: s).head?, isDecimal c = false := by simpa using hd
    obtain ⟨rfl, hs⟩ := append_eq_append (mem_decimal hv).2 hdecimal hrest hhead hw.symm
    -- of the signs behind a number only the one of a rate has two characters
    cases hq with
    | rate _ =>
      obtain ⟨-, hs⟩ := List.cons.inj hs
      obtain ⟨-, rfl⟩ := List.cons.inj hs
      exact .inr (.inr h')
    | number _ => cases hs
    | percent _ => cases hs
    | duration _ _ => cases hs

/-- **No gap**: between a token and one that goes on by two characters or more lies another one. -/
theorem Matches.no_gap (h : t.Matches v) (h' : t'.Matches (v ++ d :: e :: s)) :
    t.Matches (v ++ [d]) ∨ t.Matches (v ++ [d, e]) ∨ t'.Matches (v ++ [d, e]) := by
  have goes : clash t t' = false → ¬ t.Stops (d :: e :: s) := by
    intro hclash hstops
    cases (h.only h' hclash hstops).2
  cases h.shape with
  | word _ _ => exact .inl (h.concat (.inl rfl) (goes (by cases t' <;> rfl)))
  | comment _ _ => exact .inl (h.concat (.inr rfl) (goes (by cases t' <;> rfl)))
  | string _ _ => exact absurd (fun _ _ => trivial) (goes (by cases t' <;> rfl))
  | quantity hq hv =>
    cases hq with
    | number hdec =>
      rw [List.append_nil] at hv
      subst hv
      exact number_gap hdec h'
    | rate _ => exact absurd (fun _ _ => trivial) (goes (by cases t' <;> rfl))
    | percent _ => exact absurd (fun _ _ => trivial) (goes (by cases t' <;> rfl))
    | duration _ _ => exact absurd (fun _ _ => trivial) (goes (by cases t' <;> rfl))
  | sign hs =>
    have key : ∀ x ∈ signs, x.2 ≠ [] ∧ x.2.length ≤ 2 := by decide
    have hlong := (key _ (h'.shape.mem_signs hs (h.lead_eq h'))).2
    have hpos := List.length_pos_of_ne_nil (key _ hs).1
    simp only [List.length_append, List.length_cons] at hlong hpos
    omega

end Terminal

/-! ### Where the lexer stops -/

namespace LexState

section Scan

variable {q : LexState} {start pos : Nat} {found : Option (Terminal × Nat)}
  {rest rest' : List Int}

/-- The lexer stops in the text. -/
lemma stop_scan (q : LexState) (start pos : Nat) (found : Option (Terminal × Nat))
    (rest : List Int) : pos ≤ (q.scan start pos found rest).stop ∧
      (q.scan start pos found rest).stop ≤ pos + rest.length := by
  induction rest generalizing q start pos found with
  | nil => exact ⟨le_rfl, le_rfl⟩
  | cons c rest ih =>
    rw [List.length_cons]
    rcases hmove : q.next c with _ | r | _
    · rw [scan_of_skip _ _ _ _ hmove]
      have := ih q (pos + 1) (pos + 1) (q.best pos found)
      omega
    · rw [scan_of_advance _ _ _ _ hmove]
      have := ih r start (pos + 1) (q.best pos found)
      omega
    · rw [scan_of_stop _ _ _ _ hmove]
      dsimp only
      omega

/-- The token begins before the lexer stops. -/
lemma start_le_stop (h : start ≤ pos) :
    (q.scan start pos found rest).start ≤ (q.scan start pos found rest).stop := by
  induction rest generalizing q start pos found with
  | nil => exact h
  | cons c rest ih =>
    rcases hmove : q.next c with _ | r | _
    · rw [scan_of_skip _ _ _ _ hmove]
      exact ih le_rfl
    · rw [scan_of_advance _ _ _ _ hmove]
      exact ih (Nat.le_succ_of_le h)
    · rw [scan_of_stop _ _ _ _ hmove]
      exact h

/-- **Locality**: a text that agrees up to where the lexer stops, and on the character there, is
read alike. -/
theorem scan_eq_of_agree {k : Nat} (hk : (q.scan start pos found rest).stop = pos + k)
    (htake : rest'.take k = rest.take k) (hget : rest'[k]? = rest[k]?) :
    q.scan start pos found rest' = q.scan start pos found rest := by
  induction rest generalizing q start pos found rest' k with
  | nil =>
    obtain rfl : k = 0 := by
      have : pos = pos + k := hk
      omega
    rw [List.getElem?_nil, List.getElem?_eq_none_iff] at hget
    rw [List.eq_nil_of_length_eq_zero (Nat.le_zero.1 hget)]
  | cons c rest ih =>
    -- one step on, the stops and the agreement are those of the rests
    have behind : ∀ {r : LexState} {s : Nat} {f : Option (Terminal × Nat)},
        q.scan start pos found (c :: rest) = r.scan s (pos + 1) f rest →
        ∃ rest₁, rest' = c :: rest₁ ∧ r.scan s (pos + 1) f rest₁ = r.scan s (pos + 1) f rest := by
      intro r s f hscan
      rw [hscan] at hk
      have hpos := (stop_scan r s (pos + 1) f rest).1
      obtain ⟨k, rfl⟩ := Nat.exists_eq_succ_of_ne_zero (show k ≠ 0 by omega)
      cases rest' with
      | nil => simp at htake
      | cons c' rest₁ =>
        simp only [List.take_succ_cons, List.cons.injEq] at htake
        obtain ⟨rfl, htake⟩ := htake
        exact ⟨rest₁, rfl, ih (by omega) htake (by simpa using hget)⟩
    rcases hmove : q.next c with _ | r | _
    · have hscan := scan_of_skip start pos found rest hmove
      obtain ⟨rest₁, rfl, h⟩ := behind hscan
      rw [hscan, scan_of_skip _ _ _ _ hmove, h]
    · have hscan := scan_of_advance start pos found rest hmove
      obtain ⟨rest₁, rfl, h⟩ := behind hscan
      rw [hscan, scan_of_advance _ _ _ _ hmove, h]
    · rw [scan_of_stop _ _ _ _ hmove] at hk
      obtain rfl : k = 0 := by
        have : pos = pos + k := hk
        omega
      cases rest' with
      | nil => simp at hget
      | cons c' rest₁ =>
        obtain rfl : c' = c := by simpa using hget
        rw [scan_of_stop _ _ _ _ hmove, scan_of_stop _ _ _ _ hmove]

/-- A token is found before the lexer stops. -/
lemma end_le_stop (hfound : ∀ t n, found = some (t, n) → n ≤ pos) :
    ∀ t n, (q.scan start pos found rest).found = some (t, n) →
      n ≤ (q.scan start pos found rest).stop := by
  have best : ∀ {q : LexState} {pos found}, (∀ t n, found = some (t, n) → n ≤ pos) →
      ∀ t n, q.best pos found = some (t, n) → n ≤ pos := by
    intro q pos found hfound t n h
    unfold LexState.best at h
    split at h
    · obtain ⟨rfl, rfl⟩ := Prod.mk.inj (Option.some.inj h)
      exact le_rfl
    · exact hfound t n h
  have later : ∀ {q : LexState} {pos found}, (∀ t n, found = some (t, n) → n ≤ pos) →
      ∀ t n, q.best pos found = some (t, n) → n ≤ pos + 1 := by
    intro q pos found hfound t n h
    exact Nat.le_succ_of_le (best hfound t n h)
  induction rest generalizing q start pos found with
  | nil => exact best hfound
  | cons c rest ih =>
    rcases hmove : q.next c with _ | r | _
    · rw [scan_of_skip _ _ _ _ hmove]
      exact ih (later hfound)
    · rw [scan_of_advance _ _ _ _ hmove]
      exact ih (later hfound)
    · rw [scan_of_stop _ _ _ _ hmove]
      exact best hfound

/-- Patterns are left as long as the lexer has not stopped. -/
lemma threadsAfter_ne_nil (m : Mode) (c : Int) (u : List Int) {k : Nat} (hk : k ≠ 0)
    (hstop : pos + k ≤ ((inside (m.threadsAfter (c :: u))).scan start pos found rest).stop) :
    m.threadsAfter (c :: (u ++ rest.take k)) ≠ [] := by
  induction rest generalizing u pos found k with
  | nil =>
    have : pos + k ≤ pos := hstop
    omega
  | cons d rest ih =>
    have hnext := next_inside (m := m) c u d
    by_cases ht : m.threadsAfter (c :: (u ++ [d])) = []
    · rw [ht, Move.enter_nil] at hnext
      rw [scan_of_stop _ _ _ _ hnext] at hstop
      have : pos + k ≤ pos := hstop
      omega
    · rw [Move.enter_of_ne_nil ht] at hnext
      rw [scan_of_advance _ _ _ _ hnext] at hstop
      obtain ⟨k, rfl⟩ := Nat.exists_eq_succ_of_ne_zero hk
      rcases Nat.eq_zero_or_pos k with rfl | hpos
      · simpa using ht
      · rw [Nat.succ_eq_add_one, ← Nat.add_assoc, Nat.add_right_comm] at hstop
        simpa using ih (u ++ [d]) hpos.ne' hstop

end Scan

end LexState

/-- The token ends where the lexer stopped, or one character before. -/
def Reading.IsNear (r : Reading) : Prop :=
  ∀ t n, r.found = some (t, n) → r.start ≤ n ∧ n ≤ r.stop ∧ r.stop ≤ n + 1

namespace LexState

/-- Two characters behind the longest token no pattern is left. -/
lemma isNear_inside (m : Mode) (c : Int) (u : List Int) {start pos : Nat} (hpos : start ≤ pos)
    (rest : List Int) :
    ((inside (m.threadsAfter (c :: u))).scan start pos none rest).IsNear := by
  intro t n hfound
  have hend := end_le_stop (by simp) t n hfound
  have hle := (stop_scan (inside (m.threadsAfter (c :: u))) start pos none rest).2
  obtain ⟨hstart, f, hf, hscan⟩ := scan_inside m c u start pos none rest
  rw [hscan, Option.or_none] at hfound
  cases hf with
  | nothing _ => cases hfound
  | @token t' i le_length first longest =>
    obtain ⟨rfl, rfl⟩ : t' = t ∧ pos + i = n := by simpa using hfound
    refine ⟨by omega, hend, ?_⟩
    by_contra hlt
    rw [not_le] at hlt
    obtain ⟨d, e, rest₂, hdrop⟩ : ∃ d e rest₂, rest.drop i = d :: e :: rest₂ :=
      ⟨_, _, _, by rw [List.drop_eq_getElem_cons (by omega), List.drop_eq_getElem_cons (by omega)]⟩
    have hd : rest.take (i + 1) = rest.take i ++ [d] := by rw [List.take_add, hdrop]; rfl
    have hde : rest.take (i + 2) = rest.take i ++ [d, e] := by rw [List.take_add, hdrop]; rfl
    have hstop : pos + (i + 2) ≤
        ((inside (m.threadsAfter (c :: u))).scan start pos none rest).stop := by omega
    have hne := threadsAfter_ne_nil m c u (by omega) hstop
    rw [ne_eq, Mode.threadsAfter_eq_nil_iff] at hne
    push Not at hne
    obtain ⟨t₁, hmem, s, ht₁⟩ := hne
    obtain ⟨htm, ht⟩ := Mode.matches_of_first? first
    have h1 := Mode.first?_eq_none_iff.1 (longest (i + 1) (by omega) (by omega))
    have h2 := Mode.first?_eq_none_iff.1 (longest (i + 2) (by omega) (by omega))
    rw [hd, ← List.append_assoc] at h1
    rw [hde, ← List.append_assoc] at h2
    rw [hde, List.cons_append, List.append_assoc, List.append_assoc] at ht₁
    rw [← List.cons_append, ← List.append_assoc] at ht₁
    rcases ht.no_gap ht₁ with h | h | h
    · exact h1 _ htm h
    · exact h2 _ htm h
    · exact h2 _ hmem h

lemma isNear_start (m : Mode) (pos : Nat) (points : List Int) :
    ((start m).scan pos pos none points).IsNear := by
  induction points generalizing pos with
  | nil =>
    intro t n hfound
    have hend := end_le_stop (by simp) t n hfound
    have hbest : (start m).atEnd.best pos none = some (t, n) := hfound
    by_cases hm : m.contains .endOfText
    · rw [atEnd, if_pos hm] at hbest
      obtain ⟨-, rfl⟩ := Prod.mk.inj (Option.some.inj hbest)
      exact ⟨le_rfl, hend, Nat.le_succ pos⟩
    · rw [atEnd, if_neg hm] at hbest
      cases hbest
  | cons c points ih =>
    by_cases hc : isBlank c
    · rw [scan_of_skip _ _ _ _ (next_start_of_blank hc), best_start]
      exact ih (pos + 1)
    · have hnext := next_start (m := m) (by simpa using hc)
      by_cases ht : m.threadsAfter [c] = []
      · rw [ht, Move.enter_nil] at hnext
        rw [scan_of_stop _ _ _ _ hnext]
        intro t n hfound
        cases hfound
      · rw [Move.enter_of_ne_nil ht] at hnext
        rw [scan_of_advance _ _ _ _ hnext]
        exact isNear_inside m c [] (Nat.le_succ pos) points

lemma Reached.isNear {q : LexState} (hq : q.Reached) (points : List Int) :
    (q.read points).IsNear := by
  cases hq with
  | start m => exact isNear_start m 0 points
  | inside m c u => exact isNear_inside m c u le_rfl points
  | ended =>
    have hread : LexState.ended.read points = ⟨some (.endOfText, 0), 0, 0⟩ := by
      cases points <;> rfl
    rw [hread]
    intro t n hfound
    obtain ⟨-, rfl⟩ := Prod.mk.inj (Option.some.inj hfound)
    exact ⟨le_rfl, le_rfl, Nat.zero_le 1⟩

end LexState

/-- **A token and the character behind it** are all that the lexer looks at. In every state in which
it finds a token it stops behind it or one character further, and what it reads is the same in every
text with the same characters up to there and the same one, or none, where it stops. -/
theorem reading_is_local (n : Nat) (points : List Int) (t : Terminal) (stop : Nat)
    (hfound : (LexState.readNumbered n points).found = some (t, stop)) :
    let r := LexState.readNumbered n points
    (r.start ≤ stop ∧ stop ≤ r.stop ∧ r.stop ≤ stop + 1 ∧ r.stop ≤ points.length) ∧
      (∀ points', points'.take r.stop = points.take r.stop → points'[r.stop]? = points[r.stop]? →
        LexState.readNumbered n points' = r) ∧
      ∀ points', points'.take (stop + 2) = points.take (stop + 2) →
        LexState.readNumbered n points' = r := by
  rcases LexState.readNumbered_cases n with ⟨q, hq, hn⟩ | hn
  · rw [hn] at hfound ⊢
    dsimp only
    obtain ⟨hstart, hend, hover⟩ := (LexState.reached_of_mem_all hq).isNear points t stop hfound
    have hlength : (q.read points).stop ≤ points.length := by
      have := (LexState.stop_scan q 0 0 none points).2
      rwa [Nat.zero_add] at this
    have agree : ∀ points' : List Int,
        points'.take (q.read points).stop = points.take (q.read points).stop →
        points'[(q.read points).stop]? = points[(q.read points).stop]? →
        q.read points' = q.read points :=
      fun points' htake hget => LexState.scan_eq_of_agree (Nat.zero_add _).symm htake hget
    refine ⟨⟨hstart, hend, hover, hlength⟩, agree, fun points' htake => agree points' ?_ ?_⟩
    · have := congrArg (List.take (q.read points).stop) htake
      rwa [List.take_take, List.take_take, Nat.min_eq_left (by omega)] at this
    · have := congrArg (·[(q.read points).stop]?) htake
      have hlt : (q.read points).stop < stop + 2 := by omega
      simpa only [List.getElem?_take_of_lt hlt] using this
  · rw [hn] at hfound
    cases hfound

/-- Behind the number in `5./s` the lexer has looked at the point and the sign that stops it; what
follows them does not matter. -/
theorem reading_number_point :
    (LexState.readNumbered 0 [53, 46, 47, 115]).found = some (.number, 1) ∧
      LexState.readNumbered 0 [53, 46, 47, 37] = LexState.readNumbered 0 [53, 46, 47, 115] := by
  have hfound : (LexState.readNumbered 0 [53, 46, 47, 115]).found = some (.number, 1) := by
    rw [LexState.readNumbered_zero]
    decide +kernel
  exact ⟨hfound, (reading_is_local 0 _ _ _ hfound).2.2 _ rfl⟩

end ScenarioSyntax
