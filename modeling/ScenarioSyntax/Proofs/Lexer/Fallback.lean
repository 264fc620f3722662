import ScenarioSyntax.Proofs.Lexer.Modes

/-!
The mode that knows every token, as the fallback of the others. It sees what they see, or more, and
where a mode finds nothing the parser has no use for what the fallback finds.
-/

namespace ScenarioSyntax

open Terminal

namespace Table

/-- The state that looks for a comparison. -/
def comparing : StateId := 100

/-- No other state does, but the one that skips tokens. -/
def comparesAlone (s : StateId) (r : Row) : Bool :=
  s = lost || s = comparing || r.actions.all fun (t, _) => t != .comparisonOperator

lemma comparesAlone_rows : (rows.toList.zipIdx.all fun (r, s) => comparesAlone s r) = true := by
  decide +kernel

lemma eq_comparing_of_wants {s : StateId} (hs : s ≠ lost)
    (h : wants s .comparisonOperator = true) : s = comparing := by
  obtain ⟨a, ha⟩ := mem_row_of_wants h (by simp)
  rcases row_cases comparesAlone_rows s with hrow | hrow
  · simp only [comparesAlone, Bool.or_eq_true, decide_eq_true_eq, hs, false_or,
      List.all_eq_true] at hrow
    rcases hrow with hrow | hrow
    · exact hrow
    · have := hrow _ ha
      simp at this
  · simp [hrow] at ha

end Table

/-- A sign of one character that is also a comparison. -/
def Terminal.openings : List (Terminal × List Int) := [(.less, [60]), (.greater, [62])]

namespace Mode

variable {s : StateId} {t t' : Terminal} {u : List Int}

/-- Where two modes find a token of one length it is the same, but for the comparisons of one
character. -/
lemma first?_general_of_mode (hs : s ≠ Table.lost) (h : (Table.mode s).first? u = some t)
    (h' : general.first? u = some t') :
    t' = t ∨ s = Table.comparing ∧ t = .comparisonOperator ∧ (t', u) ∈ openings := by
  obtain ⟨⟨k, hk, hscanned⟩, hm⟩ := (first?_mode_iff hs t u).2 h
  by_cases hlength : t = .comparisonOperator → u.length = 2
  · rw [(first?_general_iff t u).1 ⟨hm, hlength⟩] at h'
    exact .inl (Option.some.inj h').symm
  · obtain ⟨rfl, hne⟩ := Classical.not_imp.1 hlength
    have hwants : Table.wants s .comparisonOperator = true := by
      obtain rfl : k = .comparisonOperator :=
        (scanned_eq_self (by simp [hscanned])).symm.trans hscanned
      exact hk
    have short : ∀ x ∈ signs, x.1 = .comparisonOperator → x.2.length ≠ 2 →
        ∃ y ∈ openings, y.2 = x.2 := by
      decide +kernel
    have first : ∀ y ∈ openings, general.first? y.2 = some y.1 := by decide +kernel
    have hmem : (.comparisonOperator, u) ∈ signs := by
      cases hm.shape with
      | sign h => exact h
      | quantity h _ => cases h
    obtain ⟨y, hy, rfl⟩ := short _ hmem rfl hne
    obtain rfl : y.1 = t' := Option.some.inj ((first y hy).symm.trans h')
    exact .inr ⟨Table.eq_comparing_of_wants hs hwants, rfl, hy⟩

/-- Where a mode finds a token, the fallback finds one that is at least as long. -/
lemma Finds.fallback (hs : s ≠ Table.lost) {cs : List Int} {n : Nat}
    (hf : (Table.mode s).Finds cs (some (t, n))) {g : Option (Terminal × Nat)}
    (hg : general.Finds cs g) : ∃ t' n', g = some (t', n') ∧ n ≤ n' ∧ (n' = n → t' = t ∨
      s = Table.comparing ∧ t = .comparisonOperator ∧ (t', cs.take n) ∈ openings) := by
  cases hf with
  | ended _ =>
    obtain rfl := hg.unique (.ended (Table.mem_general rfl))
    exact ⟨_, _, rfl, le_rfl, fun _ => .inl rfl⟩
  | token hlong =>
    obtain ⟨-, hm⟩ := matches_of_first? hlong.first
    obtain ⟨t₁, ht₁⟩ : ∃ t₁, general.first? (cs.take n) = some t₁ := by
      rw [← Option.isSome_iff_exists, Option.isSome_iff_ne_none, ne_eq, first?_eq_none_iff]
      exact fun hnone => hnone _ (Table.mem_general hm.isKeyword_eq_false) hm
    obtain ⟨t', n', rfl, hle, hlong'⟩ := hg.exists_longest hlong.le_length ht₁
    refine ⟨t', n', rfl, hle, ?_⟩
    rintro rfl
    exact first?_general_of_mode hs hlong.first hlong'.first

end Mode

/-- **The fallback.** What the mode of a state finds, the mode that knows every token finds too, at
the same place and at least as long; and if it is no longer it is the same token, unless it is a
sign that the state takes for a comparison. What only the fallback finds is no token that the state
has an action for, be it an identifier or the keyword that the word is. -/
theorem fallback_of_mode (s : StateId) (hs : s ≠ Table.lost) (hlt : s < Table.rows.size) :
    (∀ points : List Int,
      let own := LexState.readNumbered (Table.mode s).index points
      let fallback := LexState.readNumbered 0 points
      (∀ t stop, own.found = some (t, stop) → ∃ t' stop', fallback.found = some (t', stop') ∧
        fallback.start = own.start ∧ stop ≤ stop' ∧
        (stop' = stop → t' = t ∨ s = Table.comparing ∧ t = .comparisonOperator ∧
          (t', (points.dropWhile isBlank).take (stop - own.start)) ∈ openings)) ∧
      (own.found = none → ∀ t stop, fallback.found = some (t, stop) →
        ∀ k, k.scanned = t → Table.wants s k = false)) ∧
    ∀ (points : List Int) (pos : Nat), ((Table.mode s).readAt points pos).found = none →
      ∀ k, (Token.read points s pos).kind? = some k → Table.wants s k = false := by
  refine ⟨fun points => ?_, fun points pos hnone k hk => ?_⟩
  · dsimp only
    rw [LexState.readNumbered_index (Mode.mem_all hlt), LexState.readNumbered_zero]
    obtain ⟨hstart, f, hf, hfound⟩ := LexState.scan_start (Table.mode s) 0 points
    obtain ⟨hstart', g, hg, hfound'⟩ := LexState.scan_start Mode.general 0 points
    rw [LexState.read, LexState.read, hfound, hfound', hstart, hstart']
    generalize points.dropWhile isBlank = cs at hf hg ⊢
    refine ⟨fun t stop h => ?_, fun h t stop h' k hk => ?_⟩
    · obtain ⟨⟨t₁, n⟩, rfl, hx⟩ := Option.map_eq_some_iff.1 h
      obtain ⟨rfl, rfl⟩ := Prod.mk.inj hx
      obtain ⟨t', n', rfl, hle, heq⟩ := hf.fallback hs hg
      refine ⟨t', _, rfl, rfl, Nat.add_le_add_left hle _, fun hstop => ?_⟩
      rw [Nat.add_sub_cancel_left]
      exact heq (Nat.add_left_cancel hstop)
    · rw [Option.map_eq_none_iff] at h
      subst h
      obtain ⟨⟨t₁, n⟩, rfl, hx⟩ := Option.map_eq_some_iff.1 h'
      obtain rfl : t₁ = t := (Prod.mk.inj hx).1
      rw [← hk] at hg
      exact Table.wants_eq_false_of_finds hf hg
  · obtain ⟨-, f, hf, hfound⟩ := Token.readAt_finds (Table.mode s) points pos
    rw [hnone, eq_comm, Option.map_eq_none_iff] at hfound
    subst hfound
    obtain ⟨n, -, hfinds⟩ := Token.exists_serves hk
    exact Table.wants_eq_false_of_finds hf hfinds

/-- Where a comparison is looked for, `<` is one; the fallback reads a sign that is no longer. -/
theorem fallback_less :
    (LexState.readNumbered (Table.mode Table.comparing).index [60]).found =
        some (.comparisonOperator, 1) ∧
      ∃ t' stop', (LexState.readNumbered 0 [60]).found = some (t', stop') ∧ 1 ≤ stop' := by
  have hlt : Table.comparing < Table.rows.size := by decide +kernel
  have hown : (LexState.readNumbered (Table.mode Table.comparing).index [60]).found =
      some (.comparisonOperator, 1) := by
    rw [LexState.readNumbered_index (Mode.mem_all hlt)]
    decide +kernel
  obtain ⟨t', stop', hfound, -, hle, -⟩ :=
    ((fallback_of_mode Table.comparing (by decide) hlt).1 [60]).1 _ _ hown
  exact ⟨hown, t', stop', hfound, hle⟩

end ScenarioSyntax
