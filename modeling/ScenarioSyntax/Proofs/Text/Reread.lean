import ScenarioSyntax.Proofs.Text.FirstError

/-!
The parser keeps the token ahead while it reduces. The states on the way have modes of their own,
and each of them that can use the token would have read the same one: a token whose end depends on
the mode is never reduced on.
-/

namespace ScenarioSyntax

open Terminal

namespace Table

variable {s : StateId}

/-- No reduction on a token that a longer one can begin with. -/
def firm (_ : StateId) (r : Row) : Bool :=
  r.actions.all fun (t, a) =>
    match a with
    | .reduce .. => t != .number && t != .comparisonOperator
    | _ => true

lemma firm_rows : (rows.toList.zipIdx.all fun (r, s) => firm s r) = true := by decide +kernel

lemma ne_of_reduce {t : Terminal} {n : Nonterminal} {k : Nat} {l : Layout}
    (h : action? s t = some (.reduce n k l)) : t ≠ .number ∧ t ≠ .comparisonOperator := by
  have hm := action?_eq h (by simp)
  rcases row_cases firm_rows s with hs | hs
  · simpa using List.all_eq_true.1 hs _ hm
  · simp [hs] at hm

end Table

namespace Token

variable {points : List Int} {s s' : StateId} {pos : Nat} {k : Terminal}

/-- A token that the state can use is found in the state's own mode. -/
lemma mode_read (hk : (read points s pos).kind? = some k) (hw : Table.wants s k = true) :
    (read points s pos).mode = Table.mode s := by
  obtain ⟨n, hm | ⟨-, hnone⟩, hf⟩ := exists_serves hk
  · exact hm
  · rw [Table.wants_eq_false_of_finds hnone hf] at hw
    cases hw

lemma IsRead.stops_scanned {n : Nat} (h : IsRead points s pos k n) (hn : k ≠ .number)
    (hc : k ≠ .comparisonOperator) : k.scanned.Stops (points.drop (begin points pos + n)) := by
  by_cases hk : k.isWord = true ∨ k = .comment
  · exact h.stops hk
  · obtain ⟨hword, hcomment⟩ := not_or.1 hk
    have hscanned : k.scanned = k := by
      have hkw : k.isKeyword = false := by
        by_contra hkw
        simp [isWord, scanned, hkw] at hword
      simp [scanned, hkw]
    have hid : k ≠ .identifier := by
      rintro rfl
      exact hword rfl
    rw [hscanned]
    intro c _
    cases k <;> trivial

/-- **A token read twice**: a state that can use it reads the token that another state has read. -/
theorem leaf_read_eq (hk : (read points s pos).kind? = some k) (hn : k ≠ .number)
    (hc : k ≠ .comparisonOperator) (hs : s' ≠ Table.lost) (hw : Table.wants s' k = true) :
    (read points s' pos).leaf = (read points s pos).leaf := by
  by_cases hend : k = .endOfText
  · subst hend
    have hnil := (end_of_kind? hk).1
    rw [leaf_of_end hnil, leaf_of_end hnil]
  · obtain ⟨n, hn'⟩ := exists_isRead hk hend
    have hstops := hn'.stops_scanned hn hc
    rw [← List.drop_drop] at hstops
    have hle : n ≤ (points.drop (begin points pos)).length := by
      have := hn'.le
      rw [List.length_drop]
      omega
    rw [read_of_lexeme hs hw hn'.lexeme (List.take_append_drop n _).symm hstops, hn'.leaf_eq,
      List.length_take, Nat.min_eq_left hle]

end Token

namespace Machine

variable {scan : Scanner} {m m' : Machine} {rs : List Event}

/-- Reductions keep the token ahead. -/
lemma Reaches.of_reductions (h : Reaches scan m rs m') (hrs : ∀ e ∈ rs, ∃ n a, e = .reduce n a)
    {t : Lookahead} (ht : m.ahead = some t) {k : Terminal} (hk : t.kind? = some k) :
    m'.ahead = some t ∧ m'.pos = m.pos ∧
      (m' = m ∨ ∃ n a l, Table.action? m.state k = some (.reduce n a l)) := by
  induction h with
  | refl m => exact ⟨ht, rfl, .inl rfl⟩
  | @step m m₁ m' e es head tail ih =>
    obtain ⟨n, a, rfl⟩ := hrs e (by simp)
    cases turn_of_step head with
    | @reduce t' k' _ _ l ahead kind action =>
      obtain rfl : t' = t := by simpa [ahead] using ht
      obtain rfl : k' = k := by simpa [kind] using hk
      obtain ⟨hahead, hpos, -⟩ := ih (fun e he => hrs e (by simp [he])) ahead
      exact ⟨hahead, hpos, .inr ⟨n, a, l, action⟩⟩

/-- **A token is kept** through the reductions in front of it. It was read for the state that the
parser was in then, and every state that can use it, so the one that takes it, would have read the
same token at the same place in its own mode. -/
theorem reread_eq (points : List Int) {es rs : List Event} {m₀ m : Machine} {t : Lookahead}
    {k : Terminal} (hreaches : Reaches (Token.read points) init es m₀) (hahead : m₀.ahead = none)
    (ht : t = Token.read points m₀.state m₀.pos) (hk : t.kind? = some k)
    (hreduces : Reaches (Token.read points) { m₀ with ahead := some t } rs m)
    (hrs : ∀ e ∈ rs, ∃ n a, e = .reduce n a) (hw : Table.wants m.state k = true) :
    m.ahead = some t ∧ m.pos = m₀.pos ∧ (Token.read points m.state m.pos).leaf = t.leaf ∧
      (Token.read points m.state m.pos).mode = Table.mode m.state := by
  have hs := Token.honest_read points
  obtain ⟨hkept, hpos, hor⟩ := hreduces.of_reductions hrs rfl hk
  have htracks := (tracks_init (Token.read points) fun _ _ => ()).of_reaches hs hreaches
  have hnext := htracks.read hahead
  rw [← ht] at hnext
  have hlost := (hnext.of_reaches hs hreduces).state_ne_lost
  subst ht
  have hleaf : (Token.read points m.state m₀.pos).leaf =
      (Token.read points m₀.state m₀.pos).leaf := by
    rcases hor with rfl | ⟨n, a, l, hreduce⟩
    · rfl
    · obtain ⟨hn, hc⟩ := Table.ne_of_reduce hreduce
      exact Token.leaf_read_eq hk hn hc hlost hw
  rw [hpos]
  refine ⟨hkept, rfl, hleaf, Token.mode_read ?_ hw⟩
  rwa [Lookahead.kind?, hleaf]

/-- The word behind a declaration is read before the declaration is complete. -/
theorem reread_scenario : ∃ (points : List Int) (m₀ m : Machine),
    m₀.state ≠ m.state ∧
      (Token.read points m.state m.pos).leaf = (Token.read points m₀.state m₀.pos).leaf := by
  let points := kwUse.spelling ++ [34, 34] ++ kwScenario.spelling
  have h : ((run (Token.read points) 4 init).2.running?.any fun m₀ =>
      m₀.ahead.isNone && (Token.read points m₀.state m₀.pos).kind? = some .kwScenario &&
        Table.action? m₀.state .kwScenario = some (.reduce .useDeclaration 2 .useDeclaration) &&
        m₀.state ≠ (m₀.stack.reduce .useDeclaration 2 .useDeclaration).state &&
        Table.wants (m₀.stack.reduce .useDeclaration 2 .useDeclaration).state .kwScenario) =
      true := by
    decide +kernel
  obtain ⟨m₀, hm₀, hall⟩ := (Option.any_eq_true _ _).1 h
  simp only [Bool.and_eq_true, Option.isNone_iff_eq_none, decide_eq_true_eq] at hall
  obtain ⟨⟨⟨⟨hahead, hk⟩, ha⟩, hne⟩, hw⟩ := hall
  have hstep := step_reduce (m := { m₀ with ahead := some (Token.read points m₀.state m₀.pos) })
    (Token.read points) rfl hk ha
  obtain ⟨-, -, hleaf, -⟩ := reread_eq points (reaches_of_running? hm₀) hahead rfl hk
    (.step hstep (.refl _)) (by simp) hw
  refine ⟨points, m₀, _, ?_, hleaf⟩
  exact hne

end Machine

end ScenarioSyntax
