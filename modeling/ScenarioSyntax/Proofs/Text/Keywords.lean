import ScenarioSyntax.Proofs.Text.Reread

/-!
A word that has been read as a keyword is taken as one. It is read for the state that the parser is
in then, and taken in another one, behind the reductions that it calls for; the states on the way
all go on with it.
-/

namespace ScenarioSyntax

open Automaton Table Grammar Terminal

namespace Table

variable {s r : StateId} {k : Terminal}

/-- Constructs are reduced on what may follow them, and behind each of them the state goes on with
every keyword that may follow it. -/
def passesOn (_ : StateId) (r : Row) : Bool :=
  (r.actions.all fun (t, a) =>
    match a with
    | .reduce n _ _ => (follow n).contains t
    | _ => true) &&
  r.gotos.all fun (n, q) => (follow n).all fun t => !t.isKeyword || wants q t

lemma passesOn_rows : (rows.toList.zipIdx.all fun (r, s) => passesOn s r) = true := by
  decide +kernel

lemma mem_follow_of_reduce {n : Nonterminal} {a : Nat} {l : Layout}
    (h : action? s k = some (.reduce n a l)) : k ∈ follow n := by
  have hm := action?_eq h (by simp)
  rcases row_cases passesOn_rows s with hs | hs
  · simp only [passesOn, Bool.and_eq_true, List.all_eq_true] at hs
    simpa using hs.1 _ hm
  · simp [hs] at hm

lemma wants_of_goto {n : Nonterminal} (h : (row s).gotos.lookup n = some r) (hk : k ∈ follow n)
    (hkw : k.isKeyword = true) : wants r k = true := by
  have hm := mem_of_lookup h
  rcases row_cases passesOn_rows s with hs | hs
  · simp only [passesOn, Bool.and_eq_true, List.all_eq_true] at hs
    simpa [hkw] using hs.2 _ hm k hk
  · simp [hs] at hm

end Table

/-- A keyword is read only for a state that can use it. -/
lemma Token.wants_of_isKeyword {points : List Int} {s : StateId} {pos : Nat} {k : Terminal}
    (h : (Token.read points s pos).kind? = some k) (hk : k.isKeyword = true) :
    wants s k = true := by
  have hr := Token.reads_read points s pos
  generalize Token.read points s pos = t at h hr
  cases hr with
  | @token m k' n _ found ne =>
    obtain rfl : k' = k := by simpa [Lookahead.kind?] using h
    have hend : k' ≠ .endOfText := by
      rintro rfl
      cases hk
    rw [Token.not_isKeyword_of_longest (Token.longest_of_finds found hend)] at hk
    cases hk
  | @word m n _ found =>
    obtain ⟨k', w, heq, hor, -⟩ :=
      Token.exists_word points s m pos (Token.begin points pos) n
    rw [heq] at h
    obtain rfl : k' = k := by simpa [Lookahead.kind?] using h
    rcases hor with rfl | ⟨-, hw⟩
    · cases hk
    · exact hw
  | stray _ _ _ => cases h

namespace Machine

variable {scan : Scanner} {m m' : Machine} {es rs : List Event} {t : Lookahead} {k : Terminal}

/-! ### The token ahead along a run -/

lemma Reaches.exists_of_append (h : Reaches scan m (es ++ rs) m') :
    ∃ m₁, Reaches scan m es m₁ ∧ Reaches scan m₁ rs m' := by
  induction es generalizing m with
  | nil => exact ⟨m, .refl m, h⟩
  | cons e es ih =>
    cases h with
    | step head tail =>
      obtain ⟨m₁, h₁, h₂⟩ := ih tail
      exact ⟨m₁, .step head h₁, h₂⟩

/-- The token ahead is the last one that was read. -/
lemma Reaches.ahead_eq (h : Reaches scan m rs m') (hread : ∀ t', .token t' ∉ rs)
    (hword : ∀ k', .asIdentifier k' ∉ rs) (ht : m'.ahead = some t) : m.ahead = some t := by
  induction h with
  | refl m => exact ht
  | @step m m₁ m' e es head tail ih =>
    have ih := ih (fun t' h => hread t' (by simp [h])) (fun k' h => hword k' (by simp [h])) ht
    cases turn_of_step head with
    | read ahead => exact absurd List.mem_cons_self (hread _)
    | shift ahead kind action => cases ih
    | extra ahead kind action => cases ih
    | reduce ahead kind action => exact ih
    | asIdentifier ahead kind refuses wordlike ne wants =>
      exact absurd List.mem_cons_self (hword _)

namespace Tracks

variable {α : Type} {text : Nat → Nat → α} {ts : List Lookahead}

/-- No word is read a second time. -/
lemma asIdentifier_notMem (hs : scan.Honest) (h : Tracks scan text m ts)
    (hr : Reaches scan m es m') (k : Terminal) : .asIdentifier k ∉ es := by
  induction hr generalizing ts with
  | refl m => simp
  | @step m m₁ m' e es head tail ih =>
    intro hmem
    rcases List.mem_cons.1 hmem with rfl | hmem
    · cases turn_of_step head with
      | asIdentifier ahead kind refuses wordlike ne wants =>
        exact absurd wants (by simp [h.wants_identifier hs ahead kind refuses wordlike ne])
    · exact ih (h.step hs head) hmem

/-- Behind a reduction the parser is in a state that stands behind the construct. -/
lemma exists_goto (h : Tracks scan text m ts) {n : Nonterminal} {a : Nat} {l : Layout}
    (action : action? m.state k = some (.reduce n a l)) :
    ∃ s, (row s).gotos.lookup n = some (m.stack.reduce n a l).state := by
  obtain ⟨-, -, -, -, -, -, -, -, hnext⟩ :=
    h.valid.exists_of_reduce (a := k) (by rw [h.top_eq]; exact action)
  obtain ⟨hframes, hneat⟩ := Stack.frames_reduce text h.neat (h.arity_le action) n l
  have hstate : Stack.state (m.stack.reduce n a l) =
      goto (top ((m.stack.frames text).drop a)) n := by
    rw [← Stack.top_frames text hneat, hframes, Automaton.reduce, top_cons]
  exact ⟨top ((m.stack.frames text).drop a), by rw [hstate]; exact hnext⟩

end Tracks

/-! ### Keywords are taken -/

/-- If a keyword is ahead, the state goes on with it. -/
def Welcomes (m : Machine) : Prop :=
  ∀ t k, m.ahead = some t → t.kind? = some k → k.isKeyword = true → wants m.state k = true

/-- The parser has taken tokens of the text, and goes on with the keyword ahead. -/
def Obliges (points : List Int) (m : Machine) (ts : List Lookahead) : Prop :=
  Tracks (Token.read points) (fun _ _ => ()) m ts ∧ m.Welcomes

variable {points : List Int} {ts : List Lookahead}

lemma obliges_init (points : List Int) : Obliges points init [] :=
  ⟨tracks_init _ _, fun t k ht => by simp [init] at ht⟩

namespace Obliges

/-- **A step** leads to a state that goes on with the keyword ahead. -/
theorem step (h : Obliges points m ts) {e : Event}
    (hm : m.step (Token.read points) = (e, .running m')) :
    Obliges points m' (ts ++ e.takes m.ahead) := by
  have hs := Token.honest_read points
  refine ⟨h.1.step hs hm, ?_⟩
  intro t k ht hk hkw
  cases turn_of_step hm with
  | read ahead =>
    obtain rfl : Token.read points m.state m.pos = t := by simpa using ht
    exact Token.wants_of_isKeyword hk hkw
  | shift ahead kind action => cases ht
  | extra ahead kind action => cases ht
  | @reduce t' k' n a l ahead kind action =>
    obtain rfl : t' = t := by simpa [ahead] using ht
    obtain rfl : k' = k := by simpa [kind] using hk
    obtain ⟨s, hgoto⟩ := h.1.exists_goto action
    exact wants_of_goto hgoto (mem_follow_of_reduce action) hkw
  | asIdentifier ahead kind refuses wordlike ne wants =>
    exact absurd wants (by simp [h.1.wants_identifier hs ahead kind refuses wordlike ne])

theorem of_reaches (h : Obliges points m ts) (hr : Reaches (Token.read points) m es m') :
    Obliges points m' (ts ++ Event.taken m.ahead es) :=
  hr.preserves (fun h hm => h.step hm) h

/-- The keyword ahead is shifted, after some reductions. -/
theorem exists_shift (h : Obliges points m ts) (ht : m.ahead = some t) (hk : t.kind? = some k)
    (hkw : k.isKeyword = true) : ∃ rs m' s, Reaches (Token.read points) m rs m' ∧
      (∀ e ∈ rs, ∃ n a, e = .reduce n a) ∧
      m'.step (Token.read points) = (.shift s, .running (m'.take s t false)) := by
  have hs := Token.honest_read points
  have hw := Token.within_read points
  -- every reduction uses up something of what the stack holds
  induction hn : m.left (fun _ _ => ()) points.length using Nat.strongRecOn generalizing m ts with
  | ind n ih =>
    obtain ⟨a, ha⟩ := Option.isSome_iff_exists.1 (h.2 t k ht hk hkw)
    rcases a with s | _ | ⟨n', a, l⟩ | _ | _
    · refine ⟨[], m, s, .refl m, by simp, ?_⟩
      simp only [Machine.step, ht, act, hk, Option.bind_some, ha]
    · obtain rfl := eq_comment_of_extra ha
      cases hkw
    · have hstep := step_reduce (Token.read points) ht hk ha
      have hlt := left_lt_of_step hs hw h.1 hstep
      obtain ⟨rs, m', s, hr, hrs, hshift⟩ := ih _ (by omega) (h.step hstep) ht rfl
      refine ⟨_ :: rs, m', s, .step hstep hr, ?_, hshift⟩
      exact List.forall_mem_cons.2 ⟨⟨n', a, rfl⟩, hrs⟩
    · obtain ⟨rfl, -⟩ := progress_of_accept ha
      cases hkw
    · exact absurd (eq_lost_of_recover ha) h.1.state_ne_lost

/-- No error is found at a keyword. -/
lemma isKeyword_eq_false (h : Obliges points m ts) (ht : m.ahead = some t) (hr : m.Refuses t)
    (hk : t.kind? = some k) : k.isKeyword = false := by
  rw [← Bool.not_eq_true]
  intro hkw
  have hw := h.2 t k ht hk hkw
  rw [wants, h.1.action?_eq_none hr hk] at hw
  cases hw

end Obliges

/-! ### Whole runs -/

lemma asIdentifier_notMem_runText (points : List Int) (k : Terminal) :
    .asIdentifier k ∉ (runText points).1 := by
  have hs := Token.honest_read points
  have hinit := obliges_init points
  rcases hrun : runText points with ⟨es, o⟩
  rcases exists_of_run hrun with ⟨m, -, hr⟩ | ⟨es, e, m, rfl, hr, hlast, ho⟩
  · exact hinit.1.asIdentifier_notMem hs hr k
  · intro hmem
    rcases List.mem_append.1 hmem with hmem | hmem
    · exact hinit.1.asIdentifier_notMem hs hr k hmem
    · obtain rfl := List.mem_singleton.1 hmem
      cases turn_of_step hlast
      exact ho _ rfl

/-- The last token that was read before an error is no keyword. -/
lemma isKeyword_eq_false_of_error {p : Nat}
    (h : (runText points).1 = es ++ .token t :: rs ++ [.error p]) (hread : ∀ t', .token t' ∉ rs)
    (hk : t.kind? = some k) : k.isKeyword = false := by
  have hs := Token.honest_read points
  have hinit := obliges_init points
  rcases hrun : runText points with ⟨es', o⟩
  rw [hrun] at h
  dsimp only at h
  rcases exists_of_run hrun with ⟨m, -, hr⟩ | ⟨es', e, m, rfl, hr, hlast, -⟩
  · exact absurd (h ▸ List.mem_append_right _ (List.mem_singleton_self _)) (hr.error_notMem p)
  obtain ⟨rfl, he⟩ := List.append_inj' h rfl
  obtain rfl := List.singleton_inj.1 he
  cases turn_of_step hlast with
  | @error t' ahead refuses =>
    have hm := hinit.of_reaches hr
    obtain ⟨m₁, -, h₁⟩ := hr.exists_of_append
    cases h₁ with
    | step head tail =>
      have hword := fun k' hmem => hinit.1.asIdentifier_notMem hs hr k'
        (List.mem_append_right _ (List.mem_cons_of_mem _ hmem))
      have hahead := tail.ahead_eq hread hword ahead
      cases turn_of_step head with
      | read hnone =>
        obtain rfl := Option.some.inj hahead
        exact hm.isKeyword_eq_false ahead refuses hk

/-- **Keywords are taken.** When a token is read as a keyword, every state that the parser gets into
by reductions has an action for it, and behind finitely many reductions it is shifted. So no word is
ever read as an identifier after all, and no error is found at a keyword. -/
theorem keyword_is_shifted (points : List Int) :
    (∀ (es : List Event) (m₀ : Machine) (t : Lookahead) (k : Terminal),
      Reaches (Token.read points) init es m₀ → m₀.ahead = none →
      t = Token.read points m₀.state m₀.pos → t.kind? = some k → k.isKeyword = true →
      (∀ rs m, Reaches (Token.read points) { m₀ with ahead := some t } rs m →
        (∀ e ∈ rs, ∃ n a, e = .reduce n a) → wants m.state k = true) ∧
      ∃ rs m s, Reaches (Token.read points) { m₀ with ahead := some t } rs m ∧
        (∀ e ∈ rs, ∃ n a, e = .reduce n a) ∧
        m.step (Token.read points) = (.shift s, .running (m.take s t false))) ∧
    (∀ k, .asIdentifier k ∉ (runText points).1) ∧
    ∀ (es rs : List Event) (t : Lookahead) (p : Nat) (k : Terminal),
      (runText points).1 = es ++ .token t :: rs ++ [.error p] → (∀ t', .token t' ∉ rs) →
      t.kind? = some k → k.isKeyword = false := by
  have hinit := obliges_init points
  refine ⟨fun es m₀ t k hr hahead ht hk hkw => ?_, asIdentifier_notMem_runText points,
    fun _ _ _ _ _ hrun hread hk => isKeyword_eq_false_of_error hrun hread hk⟩
  have hstep : m₀.step (Token.read points) = (.token t, .running { m₀ with ahead := some t }) := by
    simp only [step, hahead, ht]
  have hm := (hinit.of_reaches hr).step hstep
  refine ⟨fun rs m hrs hred => ?_, hm.exists_shift rfl hk hkw⟩
  exact (hm.of_reaches hrs).2 t k (hrs.of_reductions hred rfl hk).1 hk hkw

/-- The word behind a declaration is read before the declaration is complete, and shifted when it
is. -/
theorem shifts_scenario : ∃ (points : List Int) (m₀ m : Machine) (rs : List Event) (s : StateId),
    (Token.read points m₀.state m₀.pos).kind? = some .kwScenario ∧ rs ≠ [] ∧
      Reaches (Token.read points)
        { m₀ with ahead := some (Token.read points m₀.state m₀.pos) } rs m ∧
      (m.step (Token.read points)).1 = .shift s := by
  let points := kwUse.spelling ++ [34, 34] ++ kwScenario.spelling
  have h : ((run (Token.read points) 4 init).2.running?.any fun m₀ =>
      m₀.ahead.isNone && (Token.read points m₀.state m₀.pos).kind? = some .kwScenario &&
        action? m₀.state .kwScenario = some (.reduce .useDeclaration 2 .useDeclaration)) =
      true := by
    decide +kernel
  obtain ⟨m₀, hm₀, hall⟩ := (Option.any_eq_true _ _).1 h
  simp only [Bool.and_eq_true, Option.isNone_iff_eq_none, decide_eq_true_eq] at hall
  obtain ⟨⟨hahead, hk⟩, ha⟩ := hall
  obtain ⟨-, rs, m, s, hr, -, hshift⟩ := (keyword_is_shifted points).1 _ m₀ _ _
    (reaches_of_running? hm₀) hahead rfl hk rfl
  refine ⟨points, m₀, m, rs, s, hk, ?_, hr, by rw [hshift]⟩
  rintro rfl
  have hstep := step_reduce (m := { m₀ with ahead := some (Token.read points m₀.state m₀.pos) })
    (Token.read points) rfl hk ha
  cases hr with
  | refl =>
    rw [hstep] at hshift
    cases hshift

end Machine

end ScenarioSyntax
