import Mathlib.Tactic.Common
import ScenarioSyntax.Parser.Machine

/-!
What a step of the parser can do, the runs that steps add up to, and the tokens that are taken
on the way.
-/

namespace ScenarioSyntax

/-- The tokens taken in a trace, comments among them; `t` has been read before it begins. -/
def Event.taken (t : Option Lookahead) : List Event → List Lookahead
  | [] => []
  | .token t' :: es => taken (some t') es
  | .asIdentifier _ :: es => taken (t.map (·.asIdentifier)) es
  | .shift _ :: es => t.toList ++ taken none es
  | .extra :: es => t.toList ++ taken none es
  | .reduce _ _ :: es => taken t es
  | .accept :: es => taken t es
  | .error _ :: es => taken t es

/-- The tokens that are taken with one event. -/
def Event.takes (t : Option Lookahead) : Event → List Lookahead
  | .shift _ => t.toList
  | .extra => t.toList
  | _ => []

/-- The machine, if it is still running. -/
def Outcome.running? : Outcome → Option Machine
  | .running m => some m
  | _ => none

namespace Machine

variable {scan : Scanner} {m m' : Machine} {t : Lookahead} {e : Event} {es : List Event}
  {o : Outcome}

/-- The token has no action, other than to be skipped. -/
def Refuses (m : Machine) (t : Lookahead) : Prop :=
  ∀ k a, t.kind? = some k → Table.action? m.state k = some a → a = .recover

/-- The things that a step can do. -/
inductive Turn (scan : Scanner) (m : Machine) : Event → Outcome → Prop
  | read (ahead : m.ahead = none) : Turn scan m (.token (scan m.state m.pos))
      (.running { m with ahead := some (scan m.state m.pos) })
  | shift {t : Lookahead} {k : Terminal} {s : StateId} (ahead : m.ahead = some t)
      (kind : t.kind? = some k) (action : Table.action? m.state k = some (.shift s)) :
      Turn scan m (.shift s) (.running (m.take s t false))
  | extra {t : Lookahead} {k : Terminal} (ahead : m.ahead = some t) (kind : t.kind? = some k)
      (action : Table.action? m.state k = some .extra) :
      Turn scan m .extra (.running (m.take m.state t true))
  | reduce {t : Lookahead} {k : Terminal} {n : Nonterminal} {a : Nat} {l : Layout}
      (ahead : m.ahead = some t) (kind : t.kind? = some k)
      (action : Table.action? m.state k = some (.reduce n a l)) :
      Turn scan m (.reduce n a) (.running { m with stack := m.stack.reduce n a l })
  | accept {t : Lookahead} {k : Terminal} (ahead : m.ahead = some t) (kind : t.kind? = some k)
      (action : Table.action? m.state k = some .accept) :
      Turn scan m .accept (.accepted (Tree.root (m.stack.push Table.start t.leaf).trees))
  | asIdentifier {t : Lookahead} {k : Terminal} (ahead : m.ahead = some t)
      (kind : t.kind? = some k) (refuses : m.Refuses t) (wordlike : t.wordlike = true)
      (ne : k ≠ .identifier) (wants : Table.wants m.state .identifier = true) :
      Turn scan m (.asIdentifier k) (.running { m with ahead := some t.asIdentifier })
  | error {t : Lookahead} (ahead : m.ahead = some t) (refuses : m.Refuses t) :
      Turn scan m (.error m.pos) (.stuck m)

lemma turn_of_reject (ht : m.ahead = some t) (hr : m.Refuses t) (h : m.reject t = (e, o)) :
    Turn scan m e o := by
  unfold reject at h
  split at h
  · rename_i k hk
    split at h
    · rename_i hc
      simp only [Bool.and_eq_true, bne_iff_ne] at hc
      cases h
      exact .asIdentifier ht hk hr hc.1.1 hc.1.2 hc.2
    · cases h
      exact .error ht hr
  · cases h
    exact .error ht hr

theorem turn_of_step (h : m.step scan = (e, o)) : Turn scan m e o := by
  unfold step at h
  split at h
  · rename_i ha
    cases h
    exact .read ha
  · rename_i t ht
    unfold act at h
    split at h <;> rename_i ha
    case h_5 =>
      refine turn_of_reject ht (fun k a hk hka => ?_) h
      simpa [hk, hka] using ha
    case h_6 =>
      refine turn_of_reject ht (fun k a hk hka => ?_) h
      simp [hk, hka] at ha
    all_goals
      obtain ⟨k, hk, hka⟩ := Option.bind_eq_some_iff.1 ha
      cases h
    · exact .shift ht hk hka
    · exact .extra ht hk hka
    · exact .reduce ht hk hka
    · exact .accept ht hk hka

/-- What a step adds to the tokens taken. -/
lemma taken_of_step (h : m.step scan = (e, .running m')) (es : List Event) :
    Event.taken m.ahead (e :: es) = e.takes m.ahead ++ Event.taken m'.ahead es := by
  cases turn_of_step h with
  | read ahead => rfl
  | shift ahead kind action => simp [Event.taken, Event.takes, take]
  | extra ahead kind action => simp [Event.taken, Event.takes, take]
  | reduce ahead kind action => rfl
  | asIdentifier ahead kind refuses wordlike ne wants => simp [Event.taken, Event.takes, ahead]

/-- A step preserves what each thing that it can do preserves. -/
theorem preserved_of_step {I : Machine → List Lookahead → Prop} {ts : List Lookahead}
    (h : m.step scan = (e, .running m'))
    (read : m.ahead = none → I { m with ahead := some (scan m.state m.pos) } ts)
    (shift : ∀ {t k s}, m.ahead = some t → t.kind? = some k →
      Table.action? m.state k = some (.shift s) → I (m.take s t false) (ts ++ [t]))
    (extra : ∀ {t k}, m.ahead = some t → t.kind? = some k →
      Table.action? m.state k = some .extra → I (m.take m.state t true) (ts ++ [t]))
    (reduce : ∀ {t k n a l}, m.ahead = some t → t.kind? = some k →
      Table.action? m.state k = some (.reduce n a l) →
      I { m with stack := m.stack.reduce n a l } ts)
    (asIdentifier : ∀ {t k}, m.ahead = some t → t.kind? = some k → m.Refuses t →
      t.wordlike = true → k ≠ .identifier → Table.wants m.state .identifier = true →
      I { m with ahead := some t.asIdentifier } ts) :
    I m' (ts ++ e.takes m.ahead) := by
  cases turn_of_step h with
  | read ahead => simpa [Event.takes] using read ahead
  | shift ahead kind action => simpa [Event.takes, ahead] using shift ahead kind action
  | extra ahead kind action => simpa [Event.takes, ahead] using extra ahead kind action
  | reduce ahead kind action => simpa [Event.takes] using reduce ahead kind action
  | asIdentifier ahead kind refuses wordlike ne wants =>
    simpa [Event.takes] using asIdentifier ahead kind refuses wordlike ne wants

lemma step_reduce (scan : Scanner) (ht : m.ahead = some t) {k : Terminal} (hk : t.kind? = some k)
    {n : Nonterminal} {a : Nat} {l : Layout} (h : Table.action? m.state k = some (.reduce n a l)) :
    m.step scan = (.reduce n a, .running { m with stack := m.stack.reduce n a l }) := by
  simp only [step, ht, act, hk, Option.bind_some, h]

/-- Steps that leave the machine running, with their events. -/
inductive Reaches (scan : Scanner) : Machine → List Event → Machine → Prop
  | refl (m : Machine) : Reaches scan m [] m
  | step {m m' m'' : Machine} {e : Event} {es : List Event}
      (head : m.step scan = (e, .running m')) (tail : Reaches scan m' es m'') :
      Reaches scan m (e :: es) m''

/-- There is no error while the machine is running. -/
lemma Reaches.error_notMem (h : Reaches scan m es m') (p : Nat) : .error p ∉ es := by
  induction h with
  | refl m => simp
  | @step m m' m'' e es head _ ih =>
    intro hmem
    rcases List.mem_cons.1 hmem with rfl | hmem
    · cases turn_of_step head
    · exact ih hmem

/-- What holds of a machine and the tokens taken so far, and is preserved by every step, holds as
long as the machine is running. -/
theorem Reaches.preserves {I : Machine → List Lookahead → Prop}
    (step : ∀ {m m' ts e}, I m ts → m.step scan = (e, .running m') → I m' (ts ++ e.takes m.ahead))
    (h : Reaches scan m es m') {ts : List Lookahead} (hm : I m ts) :
    I m' (ts ++ Event.taken m.ahead es) := by
  induction h generalizing ts with
  | refl m => simpa [Event.taken] using hm
  | step head _ ih =>
    rw [taken_of_step head, ← List.append_assoc]
    exact ih (step hm head)

/-- A run has used up its fuel, or its last step is one that ends it. -/
theorem exists_of_run {fuel : Nat} (h : run scan fuel m = (es, o)) :
    (∃ m', o = .running m' ∧ Reaches scan m es m') ∨
      ∃ es' e m', es = es' ++ [e] ∧ Reaches scan m es' m' ∧ m'.step scan = (e, o) ∧
        ∀ m'', o ≠ .running m'' := by
  induction fuel generalizing m es with
  | zero =>
    cases h
    exact .inl ⟨m, rfl, .refl m⟩
  | succ fuel ih =>
    unfold run at h
    split at h
    · rename_i e m' hs
      obtain ⟨es', o', hr⟩ : ∃ es' o', run scan fuel m' = (es', o') := ⟨_, _, rfl⟩
      rw [hr] at h
      cases h
      rcases ih hr with ⟨m'', ho, h⟩ | ⟨es, e', m'', rfl, h, hlast, ho⟩
      · exact .inl ⟨m'', ho, .step hs h⟩
      · exact .inr ⟨e :: es, e', m'', rfl, .step hs h, hlast, ho⟩
    · rename_i e o' hne hs
      cases h
      exact .inr ⟨[], e, m, rfl, .refl m, hs, hne⟩

lemma reaches_of_running? {fuel : Nat} (h : (run scan fuel m).2.running? = some m') :
    Reaches scan m (run scan fuel m).1 m' := by
  obtain ⟨es, o, hrun⟩ : ∃ es o, run scan fuel m = (es, o) := ⟨_, _, rfl⟩
  rw [hrun] at h ⊢
  cases o with
  | running m'' =>
    obtain rfl : m'' = m' := Option.some.inj h
    rcases exists_of_run hrun with ⟨m, ho, hr⟩ | ⟨-, -, -, -, -, -, hne⟩
    · cases ho
      exact hr
    · exact absurd rfl (hne m'')
  | accepted t => cases h
  | stuck m => cases h

end Machine

end ScenarioSyntax
