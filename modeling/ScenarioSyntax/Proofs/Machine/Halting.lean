import ScenarioSyntax.Proofs.Machine.Tracks

/-!
Every run of the parser ends, and within the fuel that it gets.
-/

namespace ScenarioSyntax

open Automaton Table

/-- A token other than a comment is put on the stack. -/
@[simp]
def Event.isShift : Event → Bool
  | .shift _ => true
  | _ => false

@[simp]
def Event.isReduce : Event → Bool
  | .reduce _ _ => true
  | _ => false

namespace Machine

variable {α : Type} {scan : Scanner} {text : Nat → Nat → α} {m m' : Machine}
  {ts : List Lookahead} {e : Event} {length : Nat}

/-- **Five reductions a token**: every token brings five units with it, and a reduction uses one of
them up. -/
theorem units_of_step (hs : scan.Honest) (h : Tracks scan text m ts)
    (hm : m.step scan = (e, .running m')) :
    unitsOf (m'.stack.frames text) + (if e.isReduce then 1 else 0) ≤
      unitsOf (m.stack.frames text) + 5 * (if e.isShift then 1 else 0) := by
  cases turn_of_step hm with
  | read ahead => exact le_rfl
  | @shift t k s ahead kind action =>
    have hnext : next? m.state (.terminal k) = some s := by simp [next?, action]
    rw [h.frames_shift hs ahead kind action]
    simp only [unitsOf, List.map_cons, List.sum_cons, unitsAt_of_next hnext, units, Event.isReduce,
      Event.isShift, Bool.false_eq_true, if_false, if_true]
    omega
  | @extra t k ahead kind action =>
    rw [h.frames_extra hs ahead kind]
    exact le_rfl
  | @reduce t k n a l ahead kind action =>
    rw [(Stack.frames_reduce text h.neat (h.arity_le action) n l).1]
    exact unitsOf_reduce_lt h.valid (by rwa [h.top_eq])
  | asIdentifier _ _ _ _ _ _ => exact le_rfl

/-- Bounds the number of steps to come. -/
def left (text : Nat → Nat → α) (length : Nat) (m : Machine) : Nat :=
  7 * (length - m.pos) + unitsOf (m.stack.frames text) + (if m.ahead.isNone then 1 else 0)

lemma left_lt_of_take {t : Lookahead} {s : StateId} {extra : Bool} (ht : m.ahead = some t)
    (hw : m.pos < t.span.stop ∧ t.span.stop ≤ length)
    (hu : unitsOf ((m.take s t extra).stack.frames text) ≤ unitsOf (m.stack.frames text) + 5) :
    (m.take s t extra).left text length < m.left text length := by
  have h : left text length m = 7 * (length - m.pos) + unitsOf (m.stack.frames text) := by
    simp [left, ht]
  have h' : left text length (m.take s t extra) =
      7 * (length - t.span.stop) + unitsOf ((m.take s t extra).stack.frames text) + 1 := by
    simp [left, take]
  omega

/-- Every step uses something up. -/
theorem left_lt_of_step (hs : scan.Honest) (hw : scan.Within length) (h : Tracks scan text m ts)
    (hm : m.step scan = (e, .running m')) :
    m'.left text length < m.left text length := by
  have within : ∀ t k, m.ahead = some t → t.kind? = some k → k ≠ .endOfText →
      m.pos < t.span.stop ∧ t.span.stop ≤ length := by
    intro t k ht hk hne
    obtain ⟨st, rfl, -, -⟩ := h.fresh t ht
    exact hw _ _ k hk hne
  have hunits := units_of_step hs h hm
  cases turn_of_step hm with
  | read ahead => simp [left, ahead]
  | @shift t k s ahead kind action =>
    exact left_lt_of_take ahead (within t k ahead kind (ne_endOfText_of_shift action)) hunits
  | @extra t k ahead kind action =>
    obtain rfl := eq_comment_of_extra action
    exact left_lt_of_take ahead (within t _ ahead kind (by simp)) (hunits.trans (by simp))
  | reduce ahead kind action =>
    simp only [left]
    simp only [Event.isReduce, Event.isShift, Bool.false_eq_true, if_false, if_true] at hunits
    omega
  | asIdentifier ahead kind refuses wordlike ne wants =>
    exact absurd wants (by simp [h.wants_identifier hs ahead kind refuses wordlike ne])

lemma run_ne_running (hs : scan.Honest) (hw : scan.Within length) (h : Tracks scan text m ts)
    {fuel : Nat} (hf : m.left text length < fuel) : (run scan fuel m).2 ≠ .running m' := by
  induction fuel generalizing m ts with
  | zero => omega
  | succ fuel ih =>
    unfold run
    split
    · rename_i e m₁ hstep
      have hlt := left_lt_of_step hs hw h hstep
      exact ih (h.step hs hstep) (by omega)
    · rename_i e o hne hstep
      exact fun ho => hne m' ho

/-- **Halting**: a run ends within its fuel. -/
theorem run_init_ne_running (hs : scan.Honest) (hw : scan.Within length) :
    (run scan (fuelFor length) init).2 ≠ .running m' := by
  refine run_ne_running hs hw (tracks_init scan fun _ _ => ()) ?_
  simp only [left, init, fuelFor, Stack.frames_nil, unitsOf, List.map_nil, List.sum_nil,
    Option.isNone_none, if_true]
  omega

end Machine

end ScenarioSyntax
