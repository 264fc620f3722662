import ScenarioSyntax.Proofs.Machine.Fringe
import ScenarioSyntax.Proofs.Tree.Outline

/-!
The parser looks at the kinds of the tokens only. Two texts whose tokens are of the same kinds are
parsed in lockstep: the stacks hold the same states, and trees that differ in places only.
-/

namespace ScenarioSyntax

open Table

/-! ### Trees without places -/

namespace Tree

lemma splitTrailing_map (ts : List Tree) : splitTrailing (ts.map unplaced) =
    ((splitTrailing ts).1.map unplaced, (splitTrailing ts).2.map unplaced) := by
  have hfun : isExtra ∘ unplaced = isExtra := funext isExtra_unplaced
  simp [splitTrailing, ← List.map_reverse, List.dropWhile_map, List.takeWhile_map, hfun]

lemma unplaced_root (ts : List Tree) : (root ts).unplaced = root (ts.map unplaced) := by
  unfold root
  rw [splitTrailing_map]
  obtain ⟨body, trailing⟩ := splitTrailing ts
  dsimp only
  rw [List.getLast?_map]
  rcases body.getLast? with _ | _ | _ | _ | ⟨l, cs⟩
  case some.node => simp [unplaced, unplacedAll_eq, List.map_dropLast]
  all_goals simp [unplaced, unplacedAll_eq]

end Tree

namespace Stack

def unplaced (st : Stack) : Stack := st.map fun e => ⟨e.state, e.tree.unplaced⟩

lemma state_unplaced (st : Stack) : st.unplaced.state = st.state := by
  cases st <;> rfl

lemma trees_unplaced (st : Stack) : st.unplaced.trees = st.trees.map Tree.unplaced := by
  simp [trees, unplaced, Function.comp_def]

lemma unplaced_push (st : Stack) (s : StateId) (t : Tree) :
    (st.push s t).unplaced = Stack.push st.unplaced s t.unplaced := rfl

lemma unplaced_foldl_push (s : StateId) (ts : List Tree) (st : Stack) :
    (ts.foldl (fun st t => st.push s t) st).unplaced =
      (ts.map Tree.unplaced).foldl (fun st t => Stack.push st s t) st.unplaced := by
  induction ts generalizing st with
  | nil => rfl
  | cons t ts ih => exact ih _

lemma pop_unplaced (n : Nat) (st : Stack) (ts : List Tree) :
    pop n st.unplaced (ts.map Tree.unplaced) =
      ((pop n st ts).1.map Tree.unplaced, (pop n st ts).2.unplaced) := by
  induction st generalizing n ts with
  | nil => cases n <;> rfl
  | cons e st ih =>
    cases n with
    | zero => rfl
    | succ n =>
      have hcons : unplaced (e :: st) = ⟨e.state, e.tree.unplaced⟩ :: unplaced st := rfl
      rw [hcons, pop, pop, Tree.isExtra_unplaced]
      split
      · exact ih (n + 1) (e.tree :: ts)
      · exact ih n (e.tree :: ts)

lemma unplaced_reduce (st : Stack) (n : Nonterminal) (k : Nat) (l : Layout) :
    (st.reduce n k l).unplaced = Stack.reduce st.unplaced n k l := by
  have hpop := pop_unplaced k st []
  rw [List.map_nil] at hpop
  rw [reduce, reduce, hpop]
  dsimp only
  rw [Tree.splitTrailing_map, unplaced_foldl_push, unplaced_push, state_unplaced, Tree.unplaced,
    Tree.unplacedAll_eq]

end Stack

/-! ### The two runs -/

/-- The scanner gives these tokens from a position on, each of them in every state that can use it,
and the end behind them. -/
inductive Scanner.Offers (scan : Scanner) : Nat → List (Terminal × Span) → Prop
  | nil {p : Nat} {s : Span} (leaf : ∀ q, (scan q p).leaf = .token .endOfText s true) :
      Offers scan p []
  | cons {p : Nat} {k : Terminal} {s : Span} {ls : List (Terminal × Span)}
      (leaf : ∀ q, q ≠ lost → wants q k = true → (scan q p).leaf = .token k s false)
      (tail : Offers scan s.stop ls) : Offers scan p ((k, s) :: ls)

namespace Machine

variable {α : Type} {scan scan' : Scanner} {text : Nat → Nat → α} {m m' : Machine}
  {taken ts : List Lookahead} {es : List Event} {ls : List (Terminal × Span)} {t : Lookahead}
  {tree : Tree}

/-- The events up to the one that accepts. -/
inductive Accepts (scan : Scanner) : Machine → List Event → Tree → Prop
  | last {m : Machine} {e : Event} {tree : Tree} (step : m.step scan = (e, .accepted tree)) :
      Accepts scan m [e] tree
  | step {m m' : Machine} {e : Event} {es : List Event} {tree : Tree}
      (head : m.step scan = (e, .running m')) (tail : Accepts scan m' es tree) :
      Accepts scan m (e :: es) tree

lemma accepts_of_run {fuel : Nat} (h : run scan fuel m = (es, .accepted tree)) :
    Accepts scan m es tree := by
  induction fuel generalizing m es with
  | zero => cases h
  | succ fuel ih =>
    unfold run at h
    split at h
    · rename_i e m' hstep
      obtain ⟨es', o, hrun⟩ : ∃ es' o, run scan fuel m' = (es', o) := ⟨_, _, rfl⟩
      rw [hrun] at h
      cases h
      exact .step hstep (ih hrun)
    · rename_i e o hne hstep
      cases h
      exact .last hstep

/-- A run that comes to an end accepts, if the machine does. -/
lemma Accepts.run_eq (h : Accepts scan m es tree) (fuel : Nat)
    (hne : ∀ m', (run scan fuel m).2 ≠ .running m') : run scan fuel m = (es, .accepted tree) := by
  induction h generalizing fuel with
  | last hstep =>
    cases fuel with
    | zero => exact absurd rfl (hne _)
    | succ fuel => simp only [run, hstep]
  | step hstep tail ih =>
    cases fuel with
    | zero => exact absurd rfl (hne _)
    | succ fuel =>
      simp only [run, hstep] at hne ⊢
      rw [ih fuel hne]

/-- The token ahead is the next one to be taken, or the end. -/
lemma Accepts.ahead (hs : scan.Honest) (h : Accepts scan m es tree) (htr : Tracks scan text m taken)
    (ht : m.ahead = some t) : ∃ k, t.kind? = some k ∧ wants m.state k = true ∧
      (k = .endOfText ∧ Event.taken (some t) es = [] ∨
        k ≠ .endOfText ∧ ∃ us, Event.taken (some t) es = t :: us) := by
  induction h generalizing taken with
  | last hstep =>
    cases turn_of_step hstep with
    | @accept t' k ahead kind action =>
      obtain rfl : t' = t := by simpa [ahead] using ht
      obtain ⟨rfl, -⟩ := progress_of_accept action
      exact ⟨_, kind, by simp [wants, action], .inl ⟨rfl, rfl⟩⟩
  | step hstep tail ih =>
    have hus := htr.step hs hstep
    cases turn_of_step hstep with
    | read ahead => simp [ahead] at ht
    | @shift t' k s ahead kind action =>
      obtain rfl : t' = t := by simpa [ahead] using ht
      exact ⟨k, kind, by simp [wants, action], .inr ⟨ne_endOfText_of_shift action, _, rfl⟩⟩
    | @extra t' k ahead kind action =>
      obtain rfl : t' = t := by simpa [ahead] using ht
      obtain rfl := eq_comment_of_extra action
      exact ⟨_, kind, by simp [wants, action], .inr ⟨by decide, _, rfl⟩⟩
    | @reduce t' k n a l ahead kind action =>
      obtain rfl : t' = t := by simpa [ahead] using ht
      obtain ⟨k', kind', -, hor⟩ := ih hus ahead
      obtain rfl : k = k' := by simpa [kind] using kind'
      exact ⟨k, kind, by simp [wants, action], hor⟩
    | asIdentifier ahead kind refuses wordlike ne wants =>
      exact absurd wants (by simp [htr.wants_identifier hs ahead kind refuses wordlike ne])

/-- What the other scanner still has to give: the tokens that are still to be taken, of the same
kinds, the one ahead among them. -/
inductive Expects (scan' : Scanner) (p : Nat) : Option Lookahead → Option Lookahead →
    List Lookahead → List (Terminal × Span) → Prop
  | unread {ts : List Lookahead} {ls : List (Terminal × Span)} (offers : scan'.Offers p ls)
      (kinds : ts.map (·.kind?) = ls.map fun x => some x.1) : Expects scan' p none none ts ls
  | token {t t' : Lookahead} {k : Terminal} {s : Span} {ts : List Lookahead}
      {ls : List (Terminal × Span)} (kind : t.kind? = some k)
      (leaf : t'.leaf = .token k s false) (offers : scan'.Offers s.stop ls)
      (kinds : ts.map (·.kind?) = ls.map fun x => some x.1) :
      Expects scan' p (some t) (some t') (t :: ts) ((k, s) :: ls)
  | ended {t t' : Lookahead} {s : Span} (kind : t.kind? = some .endOfText)
      (leaf : t'.leaf = .token .endOfText s true) : Expects scan' p (some t) (some t') [] []

namespace Expects

variable {p : Nat} {ahead : Option Lookahead}

/-- The other scanner reads a token of the same kind. -/
lemma read (h : Expects scan' p none ahead ts ls) {k : Terminal} (kind : t.kind? = some k)
    (ht : k = .endOfText ∧ ts = [] ∨ k ≠ .endOfText ∧ ∃ us, ts = t :: us) {q : StateId}
    (hq : q ≠ lost) (hw : wants q k = true) :
    ahead = none ∧ Expects scan' p (some t) (some (scan' q p)) ts ls := by
  cases h with
  | unread offers kinds =>
    refine ⟨rfl, ?_⟩
    rcases ht with ⟨rfl, rfl⟩ | ⟨-, us, rfl⟩
    · obtain rfl : ls = [] := by simpa using kinds.symm
      cases offers with
      | nil leaf => exact .ended kind (leaf q)
    · cases offers with
      | nil _ => simp at kinds
      | @cons _ k' s ls leaf tail =>
        simp only [List.map_cons, List.cons.injEq, kind, Option.some.injEq] at kinds
        obtain ⟨rfl, kinds⟩ := kinds
        exact .token kind (leaf q hq hw) tail kinds

lemma take (h : Expects scan' p (some t) ahead (t :: ts) ls) {k : Terminal}
    (kind : t.kind? = some k) : ∃ t' s ls', ahead = some t' ∧ t'.leaf = .token k s false ∧
      ls = (k, s) :: ls' ∧ Expects scan' s.stop none none ts ls' := by
  cases h with
  | @token _ _ k' s _ ls kind' leaf offers kinds =>
    obtain rfl : k = k' := by simpa [kind] using kind'
    exact ⟨_, s, ls, rfl, leaf, rfl, .unread offers kinds⟩

lemma ends (h : Expects scan' p (some t) ahead [] ls) :
    ls = [] ∧ ∃ t' s, ahead = some t' ∧ t'.leaf = .token .endOfText s true := by
  cases h with
  | ended kind leaf => exact ⟨rfl, _, _, rfl, leaf⟩

lemma kind?_eq (h : Expects scan' p (some t) ahead ts ls) :
    ∃ t', ahead = some t' ∧ t'.kind? = t.kind? := by
  cases h with
  | token kind leaf _ _ => exact ⟨_, rfl, by simp [Lookahead.kind?, leaf, ← kind]⟩
  | ended kind leaf => exact ⟨_, rfl, by simp [Lookahead.kind?, leaf, ← kind]⟩

end Expects

/-! ### Steps of the second run -/

lemma step_shift (scan : Scanner) (ht : m.ahead = some t) {k : Terminal} {s : Span}
    (hl : t.leaf = .token k s false) {r : StateId} (h : action? m.state k = some (.shift r)) :
    m.step scan = (.shift r, .running ⟨m.stack.push r (.token k s false), s.stop, none⟩) := by
  simp only [step, ht, act, Lookahead.kind?, Lookahead.span, hl, Option.bind_some, h, take,
    Tree.withExtra]

lemma step_extra (scan : Scanner) (ht : m.ahead = some t) {s : Span}
    (hl : t.leaf = .token .comment s false) : m.step scan =
      (.extra, .running ⟨m.stack.push m.state (.token .comment s true), s.stop, none⟩) := by
  simp only [step, ht, act, Lookahead.kind?, Lookahead.span, hl, Option.bind_some, action?, if_true,
    take, Tree.withExtra]

lemma step_accept (scan : Scanner) (ht : m.ahead = some t) {s : Span}
    (hl : t.leaf = .token .endOfText s true) (h : action? m.state .endOfText = some .accept) :
    m.step scan = (.accept, .accepted (Tree.root (m.stack.push start t.leaf).trees)) := by
  simp only [step, ht, act, Lookahead.kind?, hl, Option.bind_some, h]

lemma fringeOf_cons_of_leaf {k : Terminal} {s : Span} {e : Bool} (h : t.leaf = .token k s e) :
    fringeOf (t :: ts) = (k, s) :: fringeOf ts := by
  rw [fringeOf_cons, h]
  rfl

/-- The second machine has done the same, and has tokens of the same kinds before it. -/
structure InStep (scan' : Scanner) (m m' : Machine) (ts : List Lookahead)
    (ls : List (Terminal × Span)) : Prop where
  stack_eq : m'.stack.unplaced = m.stack.unplaced
  expects : Expects scan' m'.pos m.ahead m'.ahead ts ls

namespace InStep

lemma state_eq (h : InStep scan' m m' ts ls) : m'.state = m.state := by
  rw [state, ← Stack.state_unplaced, h.stack_eq, Stack.state_unplaced, state]

/-- **A step** of one machine is a step of the other. -/
theorem step (hs : scan.Honest) (htr : Tracks scan text m taken) {e : Event} {m₁ : Machine}
    (hstep : m.step scan = (e, .running m₁)) (tail : Accepts scan m₁ es tree)
    (h : InStep scan' m m' (Event.taken m.ahead (e :: es)) ls) :
    ∃ e' m₁' us ls₁, m'.step scan' = (e', .running m₁') ∧
      InStep scan' m₁ m₁' (Event.taken m₁.ahead es) ls₁ ∧ ls = us ++ ls₁ ∧
      ∀ es', fringeOf (Event.taken m'.ahead (e' :: es')) =
        us ++ fringeOf (Event.taken m₁'.ahead es') := by
  have hexp := h.expects
  have hstate := h.state_eq
  have hus := htr.step hs hstep
  cases turn_of_step hstep with
  | read ahead =>
    obtain ⟨k, kind, hw, hor⟩ := tail.ahead hs hus rfl
    rw [ahead] at hexp
    obtain ⟨ahead', hexp⟩ := hexp.read kind hor (hstate ▸ htr.state_ne_lost) (hstate ▸ hw)
    refine ⟨.token (scan' m'.state m'.pos), { m' with ahead := some (scan' m'.state m'.pos) }, [],
      ls, ?_, ⟨h.stack_eq, hexp⟩, rfl, fun es' => rfl⟩
    simp only [Machine.step, ahead']
  | @shift t k r ahead kind action =>
    rw [ahead] at hexp
    obtain ⟨t', s, ls, ahead', hleaf, rfl, hrest⟩ := Expects.take hexp kind
    refine ⟨_, _, [(k, s)], ls, step_shift scan' ahead' hleaf (by rwa [hstate]), ⟨?_, hrest⟩, rfl,
      fun es' => ?_⟩
    · rw [Stack.unplaced_push, h.stack_eq, Machine.take, Stack.unplaced_push,
        htr.leaf_shift hs ahead kind]
      rfl
    · rw [ahead']
      exact fringeOf_cons_of_leaf hleaf
  | @extra t k ahead kind action =>
    obtain rfl := eq_comment_of_extra action
    rw [ahead] at hexp
    obtain ⟨t', s, ls, ahead', hleaf, rfl, hrest⟩ := Expects.take hexp kind
    refine ⟨_, _, [(.comment, s)], ls, step_extra scan' ahead' hleaf, ⟨?_, hrest⟩, rfl,
      fun es' => ?_⟩
    · rw [Stack.unplaced_push, h.stack_eq, Machine.take, Stack.unplaced_push,
        htr.leaf_extra hs ahead kind, hstate]
      rfl
    · rw [ahead']
      exact fringeOf_cons_of_leaf hleaf
  | @reduce t k n a l ahead kind action =>
    obtain ⟨t', ahead', kind'⟩ := Expects.kind?_eq (ahead ▸ hexp)
    refine ⟨_, { m' with stack := m'.stack.reduce n a l }, [], ls,
      step_reduce scan' ahead' (kind'.trans kind) (by rwa [hstate]), ⟨?_, hexp⟩, rfl,
      fun es' => rfl⟩
    rw [Stack.unplaced_reduce, Stack.unplaced_reduce, h.stack_eq]
  | asIdentifier ahead kind refuses wordlike ne wants =>
    exact absurd wants (by simp [htr.wants_identifier hs ahead kind refuses wordlike ne])

lemma accept (hs : scan.Honest) (htr : Tracks scan text m taken) {e : Event}
    (hstep : m.step scan = (e, .accepted tree))
    (h : InStep scan' m m' (Event.taken m.ahead [e]) ls) :
    ∃ tree', m'.step scan' = (.accept, .accepted tree') ∧ tree'.unplaced = tree.unplaced ∧
      ls = [] := by
  have hexp := h.expects
  cases turn_of_step hstep with
  | @accept t k ahead kind action =>
    obtain ⟨rfl, -⟩ := progress_of_accept action
    rw [ahead] at hexp
    obtain ⟨rfl, t', s, ahead', hleaf⟩ := hexp.ends
    refine ⟨_, step_accept scan' ahead' hleaf (h.state_eq ▸ action), ?_, rfl⟩
    rw [Tree.unplaced_root, Tree.unplaced_root, ← Stack.trees_unplaced, ← Stack.trees_unplaced,
      Stack.unplaced_push, Stack.unplaced_push, h.stack_eq, htr.leaf_eq hs ahead kind, hleaf]
    rfl

end InStep

/-- **Lockstep.** A text that has tokens of the same kinds as one that is accepted is accepted too.
The trees differ in places only. -/
theorem Accepts.lockstep (hs : scan.Honest) (h : Accepts scan m es tree)
    (htr : Tracks scan text m taken) (hin : InStep scan' m m' (Event.taken m.ahead es) ls) :
    ∃ es' tree', Accepts scan' m' es' tree' ∧ tree'.unplaced = tree.unplaced ∧
      fringeOf (Event.taken m'.ahead es') = ls := by
  induction h generalizing m' taken ls with
  | last hstep =>
    obtain ⟨tree', hstep', htree, rfl⟩ := hin.accept hs htr hstep
    exact ⟨_, tree', .last hstep', htree, rfl⟩
  | step hstep tail ih =>
    obtain ⟨e', m₁', us, ls₁, hstep', hin₁, rfl, hfringe⟩ := hin.step hs htr hstep tail
    obtain ⟨es', tree', hacc, htree, hls⟩ := ih (htr.step hs hstep) hin₁
    exact ⟨e' :: es', tree', .step hstep' hacc, htree, by rw [hfringe, hls]⟩

end Machine

end ScenarioSyntax
