import ScenarioSyntax.Proofs.Machine.Outcome
import ScenarioSyntax.Proofs.Tree.Fringe

/-!
No token is lost. The trees on the stack have the tokens that were taken at the bottom, in the same
order, and the tree of a text that is accepted has all of them.
-/

namespace ScenarioSyntax

lemma Tree.fringe_root (ts : List Tree) : (root ts).fringe = fringeAll ts := by
  have happend := Stack.splitTrailing_append ts
  unfold Tree.root
  split
  rename_i body trailing hsplit
  rw [hsplit] at happend
  split
  · rename_i l cs hlast
    have hbody : body.dropLast ++ [.node l cs] = body := by
      obtain ⟨front, rfl⟩ := List.getLast?_eq_some_iff.1 hlast
      rw [List.dropLast_concat]
    dsimp only at happend
    rw [← happend, ← hbody, fringe]
    simp [fringeAll_append, fringeAll, fringe]
  · rfl

namespace Stack

lemma trees_push (st : Stack) (s : StateId) (t : Tree) : (st.push s t).trees = st.trees ++ [t] := by
  simp [trees, push]

lemma trees_foldl_push (s : StateId) (ts : List Tree) (st : Stack) :
    (ts.foldl (fun st t => st.push s t) st).trees = st.trees ++ ts := by
  induction ts generalizing st with
  | nil => simp
  | cons t ts ih => rw [List.foldl_cons, ih, trees_push, List.append_assoc]; rfl

/-- What is taken off the stack stood at its end. -/
lemma trees_pop (n : Nat) (st : Stack) (ts : List Tree) :
    (pop n st ts).2.trees ++ (pop n st ts).1 = st.trees ++ ts := by
  induction st generalizing n ts with
  | nil => cases n <;> rfl
  | cons e st ih =>
    have hcons : trees (e :: st) ++ ts = trees st ++ e.tree :: ts := by simp [trees]
    cases n with
    | zero => rfl
    | succ n =>
      unfold pop
      split
      · exact (ih (n + 1) _).trans hcons.symm
      · exact (ih n _).trans hcons.symm

lemma fringe_reduce (st : Stack) (n : Nonterminal) (k : Nat) (l : Layout) :
    Tree.fringeAll (st.reduce n k l).trees = Tree.fringeAll st.trees := by
  obtain ⟨ts, rest, hp⟩ : ∃ ts rest, pop k st [] = (ts, rest) := ⟨_, _, rfl⟩
  have htrees := trees_pop k st []
  rw [hp, List.append_nil] at htrees
  have happend := splitTrailing_append ts
  rw [Stack.reduce, hp, ← htrees]
  dsimp only
  rw [trees_foldl_push, trees_push]
  conv_rhs => rw [← happend]
  simp [Tree.fringeAll_append, Tree.fringeAll, Tree.fringe]

end Stack

lemma Lookahead.fringe_leaf {t : Lookahead} {k : Terminal} (h : t.kind? = some k) :
    t.leaf.fringe = [(k, t.span)] := by
  unfold kind? at h
  split at h
  · rename_i k' s e heq
    cases h
    simp [Tree.fringe, span, heq]
  · cases h

namespace Machine

variable {α : Type} {scan : Scanner} {text : Nat → Nat → α} {m m' : Machine}
  {ts : List Lookahead} {es : List Event}

def fringeOf (ts : List Lookahead) : List (Terminal × Span) := Tree.fringeAll (ts.map (·.leaf))

lemma fringeOf_cons (t : Lookahead) (ts : List Lookahead) :
    fringeOf (t :: ts) = t.leaf.fringe ++ fringeOf ts := rfl

lemma fringeOf_append (ts us : List Lookahead) :
    fringeOf (ts ++ us) = fringeOf ts ++ fringeOf us := by
  rw [fringeOf, List.map_append, Tree.fringeAll_append]; rfl

lemma fringeOf_singleton (t : Lookahead) : fringeOf [t] = t.leaf.fringe :=
  Tree.fringeAll_singleton _

lemma map_kind?_eq (h : ∀ t ∈ ts, ∃ k, t.kind? = some k) :
    ts.map (·.kind?) = (fringeOf ts).map fun x => some x.1 := by
  induction ts with
  | nil => rfl
  | cons t ts ih =>
    obtain ⟨k, hk⟩ := h t List.mem_cons_self
    rw [List.map_cons, ih fun t ht => h t (List.mem_cons_of_mem _ ht), fringeOf_cons,
      Lookahead.fringe_leaf hk, List.map_append, hk]
    rfl

/-- The stack holds the tokens that were taken. -/
def Holds (m : Machine) (ts : List Lookahead) : Prop := Tree.fringeAll m.stack.trees = fringeOf ts

lemma Holds.take (h : m.Holds ts) (s : StateId) (t : Lookahead) (extra : Bool) :
    (m.take s t extra).Holds (ts ++ [t]) := by
  rw [Holds, Machine.take, Stack.trees_push, Tree.fringeAll_append, h, fringeOf_append,
    Tree.fringeAll_singleton, Tree.fringe_withExtra, fringeOf_singleton]

/-- **A step** loses no token. -/
theorem Holds.step (h : m.Holds ts) {e : Event} (hm : m.step scan = (e, .running m')) :
    m'.Holds (ts ++ e.takes m.ahead) := by
  apply preserved_of_step hm
  case read => exact fun _ => h
  case shift => exact fun _ _ _ => h.take _ _ false
  case extra => exact fun _ _ _ => h.take _ _ true
  case reduce =>
    intro t k n a l ahead kind action
    exact (Stack.fringe_reduce m.stack n a l).trans h
  case asIdentifier => exact fun _ _ _ _ _ _ => h

/-- **The tokens of a text that is accepted** are the ones that were taken, and the end. -/
theorem exists_fringe_of_accepted (hs : scan.Honest) (text : Nat → Nat → α) {fuel : Nat}
    {tree : Tree} (h : run scan fuel init = (es, .accepted tree)) :
    ∃ m t, Tracks scan text m (Event.taken none es) ∧ m.ahead = some t ∧
      t.kind? = some .endOfText ∧ tree.fringe = fringeOf (Event.taken none es ++ [t]) := by
  rcases exists_of_run h with ⟨m', ho, -⟩ | ⟨es', e, m, rfl, hr, hlast, -⟩
  · simp at ho
  have htracks := (tracks_init scan text).of_reaches hs hr
  have hholds : m.Holds ([] ++ Event.taken none es') := hr.preserves (fun h hm => h.step hm) rfl
  cases turn_of_step hlast with
  | @accept t k ahead kind action =>
    obtain ⟨rfl, -⟩ := Table.progress_of_accept action
    rw [Event.taken_accept]
    refine ⟨m, t, htracks, ahead, kind, ?_⟩
    rw [Tree.fringe_root, Stack.trees_push, Tree.fringeAll_append, hholds, List.nil_append,
      fringeOf_append, Tree.fringeAll_singleton, fringeOf_singleton]

end Machine

end ScenarioSyntax
