import ScenarioSyntax.Proofs.Text.Acceptance
import ScenarioSyntax.Proofs.Lexer.Overrun
import ScenarioSyntax.Tree.Cost

/-!
The trees that are built while a faulty text is repaired. Their tokens were read one behind the
other, and the children of a construct spell one of its alternatives, as in a text without error;
but some of them may be made up, and what fits nowhere is kept in errors. A tree without error in it
stands for what the grammar derives.
-/

namespace ScenarioSyntax

open Automaton Grammar Table

/-- Some state can be reduced right behind the terminal, so that a token of this kind may be made
up. -/
def Terminal.Supplied (k : Terminal) : Prop :=
  ∃ s r t, next? s (.terminal k) = some r ∧ reduces r t = true

/-- The children of a construct are an alternative of it. Nothing is asked of an error. -/
def Label.Admits : Label → List (Option Symbol) → Prop
  | .rule n l, xs => ∃ ys, xs = ys.map some ∧ l.label 0 ys ∈ productions n
  | .error _, _ => True
  | .skipped, _ => True

namespace Tree

/-- The symbol that a tree stands for on a stack; a token that was made up stands for itself. -/
def shape? : Tree → Option Symbol
  | missing k _ => some (.terminal k)
  | t => t.symbol?

/-- The symbols of the children that a production counts. -/
def shapes (cs : List Tree) : List (Option Symbol) := (cs.filter fun c => !c.isExtra).map shape?

@[simp] lemma shapes_nil : shapes [] = [] := rfl

@[simp] lemma shapes_append (cs ds : List Tree) : shapes (cs ++ ds) = shapes cs ++ shapes ds := by
  simp [shapes]

lemma shapes_cons_extra {c : Tree} (h : c.isExtra = true) (cs : List Tree) :
    shapes (c :: cs) = shapes cs := by
  simp [shapes, h]

lemma shapes_cons {c : Tree} (h : c.isExtra = false) (cs : List Tree) :
    shapes (c :: cs) = c.shape? :: shapes cs := by
  simp [shapes, h]

lemma shapes_splitTrailing (cs : List Tree) : shapes (splitTrailing cs).1 = shapes cs := by
  rw [shapes, shapes, Stack.filter_splitTrailing]

mutual

/-- The tree stands for the text between two positions. Its tokens were read there, each for some
state, or made up. The end of the text is no part of it. -/
def Lies (points : List Int) : Tree → Nat → Nat → Prop
  | token k s extra, p, q => k ≠ .endOfText ∧ extra = decide (k = .comment) ∧ s.stop = q ∧
      ∃ st, (Token.read points st p).leaf = token k s false
  | missing k i, p, q => k.Supplied ∧ i = p ∧ p = q
  | stray s c, p, q => s.stop = q ∧ ∃ st, (Token.read points st p).leaf = stray s c
  | node l cs, p, q => LiesAll points cs p q ∧ l.Admits (shapes cs)

/-- The trees stand for the text between two positions, one behind the other. -/
def LiesAll (points : List Int) : List Tree → Nat → Nat → Prop
  | [], p, q => p = q
  | t :: ts, p, q => ∃ m, Lies points t p m ∧ LiesAll points ts m q

end

variable {points : List Int} {p q r : Nat} {t : Tree} {ts us : List Tree}

lemma liesAll_append_iff :
    LiesAll points (ts ++ us) p r ↔ ∃ q, LiesAll points ts p q ∧ LiesAll points us q r := by
  induction ts generalizing p with
  | nil => simp [LiesAll]
  | cons t ts ih =>
    simp only [List.cons_append, LiesAll, ih]
    constructor
    · rintro ⟨m, ht, q, hts, hus⟩
      exact ⟨q, ⟨m, ht, hts⟩, hus⟩
    · rintro ⟨q, ⟨m, ht, hts⟩, hus⟩
      exact ⟨m, ht, q, hts, hus⟩

lemma LiesAll.append (hts : LiesAll points ts p q) (hus : LiesAll points us q r) :
    LiesAll points (ts ++ us) p r :=
  liesAll_append_iff.2 ⟨q, hts, hus⟩

lemma liesAll_singleton : LiesAll points [t] p q ↔ t.Lies points p q := by
  simp [LiesAll]

lemma lies_node {l : Label} {cs : List Tree} :
    (node l cs).Lies points p q ↔ LiesAll points cs p q ∧ l.Admits (shapes cs) := by
  rw [Lies]

/-- The children of a construct, but for the extra ones behind them, make a tree for it. -/
lemma LiesAll.exists_node (hts : LiesAll points ts p r) {n : Nonterminal} {l : Layout}
    {ys : List Symbol} (hys : shapes ts = ys.map some) (hmem : l.label 0 ys ∈ productions n) :
    ∃ q, (node (.rule n l) (splitTrailing ts).1).Lies points p q ∧
      LiesAll points (splitTrailing ts).2 q r := by
  rw [← Stack.splitTrailing_append ts, liesAll_append_iff] at hts
  obtain ⟨q, hchildren, htrailing⟩ := hts
  rw [← shapes_splitTrailing] at hys
  exact ⟨q, lies_node.2 ⟨hchildren, ys, hys, hmem⟩, htrailing⟩

end Tree

/-! ### Leaves -/

namespace Token

variable {points : List Int}

/-- Before the end of the text the lexer is started again behind the place where it gave up. -/
lemma strayEnd_cases (points : List Int) (fuel : Nat) {stop pos : Nat} (h : stop ≤ pos)
    (hend : ¬ (pos = stop ∧ points.length ≤ pos)) :
    ∃ resume, stop < resume ∧ (strayEnd points (fuel + 1) stop pos = resume ∨
      ∃ pos', resume ≤ pos' ∧
        strayEnd points (fuel + 1) stop pos = strayEnd points fuel resume pos') := by
  refine ⟨if pos = stop then pos + 1 else pos, by split <;> omega, ?_⟩
  rw [strayEnd, if_neg (by simpa using hend)]
  dsimp only
  generalize (if pos = stop then pos + 1 else pos) = resume
  by_cases hfound : (Mode.general.readAt points resume).found.isSome = true
  · exact .inl (if_pos hfound)
  · refine .inr ⟨_, ?_, if_neg hfound⟩
    rw [readAt_eq]
    exact (le_origin points resume).trans (LexState.stop_scan _ _ _ _ _).1

lemma le_strayEnd (points : List Int) (fuel : Nat) {stop pos : Nat} (h : stop ≤ pos) :
    stop ≤ strayEnd points fuel stop pos := by
  induction fuel generalizing stop pos with
  | zero => exact Nat.le_refl stop
  | succ fuel ih =>
    by_cases hend : pos = stop ∧ points.length ≤ pos
    · rw [strayEnd, if_pos (by simpa using hend)]
    · obtain ⟨resume, hlt, heq | ⟨pos', hpos, heq⟩⟩ := strayEnd_cases points fuel h hend
      · omega
      · have := ih hpos
        omega

lemma lt_strayEnd (fuel : Nat) {stop pos : Nat} (h : stop ≤ pos) (hlt : stop < points.length) :
    stop < strayEnd points (fuel + 1) stop pos := by
  obtain ⟨resume, hlt, heq | ⟨pos', hpos, heq⟩⟩ := strayEnd_cases points fuel h (by omega)
  · omega
  · have := le_strayEnd points fuel hpos
    omega

lemma leaf_ne_stray {st : StateId} {lead : Nat} {m : Mode} {r : Reading} {t : Lookahead}
    (h : ofReading points st lead m r = some t) (s : Span) (c : Int) : t.leaf ≠ .stray s c := by
  obtain ⟨⟨k, n⟩, -, rfl⟩ := Option.map_eq_some_iff.1 h
  dsimp only
  split
  · unfold word
    split <;> simp
  · simp

lemma begin_lt_stop_of_stray {st : StateId} {p : Nat} {s : Span} {c : Int}
    (h : (read points st p).leaf = .stray s c) (hlt : begin points p < points.length) :
    begin points p < s.stop := by
  have hstart := (readAt_finds Mode.general points p).1
  have hstop : (Mode.general.readAt points p).start ≤ (Mode.general.readAt points p).stop := by
    rw [readAt_eq]
    exact LexState.start_le_stop (Nat.le_refl _)
  unfold read at h
  dsimp only at h
  split at h
  · rename_i t ht
    exact absurd h (leaf_ne_stray ht s c)
  split at h
  · rename_i t ht
    exact absurd h (leaf_ne_stray ht s c)
  obtain ⟨rfl, -⟩ := Tree.stray.inj h
  dsimp only
  rw [hstart] at hstop ⊢
  exact lt_strayEnd _ hstop hlt

/-- What is read before the end of the text takes something of it. -/
theorem lt_stop_read {st : StateId} {p : Nat} (h : (read points st p).kind? ≠ some .endOfText) :
    p < points.length ∧ p < (read points st p).span.stop := by
  have hbegin : p ≤ begin points p := (le_origin points p).trans (Nat.le_add_right _ _)
  have hlt : begin points p < points.length := by
    by_contra hle
    exact h (kind?_of_end (List.drop_eq_nil_of_le (Nat.le_of_not_lt hle)))
  refine ⟨hbegin.trans_lt hlt, ?_⟩
  rcases hkind : (read points st p).kind? with _ | k
  · have hr := reads_read points st p
    generalize ht : read points st p = t at hkind hr
    cases hr with
    | token _ _ _ => cases hkind
    | word _ _ =>
      unfold word at hkind
      split at hkind <;> cases hkind
    | stray _ stop c =>
      exact hbegin.trans_lt (begin_lt_stop_of_stray (congrArg Lookahead.leaf ht) hlt)
  · exact (within_read points st p k hkind fun hk => h (hk ▸ hkind)).1

lemma span_eq_of_leaf {t : Lookahead} {k : Terminal} {s : Span} {e : Bool}
    (h : t.leaf = .token k s e) : t.kind? = some k ∧ t.span = s := by
  simp [Lookahead.kind?, Lookahead.span, h]

end Token

namespace Tree

variable {points : List Int} {p q r : Nat} {t : Tree} {ts us : List Tree}

/-- A token that is taken, or passed over. -/
lemma lies_leaf {st : StateId} {k : Terminal}
    (hk : (Token.read points st p).kind? = some k) (hend : k ≠ .endOfText) :
    ((Token.read points st p).leaf.withExtra (decide (k = .comment))).Lies points p
      (Token.read points st p).span.stop := by
  have hleaf := (Token.honest_read points).leaf_eq st p k hk
  rw [decide_eq_false hend] at hleaf
  rw [hleaf, withExtra, Lies]
  exact ⟨hend, rfl, rfl, st, hleaf⟩

/-- Characters that are no token, passed over. -/
lemma lies_stray {st : StateId} (hk : (Token.read points st p).kind? = none) :
    (Token.read points st p).leaf.Lies points p (Token.read points st p).span.stop := by
  have hr := Token.reads_read points st p
  generalize ht : Token.read points st p = t at hk hr
  cases hr with
  | token _ _ _ => cases hk
  | word _ _ =>
    unfold Token.word at hk
    split at hk <;> cases hk
  | stray _ stop c =>
    rw [Lies]
    exact ⟨rfl, st, congrArg Lookahead.leaf ht⟩

/-! ### Where trees end, and what they cost -/

/-- The position behind a tree on a stack, if the stack below it ends at `p`. -/
def reach (src : Source) (p : Nat) (t : Tree) : Nat :=
  ((t.measure src).span.map (·.stop)).getD p

lemma stop_joinSpan (a b : Option Span) (p : Nat) :
    ((Measure.joinSpan a b).map (·.stop)).getD p =
      (b.map (·.stop)).getD ((a.map (·.stop)).getD p) := by
  cases a <;> cases b <;> rfl

lemma span_lost (src : Source) (m : Measure) : (m.lost src).span = m.span := by
  unfold Measure.lost
  split <;> rfl

mutual

/-- A tree on a stack ends where the text ends that it stands for. -/
lemma Lies.reach_eq {src : Source} {t : Tree} {p q : Nat} (h : t.Lies src.points p q) :
    t.reach src p = q := by
  match t with
  | token k s e => exact h.2.2.1
  | missing k i =>
    obtain ⟨-, rfl, rfl⟩ := h
    rfl
  | stray s c => exact h.1
  | node (.rule n l) cs => exact LiesAll.reach_eq (lies_node.1 h).1 false
  | node (.error aside) cs =>
    show (((measureAll src true cs).lost src).span.map (·.stop)).getD p = q
    rw [span_lost]
    exact LiesAll.reach_eq (lies_node.1 h).1 true
  | node .skipped cs =>
    show (((measureAll src true cs).lost src).span.map (·.stop)).getD p = q
    rw [span_lost]
    exact LiesAll.reach_eq (lies_node.1 h).1 true

lemma LiesAll.reach_eq {src : Source} {ts : List Tree} {p q : Nat}
    (h : LiesAll src.points ts p q) (inError : Bool) :
    ((measureAll src inError ts).span.map (·.stop)).getD p = q := by
  match ts with
  | [] => exact h
  | t :: ts =>
    obtain ⟨m, ht, hts⟩ := h
    have hm := ht.reach_eq
    rw [reach] at hm
    rw [measureAll, Measure.prepend, stop_joinSpan, hm]
    exact hts.reach_eq inError

end

/-- An error is never free. -/
lemma cost_error_pos (src : Source) (aside : Bool) (cs : List Tree) :
    0 < (node (.error aside) cs).cost src := by
  show 0 < ((measureAll src true cs).lost src).cost
  unfold Measure.lost
  split <;> simp only [Cost.recovery] <;> omega

/-! ### Trees without error -/

mutual

/-- What the automaton makes of a tree without error that belongs to a construct: tokens that were
read one behind the other, and for a tree that is no comment the symbol that it stands for. -/
lemma Lies.exists_chain {t : Tree} {p q : Nat} (h : t.Lies points p q) (he : t.hasError = false)
    (ht : t.isExtra = true ∨ t.shape?.isSome = true) :
    ∃ as, Chain (Token.read points) p as q ∧
      (∀ a ∈ as, ∃ k, a.kind? = some k ∧ k ≠ .endOfText) ∧
      (t.isExtra = true → kept (slice points) as = []) ∧
      (t.isExtra = false → ∀ x, t.shape? = some x →
        Grows x (t.growth (slice points)) (kept (slice points) as)) := by
  match t with
  | token k s e =>
    obtain ⟨hend, rfl, rfl, st, hleaf⟩ := h
    obtain ⟨hkind, hspan⟩ := Token.span_eq_of_leaf hleaf
    refine ⟨[Token.read points st p], hspan ▸ .cons st (.nil _),
      List.forall_mem_singleton.2 ⟨k, hkind, hend⟩, ?_, ?_⟩
    · intro hextra
      obtain rfl : k = .comment := by simpa [isExtra] using hextra
      exact kept_comment _ hkind
    · intro hextra x hx
      have hcomment : k ≠ .comment := by simpa [isExtra] using hextra
      obtain rfl : .terminal k = x := by simpa [shape?, symbol?] using hx
      rw [kept_token _ hkind hcomment, hspan, decide_eq_false hcomment,
        growth_token _ hend]
      exact .token k _
  | missing k i => cases he
  | stray s c => rcases ht with ht | ht <;> cases ht
  | node (.rule n l) cs =>
    obtain ⟨hcs, ys, hys, hmem⟩ := lies_node.1 h
    obtain ⟨as, hchain, hkinds, hgrows⟩ := LiesAll.exists_chain hcs he hys
    refine ⟨as, hchain, hkinds, fun hextra => ?_, fun _ x hx => ?_⟩
    · cases hextra
    · obtain rfl : .nonterminal n = x := by simpa [shape?, symbol?] using hx
      obtain ⟨hjoined, htokens⟩ := hgrows l 0
      rw [growth_node, ← htokens]
      exact .of_production hmem hjoined
  | node (.error aside) cs => cases he
  | node .skipped cs => cases he

lemma LiesAll.exists_chain {ts : List Tree} {p q : Nat} (h : LiesAll points ts p q)
    (he : anyError ts = false) {ys : List Symbol} (hys : shapes ts = ys.map some) :
    ∃ as, Chain (Token.read points) p as q ∧
      (∀ a ∈ as, ∃ k, a.kind? = some k ∧ k ≠ .endOfText) ∧
      ∀ (l : Layout) (i : Nat),
        Joined Shows (l.label i ys) (Growth.joined l i
          ((ts.filter fun t => !t.isExtra).map (growth (slice points)))) ∧
        Ast.tokensAll (Growth.joined l i ((ts.filter fun t => !t.isExtra).map
          (growth (slice points)))) = kept (slice points) as := by
  match ts with
  | [] =>
    obtain rfl : p = q := h
    obtain rfl : ys = [] := List.map_eq_nil_iff.1 hys.symm
    exact ⟨[], .nil p, by simp, fun l i => ⟨.nil, rfl⟩⟩
  | t :: ts =>
    obtain ⟨m, ht, hts⟩ := h
    rw [anyError, Bool.or_eq_false_iff] at he
    by_cases hextra : t.isExtra = true
    · rw [shapes_cons_extra hextra] at hys
      obtain ⟨as, hchain, hkinds, hkept, -⟩ := Lies.exists_chain ht he.1 (.inl hextra)
      obtain ⟨bs, hchain', hkinds', hgrows⟩ := LiesAll.exists_chain hts he.2 hys
      refine ⟨as ++ bs, hchain.append hchain', List.forall_mem_append.2 ⟨hkinds, hkinds'⟩,
        fun l i => ?_⟩
      rw [kept_append, hkept hextra, List.nil_append, List.filter_cons_of_neg (by simp [hextra])]
      exact hgrows l i
    · have hextra : t.isExtra = false := by simpa using hextra
      rw [shapes_cons hextra] at hys
      obtain ⟨y, ys, rfl, hy, hys⟩ := List.map_eq_cons_iff.1 hys.symm
      obtain ⟨as, hchain, hkinds, -, hgrow⟩ :=
        Lies.exists_chain ht he.1 (.inr (by rw [← hy]; rfl))
      obtain ⟨bs, hchain', hkinds', hgrows⟩ := LiesAll.exists_chain hts he.2 hys.symm
      refine ⟨as ++ bs, hchain.append hchain', List.forall_mem_append.2 ⟨hkinds, hkinds'⟩,
        fun l i => ?_⟩
      obtain ⟨hjoined, htokens⟩ := hgrows l (i + 1)
      obtain ⟨hshows, hcontent⟩ := hgrow hextra y hy.symm (l.field? i)
      rw [List.filter_cons_of_pos (by simp [hextra]), List.map_cons, Growth.joined,
        Layout.label, Ast.tokensAll_append, htokens, hcontent, kept_append]
      exact ⟨.cons hshows hjoined, rfl⟩

end

end Tree

end ScenarioSyntax
