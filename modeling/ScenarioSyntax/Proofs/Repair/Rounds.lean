import ScenarioSyntax.Proofs.Repair.Recovery
import ScenarioSyntax.Repair.Rounds

/-!
Every round keeps the search sound. A branch takes a token, reduces, or stops; ranking only
rearranges branches, or merges and removes them; and a branch that goes on loses its way. As long
as there is no tree, some branch is left after each of these steps, so that the search does not end
without one.
-/

namespace ScenarioSyntax

open Grammar Table

/-! ### The token that a branch looks at -/

/-- A state that looks for an identifier can use a keyword that it is shown, so the keyword is never
read as an identifier after all. -/
def Lookahead.Proper (t : Lookahead) (s : StateId) : Prop :=
  t.wordlike = true → t.kind? ≠ some .identifier → wants s .identifier = true →
    ∃ k, t.kind? = some k ∧ wants s k = true

namespace Lookahead

variable {points : List Int} {s : StateId} {p : Nat} {t : Lookahead}

lemma proper_read (points : List Int) (s : StateId) (p : Nat) :
    (Token.read points s p).Proper s := by
  intro hword hne _
  rcases hk : (Token.read points s p).kind? with _ | k
  · have hr := Token.reads_read points s p
    generalize Token.read points s p = t at hr hk hword
    cases hr with
    | token _ _ _ => cases hk
    | word _ _ =>
      unfold Token.word at hk
      split at hk <;> cases hk
    | stray _ _ _ => cases hword
  · exact ⟨k, rfl, (Token.honest_read points).wanted s p k hk hword fun hid => hne (hid ▸ hk)⟩

lemma proper_of_serves (h : t.serves s = true) : t.Proper s := by
  intro _ _ _
  rw [serves] at h
  split at h
  · cases h
  rename_i k hk
  refine ⟨k, hk, ?_⟩
  rw [Bool.or_eq_true, Bool.and_eq_true, Bool.and_eq_true] at h
  rcases h with hc | ⟨⟨hw, -⟩, -⟩
  · obtain rfl := of_decide_eq_true hc
    rfl
  · exact hw

/-- A token that is refused is never read as an identifier instead. -/
lemma Proper.not_refused (h : t.Proper s) (hnone : t.kind?.bind (action? s) = none) :
    ¬ (t.wordlike && decide (t.kind? ≠ some .identifier) && wants s .identifier) = true := by
  rw [Bool.and_eq_true, Bool.and_eq_true, decide_eq_true_eq]
  rintro ⟨⟨hword, hne⟩, hwants⟩
  obtain ⟨k, hk, hwanted⟩ := h hword hne hwants
  rw [hk, Option.bind_some] at hnone
  rw [wants, hnone] at hwanted
  cases hwanted

end Lookahead

/-- A state in which a construct may end does not look for an identifier. -/
lemma reductions_rows : (rows.toList.zipIdx.all fun (r, _) =>
    (r.actions.lookup .identifier).isNone ||
      r.actions.all fun (_, a) => match a with | .reduce .. => false | _ => true) = true := by
  decide +kernel

lemma wants_identifier_of_reduce {s : StateId} {k : Terminal} {n : Nonterminal} {a : Nat}
    {l : Layout} (h : action? s k = some (.reduce n a l)) : wants s .identifier = false := by
  have hmem := action?_eq h (by simp)
  rcases row_cases (P := fun _ r => (r.actions.lookup .identifier).isNone ||
    r.actions.all fun (_, a) => match a with | .reduce .. => false | _ => true)
    reductions_rows s with hs | hs
  · rw [Bool.or_eq_true, List.all_eq_true] at hs
    rcases hs with hs | hs
    · rw [wants, action?, if_neg (by decide), Option.isSome_eq_false_iff]
      exact hs
    · cases hs _ hmem
  · rw [hs] at hmem
    cases hmem

namespace Search

variable {src : Source} {r : Search} {i : Nat} {a : StateId × Nat} {s : StateId} {p : Nat}
  {t : Lookahead}

lemma Sound.lookahead (h : r.Sound src.points) (hi : r.Stands i (s, p)) :
    (r.lookahead src i).2.Sound src.points ∧ (r.lookahead src i).2.Stands i (s, p) ∧
      Token.ReadAt src.points p (r.lookahead src i).1 ∧ (r.lookahead src i).1.Proper s := by
  rw [Search.lookahead, hi.state_eq, hi.pos_eq]
  dsimp only
  split
  · rename_i q t hcache
    obtain ⟨hsome, hcond⟩ := Option.filter_eq_some_iff.1 hcache
    rw [Bool.and_eq_true, decide_eq_true_eq] at hcond
    obtain ⟨rfl, hserves⟩ := hcond
    exact ⟨h, hi, h.cache q t hsome, Lookahead.proper_of_serves hserves⟩
  · refine ⟨⟨h.graph, h.branch, fun q t hcache => ?_, h.best, h.offered⟩,
      ⟨hi.active, hi.place_eq⟩, ⟨s, rfl⟩, Lookahead.proper_read src.points s p⟩
    obtain ⟨rfl, rfl⟩ := Prod.mk.inj (Option.some.inj hcache)
    exact ⟨s, rfl⟩

/-! ### Actions -/

lemma Stands.lives (hi : r.Stands i a) : r.Lives :=
  .inr ⟨i, Branch.isHalted_eq_false_iff.2 (.inl hi.active)⟩

lemma Sound.reject (h : r.Sound src.points) (hi : r.Stands i (s, p))
    (ht : Token.ReadAt src.points p t) :
    (r.reject src i t).Sound src.points ∧ (r.reject src i t).Lives := by
  rw [Search.reject]
  split
  · exact (h.recover hi ht).imp_right Goes.lives
  · refine ⟨h.pause hi.active ?_, .inr ⟨i, ?_⟩⟩
    · rwa [hi.pos_eq]
    · rw [Search.pause, branch_modify_self _ _ _ (lt_count_of_isActive hi.active)]
      rfl

/-- The whole text has been read. -/
lemma Sound.acceptFile (h : r.Sound src.points) (hi : r.Stands i (s, p))
    (ht : Token.ReadAt src.points p t) {k : Terminal} (hk : t.kind? = some k)
    (ha : action? s k = some .accept) :
    (r.accept src i [t.leaf]).Sound src.points ∧
      (r.accept src i [t.leaf]).best.isSome = true := by
  obtain ⟨rfl, hp⟩ := progress_of_accept ha
  obtain ⟨hlast, hextra⟩ := ht.isLast_leaf hk
  refine h.accept hi (List.forall_mem_singleton.2 hlast) fun ts hlies hshapes => ?_
  obtain ⟨front, l, cs, back, rfl, hfront, hback⟩ :=
    Tree.exists_of_shapes (hshapes (by simp [hasRead, hp]))
  obtain ⟨st, rfl⟩ := ht
  rw [List.append_assoc, List.cons_append, Machine.root_eq ?_ rfl]
  · exact .file hfront hback hlies hk
  · exact List.forall_mem_append.2 ⟨hback, List.forall_mem_singleton.2 hextra⟩

/-- **What a branch does at a token** keeps the search sound, and alive. -/
theorem Sound.act (fuel : Nat) (h : r.Sound src.points) (hi : r.Stands i (s, p))
    (ht : Token.ReadAt src.points p t) (hproper : t.Proper s) :
    (Search.act src i fuel r t).Sound src.points ∧ (Search.act src i fuel r t).Lives := by
  induction fuel generalizing r s with
  | zero => exact h.reject hi ht
  | succ fuel ih =>
    rw [Search.act, hi.state_eq]
    dsimp only
    split
    · rename_i q ha
      obtain ⟨k, hk, ha⟩ := Option.bind_eq_some_iff.1 ha
      obtain ⟨hmoves, hlies⟩ := ht.shift hk ha
      have htake := hi.take h hmoves hlies
      exact ⟨htake.keeps.sound, htake.stands.lives⟩
    · rename_i ha
      obtain ⟨k, hk, ha⟩ := Option.bind_eq_some_iff.1 ha
      obtain ⟨hmoves, hlies⟩ := ht.extra (s := s) (eq_comment_of_extra ha ▸ hk)
      have htake := hi.take h hmoves hlies
      exact ⟨htake.keeps.sound, htake.stands.lives⟩
    · rename_i n arity l ha
      obtain ⟨k, hk, ha⟩ := Option.bind_eq_some_iff.1 ha
      obtain ⟨hreduces, hlast⟩ := h.reduce hi ha
      split
      · rename_i r₁ j heq
        rw [heq] at hreduces hlast
        obtain ⟨rfl, hlt⟩ := hlast j rfl
        obtain ⟨u, hu, hunwanted⟩ := hreduces.settled _ le_rfl hlt
        obtain ⟨hsound, hplaced⟩ :=
          hu.replace hreduces.keeps.sound (lt_count_of_isActive hi.active)
        refine ih hsound hplaced fun _ _ hwants => ?_
        rw [hunwanted] at hwants
        cases hwants
      · rename_i r₁ heq
        rw [heq] at hreduces
        have hi₁ := hreduces.keeps.stands h (lt_count_of_isActive hi.active) hi
        rw [if_neg fun hcond => ?_]
        · exact hreduces.keeps.sound.reject hi₁ ht
        · rw [wants_identifier_of_reduce ha, Bool.and_false] at hcond
          cases hcond
    · rename_i ha
      obtain ⟨k, hk, ha⟩ := Option.bind_eq_some_iff.1 ha
      exact (h.acceptFile hi ht hk ha).imp_right .inl
    · exact (h.recover hi ht).imp_right Goes.lives
    · rename_i hnone
      rw [if_neg (hproper.not_refused hnone)]
      exact h.reject hi ht

/-! ### Advancing -/

lemma Sound.advance (h : r.Sound src.points) (hi : r.isActive i = true) :
    (r.advance src i).Sound src.points ∧ (r.advance src i).Lives := by
  obtain ⟨hsound, hstands, ht, hproper⟩ := h.lookahead ⟨hi, rfl⟩
  exact hsound.act _ hstands ht hproper

lemma Sound.advancePast (fuel : Nat) (h : r.Sound src.points) (hl : r.Lives) :
    (Search.advancePast src i fuel r).Sound src.points ∧
      (Search.advancePast src i fuel r).Lives := by
  induction fuel generalizing r with
  | zero => exact ⟨h, hl⟩
  | succ fuel ih =>
    rw [Search.advancePast]
    split
    · rename_i hi
      obtain ⟨hsound, hlives⟩ := h.advance hi
      dsimp only
      split
      · exact ⟨⟨hsound.graph, hsound.branch, hsound.cache, hsound.best, hsound.offered⟩, hlives⟩
      · exact ih hsound hlives
    · exact ⟨h, hl⟩

lemma Sound.advanceAll (fuel : Nat) (h : r.Sound src.points) (hl : r.Lives) :
    (Search.advanceAll src fuel i r).Sound src.points ∧ (Search.advanceAll src fuel i r).Lives := by
  induction fuel generalizing r i with
  | zero => exact ⟨h, hl⟩
  | succ fuel ih =>
    rw [Search.advanceAll]
    split
    · exact ⟨h, hl⟩
    · obtain ⟨hsound, hlives⟩ := h.advancePast (i := i) (src.length + 2) hl
      exact ih hsound hlives

/-! ### Ranking -/

/-- The first `n` branches have not been halted. -/
def Ranked (r : Search) (n : Nat) : Prop := ∀ k < n, (r.branch k).isHalted = false

lemma Drops.ranked {points : List Int} {r' : Search} {j n : Nat} (h : Drops points j r r')
    (hr : r.Ranked (n + 1)) : r'.Ranked n := by
  intro k hk
  rw [Branch.isHalted_eq (h.core_eq k)]
  refine hr _ ?_
  split <;> omega

lemma Ranked.swap {n j : Nat} (h : r.Ranked n) (hi : i < n) (hj : j < n) :
    (r.swap i j).Ranked n := by
  intro k hk
  rw [branch_swap]
  split
  · exact h i hi
  split
  · exact h j hj
  · exact h k hk

/-- While branches are ranked, the tree stays as it was, and the first `n` branches have not been
halted. -/
structure Sorts (points : List Int) (best : Option Tree) (n : Nat) (r : Search) : Prop where
  sound : r.Sound points
  best_eq : r.best = best
  ranked : r.Ranked n

/-- Ranking a branch that has not been halted: it may go for one of those before it, or one of them
for it, but one of them is left. -/
lemma Sound.rankFrom (standing : Standing) (fuel j : Nat) (h : r.Sound src.points)
    (hr : r.Ranked (i + 1)) :
    0 < (Search.rankFrom src standing fuel i j r).1 ∧
      Sorts src.points r.best (Search.rankFrom src standing fuel i j r).1
        (Search.rankFrom src standing fuel i j r).2 := by
  induction fuel generalizing r i j with
  | zero => exact ⟨Nat.succ_pos i, h, rfl, hr⟩
  | succ fuel ih =>
    rw [Search.rankFrom]
    split
    · exact ⟨Nat.succ_pos i, h, rfl, hr⟩
    rename_i hij
    have hj := h.settle j
    have hrj : (r.settle j).Ranked (i + 1) := fun k hk =>
      (Branch.isHalted_eq (hj.core_eq k trivial)).trans (hr k hk)
    -- one of the two branches goes
    have hgone : ∀ {k r'}, Drops src.points k (r.settle j) r' → Sorts src.points r.best i r' :=
      fun hd => ⟨hd.sound, congrArg (·.2.1) hd.record_eq, hd.ranked hrj⟩
    have hdrops : ∀ k ≤ i, Drops src.points k (r.settle j) ((r.settle j).remove k) := fun k hk =>
      hj.sound.drops (lt_count_of_isHalted (hrj k (Nat.lt_succ_of_le hk)))
    have hmerged : ∀ {r'}, (r.settle j).merge? src j i = some r' →
        0 < i ∧ Sorts src.points r.best i r' := fun hm => ⟨by omega, hgone (hj.sound.merge hm)⟩
    dsimp only
    split
    · exact ⟨by omega, hgone (hdrops i le_rfl)⟩
    · split
      · exact hmerged ‹_›
      · exact ih _ hj.sound hrj
    · split
      · exact hmerged ‹_›
      · exact ih _ hj.sound hrj
    · split
      · exact hmerged ‹_›
      · exact ih _ (hj.sound.swap i j) (hrj.swap (by omega) (by omega))
    · obtain ⟨i, rfl⟩ := Nat.exists_eq_succ_of_ne_zero (show i ≠ 0 by omega)
      obtain ⟨hsound, hbest, hranked⟩ := hgone (hdrops j (by omega))
      obtain ⟨hpos, hsorts⟩ := ih j hsound hranked
      exact ⟨hpos, hsorts.sound, hsorts.best_eq.trans hbest, hsorts.ranked⟩

lemma Ranked.first {n : Nat} (h : r.Ranked n) (hend : 0 < n ∨ r.count ≤ n)
    (hlives : ∃ k, (r.branch k).isHalted = false) : (r.branch 0).isHalted = false := by
  obtain ⟨k, hk⟩ := hlives
  have := lt_count_of_isHalted hk
  exact h 0 (by omega)

/-- If there is a branch that has not been halted, the first one is such a branch in the end. -/
lemma Sound.rankAll (fuel : Nat) (low : Option Nat) (h : r.Sound src.points) (hr : r.Ranked i)
    (hfuel : 0 < i ∨ r.count ≤ fuel) :
    (Search.rankAll src fuel i low r).2.Sound src.points ∧
      (Search.rankAll src fuel i low r).2.best = r.best ∧
      ((∃ k, (r.branch k).isHalted = false) →
        ((Search.rankAll src fuel i low r).2.branch 0).isHalted = false) := by
  induction fuel generalizing r i low with
  | zero => exact ⟨h, rfl, hr.first (by omega)⟩
  | succ fuel ih =>
    rw [Search.rankAll]
    split
    · rename_i hcount
      exact ⟨h, rfl, hr.first (.inr hcount)⟩
    rename_i hcount
    split
    · rename_i hhalted
      have hdrops := (h.drops (Nat.lt_of_not_le hcount)).count_eq
      obtain ⟨hsound, hbest, hfirst⟩ := ih low (h.remove i) (fun k hk => by
        rw [branch_remove, if_pos hk]
        exact hr k hk) (by omega)
      exact ⟨hsound, hbest, fun hlives =>
        hfirst (exists_branch_remove (P := (·.isHalted = false)) r i (by simpa using hhalted)
          hlives)⟩
    · rename_i hhalted
      have hi := h.settle i
      have hri : (r.settle i).Ranked (i + 1) := fun k hk => by
        rw [Branch.isHalted_eq (hi.core_eq k trivial)]
        rcases Nat.lt_succ_iff_lt_or_eq.1 hk with hk | rfl
        · exact hr k hk
        · simpa using hhalted
      obtain ⟨hpos, hsorts⟩ :=
        hi.sound.rankFrom ((r.settle i).standing i) (r.settle i).count 0 hri
      obtain ⟨hsound, hbest, hfirst⟩ := ih
        (if ((r.settle i).standing i).inError = true then low
          else lower low ((r.settle i).standing i).cost) hsorts.sound hsorts.ranked (.inl hpos)
      exact ⟨hsound, hbest.trans hsorts.best_eq, fun _ => hfirst ⟨0, hsorts.ranked 0 hpos⟩⟩

/-! ### Going on -/

/-- A branch that has stopped is no loss for the others. -/
lemma Goes.remove (h : r.Goes) (hi : r.isActive i = false) : (r.remove i).Goes :=
  h.imp_right (exists_branch_remove (P := (·.isActive = true)) r i (by simpa [isActive] using hi))

lemma isActive_of_paused? (h : (r.branch i).paused? = some t) : r.isActive i = false := by
  unfold Branch.paused? at h
  unfold isActive Branch.isActive
  split at h
  · rename_i hs
    rw [hs]
  · cases h

/-- A branch that has stopped goes on. -/
lemma Sound.goOn (h : r.Sound src.points) (ht : (r.branch i).paused? = some t) :
    ((r.resume i).loseWay src i t).Sound src.points ∧ ((r.resume i).loseWay src i t).Goes := by
  obtain ⟨hsound, hstands⟩ := h.resume (Branch.isHalted_eq_false_iff.2 (.inr ⟨t, ht⟩))
  exact hsound.loseWay hstands ((h.branch i).readAt t ht)

/-- As long as no branch goes on and there is no tree, the first one that has stopped is not
removed. -/
lemma Sound.resumeFirst (n : Nat) (isGoing : Bool) (low : Option Nat) (h : r.Sound src.points) :
    (Search.resumeFirst src n i isGoing low r).2.Sound src.points ∧
      (r.Goes ∨ 0 < n ∧ isGoing = false ∧ (r.branch i).isHalted = false →
        (Search.resumeFirst src n i isGoing low r).2.Goes) := by
  induction n generalizing r i isGoing low with
  | zero => exact ⟨h, fun hg => hg.resolve_right fun hn => Nat.lt_irrefl 0 hn.1⟩
  | succ n ih =>
    rw [Search.resumeFirst]
    split
    · rename_i hnone
      refine (ih _ _ h).imp_right fun hnext hg => hnext (.inl ?_)
      rcases hg with hg | ⟨-, -, hi⟩
      · exact hg
      · exact .inr ⟨i, (Branch.isHalted_eq_false_iff.1 hi).resolve_right (by simp [hnone])⟩
    rename_i t ht
    split
    · obtain ⟨hsound, hgoes⟩ := h.goOn ht
      exact (ih _ _ hsound).imp_right fun hnext _ => hnext (.inl hgoes)
    · rename_i hcond
      refine (ih _ _ (h.remove i)).imp_right fun hnext hg => hnext (.inl ?_)
      apply Goes.remove _ (isActive_of_paused? ht)
      rcases hg with hg | ⟨-, rfl, -⟩
      · exact hg
      · rcases hbest : r.best with _ | u
        · simp [h.offered hbest, maxBranches] at hcond
        · exact .inl (by rw [hbest]; rfl)

/-- **Pruning** leaves a branch that goes on, unless there is a tree. -/
theorem Sound.prune (h : r.Sound src.points) (hl : r.Lives) :
    (r.prune src).2.Sound src.points ∧ (r.prune src).2.Goes := by
  obtain ⟨hsound, hbest, hfirst⟩ := h.rankAll (i := 0) (2 * r.count + 2) none
    (fun k hk => by omega) (by omega)
  rw [Search.prune]
  generalize Search.rankAll src (2 * r.count + 2) 0 none r = x at hsound hbest hfirst
  obtain ⟨low, r₁⟩ := x
  dsimp only at hsound hbest hfirst ⊢
  refine ((hsound.take maxBranches).resumeFirst _ _ _).imp_right fun hnext => hnext ?_
  rcases hl with hl | hl
  · exact .inl (.inl ((congrArg Option.isSome hbest).trans hl))
  · have hzero : (Search.branch { r₁ with branches := r₁.branches.take maxBranches } 0).isHalted =
        false := by
      rw [branch_take, if_pos (by decide)]
      exact hfirst hl
    exact .inr ⟨lt_count_of_isHalted hzero, rfl, hzero⟩

/-! ### The end of the search -/

/-- Passing over the rest of the text ends, and leaves a tree. -/
lemma Sound.passOver {fuel : Nat} (h : r.Sound src.points) (hi : r.Stands i (s, p))
    (hfuel : src.length - p < fuel) : (Search.passOver src i fuel r).Sound src.points ∧
      (Search.passOver src i fuel r).best.isSome = true := by
  induction fuel generalizing r s p with
  | zero => omega
  | succ fuel ih =>
    rw [Search.passOver, hi.pos_eq]
    have ht : Token.ReadAt src.points p (Token.read src.points lost p) := ⟨_, rfl⟩
    split
    · rename_i hend
      exact h.acceptLost hi ht (of_decide_eq_true hend)
    · rename_i hend
      have hend : (Token.read src.points lost p).kind? ≠ some .endOfText :=
        fun hk => hend (decide_eq_true hk)
      obtain ⟨hsound, hstands⟩ := h.skipToken hi ht hend 0
      obtain ⟨hlength, hlt⟩ := Token.lt_stop_read hend
      refine ih hsound hstands ?_
      have : src.length = src.points.length := rfl
      omega

lemma Sound.giveUp (h : r.Sound src.points) (hl : r.Lives) :
    (r.giveUp src).Sound src.points ∧ (r.giveUp src).best.isSome = true := by
  rw [Search.giveUp]
  split
  · rename_i i hbest hfind
    obtain ⟨hlt, hb, -⟩ := List.findIdx?_eq_some_iff_getElem.1 hfind
    have hi : (r.branch i).isHalted = false := by
      rw [Search.branch, List.getD_eq_getElem _ _ hlt]
      simpa using hb
    obtain ⟨hsound, hstands⟩ := h.resume hi
    exact hsound.passOver hstands (by omega)
  · rename_i hnone
    refine ⟨h, ?_⟩
    rcases hl with hl | ⟨k, hk⟩
    · exact hl
    by_contra hbest
    have hbest : r.best = none := by simpa using hbest
    rcases hfind : r.branches.findIdx? (!·.isHalted) with _ | i
    · have hlt := lt_count_of_isHalted hk
      have hall := List.findIdx?_eq_none_iff.1 hfind _ (List.getElem_mem hlt)
      rw [Search.branch, List.getD_eq_getElem _ _ hlt] at hk
      simp [hk] at hall
    · exact hnone i hbest hfind

lemma best_of_isDone {low : Option Nat} (h : r.isDone src low = true) : r.best.isSome = true := by
  unfold isDone bestCost at h
  cases hbest : r.best <;> simp_all

/-- **The search comes up with a tree**, however many rounds it takes. -/
theorem Sound.rounds (fuel : Nat) (h : r.Sound src.points) (hl : r.Lives) :
    (Search.rounds src fuel r).Sound src.points ∧
      (Search.rounds src fuel r).best.isSome = true := by
  induction fuel generalizing r with
  | zero => exact h.giveUp hl
  | succ fuel ih =>
    obtain ⟨hsound, hgoes⟩ := h.prune hl
    rw [Search.rounds]
    dsimp only
    split
    · rename_i hend
      refine ⟨hsound, ?_⟩
      rw [Bool.or_eq_true, decide_eq_true_eq] at hend
      rcases hend with hdone | hcount
      · exact best_of_isDone hdone
      · refine hgoes.resolve_right fun ⟨k, hk⟩ => ?_
        have := lt_count_of_isActive hk
        omega
    · obtain ⟨hsound', hlives⟩ := hsound.advanceAll (i := 0) 100 hgoes.lives
      exact ih hsound' hlives

end Search

end ScenarioSyntax
