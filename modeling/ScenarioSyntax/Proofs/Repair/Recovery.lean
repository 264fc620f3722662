import ScenarioSyntax.Proofs.Machine.Outcome
import ScenarioSyntax.Proofs.Repair.Reductions
import ScenarioSyntax.Repair.Strategy

/-!
What a branch does at a token that does not fit keeps the search sound: it ends with the whole text
on its stack, goes back over some trees and puts them into an error, passes over the token, or makes
up another one in front of it. It does not leave the search without a tree and without a branch that
goes on: a branch is halted only for a tree, or for another branch.
-/

namespace ScenarioSyntax

open Grammar Table

namespace Search

variable {points : List Int} {src : Source} {r r' r'' : Search} {i j k n : Nat}
  {a : StateId × Nat} {s u : StateId} {p q : Nat} {t : Lookahead}

/-- The first `n` branches are left where they are; others may have come. -/
structure Adds (points : List Int) (n : Nat) (r r' : Search) : Prop where
  keeps : Keeps points (· < n) r r'
  le_count : n ≤ r'.count

namespace Adds

lemma refl (h : r.Sound points) : Adds points r.count r r := ⟨.refl h, le_rfl⟩

lemma trans (h : Adds points n r r') (h' : Adds points r'.count r' r'') : Adds points n r r'' where
  keeps := h.keeps.trans (h'.keeps.imp fun _ hk => hk.trans_le h.le_count)
  le_count := h.le_count.trans h'.le_count

end Adds

/-- A search that says whether some branch came to do what was wanted. If so, one of the branches
from the `n`-th on goes on. -/
structure Tries (points : List Int) (n : Nat) (r : Search) (x : Bool × Search) : Prop
    extends Adds points n r x.2 where
  exists_active : x.1 = true → ∃ k ≥ n, x.2.isActive k = true

lemma Tries.after {x : Bool × Search} (h : Tries points r'.count r' x)
    (hadds : Adds points n r r') : Tries points n r x :=
  ⟨hadds.trans h.toAdds, fun hx => (h.exists_active hx).imp fun _ hk =>
    ⟨hadds.le_count.trans hk.1, hk.2⟩⟩

/-! ### Comparing branches -/

/-- The branches have been compared, but not moved. If it is said that the branch `i` is beaten,
there is a tree already, or another branch goes on. -/
structure Compares (points : List Int) (i : Nat) (r : Search) (x : Bool × Search) : Prop where
  keeps : Keeps points (fun _ => True) r x.2
  count_eq : x.2.count = r.count
  goes : x.1 = true → x.2.best.isSome = true ∨ ∃ k, k ≠ i ∧ x.2.isActive k = true

lemma Compares.of_settle {x : Bool × Search} (h : r.Sound points)
    (hx : Compares points i (r.settle j) x) : Compares points i r x :=
  ⟨(h.settle j).trans hx.keeps, hx.count_eq.trans (List.length_modify ..), hx.goes⟩

lemma Sound.isBeatenFrom (h : r.Sound points) (i : Nat) (s : Standing) (fuel j : Nat) :
    Compares points i r (r.isBeatenFrom i s fuel j) := by
  induction fuel generalizing r j with
  | zero => exact ⟨.refl h, rfl, by simp [Search.isBeatenFrom]⟩
  | succ fuel ih =>
    have hj := (h.settle j).sound
    unfold Search.isBeatenFrom
    split
    · exact ⟨.refl h, rfl, by simp⟩
    split
    · exact ih h (j + 1)
    rename_i hskip
    simp only [Bool.or_eq_true, decide_eq_true_eq, Bool.not_eq_true', not_or] at hskip
    have hactive : (r.settle j).isActive j = true :=
      (Branch.isActive_eq ((h.settle j).core_eq j trivial)).trans
        (Bool.eq_true_of_not_eq_false hskip.1.2)
    have hbeaten : Compares points i (r.settle j) (true, r.settle j) :=
      ⟨.refl hj, rfl, fun _ => .inr ⟨j, hskip.1.1, hactive⟩⟩
    dsimp only
    refine .of_settle (j := j) h ?_
    split
    · exact hbeaten
    · split
      · exact hbeaten
      · exact ih hj (j + 1)
    · exact ih hj (j + 1)

lemma Sound.isBeaten (h : r.Sound points) (src : Source) (i cost : Nat) :
    Compares points i r (r.isBeaten src i cost) := by
  unfold Search.isBeaten
  split
  · rename_i hbest
    refine ⟨.refl h, rfl, fun _ => .inl ?_⟩
    rw [Option.any_eq_true] at hbest
    obtain ⟨c, hc, -⟩ := hbest
    obtain ⟨t, ht, -⟩ := Option.map_eq_some_iff.1 hc
    exact Option.isSome_iff_exists.2 ⟨t, ht⟩
  · exact .of_settle h ((h.settle i).sound.isBeatenFrom ..)

/-! ### The end of the text -/

lemma Sound.offer (h : r.Sound points) (src : Source) {root : Tree} (hroot : root.Whole points) :
    Keeps points (fun _ => True) r (r.offer src root) where
  sound := by
    refine ⟨h.graph, h.branch, h.cache, fun t ht => ?_, fun hbest => by cases hbest⟩
    obtain rfl := Option.some.inj ht
    split
    · rename_i old hold
      split
      · exact hroot
      · exact h.best old hold
    · exact hroot
  grows := .refl _
  core_eq _ _ := rfl

lemma Sound.offerAll (h : r.Sound points) (src : Source) {last : List Tree}
    {ways : List (List Tree)} (hways : ∀ ts ∈ ways, (Tree.root (ts ++ last)).Whole points) :
    Keeps points (fun _ => True) r
        (ways.foldl (fun r ts => r.offer src (Tree.root (ts ++ last))) r) ∧
      (ways.foldl (fun r ts => r.offer src (Tree.root (ts ++ last))) r).count = r.count ∧
      (r.best.isSome = true ∨ ways ≠ [] →
        (ways.foldl (fun r ts => r.offer src (Tree.root (ts ++ last))) r).best.isSome = true) := by
  induction ways generalizing r with
  | nil => exact ⟨.refl h, rfl, fun hbest => hbest.resolve_right fun hne => hne rfl⟩
  | cons ts ways ih =>
    rw [List.forall_mem_cons] at hways
    have hoffer := h.offer src hways.1
    obtain ⟨hkeeps, hcount, hbest⟩ := ih hoffer.sound hways.2
    exact ⟨hoffer.trans hkeeps, hcount, fun _ => hbest (.inl rfl)⟩

/-- **The end**: there is a tree now. What is on the stack as a whole may be the best one. -/
theorem Sound.accept (h : r.Sound src.points) (hi : r.Stands i a) {last : List Tree}
    (hlast : ∀ t ∈ last, t.isLast = true)
    (hroot : ∀ ts, Tree.LiesAll src.points ts 0 a.2 →
      (hasRead a.1 ⟨none, [.nonterminal .sourceFile]⟩ = true →
        Tree.shapes ts = [some (.nonterminal .sourceFile)]) →
      (Tree.root (ts ++ last)).Whole src.points) :
    (r.accept src i last).Sound src.points ∧ (r.accept src i last).best.isSome = true := by
  have hlt := lt_count_of_isActive hi.active
  have hforks := h.popToBottom hi
  rw [Search.accept]
  generalize r.popToBottom i = x at hforks
  obtain ⟨r₁, groups⟩ := x
  obtain ⟨⟨hkeeps, hcount, hheld⟩, hne⟩ := hforks
  dsimp only at hkeeps hcount hheld hne ⊢
  have hways : ∀ ts ∈ groups.flatMap (·.2), (Tree.root (ts ++ last)).Whole src.points := by
    intro ts hts
    obtain ⟨g, hg, hts⟩ := List.mem_flatMap.1 hts
    obtain ⟨k, -, hk⟩ := hheld.exists_of_mem hg
    obtain ⟨-, hlies, hshapes⟩ := hk.lies ts hts
    exact hroot ts hlies hshapes
  obtain ⟨hoffer, hcount', hbest⟩ := hkeeps.sound.offerAll src hways
  generalize List.foldl _ r₁ (groups.flatMap (·.2)) = r₂ at hoffer hcount' hbest ⊢
  cases groups with
  | nil => exact absurd rfl hne
  | cons g groups =>
    obtain ⟨j, ways⟩ := g
    refine ⟨(hoffer.sound.remove j).finish ?_ hlast start, ?_⟩
    · rw [List.length_cons] at hcount
      have hle : r₂.count - 1 ≤ (r₂.remove j).count := by
        rw [Search.remove, count, count, List.length_eraseIdx]
        split <;> omega
      omega
    · have hrecord := congrArg (·.2.1) (record_pushAll src (r₂.remove j) i start last)
      refine (congrArg Option.isSome hrecord).trans (hbest (.inr ?_))
      simp [hheld.2.1.ne]

/-! ### Going back -/

/-- Trees are put into an error, but for the extra ones behind them. -/
lemma Stands.wrap (hi : r.Stands i (s, p)) (h : r.Sound src.points) {ts : List Tree}
    (hts : Tree.LiesAll src.points ts p q) :
    Moves src.points i (s, q) r (Search.pushAll src (if (Tree.splitTrailing ts).1.isEmpty then r
      else r.push src i (some (.node (.error true) (Tree.splitTrailing ts).1)) s) i
        (Tree.splitTrailing ts).2 s) := by
  rw [← Stack.splitTrailing_append ts, Tree.liesAll_append_iff] at hts
  obtain ⟨m, htrees, htrailing⟩ := hts
  have hextra : ∀ t ∈ (Tree.splitTrailing ts).2, t.isExtra = true :=
    fun t ht => Stack.isExtra_of_mem_trailing ht
  split
  · rename_i hnil
    rw [List.isEmpty_iff.1 hnil] at htrees
    obtain rfl : p = m := htrees
    exact hi.pushAll h hextra htrailing
  · have herror := hi.take h (t := .node (.error true) (Tree.splitTrailing ts).1)
      (.aside rfl rfl) (Tree.lies_node.2 ⟨htrees, trivial⟩)
    exact herror.trans (herror.stands.pushAll herror.keeps.sound hextra htrailing)

/-- One of the branches has been worked on. If it is said for the first time that a branch was
found, it is this one, and it goes on. -/
structure Treats (points : List Int) (b : Nat) (x y : Bool × Search) : Prop where
  keeps : Keeps points (· ≠ b) x.2 y.2
  count_eq : y.2.count = x.2.count
  active : y.1 = true → x.1 = true ∨ y.2.isActive b = true

/-- Steps that each work on the branch of one group leave the other branches where they are. -/
lemma Lined.foldl {E : StateId → List Tree → Prop}
    {f : Bool × Search → Nat × List (List Tree) → Bool × Search}
    (hf : ∀ (r : Search) found b ways, r.Sound points → Held points q E r b ways →
      Treats points b (found, r) (f (found, r) (b, ways)))
    (h : r.Sound points) {b : Nat} {groups : List (Nat × List (List Tree))} (found : Bool)
    (hheld : Lined (Held points q E r) b 0 groups) :
    Keeps points (· < b) r (groups.foldl f (found, r)).2 ∧
      (groups.foldl f (found, r)).2.count = r.count ∧
      ((groups.foldl f (found, r)).1 = true →
        found = true ∨ ∃ k ≥ b, (groups.foldl f (found, r)).2.isActive k = true) := by
  induction groups generalizing r b found with
  | nil => exact ⟨.refl h, rfl, .inl⟩
  | cons g groups ih =>
    obtain ⟨j, ways⟩ := g
    obtain ⟨rfl, hways, hrest⟩ := hheld
    obtain ⟨hstep, hcount, hactive⟩ := hf _ found _ _ h hways
    obtain ⟨hkeeps, hcount', hfound⟩ := ih hstep.sound (f (found, r) (_, ways)).1
      (hrest.imp fun k hk ways hk' => hk'.of_stands (hstep.stands h (by omega) hk'.stands))
    refine ⟨(hstep.imp fun k hk => Nat.ne_of_lt hk).trans
      (hkeeps.imp fun k hk => Nat.lt_succ_of_lt hk), hcount'.trans hcount, fun hx => ?_⟩
    rcases hfound hx with hx | ⟨k, hk, hx⟩
    · refine (hactive hx).imp_right fun hb => ⟨_, le_rfl, ?_⟩
      exact (Branch.isActive_eq (hkeeps.core_eq _ (Nat.lt_succ_self _))).trans hb
    · exact .inr ⟨k, by omega, hx⟩

/-- What becomes of the new branches does not touch the others. -/
lemma Forks.tries {E : StateId → List Tree → Prop} {groups : List (Nat × List (List Tree))}
    (hforks : Forks points q E r r' groups)
    {f : Bool × Search → Nat × List (List Tree) → Bool × Search}
    (hf : ∀ (r : Search) found b ways, r.Sound points → Held points q E r b ways →
      Treats points b (found, r) (f (found, r) (b, ways))) :
    Tries points r.count r (groups.foldl f (false, r')) := by
  obtain ⟨hkeeps, hcount, hfound⟩ := hforks.held.foldl hf hforks.keeps.sound false
  refine ⟨⟨hforks.keeps.trans hkeeps, ?_⟩, fun hx => (hfound hx).resolve_left (by simp)⟩
  rw [hcount, hforks.count_eq]
  exact Nat.le_add_right _ _

/-- **Going back**: new branches that are in the state wanted hold what lies above it in an
error. -/
theorem Sound.goBack (h : r.Sound src.points) (hi : r.Stands i a) (depth : Nat) (hs : s ≠ lost) :
    Tries src.points r.count r (r.goBack src i depth s) := by
  have hforks := h.pop hi depth
  rw [Search.goBack]
  generalize r.pop i depth = x at hforks
  obtain ⟨r₁, groups⟩ := x
  refine hforks.tries fun r found j ways h hheld => ?_
  dsimp only
  split
  · exact ⟨h.halt j, List.length_modify .., .inl⟩
  · rename_i hstate
    rw [ne_eq, not_not] at hstate
    have hj : r.Stands j (s, (r.place j).2) := hstate ▸ hheld.stands
    obtain ⟨m, hmoves, hinner⟩ := h.popError hj hs
    have hlies := hinner.append hheld.lies_headD
    have hwrap := hmoves.trans (hmoves.stands.wrap hmoves.keeps.sound hlies)
    exact ⟨hwrap.keeps, hwrap.count_eq, fun _ => .inr hwrap.stands.active⟩

lemma Adds.stands (h : Adds points r.count r r') (hr : r.Sound points) (hi : r.Stands i a) :
    r'.Stands i a :=
  h.keeps.stands hr (lt_count_of_isActive hi.active) hi

lemma Sound.tryLandmarks (h : r.Sound src.points) (hi : r.Stands i a)
    (before pos moved cost : Nat) (ls : List Landmark) : Tries src.points r.count r
      (Search.tryLandmarks src i before pos moved cost t ls r) := by
  induction ls generalizing r with
  | nil => exact ⟨.refl h, by simp [Search.tryLandmarks]⟩
  | cons l ls ih =>
    rw [Search.tryLandmarks]
    split
    · exact ih h hi
    rename_i hcond
    have hs : l.state ≠ lost := fun hs => hcond (by simp [hs])
    dsimp only
    have hbeaten := h.isBeaten src i
      (cost + l.depth * Cost.skippedTree + Cost.stretch src l.pos pos)
    generalize r.isBeaten src i _ = x at hbeaten
    obtain ⟨beaten, r₁⟩ := x
    obtain ⟨hkeeps, hcount, -⟩ := hbeaten
    dsimp only at hkeeps hcount
    have hadds : Adds src.points r.count r r₁ := ⟨hkeeps.imp fun _ _ => trivial, hcount.ge⟩
    have hi₁ := hadds.stands h hi
    split
    · rename_i r₂ heq
      obtain ⟨-, rfl⟩ := Prod.mk.inj heq
      exact ⟨hadds, by simp⟩
    rename_i r₂ heq
    obtain ⟨-, rfl⟩ := Prod.mk.inj heq
    split
    · have hback := hkeeps.sound.goBack hi₁ (if 0 < moved then l.depth + 1 else l.depth) hs
      split
      · rename_i r₂ heq
        rw [heq] at hback
        exact hback.after hadds
      · rename_i r₂ heq
        rw [heq] at hback
        exact (ih hback.keeps.sound (hback.stands hkeeps.sound hi₁)).after
          (hadds.trans hback.toAdds)
    · exact (ih hkeeps.sound hi₁).after hadds

/-! ### Passing over a token -/

lemma branch_removeInactiveFrom (r : Search) (hn : n ≤ r.count) (hk : k < n) :
    (r.removeInactiveFrom n).branch k = r.branch k := by
  have hlength : (r.branches.take n).length = n := List.length_take_of_le hn
  rw [branch, removeInactiveFrom, List.getD_eq_getElem?_getD,
    List.getElem?_append_left (hlength.symm ▸ hk), List.getElem?_take_of_lt hk,
    ← List.getD_eq_getElem?_getD, branch]

lemma exists_branch_removeInactiveFrom (r : Search) (n k : Nat) :
    ∃ j, (r.removeInactiveFrom n).branch k = r.branch j := by
  rcases hb : (r.removeInactiveFrom n).branches[k]? with _ | b
  · refine ⟨r.count, ?_⟩
    rw [branch, List.getD_eq_getElem?_getD, hb, branch_of_le le_rfl]
    rfl
  · have hmem : b ∈ r.branches := by
      rcases List.mem_append.1 (List.mem_of_getElem? hb) with hb | hb
      · exact List.mem_of_mem_take hb
      · exact List.mem_of_mem_drop (List.mem_filter.1 hb).1
    obtain ⟨j, hj⟩ := List.mem_iff_getElem?.1 hmem
    refine ⟨j, ?_⟩
    rw [branch, branch, List.getD_eq_getElem?_getD, List.getD_eq_getElem?_getD, hb, hj]

lemma exists_isActive_removeInactiveFrom (hn : n ≤ r.count) (hk : n ≤ k)
    (hactive : r.isActive k = true) : ∃ j ≥ n, (r.removeInactiveFrom n).isActive j = true := by
  have hmem : r.branch k ∈ (r.branches.drop n).filter (·.isActive) := by
    refine List.mem_filter.2 ⟨?_, hactive⟩
    have hlt := lt_count_of_isActive hactive
    rw [branch, List.getD_eq_getElem _ _ hlt]
    refine List.mem_of_getElem? (i := k - n) ?_
    rw [List.getElem?_drop, Nat.add_sub_cancel' hk]
    exact List.getElem?_eq_getElem hlt
  obtain ⟨j, hj⟩ := List.mem_iff_getElem?.1 hmem
  refine ⟨n + j, Nat.le_add_right n j, ?_⟩
  have hlength : (r.branches.take n).length = n := List.length_take_of_le hn
  rw [isActive, branch, removeInactiveFrom, List.getD_eq_getElem?_getD,
    List.getElem?_append_right (by omega), hlength, Nat.add_sub_cancel_left, hj]
  exact hactive

lemma Sound.removeInactiveFrom (h : r.Sound points) (hn : n ≤ r.count) :
    Adds points n r (r.removeInactiveFrom n) where
  keeps := by
    refine ⟨h.rearrange rfl rfl fun k => ?_, .refl _, fun k hk => ?_⟩
    · obtain ⟨j, hj⟩ := exists_branch_removeInactiveFrom r n k
      exact ⟨j, congrArg Branch.core hj⟩
    · rw [branch_removeInactiveFrom r hn hk]
  le_count := by
    rw [count, Search.removeInactiveFrom, List.length_append, List.length_take_of_le hn]
    exact Nat.le_add_right _ _

/-- The branches that went back are left when the others are removed. -/
lemma Tries.removeInactiveFrom {x : Bool × Search} (h : Tries points n r x) :
    Tries points n r (x.1, x.2.removeInactiveFrom n) := by
  have hremove := h.keeps.sound.removeInactiveFrom h.le_count
  refine ⟨⟨h.keeps.trans hremove.keeps, hremove.le_count⟩, fun hx => ?_⟩
  obtain ⟨k, hk, hactive⟩ := h.exists_active hx
  exact exists_isActive_removeInactiveFrom h.le_count hk hactive

/-- What is passed over: a token, or characters that are no token. -/
lemma lies_passed (ht : Token.ReadAt points p t) (hend : t.kind? ≠ some .endOfText) :
    (Tree.node .skipped [if t.kind? = some .comment then t.leaf.withExtra true else t.leaf]).Lies
      points p t.span.stop := by
  refine Tree.lies_node.2 ⟨Tree.liesAll_singleton.2 ?_, trivial⟩
  obtain ⟨st, rfl⟩ := ht
  rcases hk : (Token.read points st p).kind? with _ | k
  · rw [if_neg (by simp)]
    exact Tree.lies_stray hk
  · have hend : k ≠ .endOfText := fun he => hend (he ▸ hk)
    have hlies := Tree.lies_leaf hk hend
    by_cases hc : k = .comment
    · rw [if_pos (by rw [hc])]
      rwa [decide_eq_true hc] at hlies
    · rw [if_neg (by simpa using hc)]
      have hleaf := (Token.honest_read points).leaf_eq st p k hk
      rw [decide_eq_false hc, hleaf, decide_eq_false hend, Tree.withExtra] at hlies
      rwa [hleaf, decide_eq_false hend]

/-- **A token is passed over**, and the branch is lost. -/
theorem Sound.skipToken (h : r.Sound src.points) (hi : r.Stands i (s, p))
    (ht : Token.ReadAt src.points p t) (hend : t.kind? ≠ some .endOfText) (moved : Nat) :
    (r.skipToken src i moved t).Sound src.points ∧
      (r.skipToken src i moved t).Stands i (lost, t.span.stop) := by
  have hlies := lies_passed ht hend
  have alone : ∀ {r : Search} {s}, r.Sound src.points → r.Stands i (s, p) →
      Moves src.points i (lost, t.span.stop) r (r.push src i (some (.node .skipped
        [if t.kind? = some .comment then t.leaf.withExtra true else t.leaf])) lost) :=
    fun h hi => hi.take h (.passed rfl rfl) hlies
  rw [Search.skipToken]
  dsimp only
  split
  · have hforks := h.pop hi 1
    have hlt := lt_count_of_isActive hi.active
    split
    · rename_i r₁ j ways groups heq
      rw [heq] at hforks
      obtain ⟨hkeeps, hcount, rfl, hheld, -⟩ := hforks
      dsimp only at hkeeps hcount hheld
      rw [List.length_cons] at hcount
      -- the branch below takes the place of this one
      have hsound := hkeeps.sound.take (r.count + 1)
      have hbelow : Search.Stands { r₁ with branches := r₁.branches.take (r.count + 1) } r.count
          (r₁.place r.count) :=
        hheld.stands.of_core hkeeps.sound (.refl _)
          (by rw [branch_take, if_pos (Nat.lt_succ_self _)])
      obtain ⟨hsound', hplaced⟩ := hbelow.replace hsound hlt
      have hskip := hplaced.take hsound' (.passed rfl rfl) ((Tree.lies_node (l := .skipped)).2
        ⟨hheld.lies_headD.append (Tree.liesAll_singleton.2 hlies), trivial⟩)
      exact ⟨hskip.keeps.sound, hskip.stands⟩
    · rename_i r₁ heq
      rw [heq] at hforks
      have hskip := alone hforks.keeps.sound (hforks.keeps.stands h hlt hi)
      exact ⟨hskip.keeps.sound, hskip.stands⟩
  · have hskip := alone h hi
    exact ⟨hskip.keeps.sound, hskip.stands⟩

/-! ### A step of a branch that is lost -/

/-- At the end of the text an error holds all of it. -/
lemma Sound.acceptLost (h : r.Sound src.points) (hi : r.Stands i (s, p))
    (ht : Token.ReadAt src.points p t) (hend : t.kind? = some .endOfText) :
    (r.accept src i [.node (.error false) [], t.leaf]).Sound src.points ∧
      (r.accept src i [.node (.error false) [], t.leaf]).best.isSome = true := by
  obtain ⟨hlast, hextra⟩ := ht.isLast_leaf hend
  refine h.accept hi ?_ fun ts hlies _ => ?_
  · rw [List.forall_mem_cons, List.forall_mem_singleton]
    exact ⟨rfl, hlast⟩
  · obtain ⟨st, rfl⟩ := ht
    rw [Machine.root_eq (List.forall_mem_singleton.2 hextra) rfl, List.append_nil]
    exact .lost hlies hend

/-- Another branch goes on when one is halted. -/
lemma isActive_halt (hk : k ≠ i) (hactive : r.isActive k = true) : (r.halt i).isActive k = true :=
  (congrArg Branch.isActive (branch_modify_of_ne r i k _ hk)).trans hactive

/-- **A step of a branch that is lost**, or that the table sends to recovery. It may be halted, but
then there is a tree, or another branch goes on. -/
theorem Sound.recover (h : r.Sound src.points) (hi : r.Stands i (s, p))
    (ht : Token.ReadAt src.points p t) :
    (r.recover src i t).Sound src.points ∧ (r.recover src i t).Goes := by
  have hlt := lt_count_of_isActive hi.active
  have hsettle := h.settle i
  have hcount : (r.settle i).count = r.count := List.length_modify ..
  have hlandmarks : ∀ pos moved cost ls, Tries src.points r.count r
      (if t.kind?.isSome then Search.tryLandmarks src i r.count pos moved cost t ls (r.settle i)
        else (false, r.settle i)) := by
    intro pos moved cost ls
    have hfirst : Adds src.points r.count r (r.settle i) :=
      ⟨hsettle.imp fun _ _ => trivial, hcount.ge⟩
    split
    · exact (hsettle.sound.tryLandmarks (hfirst.stands h hi) ..).after hfirst
    · exact ⟨hfirst, by simp⟩
  rw [Search.recover]
  dsimp only
  have htries := (hlandmarks (r.pos i) ((r.settle i).progress i) ((r.settle i).cost i)
    ((r.branch i).landmarks.getD [])).removeInactiveFrom
  generalize (if t.kind?.isSome = true then _ else (false, r.settle i)) = x at htries ⊢
  obtain ⟨wentBack, r₁⟩ := x
  dsimp only at htries ⊢
  generalize r₁.removeInactiveFrom r.count = r₂ at htries ⊢
  have h₂ := htries.keeps.sound
  have hi₂ := htries.stands h hi
  split
  · rename_i hwent
    rw [Bool.and_eq_true] at hwent
    obtain ⟨k, hk, hk'⟩ := htries.exists_active hwent.1
    exact ⟨(h₂.halt i).sound, .inr ⟨k, isActive_halt (by omega) hk'⟩⟩
  split
  · rename_i hend
    exact (h₂.acceptLost hi₂ ht (of_decide_eq_true hend)).imp_right .inl
  rename_i hend
  have hbeaten := h₂.isBeaten src i ((r.settle i).cost i + Cost.skippedTree +
    Cost.stretch src t.span.lead t.span.stop)
  split
  · rename_i r₃ heq
    rw [heq] at hbeaten
    exact ⟨(hbeaten.keeps.sound.halt i).sound, (hbeaten.goes rfl).imp_right
      fun ⟨k, hk, hk'⟩ => ⟨k, isActive_halt hk hk'⟩⟩
  · rename_i r₃ heq
    rw [heq] at hbeaten
    exact (hbeaten.keeps.sound.skipToken (hbeaten.keeps.stands h₂ trivial hi₂) ht
      (fun hk => hend (decide_eq_true hk)) _).imp_right fun hs => .inr ⟨i, hs.active⟩

/-! ### Making up a token -/

lemma Sound.copy (h : r.Sound points) (hi : r.Stands i a) :
    Adds points r.count r (r.copy i) ∧ (r.copy i).count = r.count + 1 ∧
      (r.copy i).Stands r.count a := by
  have hbranch : ∀ k, (r.copy i).branch k =
      if k = r.count then { r.branch i with landmarks := none } else r.branch k :=
    fun k => branch_append r k _
  have hcount : (r.copy i).count = r.count + 1 := List.length_append
  refine ⟨⟨⟨h.rearrange rfl rfl fun k => ?_, .refl _, fun k hk => ?_⟩, ?_⟩, hcount, ?_⟩
  · rw [hbranch]
    split
    · exact ⟨i, rfl⟩
    · exact ⟨k, rfl⟩
  · rw [hbranch, if_neg (Nat.ne_of_lt hk)]
  · rw [hcount]
    exact Nat.le_succ _
  · refine hi.of_core h (.refl _) ?_
    rw [hbranch, if_pos rfl]
    rfl

lemma next?_of_after {m : Terminal} (hlost : after s m ≠ lost) (hmoves : after s m ≠ s) :
    next? s (.terminal m) = some (after s m) := by
  rw [next?, after]
  rw [after] at hlost hmoves
  rcases ha : action? s m with _ | ⟨q⟩ | _ | _ | _ | _ <;> rw [ha] at hlost hmoves
  case some.extra => exact absurd rfl hmoves
  all_goals exact absurd rfl hlost

/-- **A token is made up** on a copy of the branch, which can then be reduced. -/
theorem Sound.insertMissing (h : r.Sound src.points) (hi : r.Stands i (s, p)) (k : Terminal)
    (ms : List Terminal) :
    Adds src.points r.count r (r.insertMissing src i p k ms).2 := by
  induction ms generalizing r with
  | nil => exact .refl h
  | cons m ms ih =>
    rw [Search.insertMissing, hi.state_eq]
    dsimp only
    split
    · exact ih h hi
    rename_i hcond
    simp only [Bool.or_eq_true, decide_eq_true_eq, Bool.not_eq_true', not_or,
      Bool.not_eq_false] at hcond
    obtain ⟨⟨hlost, hmoves⟩, hreduces⟩ := hcond
    have hnext := next?_of_after hlost hmoves
    obtain ⟨hcopy, hcount, hcopied⟩ := h.copy hi
    have hmade := hcopied.take hcopy.keeps.sound (t := .missing m p) (.read rfl rfl hnext)
      ⟨⟨s, _, k, hnext, hreduces⟩, rfl, rfl⟩
    have hspread := hmade.keeps.sound.reduceAll hmade.stands (some k)
      fun _ => (hmade.count_eq.trans hcount).symm
    have hadds : Adds src.points r.count r (((r.copy i).push src r.count (some (.missing m p))
        (after s m)).reduceAll src r.count (some k)).2 := by
      refine ⟨hcopy.keeps.trans ((hmade.keeps.imp fun j hj => Nat.ne_of_lt hj).trans
        (hspread.keeps.imp fun j hj => ⟨?_, Nat.ne_of_lt hj⟩)), hspread.start_le⟩
      rw [hmade.count_eq, hcount]
      exact Nat.lt_succ_of_lt hj
    split
    · rename_i r₁ heq
      rw [heq] at hadds
      exact hadds
    · rename_i r₁ heq
      rw [heq] at hadds
      exact hadds.trans (ih hadds.keeps.sound (hadds.stands h hi))

/-! ### Losing the way -/

lemma Sound.noteLandmarks (h : r.Sound points) (i : Nat) :
    Keeps points (fun _ => True) r (r.noteLandmarks i) :=
  h.modify rfl

/-- The branch is at the position. -/
def At (r : Search) (p i : Nat) : Prop := ∃ s, r.Stands i (s, p)

/-- Branches that lose their way stay at the position, and so do all others that are there. -/
lemma Sound.loseEach (h : r.Sound src.points) {is : List Nat} (his : ∀ i ∈ is, r.At p i)
    (inserted : Bool) : (r.loseEach src p t is inserted).Sound src.points ∧
      ∀ k, r.At p k → (r.loseEach src p t is inserted).At p k := by
  induction is generalizing r inserted with
  | nil => exact ⟨h, fun k hk => hk⟩
  | cons i is ih =>
    obtain ⟨⟨s, hi⟩, his⟩ := List.forall_mem_cons.1 his
    have hlose : ∀ x : Bool × Search, Adds src.points r.count r x.2 →
        (Search.loseEach src p t is x.1 (x.2.push src i none lost)).Sound src.points ∧
          ∀ k, r.At p k → (Search.loseEach src p t is x.1 (x.2.push src i none lost)).At p k := by
      rintro ⟨inserted, r₁⟩ hmade
      have hi₁ := hmade.stands h hi
      have hlost := hi₁.push (q := p) hmade.keeps.sound (.lost (b := (lost, p)) rfl rfl)
      have hat : ∀ k, r.At p k → (r₁.push src i none lost).At p k := by
        rintro k ⟨u, hk⟩
        by_cases hki : k = i
        · exact ⟨lost, hki ▸ hlost.stands⟩
        · exact ⟨u, hlost.keeps.stands hmade.keeps.sound hki (hmade.stands h hk)⟩
      obtain ⟨hsound, hall⟩ := ih hlost.keeps.sound (fun k hk => hat k (his k hk)) inserted
      exact ⟨hsound, fun k hk => hall k (hat k hk)⟩
    rw [Search.loseEach]
    by_cases hinserted : inserted = true
    · rw [if_pos hinserted]
      exact hlose (true, r) (.refl h)
    rw [if_neg hinserted]
    rcases t.kind? with _ | k
    · exact hlose (false, r) (.refl h)
    · have hmade := h.insertMissing hi k Terminal.all.tail
      dsimp only
      generalize r.insertMissing src i p k Terminal.all.tail = x at hmade ⊢
      exact hlose x hmade

/-- **A branch that has stopped at a token that does not fit loses its way**, and takes the first
step from there. -/
theorem Sound.loseWay (h : r.Sound src.points) (hi : r.Stands i (s, p))
    (ht : Token.ReadAt src.points p t) :
    (r.loseWay src i t).Sound src.points ∧ (r.loseWay src i t).Goes := by
  have hlt := lt_count_of_isActive hi.active
  have hspread := h.reduceAll hi none fun hdefinite => by cases hdefinite
  rw [Search.loseWay]
  generalize r.reduceAll src i none = x at hspread
  obtain ⟨_, r₁⟩ := x
  dsimp only at hspread ⊢
  have hi₁ : r₁.At p i := hspread.stands i (.inl rfl) (hspread.lt_count rfl)
  have hpos : r₁.pos i = p := hi₁.choose_spec.pos_eq
  have hnew : ∀ k ∈ i :: (List.range r₁.count).drop r.count, r₁.At p k := by
    refine List.forall_mem_cons.2 ⟨hi₁, fun k hk => ?_⟩
    obtain ⟨n, hn, rfl⟩ := List.mem_iff_getElem.1 hk
    rw [List.length_drop, List.length_range] at hn
    rw [List.getElem_drop, List.getElem_range]
    exact hspread.stands _ (.inr (Nat.le_add_right _ _)) (by omega)
  obtain ⟨hlost, hat⟩ := hspread.keeps.sound.loseEach (t := t) hnew false
  rw [hpos]
  -- the branches that are lost at the same place are merged into one
  have hmerged : ∀ r₂ : Search, r₂.Sound src.points ∧ r₂.At p i → ∀ k : Nat,
      ((r₂.merge? src i r.count).getD r₂).Sound src.points ∧
        ((r₂.merge? src i r.count).getD r₂).At p i := by
    rintro r₂ ⟨h₂, u, hu⟩ _
    rcases hm : r₂.merge? src i r.count with _ | r₃
    · exact ⟨h₂, u, hu⟩
    · have hdrops := h₂.merge hm
      exact ⟨hdrops.sound, u, hdrops.stands h₂ hlt hu⟩
  obtain ⟨h₂, u, hu⟩ := List.foldlRecOn (List.range (r₁.count - r.count)) _
    (motive := fun r₂ : Search => r₂.Sound src.points ∧ r₂.At p i) ⟨hlost, hat i hi₁⟩
    fun r₂ h₂ k _ => hmerged r₂ h₂ k
  have hnoted := h₂.noteLandmarks i
  exact hnoted.sound.recover (hnoted.stands h₂ trivial hu) ht

end Search

end ScenarioSyntax
