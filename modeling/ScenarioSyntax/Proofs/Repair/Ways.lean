import ScenarioSyntax.Proofs.Repair.Links
import ScenarioSyntax.Repair.Walk

/-!
What a way down through the stacks tells. The trees above the vertex that it leads to stand for the
text from there to the top; and where the state at the top says what has been read, the trees are
what has been read.
-/

namespace ScenarioSyntax

open Automaton Grammar Table

namespace Walk

/-- A way down from a vertex. It goes on only from where it does not stop. -/
inductive Way (g : Graph) (stops : Walk → Bool) (top : Nat) : Walk → Prop
  | top : Way g stops top ⟨top, [], 0⟩
  | follow {w : Walk} {l : Link} (way : Way g stops top w) (goes : stops w = false)
      (link : l ∈ (g.vertex w.vertex).links) : Way g stops top (w.follow l)

section Below

variable {α : Type} {g : Graph} (stops : Walk → Bool) {top : Nat} {visit : α → Walk → α × Bool}
  {P : α → Prop} (hstops : ∀ a w, (visit a w).2 = stops w)
  (hvisit : ∀ a w, Way g stops top w → P a → P (visit a w).1)
include hstops hvisit

lemma advance_induction {a : α} (ha : P a) {kept ws added : List Walk}
    (hkept : ∀ w ∈ kept, Way g stops top w) (hws : ∀ w ∈ ws, Way g stops top w)
    (hadded : ∀ w ∈ added, Way g stops top w) :
    P (advance g visit a kept ws added).1 ∧
      ∀ w ∈ (advance g visit a kept ws added).2, Way g stops top w := by
  induction ws generalizing a kept added with
  | nil =>
    refine ⟨ha, List.forall_mem_append.2 ⟨fun w hw => hkept w ?_, hadded⟩⟩
    simpa using hw
  | cons w ws ih =>
    obtain ⟨hw, hws⟩ := List.forall_mem_cons.1 hws
    have hstep := hvisit a w hw ha
    have hgoes := hstops a w
    obtain ⟨a', stop, hv⟩ : ∃ a' stop, visit a w = (a', stop) := ⟨_, _, rfl⟩
    rw [hv] at hstep hgoes
    rw [advance, hv]
    dsimp only
    split
    · rename_i l others hlinks
      have hgoes := hgoes.symm
      have hfollow : ∀ k ∈ (g.vertex w.vertex).links, Way g stops top (w.follow k) :=
        fun k hk => hw.follow hgoes hk
      rw [hlinks, List.forall_mem_cons] at hfollow
      refine ih hstep (List.forall_mem_cons.2 ⟨hfollow.1, hkept⟩) hws
        (List.forall_mem_append.2 ⟨hadded, fun v hv => ?_⟩)
      obtain ⟨k, hk, rfl⟩ := List.mem_map.1 hv
      exact hfollow.2 k (List.mem_of_mem_take hk)
    · exact ih hstep hkept hws hadded

/-- What every visit preserves holds when all ways have been gone. -/
theorem below_induction {a : α} (ha : P a) : P (below g top visit a) := by
  have hrun : ∀ fuel a ws, P a → (∀ w ∈ ws, Way g stops top w) → P (run g visit fuel a ws) := by
    intro fuel
    induction fuel with
    | zero => exact fun a ws ha _ => ha
    | succ fuel ih =>
      intro a ws ha hws
      have hadvance := advance_induction stops hstops hvisit ha (List.forall_mem_nil _) hws
        (List.forall_mem_nil _)
      rw [run]
      split
      · rename_i a' heq
        rw [heq] at hadvance
        exact hadvance.1
      · rename_i a' ws' _ heq
        rw [heq] at hadvance
        exact ih a' ws' hadvance.1 hadvance.2
  exact hrun _ a _ ha (List.forall_mem_singleton.2 .top)

end Below

variable {g : Graph} {top n : Nat} {w : Walk}

/-- The ways that are kept are those that stop. -/
lemma way_of_mem_collect {c : Walk → Bool} (h : w ∈ below g top (collect c) []) :
    Way g c top w ∧ c w = true := by
  suffices hall : ∀ w ∈ below g top (collect c) [], Way g c top w ∧ c w = true from hall w h
  refine below_induction c (P := fun ws => ∀ w ∈ ws, Way g c top w ∧ c w = true) ?_ ?_
    (List.forall_mem_nil _)
  · intro ws w
    unfold collect
    split <;> simp [*]
  · intro ws w hw hws
    unfold collect
    split
    · rename_i hc
      exact List.forall_mem_append.2 ⟨hws, List.forall_mem_singleton.2 ⟨hw, hc⟩⟩
    · exact hws

theorem way_of_mem_ofDepth (h : w ∈ ofDepth g top n) :
    Way g (fun w => w.depth = n) top w ∧ w.depth = n :=
  (way_of_mem_collect h).imp_right of_decide_eq_true

theorem way_of_mem_toBottom (h : w ∈ toBottom g top) :
    Way g (fun w => (g.vertex w.vertex).links.isEmpty) top w ∧ (g.vertex w.vertex).links = [] :=
  (way_of_mem_collect h).imp_right List.isEmpty_iff.1

theorem way_of_overError (h : overError g top = some w) :
    Way g (fun w => w.trees.getLast?.isSome) top w ∧
      ∃ t, w.trees.getLast? = some t ∧ t.isError = true := by
  refine below_induction (fun w => w.trees.getLast?.isSome)
    (P := fun found => ∀ w, found = some w → Way g (fun w => w.trees.getLast?.isSome) top w ∧
      ∃ t, w.trees.getLast? = some t ∧ t.isError = true) ?_ ?_ (fun w hw => by cases hw) w h
  · intro found w
    split <;> simp [*]
  · intro found w hw hfound
    split
    · exact hfound
    · rename_i t ht
      split
      · rename_i herror
        rintro w' ⟨⟩
        exact ⟨hw, t, ht, by simp at herror; exact herror.2⟩
      · exact hfound

/-! ### Down to the bottom -/

section Collect

variable {c : Walk → Bool} {ws : List Walk}

lemma subset_collect (c : Walk → Bool) (a : List Walk) (w : Walk) :
    a ⊆ (collect c a w).1 := by
  unfold collect
  split <;> simp

lemma subset_advance (g : Graph) (c : Walk → Bool) (a kept ws added : List Walk) :
    a ⊆ (advance g (collect c) a kept ws added).1 ∧
      kept ⊆ (advance g (collect c) a kept ws added).2 := by
  induction ws generalizing a kept added with
  | nil => simp [advance]
  | cons w ws ih =>
    unfold advance
    dsimp only
    split
    · obtain ⟨ha, hkept⟩ := ih (collect c a w).1 _ _
      exact ⟨List.Subset.trans (subset_collect c a w) ha,
        List.Subset.trans (List.subset_cons_self _ _) hkept⟩
    · exact ⟨List.Subset.trans (subset_collect c a w) (ih _ _ _).1, (ih _ _ _).2⟩

/-- No way is lost: it is kept if it fulfils the condition, and goes on by its first link if not. -/
lemma mem_advance (a kept added : List Walk) (hw : w ∈ ws) :
    (c w = true → w ∈ (advance g (collect c) a kept ws added).1) ∧
    ∀ l, c w = false → (g.vertex w.vertex).links.head? = some l →
      w.follow l ∈ (advance g (collect c) a kept ws added).2 := by
  induction ws generalizing a kept added with
  | nil => cases hw
  | cons v ws ih =>
    unfold advance
    dsimp only
    rcases List.mem_cons.1 hw with rfl | hw
    · by_cases hc : c w = true
      · have hcollect : collect c a w = (a ++ [w], true) := if_pos hc
        refine ⟨fun _ => ?_, fun l hn => absurd hc (by simp [hn])⟩
        rw [hcollect]
        exact (subset_advance g c (a ++ [w]) kept ws added).1 (by simp)
      · have hcollect : collect c a w = (a, false) := if_neg hc
        refine ⟨fun h => absurd h hc, fun l _ hl => ?_⟩
        obtain ⟨ls, hls⟩ := List.head?_eq_some_iff.1 hl
        rw [hcollect, hls]
        exact (subset_advance ..).2 List.mem_cons_self
    · split <;> exact ih _ _ _ hw

lemma subset_run (g : Graph) (c : Walk → Bool) (fuel : Nat) (a ws : List Walk) :
    a ⊆ run g (collect c) fuel a ws := by
  induction fuel generalizing a ws with
  | zero => simp [run]
  | succ fuel ih =>
    have hadvance := (subset_advance g c a [] ws []).1
    unfold run
    split
    · rename_i a' heq
      rwa [heq] at hadvance
    · rename_i a' ws' _ heq
      rw [heq] at hadvance
      exact List.Subset.trans hadvance (ih a' ws')

end Collect

/-- The first links lead down to the bottom, from a vertex to an earlier one each. -/
lemma exists_mem_run {points : List Int} (hg : g.Sound points) {fuel : Nat} {a ws : List Walk}
    (hw : w ∈ ws) (hlt : w.vertex < fuel) : ∃ v, v ∈ run g
      (collect fun w => (g.vertex w.vertex).links.isEmpty) fuel a ws := by
  induction fuel generalizing a ws w with
  | zero => omega
  | succ fuel ih =>
    obtain ⟨hcollect, hfollow⟩ := mem_advance (g := g)
      (c := fun w => (g.vertex w.vertex).links.isEmpty) a [] [] hw
    unfold run
    split
    · rename_i a' heq
      rw [heq] at hcollect hfollow
      rcases hl : (g.vertex w.vertex).links with _ | ⟨l, ls⟩
      · exact ⟨w, hcollect (by rw [hl]; rfl)⟩
      · cases hfollow l (by simp [hl]) (by rw [hl]; rfl)
    · rename_i a' ws' _ heq
      rw [heq] at hcollect hfollow
      rcases hl : (g.vertex w.vertex).links with _ | ⟨l, ls⟩
      · exact ⟨w, subset_run g _ fuel a' ws' (hcollect (by rw [hl]; rfl))⟩
      · have hbelow := hg.first w.vertex l (by rw [hl]; rfl)
        have hvertex : (w.follow l).vertex = l.below := by
          unfold Walk.follow
          split <;> rfl
        exact ih (hfollow l (by simp [hl]) (by rw [hl]; rfl)) (by omega)

/-- **A way leads to the bottom** from every vertex. -/
theorem toBottom_ne_nil {points : List Int} (hg : g.Sound points) (htop : top < g.size) :
    toBottom g top ≠ [] := by
  obtain ⟨v, hv⟩ := exists_mem_run hg (a := []) (List.mem_singleton_self ⟨top, [], 0⟩)
    (Nat.lt_succ_of_lt htop)
  exact List.ne_nil_of_mem hv

/-! ### What stands above -/

section Sound

variable {points : List Int} {stops : Walk → Bool} (hg : g.Sound points) (htop : g.Open top)
include hg htop

/-- The trees above a vertex stand for the text from there to the top. -/
theorem Way.lies (h : Way g stops top w) :
    g.Open w.vertex ∧ Tree.LiesAll points w.trees (g.vertex w.vertex).pos (g.vertex top).pos := by
  induction h with
  | top => exact ⟨htop, rfl⟩
  | @follow w l _ _ link ih =>
    obtain ⟨hopen, hlies⟩ := ih
    obtain ⟨hbelow, hb⟩ := hg.carries w.vertex hopen.not_ends l link
    rw [Walk.follow]
    split
    · rename_i hl
      rw [hl] at hb
      cases hb with
      | lost _ pos =>
        refine ⟨hbelow, ?_⟩
        rw [show (g.vertex l.below).pos = (g.vertex w.vertex).pos from pos.symm]
        exact hlies
    · rename_i t hl
      rw [hl] at hb
      cases hb with
      | tree _ lies => exact ⟨hbelow, _, lies, hlies⟩

/-- From a state that is not lost, the first link leads down through a tree. -/
lemma Way.eq_top (hstate : (g.vertex top).state ≠ lost) (h : Way g stops top w)
    (hw : w.trees = []) : w = ⟨top, [], 0⟩ := by
  induction h with
  | top => rfl
  | @follow w l way _ link ih =>
    rw [Walk.follow] at hw
    split at hw
    · rename_i hl
      -- the mark of a lost way would be on top
      obtain rfl := ih hw
      have hb := (hg.carries top htop.not_ends l link).bridges
      rw [hl] at hb
      cases hb with
      | lost state _ => exact absurd state hstate
    · cases hw

/-- From a state that is not lost, an error on top of the stack is an aside. -/
theorem Way.aside (h : Way g (fun w => w.trees.getLast?.isSome) top w)
    (hstate : (g.vertex top).state ≠ lost) {t : Tree} (ht : w.trees.getLast? = some t)
    (herror : t.isError = true) : (g.vertex w.vertex).state = (g.vertex top).state ∧
      ∃ cs, w.trees = [.node (.error true) cs] := by
  cases h with
  | top => cases ht
  | @follow w l way goes link =>
    have hnil : w.trees = [] := by simpa using goes
    obtain rfl := way.eq_top hg htop hstate hnil
    have hb := (hg.carries top htop.not_ends l link).bridges
    rw [Walk.follow] at ht ⊢
    split
    · rename_i hl
      rw [hl] at hb
      cases hb with
      | lost state _ => exact absurd state hstate
    · rename_i t' hl
      rw [hl] at hb ht
      obtain rfl : t' = t := by simpa using ht
      cases hb with
      | tree moves _ =>
        obtain ⟨stays, cs, rfl⟩ := moves.aside_of_isError herror
        exact ⟨stays.symm, cs, rfl⟩

end Sound

end Walk

/-! ### What has been read -/

/-- Where something has been read of a construct, or of the whole text, the link down is a tree: an
extra one, or the last thing read. -/
lemma Bridges.read {points : List Int} {a b : StateId × Nat} {tree : Option Tree}
    (h : Bridges points a b tree) {goal : Option Nonterminal} {done : List Symbol}
    (hread : hasRead b.1 ⟨goal, done⟩ = true) (hdone : done ≠ [] ∨ goal = none) :
    ∃ t, tree = some t ∧ (t.isExtra = true ∧ hasRead a.1 ⟨goal, done⟩ = true ∨
      t.isExtra = false ∧ ∃ x done', done = x :: done' ∧ t.shape? = some x ∧
        hasRead a.1 ⟨goal, done'⟩ = true) := by
  have hlost : b.1 ≠ Table.lost := by
    intro hb
    rw [hb, hasRead] at hread
    split at hread
    · obtain rfl := hdone.resolve_left fun hne => hne ‹_›
      cases hread
    · rename_i hne
      rw [progress_lost, decide_eq_true_eq, Progress.mk.injEq] at hread
      exact hne hread.2.symm
  cases h with
  | lost state _ => exact absurd state hlost
  | @tree t moves _ =>
    refine ⟨t, rfl, ?_⟩
    cases moves with
    | aside extra stays => exact .inl ⟨extra, stays ▸ hread⟩
    | passed _ lost => exact absurd lost hlost
    | @read x shape counts next =>
      refine .inr ⟨counts, ?_⟩
      obtain ⟨g, done', hp, hr⟩ := progress_of_next next
      rw [hasRead] at hread
      split at hread
      · obtain rfl := hdone.resolve_left fun hne => hne ‹_›
        have hb : b.1 = start := by simpa [opens] using hread
        rw [hb, progress_start] at hp
        cases hp
      · rw [hp, decide_eq_true_eq, Progress.mk.injEq] at hread
        obtain ⟨rfl, rfl⟩ := hread
        exact ⟨x, done', rfl, shape, hr⟩

namespace Walk

variable {points : List Int} {g : Graph} {stops : Walk → Bool} {top : Nat} {w : Walk}

/-- A way that stops where the construct begins has passed what has been read of it. -/
theorem Way.reads (hg : g.Sound points) (htop : g.Open top) {goal : Option Nonterminal}
    {done : List Symbol} (hread : hasRead (g.vertex top).state ⟨goal, done⟩ = true)
    (hgoes : ∀ w, stops w = false → w.depth ≠ done.length ∨ goal = none)
    (h : Way g stops top w) : w.depth ≤ done.length ∧
      hasRead (g.vertex w.vertex).state ⟨goal, done.drop w.depth⟩ = true ∧
      Tree.shapes w.trees = (done.take w.depth).reverse.map some := by
  induction h with
  | top => exact ⟨Nat.zero_le _, hread, rfl⟩
  | @follow w l way goes link ih =>
    obtain ⟨hle, hr, hshapes⟩ := ih
    have hopen := (way.lies hg htop).1
    have hb := (hg.carries w.vertex hopen.not_ends l link).bridges
    have hdone : done.drop w.depth ≠ [] ∨ goal = none := by
      refine (hgoes w goes).imp_left fun hne hnil => ?_
      have := List.drop_eq_nil_iff.1 hnil
      omega
    obtain ⟨t, ht, ⟨hextra, hr'⟩ | ⟨hcounts, x, done', hx, hshape, hr'⟩⟩ := hb.read hr hdone
    · simp only [Walk.follow, ht, hextra, if_true]
      exact ⟨hle, hr', by rw [Tree.shapes_cons_extra hextra, hshapes]⟩
    · simp only [Walk.follow, ht, hcounts]
      have hlt : w.depth < done.length := by
        by_contra hlt
        rw [List.drop_eq_nil_of_le (Nat.le_of_not_lt hlt)] at hx
        cases hx
      have hdrop : done.drop (w.depth + 1) = done' := by
        rw [← List.drop_drop, hx]
        rfl
      have htake : done.take (w.depth + 1) = done.take w.depth ++ [x] := by
        rw [List.take_add, hx]
        rfl
      refine ⟨hlt, hdrop ▸ hr', ?_⟩
      rw [Tree.shapes_cons hcounts, hshape, hshapes, if_neg (by simp), htake, List.reverse_append]
      rfl

end Walk

end ScenarioSyntax
