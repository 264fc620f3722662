import ScenarioSyntax.Proofs.Repair.Links
import ScenarioSyntax.Proofs.Repair.Whole
import ScenarioSyntax.Repair.Ranking

/-!
A search is sound if its stacks are, if every branch that has not been halted can go on, if tokens
were read where they are looked at, and if the best tree stands for the text as a whole. Most steps
of the search only rearrange branches; a step that works on one branch leaves the others where they
are. A search must not come to an end without a tree: as long as there is none, it needs a branch
that can go on.
-/

namespace ScenarioSyntax

open Table

/-- The token was read at the position, for some state. -/
def Token.ReadAt (points : List Int) (p : Nat) (t : Lookahead) : Prop :=
  ∃ s, t = Token.read points s p

namespace Token.ReadAt

variable {points : List Int} {p : Nat} {t : Lookahead} {s u : StateId} {k : Terminal}

/-- A token that the state can use. -/
lemma shift (ht : ReadAt points p t) (hk : t.kind? = some k) (ha : action? s k = some (.shift u)) :
    (t.leaf.withExtra false).Moves s u ∧
      (t.leaf.withExtra false).Lies points p t.span.stop := by
  obtain ⟨st, rfl⟩ := ht
  have hcomment : k ≠ .comment := ne_comment_of_action ha (by simp)
  have hlies := Tree.lies_leaf hk (ne_endOfText_of_shift ha)
  have hleaf := (Token.honest_read points).leaf_eq st p k hk
  have hnext : next? s (.terminal k) = some u := by rw [next?, ha]
  rw [decide_eq_false hcomment, hleaf] at hlies
  rw [hleaf]
  exact ⟨.read rfl rfl hnext, hlies⟩

/-- A comment stands anywhere. -/
lemma extra (ht : ReadAt points p t) (hk : t.kind? = some .comment) :
    (t.leaf.withExtra true).Moves s s ∧ (t.leaf.withExtra true).Lies points p t.span.stop := by
  obtain ⟨st, rfl⟩ := ht
  have hlies := Tree.lies_leaf hk (by decide)
  have hleaf := (Token.honest_read points).leaf_eq st p .comment hk
  rw [hleaf] at hlies ⊢
  exact ⟨.aside rfl rfl, hlies⟩

/-- The end of the text comes on top of a stack at last. -/
lemma isLast_leaf (ht : ReadAt points p t) (hend : t.kind? = some .endOfText) :
    t.leaf.isLast = true ∧ t.leaf.isExtra = true := by
  obtain ⟨st, rfl⟩ := ht
  rw [(Token.honest_read points).leaf_eq st p _ hend]
  exact ⟨rfl, rfl⟩

end Token.ReadAt

namespace Branch

variable {points : List Int} {g g' : Graph} {b b' : Branch}

/-- Where the branch ends, and whether it goes on from there. -/
def core (b : Branch) : Nat × Status := (b.top, b.status)

structure Sound (points : List Int) (g : Graph) (b : Branch) : Prop where
  lt : b.top < g.size
  isOpen : b.isHalted = false → g.Open b.top
  readAt : ∀ t, b.paused? = some t → Token.ReadAt points (g.vertex b.top).pos t

lemma isActive_eq (h : b'.core = b.core) : b'.isActive = b.isActive := by
  rw [isActive, isActive, (Prod.mk.inj h).2]

lemma isHalted_eq (h : b'.core = b.core) : b'.isHalted = b.isHalted := by
  rw [isHalted, isHalted, (Prod.mk.inj h).2]

/-- A branch that has not been halted goes on, or has stopped at a token. -/
lemma isHalted_eq_false_iff :
    b.isHalted = false ↔ b.isActive = true ∨ ∃ t, b.paused? = some t := by
  unfold isHalted isActive paused?
  cases b.status <;> simp

lemma Sound.mono (h : b.Sound points g) (hg : g.Extends g') (hcore : b'.core = b.core) :
    b'.Sound points g' := by
  obtain ⟨htop, hstatus⟩ := Prod.mk.inj hcore
  refine ⟨?_, fun hb => ?_, fun t ht => ?_⟩
  · rw [htop]
    exact h.lt.trans_le hg.size_le
  · rw [isHalted, hstatus] at hb
    rw [htop]
    exact (h.isOpen hb).mono hg
  · rw [paused?, hstatus] at ht
    have hpos := congrArg Prod.snd (hg.place_eq b.top h.lt)
    rw [htop, show (g'.vertex b.top).pos = (g.vertex b.top).pos from hpos]
    exact h.readAt t ht

/-- A branch that has been halted need not be looked at. -/
lemma Sound.of_halted (htop : b.top < g.size) (hstatus : b.status = .halted) :
    b.Sound points g where
  lt := htop
  isOpen hb := by
    rw [isHalted, hstatus] at hb
    cases hb
  readAt t ht := by
    rw [paused?, hstatus] at ht
    cases ht

end Branch

namespace Search

variable {points : List Int} {src : Source} {r r' r'' : Search} {i j k : Nat}
  {a b : StateId × Nat}

def place (r : Search) (i : Nat) : StateId × Nat := (r.top i).place

/-- What the search knows apart from its branches. -/
def record (r : Search) : Option (Nat × Lookahead) × Option Tree × Nat :=
  (r.cache, r.best, r.accepted)

/-- There is a tree, or a branch that goes on. -/
def Goes (r : Search) : Prop := r.best.isSome = true ∨ ∃ k, r.isActive k = true

/-- There is a tree, or a branch that has not been halted. -/
def Lives (r : Search) : Prop := r.best.isSome = true ∨ ∃ k, (r.branch k).isHalted = false

/-- The branch goes on from the place. -/
structure Stands (r : Search) (i : Nat) (a : StateId × Nat) : Prop where
  active : r.isActive i = true
  place_eq : r.place i = a

lemma Stands.state_eq {s : StateId} {p : Nat} (h : r.Stands i (s, p)) : r.state i = s :=
  congrArg Prod.fst h.place_eq

lemma Stands.pos_eq {s : StateId} {p : Nat} (h : r.Stands i (s, p)) : r.pos i = p :=
  congrArg Prod.snd h.place_eq

structure Sound (points : List Int) (r : Search) : Prop where
  graph : r.graph.Sound points
  branch : ∀ i, (r.branch i).Sound points r.graph
  cache : ∀ p t, r.cache = some (p, t) → Token.ReadAt points p t
  best : ∀ t, r.best = some t → t.Whole points
  offered : r.best = none → r.accepted = 0

/-- The search goes on soundly, and leaves these branches where they are. -/
structure Keeps (points : List Int) (P : Nat → Prop) (r r' : Search) : Prop where
  sound : r'.Sound points
  grows : r.graph.Extends r'.graph
  core_eq : ∀ k, P k → (r'.branch k).core = (r.branch k).core

namespace Keeps

variable {P Q : Nat → Prop}

lemma refl (h : r.Sound points) : Keeps points P r r := ⟨h, .refl _, fun _ _ => rfl⟩

lemma trans (h : Keeps points P r r') (h' : Keeps points P r' r'') : Keeps points P r r'' where
  sound := h'.sound
  grows := h.grows.trans h'.grows
  core_eq k hk := (h'.core_eq k hk).trans (h.core_eq k hk)

lemma imp (h : Keeps points P r r') (hQ : ∀ k, Q k → P k) : Keeps points Q r r' :=
  ⟨h.sound, h.grows, fun k hk => h.core_eq k (hQ k hk)⟩

end Keeps

lemma branch_of_le (h : r.count ≤ i) : r.branch i = ⟨0, .halted, 0, none⟩ :=
  List.getD_eq_default _ _ h

lemma lt_count_of_isActive (h : r.isActive i = true) : i < r.count := by
  by_contra hi
  rw [isActive, branch_of_le (Nat.le_of_not_lt hi)] at h
  cases h

lemma lt_count_of_isHalted (h : (r.branch i).isHalted = false) : i < r.count := by
  by_contra hi
  rw [branch_of_le (Nat.le_of_not_lt hi)] at h
  cases h

lemma Goes.lives (h : r.Goes) : r.Lives :=
  h.imp_right fun ⟨k, hk⟩ => ⟨k, Branch.isHalted_eq_false_iff.2 (.inl hk)⟩

lemma Sound.isOpen (h : r.Sound points) (hi : r.isActive i = true) :
    r.graph.Open (r.branch i).top :=
  (h.branch i).isOpen (Branch.isHalted_eq_false_iff.2 (.inl hi))

/-- Where a branch has stayed, or moved with its stack. -/
lemma Stands.of_core (h : r.Stands i a) (hr : r.Sound points) (hg : r.graph.Extends r'.graph)
    (hcore : (r'.branch j).core = (r.branch i).core) : r'.Stands j a := by
  obtain ⟨htop, -⟩ := Prod.mk.inj hcore
  refine ⟨(Branch.isActive_eq hcore).trans h.active, ?_⟩
  rw [place, top, htop, hg.place_eq _ (hr.branch i).lt]
  exact h.place_eq

lemma Keeps.stands {P : Nat → Prop} (h : Keeps points P r r') (hr : r.Sound points) (hi : P i)
    (hs : r.Stands i a) : r'.Stands i a :=
  hs.of_core hr h.grows (h.core_eq i hi)

/-- The branches may have been rearranged, and stacks merged. -/
lemma Sound.of_branches (h : r.Sound points) (graph : r'.graph.Sound points)
    (grows : r.graph.Extends r'.graph) (record : r'.record = r.record)
    (branch : ∀ k, (∃ j, (r'.branch k).core = (r.branch j).core) ∨
      (r'.branch k).Sound points r'.graph) : r'.Sound points where
  graph := graph
  branch k := by
    rcases branch k with ⟨j, hj⟩ | hk
    · exact (h.branch j).mono grows hj
    · exact hk
  cache := by
    rw [show r'.cache = r.cache from congrArg (·.1) record]
    exact h.cache
  best := by
    rw [show r'.best = r.best from congrArg (·.2.1) record]
    exact h.best
  offered := by
    rw [show r'.best = r.best from congrArg (·.2.1) record,
      show r'.accepted = r.accepted from congrArg (·.2.2) record]
    exact h.offered

/-! ### Rearranging branches -/

section Rearrange

variable (r) (i j k : Nat)

lemma branch_append (b : Branch) : branch { r with branches := r.branches ++ [b] } k =
    if k = r.count then b else r.branch k := by
  simp only [branch, count, List.getD_eq_getElem?_getD, List.getElem?_append]
  split <;> split
  · omega
  · rfl
  · rename_i hk hcount
    rw [hcount, Nat.sub_self]
    rfl
  · rename_i hk hcount
    rw [List.getElem?_eq_none (by simp only [List.length_singleton]; omega),
      List.getElem?_eq_none (by omega)]

lemma branch_remove : (r.remove j).branch k = r.branch (if k < j then k else k + 1) := by
  simp only [branch, remove, List.getD_eq_getElem?_getD, List.getElem?_eraseIdx]
  split <;> rfl

/-- When a branch goes, one of those is left that have what it lacks. -/
lemma exists_branch_remove {P : Branch → Prop} (hi : ¬ P (r.branch i))
    (h : ∃ k, P (r.branch k)) : ∃ k, P ((r.remove i).branch k) := by
  obtain ⟨k, hk⟩ := h
  have hki : k ≠ i := fun hki => hi (hki ▸ hk)
  refine ⟨if k < i then k else k - 1, ?_⟩
  rw [branch_remove]
  by_cases hlt : k < i
  · rwa [if_pos hlt, if_pos hlt]
  · rwa [if_neg hlt, if_neg (by omega), Nat.sub_add_cancel (by omega)]

lemma branch_take (n : Nat) : branch { r with branches := r.branches.take n } k =
    if k < n then r.branch k else ⟨0, .halted, 0, none⟩ := by
  simp only [branch, List.getD_eq_getElem?_getD, List.getElem?_take]
  split <;> rfl

lemma branch_modify (f : Branch → Branch) : (r.modify i f).branch k =
    if k = i ∧ i < r.count then f (r.branch i) else r.branch k := by
  simp only [branch, count, modify, List.getD_eq_getElem?_getD, List.getElem?_modify]
  by_cases hki : k = i
  · subst hki
    by_cases hk : k < r.branches.length
    · simp [hk]
    · simp [hk]
  · simp [hki, Ne.symm hki]

lemma branch_modify_of_ne (f : Branch → Branch) (hk : k ≠ i) :
    (r.modify i f).branch k = r.branch k := by
  rw [branch_modify, if_neg fun h => hk h.1]

lemma branch_modify_self (f : Branch → Branch) (hi : i < r.count) :
    (r.modify i f).branch i = f (r.branch i) := by
  rw [branch_modify, if_pos ⟨rfl, hi⟩]

lemma branch_set (b : Branch) : branch { r with branches := r.branches.set j b } k =
    if k = j ∧ j < r.count then b else r.branch k := by
  simp only [branch, count, List.getD_eq_getElem?_getD, List.getElem?_set]
  by_cases hjk : k = j
  · subst hjk
    by_cases hk : k < r.branches.length
    · simp [hk]
    · simp [hk]
  · simp [hjk, Ne.symm hjk]

lemma branch_swap : (r.swap i j).branch k = if k = j ∧ j < r.count then r.branch i
    else if k = i ∧ i < r.count then r.branch j else r.branch k := by
  have hset := branch_set { r with branches := r.branches.set i (r.branch j) } j k (r.branch i)
  rw [count, List.length_set] at hset
  rw [swap, hset, branch_set]
  rfl

/-- A change that leaves a branch where it is. -/
lemma core_modify (f : Branch → Branch) (hf : (f (r.branch i)).core = (r.branch i).core) :
    ((r.modify i f).branch k).core = (r.branch k).core := by
  rw [branch_modify]
  split
  · rename_i h
    rw [hf, h.1]
  · rfl

end Rearrange

namespace Sound

lemma rearrange (h : r.Sound points) (graph : r'.graph = r.graph)
    (record : r'.record = r.record) (branch : ∀ k, ∃ j, (r'.branch k).core = (r.branch j).core) :
    r'.Sound points :=
  h.of_branches (graph ▸ h.graph) (graph ▸ .refl _) record fun k => .inl (branch k)

lemma remove (h : r.Sound points) (j : Nat) : (r.remove j).Sound points :=
  h.rearrange rfl rfl fun k => ⟨_, congrArg Branch.core (branch_remove r j k)⟩

lemma take (h : r.Sound points) (n : Nat) :
    Sound points { r with branches := r.branches.take n } :=
  h.rearrange rfl rfl fun k => by
    rw [branch_take]
    split
    · exact ⟨k, rfl⟩
    · exact ⟨r.count, congrArg Branch.core (List.getD_eq_default _ _ le_rfl).symm⟩

lemma modify (h : r.Sound points) {f : Branch → Branch}
    (hf : (f (r.branch i)).core = (r.branch i).core) :
    Keeps points (fun _ => True) r (r.modify i f) where
  sound := h.rearrange rfl rfl fun k => ⟨k, core_modify r i k f hf⟩
  grows := .refl _
  core_eq k _ := core_modify r i k f hf

lemma settle (h : r.Sound points) (i : Nat) : Keeps points (fun _ => True) r (r.settle i) :=
  h.modify (f := fun b => { b with weightAtError := min b.weightAtError (r.top i).weight }) rfl

lemma swap (h : r.Sound points) (i j : Nat) : (r.swap i j).Sound points :=
  h.rearrange rfl rfl fun k => by
    rw [branch_swap]
    split
    · exact ⟨i, rfl⟩
    split
    · exact ⟨j, rfl⟩
    · exact ⟨k, rfl⟩

/-- A branch is given up. -/
lemma halt (h : r.Sound points) (i : Nat) : Keeps points (· ≠ i) r (r.halt i) where
  sound := by
    refine h.of_branches h.graph (.refl _) rfl fun k => ?_
    rw [Search.halt, branch_modify]
    split
    · exact .inr (.of_halted (h.branch i).lt rfl)
    · exact .inl ⟨k, rfl⟩
  grows := .refl _
  core_eq k hk := congrArg Branch.core (branch_modify_of_ne r i k _ hk)

/-- A branch stops at a token that was read where it stands. -/
lemma pause (h : r.Sound points) (hi : r.isActive i = true) {t : Lookahead}
    (ht : Token.ReadAt points (r.pos i) t) : (r.pause i t).Sound points := by
  refine h.of_branches h.graph (.refl _) rfl fun k => ?_
  rw [Search.pause, branch_modify]
  split
  · refine .inr ⟨(h.branch i).lt, fun _ => h.isOpen hi, fun t' ht' => ?_⟩
    obtain rfl : t = t' := Option.some.inj ht'
    exact ht
  · exact .inl ⟨k, rfl⟩

/-- A branch that has not been halted may go on. -/
lemma resume (h : r.Sound points) (hi : (r.branch i).isHalted = false) :
    (r.resume i).Sound points ∧ (r.resume i).Stands i (r.place i) := by
  have hb := branch_modify_self r i ({ · with status := .active }) (lt_count_of_isHalted hi)
  have hopen := (h.branch i).isOpen hi
  refine ⟨?_, ?_, ?_⟩
  · refine h.of_branches h.graph (.refl _) rfl fun k => ?_
    rw [Search.resume, branch_modify]
    split
    · exact .inr ⟨(h.branch i).lt, fun _ => hopen, fun t' ht' => by cases ht'⟩
    · exact .inl ⟨k, rfl⟩
  · rw [isActive, Search.resume, hb]
    rfl
  · rw [place, top, Search.resume, hb]
    rfl

end Sound

/-! ### Growing stacks -/

section Push

variable (src r i) (tree : Option Tree) (s : StateId)

lemma graph_push : (r.push src i tree s).graph = r.graph.put src (r.branch i).top tree s := by
  rw [push]
  split <;> rfl

lemma core_push : ((r.push src i tree s).branch k).core =
    if k = i ∧ i < r.count then (r.graph.size, (r.branch i).status) else (r.branch k).core := by
  rw [push]
  split <;>
  · rw [branch_modify]
    split
    · rename_i h
      exact (if_pos h).symm
    · rename_i h
      exact (if_neg h).symm

lemma core_push_of_ne (hk : k ≠ i) :
    ((r.push src i tree s).branch k).core = (r.branch k).core := by
  rw [core_push, if_neg fun h => hk h.1]

lemma count_push : (r.push src i tree s).count = r.count := by
  rw [push]
  split <;> exact List.length_modify ..

lemma record_push : (r.push src i tree s).record = r.record := by
  rw [push]
  split <;> rfl

lemma record_pushAll (ts : List Tree) : (r.pushAll src i ts s).record = r.record := by
  induction ts generalizing r with
  | nil => rfl
  | cons t ts ih => exact (ih (r.push src i (some t) s)).trans (record_push ..)

end Push

/-- One branch has moved, and the others stay where they are. -/
structure Moves (points : List Int) (i : Nat) (b : StateId × Nat) (r r' : Search) : Prop where
  keeps : Keeps points (· ≠ i) r r'
  count_eq : r'.count = r.count
  stands : r'.Stands i b

namespace Moves

lemma refl (h : r.Sound points) (hi : r.Stands i a) : Moves points i a r r := ⟨.refl h, rfl, hi⟩

lemma trans (h : Moves points i a r r') (h' : Moves points i b r' r'') : Moves points i b r r'' :=
  ⟨h.keeps.trans h'.keeps, h'.count_eq.trans h.count_eq, h'.stands⟩

end Moves

/-- **A branch takes a tree**, or loses its way. -/
theorem Stands.push (hi : r.Stands i a) (h : r.Sound src.points) {tree : Option Tree}
    {s : StateId} {q : Nat} (hb : Bridges src.points a (s, q) tree) :
    Moves src.points i (s, q) r (r.push src i tree s) := by
  have hlt := lt_count_of_isActive hi.active
  have hopen := h.isOpen hi.active
  rw [← hi.place_eq] at hb
  obtain ⟨hgraph, hnew, hplace⟩ := h.graph.put hopen hb
  have hgrows := r.graph.extends_put src (r.branch i).top tree s
  rw [← graph_push] at hgraph hnew hplace hgrows
  have hcore := core_push (k := i) src r i tree s
  rw [if_pos ⟨rfl, hlt⟩] at hcore
  obtain ⟨htop, hstatus⟩ := Prod.mk.inj hcore
  have hactive : (r.push src i tree s).isActive i = true := by
    rw [isActive, Branch.isActive, hstatus]
    exact hi.active
  refine ⟨⟨?_, hgrows, fun k hk => core_push_of_ne src r i tree s hk⟩, count_push .., hactive, ?_⟩
  · refine h.of_branches hgraph hgrows (record_push ..) fun k => ?_
    by_cases hk : k = i
    · subst hk
      refine .inr ⟨?_, fun _ => ?_, fun t ht => ?_⟩
      · rw [htop]
        exact hnew.lt
      · rw [htop]
        exact hnew
      · rw [isActive, Branch.isActive] at hactive
        rw [Branch.paused?] at ht
        split at ht
        · rename_i hs
          rw [hs] at hactive
          cases hactive
        · cases ht
    · exact .inl ⟨k, core_push_of_ne src r i tree s hk⟩
  · rw [place, top, htop]
    exact hplace

lemma Stands.take {u v : StateId} {p q : Nat} {t : Tree} (hi : r.Stands i (u, p))
    (h : r.Sound src.points) (hmoves : t.Moves u v) (hlies : t.Lies src.points p q) :
    Moves src.points i (v, q) r (r.push src i (some t) v) :=
  hi.push (q := q) h (.tree hmoves hlies)

/-- Extra trees stay in the same state. -/
theorem Stands.pushAll {s : StateId} {p q : Nat} {ts : List Tree} (hi : r.Stands i (s, p))
    (h : r.Sound src.points) (hextra : ∀ t ∈ ts, t.isExtra = true)
    (hts : Tree.LiesAll src.points ts p q) :
    Moves src.points i (s, q) r (r.pushAll src i ts s) := by
  induction ts generalizing r p with
  | nil =>
    obtain rfl : p = q := hts
    exact .refl h hi
  | cons t ts ih =>
    obtain ⟨m, ht, hts⟩ := hts
    rw [List.forall_mem_cons] at hextra
    have hstep := hi.take h (.aside hextra.1 rfl) ht
    exact hstep.trans (ih hstep.stands hstep.keeps.sound hextra.2 hts)

/-- **A branch ends**, with its last trees on top. -/
theorem Sound.finish (h : r.Sound src.points) (hi : i < r.count) {last : List Tree}
    (hlast : ∀ t ∈ last, t.isLast = true) (s : StateId) :
    ((r.pushAll src i last s).halt i).Sound src.points := by
  -- only the branch itself is unsound, until it is halted
  suffices hrun : ∀ r : Search, i < r.count → (r.halt i).Sound src.points →
      ((r.pushAll src i last s).halt i).Sound src.points from hrun r hi (h.halt i).sound
  intro r hi h
  induction last generalizing r with
  | nil => exact h
  | cons t last ih =>
    rw [List.forall_mem_cons] at hlast
    have hcount := count_push src r i (some t) s
    refine ih hlast.2 (r.push src i (some t) s) (hcount.symm ▸ hi) ?_
    have hgraph : (r.push src i (some t) s).graph.Sound src.points := by
      rw [graph_push]
      have hlt := (h.branch i).lt
      rw [Search.halt, branch_modify_self _ _ _ hi] at hlt
      exact Graph.Sound.put_last h.graph hlt hlast.1
    have hgrows : r.graph.Extends (r.push src i (some t) s).graph := by
      rw [graph_push]
      exact Graph.extends_put ..
    refine h.of_branches hgraph hgrows (record_push ..) fun k => ?_
    by_cases hk : k = i
    · subst hk
      refine .inr (.of_halted ?_ ?_)
      · rw [Search.halt, branch_modify_self _ _ _ (hcount.symm ▸ hi)]
        have hcore := core_push (k := k) src r k (some t) s
        rw [if_pos ⟨rfl, hi⟩] at hcore
        refine (Prod.mk.inj hcore).1.trans_lt ?_
        show r.graph.size < (r.push src k (some t) s).graph.size
        rw [graph_push, Graph.size_put]
        exact Nat.lt_succ_self _
      · rw [Search.halt, branch_modify_self _ _ _ (hcount.symm ▸ hi)]
    · refine .inl ⟨k, ?_⟩
      rw [Search.halt, Search.halt, branch_modify_of_ne _ i k _ hk, branch_modify_of_ne _ i k _ hk]
      exact core_push_of_ne src r i (some t) s hk

/-! ### Merging -/

/-- A branch that gives way to another one: the later ones move up. -/
structure Drops (points : List Int) (j : Nat) (r r' : Search) : Prop where
  sound : r'.Sound points
  grows : r.graph.Extends r'.graph
  record_eq : r'.record = r.record
  count_eq : r'.count = r.count - 1
  core_eq : ∀ k, (r'.branch k).core = (r.branch (if k < j then k else k + 1)).core

lemma Sound.drops (h : r.Sound points) (hj : j < r.count) : Drops points j r (r.remove j) where
  sound := h.remove j
  grows := .refl _
  record_eq := rfl
  count_eq := List.length_eraseIdx_of_lt hj
  core_eq k := congrArg Branch.core (branch_remove r j k)

lemma Drops.stands (h : Drops points j r r') (hr : r.Sound points) (hk : k < j)
    (hs : r.Stands k a) : r'.Stands k a :=
  hs.of_core hr h.grows (by rw [h.core_eq, if_pos hk])

lemma Drops.stands_above (h : Drops points j r r') (hr : r.Sound points) (hk : j ≤ k)
    (hs : r.Stands (k + 1) a) : r'.Stands k a :=
  hs.of_core hr h.grows (by rw [h.core_eq, if_neg (Nat.not_lt.2 hk)])

lemma Drops.keeps (h : Drops points j r r') : Keeps points (· < j) r r' :=
  ⟨h.sound, h.grows, fun k hk => by rw [h.core_eq, if_pos hk]⟩

/-- **A merge** lets one of two branches in the same place go. -/
theorem Sound.merge (h : r.Sound src.points) (hm : r.merge? src i j = some r') :
    Drops src.points j r r' := by
  unfold merge? at hm
  split at hm
  · rename_i hcan
    simp only [canMerge, Bool.and_eq_true] at hcan
    obtain ⟨⟨hi, hj⟩, hmeets⟩ := hcan
    obtain ⟨hgraph, hgrows⟩ :
        (r.graph.join src (r.branch i).top (r.branch j).top).Sound src.points ∧
          r.graph.Extends (r.graph.join src (r.branch i).top (r.branch j).top) :=
      h.graph.join (h.isOpen hi) (h.isOpen hj) hmeets
    have hjoined : Keeps src.points (fun _ => True) r
        { r with graph := r.graph.join src (r.branch i).top (r.branch j).top } :=
      ⟨h.of_branches hgraph hgrows rfl fun k => .inl ⟨k, rfl⟩, hgrows, fun _ _ => rfl⟩
    have drop : ∀ {r₂ : Search}, Keeps src.points (fun _ => True) r r₂ → r₂.count = r.count →
        r₂.record = r.record → Drops src.points j r (r₂.remove j) := by
      intro r₂ hk hcount hrecord
      have hdrops := hk.sound.drops (hcount ▸ lt_count_of_isActive hj)
      exact ⟨hdrops.sound, hk.grows.trans hdrops.grows, hrecord, hcount ▸ hdrops.count_eq,
        fun k => (hdrops.core_eq k).trans (hk.core_eq _ trivial)⟩
    obtain rfl := Option.some.inj hm
    split
    · exact drop (hjoined.trans (hjoined.sound.modify rfl)) (List.length_modify ..) rfl
    · exact drop hjoined rfl rfl
  · cases hm

/-- A branch moves to the place of an earlier one. -/
lemma Sound.replace (h : r.Sound points) (hji : j < i) (hi : i < r.count) :
    (r.replace i j).Sound points ∧ (r.replace i j).graph = r.graph ∧
      (r.replace i j).count = r.count - 1 ∧ ∀ k, ((r.replace i j).branch k).core =
        (r.branch (if k = j then i else if k < i then k else k + 1)).core := by
  obtain ⟨b, hb, hreplace⟩ : ∃ b : Branch, b.core = (r.branch i).core ∧
      r.replace i j = Search.remove { r with branches := r.branches.set j b } i := by
    rw [Search.replace, if_neg (Nat.ne_of_gt hji)]
    exact ⟨{ r.branch i with
      landmarks := (r.branch i).landmarks.or (r.branch j).landmarks }, rfl, rfl⟩
  have hcore : ∀ k, ((r.replace i j).branch k).core =
      (r.branch (if k = j then i else if k < i then k else k + 1)).core := by
    intro k
    rw [hreplace, branch_remove, branch_set]
    by_cases hk : k = j
    · rw [if_pos hk, hk, if_pos hji, if_pos ⟨rfl, hji.trans hi⟩, hb]
    · rw [if_neg hk, if_neg]
      rintro ⟨heq, -⟩
      split at heq
      · exact hk heq
      · omega
  refine ⟨h.rearrange ?_ ?_ fun k => ⟨_, hcore k⟩, ?_, ?_, hcore⟩ <;> rw [hreplace]
  case refine_4 =>
    have hlength : (r.branches.set j b).length = r.count := List.length_set
    exact hlength ▸ List.length_eraseIdx_of_lt (hlength.symm ▸ hi)
  all_goals rfl

lemma Stands.replace (hs : r.Stands i a) (h : r.Sound points) (hji : j < i) :
    (r.replace i j).Sound points ∧ (r.replace i j).Stands j a := by
  obtain ⟨hsound, hgraph, -, hcore⟩ := h.replace hji (lt_count_of_isActive hs.active)
  refine ⟨hsound, hs.of_core h ?_ (by rw [hcore, if_pos rfl])⟩
  rw [hgraph]
  exact .refl _

end Search

end ScenarioSyntax
