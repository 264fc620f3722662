import Mathlib.Data.List.Basic
import ScenarioSyntax.Proofs.Repair.Branches
import ScenarioSyntax.Proofs.Repair.Ways

/-!
Trees are taken off a stack by forking the branch at the vertices below. The new branches come
behind the others, one for each vertex, with the trees above it by every way.
-/

namespace ScenarioSyntax

open Grammar Table

namespace Walk

/-- A group has the trees above its vertex. -/
lemma exists_of_mem_group (ws : List Walk) : ∀ g ∈ group ws,
    g.2 ≠ [] ∧ ∀ ts ∈ g.2, ∃ w ∈ ws, w.vertex = g.1 ∧ w.trees = ts := by
  rw [group]
  refine List.foldlRecOn ws _ (motive := fun gs : List (Nat × List (List Tree)) => ∀ g ∈ gs,
    g.2 ≠ [] ∧ ∀ ts ∈ g.2, ∃ w ∈ ws, w.vertex = g.1 ∧ w.trees = ts) (List.forall_mem_nil _) ?_
  intro gs hgs w hw
  split
  · intro g hg
    obtain ⟨g, hmem, rfl⟩ := List.mem_map.1 hg
    obtain ⟨hne, hall⟩ := hgs g hmem
    split
    · rename_i hvertex
      refine ⟨by simp, List.forall_mem_append.2 ⟨hall, List.forall_mem_singleton.2 ?_⟩⟩
      exact ⟨w, hw, hvertex.symm, rfl⟩
    · exact ⟨hne, hall⟩
  · refine List.forall_mem_append.2 ⟨hgs, List.forall_mem_singleton.2 ⟨by simp, ?_⟩⟩
    exact List.forall_mem_singleton.2 ⟨w, hw, rfl, rfl⟩

lemma group_ne_nil {ws : List Walk} (h : ws ≠ []) : group ws ≠ [] := by
  obtain ⟨w, ws, rfl⟩ := List.exists_cons_of_ne_nil h
  rw [group, List.foldl_cons]
  refine List.foldlRecOn ws _ (motive := (· ≠ [])) (by simp) fun gs hgs w _ => ?_
  split <;> simp [hgs]

end Walk

namespace Search

variable {points : List Int} {src : Source} {r r' r'' : Search} {i k : Nat} {a : StateId × Nat}

/-- The groups belong to the branches from `b` on, of which each has a number that is higher by
`removed`. -/
def Lined (P : Nat → List (List Tree) → Prop) : Nat → Nat → List (Nat × List (List Tree)) → Prop
  | _, _, [] => True
  | b, removed, (j, ways) :: rest => j = b + removed ∧ P b ways ∧ Lined P (b + 1) removed rest

namespace Lined

variable {P Q : Nat → List (List Tree) → Prop} {b removed : Nat}
  {groups : List (Nat × List (List Tree))}

lemma imp (h : Lined P b removed groups) (hPQ : ∀ k ≥ b, ∀ ways, P k ways → Q k ways) :
    Lined Q b removed groups := by
  induction groups generalizing b with
  | nil => trivial
  | cons g groups ih =>
    obtain ⟨hj, hP, hrest⟩ := h
    exact ⟨hj, hPQ b le_rfl _ hP, ih hrest fun k hk => hPQ k (Nat.le_of_succ_le hk)⟩

/-- The branches have moved up by one place. -/
lemma shift (h : Lined P (b + 1) removed groups)
    (hPQ : ∀ k ≥ b, ∀ ways, P (k + 1) ways → Q k ways) : Lined Q b (removed + 1) groups := by
  induction groups generalizing b with
  | nil => trivial
  | cons g groups ih =>
    obtain ⟨hj, hP, hrest⟩ := h
    exact ⟨by omega, hPQ b le_rfl _ hP, ih hrest fun k hk => hPQ k (Nat.le_of_succ_le hk)⟩

lemma exists_of_mem (h : Lined P b removed groups) {g : Nat × List (List Tree)}
    (hg : g ∈ groups) : ∃ k ≥ b, P k g.2 := by
  induction groups generalizing b with
  | nil => cases hg
  | cons g' groups ih =>
    obtain ⟨-, hP, hrest⟩ := h
    rcases List.mem_cons.1 hg with rfl | hg
    · exact ⟨b, le_rfl, hP⟩
    · obtain ⟨k, hk, hPk⟩ := ih hrest hg
      exact ⟨k, Nat.le_of_succ_le hk, hPk⟩

end Lined

/-- The branch goes on below some trees, which lead up to the position `q`; and its state goes with
them. -/
structure Held (points : List Int) (q : Nat) (E : StateId → List Tree → Prop) (r : Search) (k : Nat)
    (ways : List (List Tree)) : Prop where
  active : r.isActive k = true
  ne : ways ≠ []
  lies : ∀ ts ∈ ways, Tree.LiesAll points ts (r.place k).2 q ∧ E (r.place k).1 ts

lemma Held.of_stands {q : Nat} {E : StateId → List Tree → Prop} {ways : List (List Tree)}
    (h : Held points q E r i ways) (hs : r'.Stands k (r.place i)) : Held points q E r' k ways where
  active := hs.active
  ne := h.ne
  lies := by
    rw [hs.place_eq]
    exact h.lies

lemma Held.lies_headD {q : Nat} {E : StateId → List Tree → Prop} {ways : List (List Tree)}
    (h : Held points q E r i ways) : Tree.LiesAll points (ways.headD []) (r.place i).2 q := by
  cases ways with
  | nil => exact absurd rfl h.ne
  | cons ts ways => exact (h.lies ts List.mem_cons_self).1

lemma Held.stands {q : Nat} {E : StateId → List Tree → Prop} {ways : List (List Tree)}
    (h : Held points q E r i ways) : r.Stands i (r.place i) := ⟨h.active, rfl⟩

/-- New branches have come behind the others. -/
structure Forks (points : List Int) (q : Nat) (E : StateId → List Tree → Prop) (r r' : Search)
    (groups : List (Nat × List (List Tree))) : Prop where
  keeps : Keeps points (· < r.count) r r'
  count_eq : r'.count = r.count + groups.length
  held : Lined (Held points q E r') r.count 0 groups

lemma Sound.fork (h : r.Sound points) (i : Nat) {v : Nat} (hv : r.graph.Open v) :
    Keeps points (· < r.count) r (r.fork i v) ∧ (r.fork i v).count = r.count + 1 ∧
      (r.fork i v).Stands r.count (r.graph.vertex v).place := by
  have hbranch : ∀ k, (r.fork i v).branch k =
      if k = r.count then ⟨v, .active, (r.branch i).weightAtError, none⟩ else r.branch k :=
    fun k => branch_append r k _
  have hnew : (r.fork i v).branch r.count = ⟨v, .active, (r.branch i).weightAtError, none⟩ := by
    rw [hbranch, if_pos rfl]
  refine ⟨⟨?_, .refl _, fun k hk => ?_⟩, List.length_append, ⟨?_, ?_⟩⟩
  · refine h.of_branches h.graph (.refl _) rfl fun k => ?_
    rw [hbranch]
    split
    · exact .inr ⟨hv.lt, fun _ => hv, fun t ht => by cases ht⟩
    · exact .inl ⟨k, rfl⟩
  · rw [hbranch, if_neg (Nat.ne_of_lt hk)]
  · rw [isActive, hnew]
    rfl
  · rw [place, top, hnew]
    rfl

/-- One branch is forked off after the other, and each group gets the number of its branch. -/
lemma Sound.foldlFork {f : Search × List (Nat × List (List Tree)) → Nat × List (List Tree) →
      Search × List (Nat × List (List Tree))}
    (hf : ∀ r out v ts, f (r, out) (v, ts) = (r.fork i v, out ++ [(r.count, ts)]))
    (h : r'.Sound points) {q : Nat} {E : StateId → List Tree → Prop} (hgraph : r'.graph = r.graph)
    {gs : List (Nat × List (List Tree))} (hgs : ∀ g ∈ gs, g.2 ≠ [] ∧ r.graph.Open g.1 ∧
      ∀ ts ∈ g.2, Tree.LiesAll points ts (r.graph.vertex g.1).pos q ∧
        E (r.graph.vertex g.1).state ts) (out : List (Nat × List (List Tree))) :
    ∃ groups, (gs.foldl f (r', out)).2 = out ++ groups ∧ groups.length = gs.length ∧
      Forks points q E r' (gs.foldl f (r', out)).1 groups := by
  induction gs generalizing r' out with
  | nil => exact ⟨[], (List.append_nil _).symm, rfl, .refl h, rfl, trivial⟩
  | cons g gs ih =>
    obtain ⟨v, ways⟩ := g
    obtain ⟨⟨hne, hopen, hlies⟩, hgs⟩ := List.forall_mem_cons.1 hgs
    obtain ⟨hkeeps, hcount, hstands⟩ := h.fork i (hgraph ▸ hopen)
    obtain ⟨groups, hout, hlength, hforks⟩ :=
      ih hkeeps.sound hgraph hgs (out ++ [(r'.count, ways)])
    rw [List.foldl_cons, hf]
    refine ⟨(r'.count, ways) :: groups, ?_, by simp [hlength], ?_, ?_, rfl, ?_, ?_⟩
    · rw [hout, List.append_assoc]
      rfl
    · exact hkeeps.trans (hforks.keeps.imp fun k hk => by omega)
    · rw [hforks.count_eq, hcount, List.length_cons]
      omega
    · have hs := hforks.keeps.stands hkeeps.sound (by omega) hstands
      refine ⟨hs.active, hne, ?_⟩
      rw [hs.place_eq, hgraph]
      exact hlies
    · have := hforks.held
      rwa [hcount] at this

/-- **Forking** at all vertices that some ways lead to. -/
theorem Sound.forkAll (h : r.Sound points) (i : Nat) {ws : List Walk} {q : Nat}
    {E : StateId → List Tree → Prop} (hws : ∀ w ∈ ws, r.graph.Open w.vertex ∧
      Tree.LiesAll points w.trees (r.graph.vertex w.vertex).pos q ∧
      E (r.graph.vertex w.vertex).state w.trees) :
    Forks points q E r (r.forkAll i ws).1 (r.forkAll i ws).2 ∧
      (ws ≠ [] → (r.forkAll i ws).2 ≠ []) := by
  have hgroups : ∀ g ∈ Walk.group ws, g.2 ≠ [] ∧ r.graph.Open g.1 ∧ ∀ ts ∈ g.2,
      Tree.LiesAll points ts (r.graph.vertex g.1).pos q ∧ E (r.graph.vertex g.1).state ts := by
    intro g hg
    obtain ⟨hne, hall⟩ := Walk.exists_of_mem_group ws g hg
    obtain ⟨ts, hts⟩ := List.exists_mem_of_ne_nil _ hne
    obtain ⟨w, hw, hvertex, -⟩ := hall ts hts
    refine ⟨hne, hvertex ▸ (hws w hw).1, fun ts hts => ?_⟩
    obtain ⟨w, hw, hvertex, rfl⟩ := hall ts hts
    exact hvertex ▸ (hws w hw).2
  suffices hrun : ∀ f, (∀ r out v ts, f (r, out) (v, ts) = (r.fork i v, out ++ [(r.count, ts)])) →
      Forks points q E r ((Walk.group ws).foldl f (r, [])).1
        ((Walk.group ws).foldl f (r, [])).2 ∧
      (ws ≠ [] → ((Walk.group ws).foldl f (r, [])).2 ≠ []) from hrun _ fun _ _ _ _ => rfl
  intro f hf
  obtain ⟨groups, hout, hlength, hforks⟩ := h.foldlFork hf rfl hgroups []
  rw [hout, List.nil_append]
  refine ⟨hforks, fun hne hnil => Walk.group_ne_nil hne ?_⟩
  rw [hnil] at hlength
  exact List.eq_nil_of_length_eq_zero hlength.symm

/-! ### Taking trees off -/

lemma Stands.open_top (hi : r.Stands i a) (h : r.Sound points) :
    r.graph.Open (r.branch i).top ∧ (r.graph.vertex (r.branch i).top).place = a :=
  ⟨h.isOpen hi.active, hi.place_eq⟩

theorem Sound.pop (h : r.Sound points) (hi : r.Stands i a) (n : Nat) :
    Forks points a.2 (fun _ _ => True) r (r.pop i n).1 (r.pop i n).2 := by
  obtain ⟨hopen, rfl⟩ := hi.open_top h
  refine (h.forkAll i fun w hw => ?_).1
  obtain ⟨hbelow, hlies⟩ := (Walk.way_of_mem_ofDepth hw).1.lies h.graph hopen
  exact ⟨hbelow, hlies, trivial⟩

/-- What has been read of a construct is taken off; below it the construct begins. -/
theorem Sound.pop_construct (h : r.Sound points) (hi : r.Stands i a) {n : Nonterminal}
    {done : List Symbol} (hread : hasRead a.1 ⟨some n, done⟩ = true) :
    Forks points a.2 (fun s ts => opens s (some n) = true ∧
      Tree.shapes ts = done.reverse.map some) r
      (r.pop i done.length).1 (r.pop i done.length).2 := by
  obtain ⟨hopen, rfl⟩ := hi.open_top h
  refine (h.forkAll i fun w hw => ?_).1
  obtain ⟨hway, hdepth⟩ := Walk.way_of_mem_ofDepth hw
  obtain ⟨hbelow, hlies⟩ := hway.lies h.graph hopen
  obtain ⟨-, hr, hshapes⟩ := hway.reads h.graph hopen hread fun w hw => .inl (by simpa using hw)
  rw [hdepth, List.drop_length] at hr
  rw [hdepth, List.take_length] at hshapes
  exact ⟨hbelow, hlies, by simpa [hasRead] using hr, hshapes⟩

/-- All trees are taken off, down to the bottom, which some way leads to. -/
theorem Sound.popToBottom (h : r.Sound points) (hi : r.Stands i a) :
    Forks points a.2 (fun _ ts => Tree.LiesAll points ts 0 a.2 ∧
      (hasRead a.1 ⟨none, [.nonterminal .sourceFile]⟩ = true →
        Tree.shapes ts = [some (.nonterminal .sourceFile)])) r
      (r.popToBottom i).1 (r.popToBottom i).2 ∧ (r.popToBottom i).2 ≠ [] := by
  obtain ⟨hopen, rfl⟩ := hi.open_top h
  refine (h.forkAll i fun w hw => ?_).imp_right
    fun hne => hne (Walk.toBottom_ne_nil h.graph hopen.lt)
  obtain ⟨hway, hlinks⟩ := Walk.way_of_mem_toBottom hw
  obtain ⟨hbelow, hlies⟩ := hway.lies h.graph hopen
  have hbottom := h.graph.bottom _ hlinks
  have hpos : (r.graph.vertex w.vertex).pos = 0 := congrArg Prod.snd hbottom.1
  have hstate : (r.graph.vertex w.vertex).state = start := congrArg Prod.fst hbottom.1
  refine ⟨hbelow, hlies, by rwa [hpos] at hlies, fun hread => ?_⟩
  obtain ⟨hle, hr, hshapes⟩ := hway.reads h.graph hopen hread fun _ _ => .inr rfl
  rcases hd : w.depth with _ | d
  · -- something has been read at the bottom of the stack
    rw [hd, hstate] at hr
    simp [hasRead] at hr
  · obtain rfl : d = 0 := by
      rw [hd] at hle
      simpa using hle
    rw [hshapes, hd]
    rfl

/-- A branch goes down to a vertex in its stack. -/
lemma Sound.fork_replace (h : r.Sound points) (hi : i < r.count) {v : Nat} (hv : r.graph.Open v) :
    Moves points i (r.graph.vertex v).place r ((r.fork i v).replace r.count i) := by
  obtain ⟨hkeeps, hcount, hstands⟩ := h.fork i hv
  obtain ⟨hsound, hgraph, hcount', hcore⟩ :=
    hkeeps.sound.replace hi (hcount ▸ Nat.lt_succ_self _)
  refine ⟨⟨hsound, ?_, fun k hk => ?_⟩, ?_, (hstands.replace hkeeps.sound hi).2⟩
  · rw [hgraph]
    exact .refl _
  · rw [hcore, if_neg hk]
    by_cases hkc : k < r.count
    · rw [if_pos hkc, hkeeps.core_eq k hkc]
    · rw [if_neg hkc, branch_of_le (by omega), branch_of_le (Nat.le_of_not_lt hkc)]
  · rw [hcount', hcount, Nat.add_sub_cancel]

/-- An error on top of the stack is taken off, and yields what it holds. -/
theorem Sound.popError (h : r.Sound points) {s : StateId} {p : Nat} (hi : r.Stands i (s, p))
    (hs : s ≠ lost) : ∃ m, Moves points i (s, m) r (r.popError i).1 ∧
      Tree.LiesAll points (r.popError i).2 m p := by
  have hopen := h.isOpen hi.active
  have hstate : (r.graph.vertex (r.branch i).top).state = s := hi.state_eq
  have hpos : (r.graph.vertex (r.branch i).top).pos = p := hi.pos_eq
  have hsame : ∃ m, Moves points i (s, m) r r ∧ Tree.LiesAll points [] m p := ⟨p, .refl h hi, rfl⟩
  rw [Search.popError]
  split
  · split
    · rename_i w hw
      obtain ⟨hway, t, hlast, herror⟩ := Walk.way_of_overError hw
      obtain ⟨hbelow, hlies⟩ := hway.lies h.graph hopen
      obtain ⟨hbelow', cs, hcs⟩ := hway.aside h.graph hopen (hstate ▸ hs) hlast herror
      have hmoves := h.fork_replace (lt_count_of_isActive hi.active) hbelow
      have hplace : (r.graph.vertex w.vertex).place = (s, (r.graph.vertex w.vertex).pos) :=
        Prod.ext (hbelow'.trans hstate) rfl
      refine ⟨(r.graph.vertex w.vertex).pos, hplace ▸ hmoves, ?_⟩
      rw [hcs, Tree.liesAll_singleton, hpos] at hlies
      rw [hcs, List.flatMap_singleton]
      exact (Tree.lies_node.1 hlies).1
    · exact hsame
  · exact hsame

end Search

end ScenarioSyntax
