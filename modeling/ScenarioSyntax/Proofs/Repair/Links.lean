import ScenarioSyntax.Proofs.Repair.Trees
import ScenarioSyntax.Repair.Graph

/-!
The shared stacks are sound: a link between two vertices holds a tree that stands for the text
between them, and that takes the parser from the state of one to the state of the other. Stacks grow
and merge, but no vertex ever moves, and the first links always lead down to the bottom.
-/

namespace ScenarioSyntax

open Automaton Grammar Table

namespace Tree

/-- The trees that come on top when a branch ends: the end of the text, and in front of it the
error around a text that cannot be read as a whole. -/
def isLast : Tree → Bool
  | token .endOfText _ _ => true
  | node (.error false) _ => true
  | _ => false

/-- A tree on the stack takes the parser from one state to another. -/
inductive Moves (u : StateId) (t : Tree) (v : StateId) : Prop
  | read {x : Symbol} (shape : t.shape? = some x) (counts : t.isExtra = false)
      (next : next? u x = some v)
  | aside (extra : t.isExtra = true) (stays : v = u)
  | passed (skipped : t.isSkipped = true) (lost : v = lost)

/-- An error stands aside. -/
lemma Moves.aside_of_isError {u v : StateId} {t : Tree} (h : t.Moves u v)
    (herror : t.isError = true) : v = u ∧ ∃ cs, t = node (.error true) cs := by
  have hcases : (∃ s c, t = stray s c) ∨ ∃ aside cs, t = node (.error aside) cs := by
    cases t with
    | stray s c => exact .inl ⟨s, c, rfl⟩
    | node l cs =>
      cases l with
      | error aside => exact .inr ⟨aside, cs, rfl⟩
      | _ => cases herror
    | _ => cases herror
  rcases hcases with ⟨s, c, rfl⟩ | ⟨aside, cs, rfl⟩
  · cases h with
    | read shape _ _ => cases shape
    | aside extra _ => cases extra
    | passed skipped _ => cases skipped
  · cases h with
    | read shape _ _ => cases shape
    | aside extra stays =>
      obtain rfl : aside = true := extra
      exact ⟨stays, cs, rfl⟩
    | passed skipped _ => cases skipped

end Tree

/-- The state and the position in which the parser is at the vertex. -/
def Vertex.place (v : Vertex) : StateId × Nat := (v.state, v.pos)

lemma Vertex.eq_of_meets {v w : Vertex} (h : v.meets w = true) :
    v.place = w.place ∧ v.cost = w.cost := by
  simp only [Vertex.meets, Bool.and_eq_true, decide_eq_true_eq] at h
  exact ⟨Prod.ext h.1.1 h.1.2, h.2⟩

/-- What may lie between two places: a tree, or the mark of a lost way. -/
inductive Bridges (points : List Int) (a b : StateId × Nat) : Option Tree → Prop
  | lost (state : b.1 = lost) (pos : b.2 = a.2) : Bridges points a b none
  | tree {t : Tree} (moves : t.Moves a.1 b.1) (lies : t.Lies points a.2 b.2) :
      Bridges points a b (some t)

lemma Bridges.isLast_eq_false {points : List Int} {a b : StateId × Nat} {t : Tree}
    (h : Bridges points a b (some t)) : t.isLast = false := by
  cases h with
  | tree moves lies =>
    match t with
    | .token k s e =>
      have := lies.1
      cases k <;> first | rfl | exact absurd rfl this
    | .missing _ _ | .stray _ _ | .node (.rule _ _) _ | .node .skipped _ => rfl
    | .node (.error true) _ => rfl
    | .node (.error false) _ =>
      cases moves with
      | read shape _ _ => cases shape
      | aside extra _ => cases extra
      | passed skipped _ => cases skipped

/-- Where the tree ends. -/
lemma Bridges.reach_eq {src : Source} {a b : StateId × Nat} {tree : Option Tree}
    (h : Bridges src.points a b tree) : (tree.map (·.reach src a.2)).getD a.2 = b.2 := by
  cases h with
  | lost _ pos => exact pos.symm
  | tree _ lies => exact lies.reach_eq

/-- What lies between the bottom of the stacks and a place like it is an error, which is paid
for. -/
lemma Bridges.cost_pos {src : Source} {a : StateId × Nat} {tree : Option Tree}
    (h : Bridges src.points a (start, 0) tree) : 0 < (tree.map (·.cost src)).getD 0 := by
  cases h with
  | lost state _ => exact absurd state (by decide)
  | @tree t moves lies =>
    cases moves with
    | read _ _ next =>
      obtain ⟨g, done, hp, -⟩ := progress_of_next next
      rw [progress_start] at hp
      cases hp
    | passed _ lost => exact absurd lost (by decide)
    | aside extra _ =>
      match t with
      | .token k s e =>
        -- a token takes some of the text
        obtain ⟨hend, -, hstop, st, hleaf⟩ := lies
        obtain ⟨hkind, rfl⟩ := Token.span_eq_of_leaf hleaf
        have := (Token.lt_stop_read (hkind ▸ fun h => hend (Option.some.inj h))).2
        omega
      | .missing _ _ | .stray _ _ | .node (.rule _ _) _ | .node .skipped _ => cases extra
      | .node (.error aside) cs => exact Tree.cost_error_pos src aside cs

namespace Graph

variable {points : List Int} {g g' g'' : Graph} {i n m : Nat} {l : Link}

/-- A branch has ended at the vertex. -/
def Ends (g : Graph) (i : Nat) : Prop :=
  ∃ l ∈ (g.vertex i).links, ∃ t, l.tree = some t ∧ t.isLast = true

/-- A branch may go on from the vertex. -/
structure Open (g : Graph) (i : Nat) : Prop where
  lt : i < g.size
  not_ends : ¬ g.Ends i

/-- The link may lead down from the vertex. -/
structure Carries (points : List Int) (g : Graph) (i : Nat) (l : Link) : Prop where
  below : g.Open l.below
  bridges : Bridges points (g.vertex l.below).place (g.vertex i).place l.tree

/-- All links hold what they may hold, down to the bottom. A place that is like the bottom but
above it has cost something. -/
structure Sound (points : List Int) (g : Graph) : Prop where
  zero_lt : 0 < g.size
  bottom : ∀ i, (g.vertex i).links = [] → (g.vertex i).place = (start, 0) ∧ (g.vertex i).cost = 0
  first : ∀ i l, (g.vertex i).links.head? = some l → l.below < i
  paid : ∀ i, ¬ g.Ends i → (g.vertex i).links ≠ [] → (g.vertex i).place = (start, 0) →
    0 < (g.vertex i).cost
  carries : ∀ i, ¬ g.Ends i → ∀ l ∈ (g.vertex i).links, g.Carries points i l

/-- The graph has grown. -/
structure Extends (g g' : Graph) : Prop where
  size_le : g.size ≤ g'.size
  place_eq : ∀ i < g.size, (g'.vertex i).place = (g.vertex i).place
  links_ne_nil : ∀ i < g.size, (g.vertex i).links ≠ [] → (g'.vertex i).links ≠ []
  ends : ∀ i < g.size, g'.Ends i → g.Ends i

namespace Extends

lemma refl (g : Graph) : g.Extends g := ⟨le_rfl, fun _ _ => rfl, fun _ _ h => h, fun _ _ h => h⟩

lemma trans (h : g.Extends g') (h' : g'.Extends g'') : g.Extends g'' where
  size_le := h.size_le.trans h'.size_le
  place_eq i hi := (h'.place_eq i (hi.trans_le h.size_le)).trans (h.place_eq i hi)
  links_ne_nil i hi hl := h'.links_ne_nil i (hi.trans_le h.size_le) (h.links_ne_nil i hi hl)
  ends i hi he := h.ends i hi (h'.ends i (hi.trans_le h.size_le) he)

end Extends

lemma Open.mono (h : g.Open i) (hg : g.Extends g') : g'.Open i :=
  ⟨h.lt.trans_le hg.size_le, fun he => h.not_ends (hg.ends i h.lt he)⟩

lemma Carries.mono (h : g.Carries points i l) (hi : i < g.size) (hg : g.Extends g') :
    g'.Carries points i l where
  below := h.below.mono hg
  bridges := by
    rw [hg.place_eq i hi, hg.place_eq l.below h.below.lt]
    exact h.bridges

lemma lt_of_mem_links (h : l ∈ (g.vertex i).links) : i < g.size := by
  by_contra hi
  rw [vertex, Array.getD_eq_getD_getElem?, Array.getElem?_eq_none (Nat.le_of_not_lt hi)] at h
  cases h

/-! ### A new vertex -/

lemma vertex_push (g : Graph) (v : Vertex) (i : Nat) :
    Graph.vertex (Array.push g v) i = if i = g.size then v else g.vertex i := by
  simp only [vertex, Array.getD_eq_getD_getElem?, Array.getElem?_push]
  split <;> rfl

section Put

variable (src : Source) (g : Graph) (i : Nat) (tree : Option Tree) (s : StateId)

lemma size_put : (g.put src i tree s).size = g.size + 1 := by
  cases tree <;> exact Array.size_push _

lemma vertex_put_of_ne {j : Nat} (hj : j ≠ g.size) :
    (g.put src i tree s).vertex j = g.vertex j := by
  cases tree <;> exact (vertex_push ..).trans (if_neg hj)

lemma links_put : ((g.put src i tree s).vertex g.size).links = [⟨i, tree⟩] := by
  cases tree <;> exact congrArg Vertex.links ((vertex_push ..).trans (if_pos rfl))

lemma place_put : ((g.put src i tree s).vertex g.size).place =
    (s, (tree.map (·.reach src (g.vertex i).pos)).getD (g.vertex i).pos) := by
  cases tree <;> exact congrArg Vertex.place ((vertex_push ..).trans (if_pos rfl))

lemma cost_put : ((g.put src i tree s).vertex g.size).cost =
    (g.vertex i).cost + (tree.map (·.cost src)).getD 0 := by
  cases tree <;> simp [put, vertex_push, Tree.cost]

lemma extends_put : g.Extends (g.put src i tree s) where
  size_le := by
    rw [size_put]
    exact Nat.le_succ _
  place_eq j hj := congrArg Vertex.place (vertex_put_of_ne src g i tree s hj.ne)
  links_ne_nil j hj hl := by
    rwa [vertex_put_of_ne src g i tree s hj.ne]
  ends j hj he := by
    rw [Ends, vertex_put_of_ne src g i tree s hj.ne] at he
    exact he

variable {src g i tree s}

lemma Sound.of_put (h : g.Sound src.points) (hi : i < g.size)
    (hput : ¬ (g.put src i tree s).Ends g.size →
      (g.put src i tree s).Carries src.points g.size ⟨i, tree⟩) :
    (g.put src i tree s).Sound src.points where
  zero_lt := h.zero_lt.trans_le (extends_put src g i tree s).size_le
  bottom j hj := by
    by_cases hjs : j = g.size
    · rw [hjs, links_put] at hj
      cases hj
    · rw [vertex_put_of_ne src g i tree s hjs] at hj ⊢
      exact h.bottom j hj
  first j l hl := by
    by_cases hjs : j = g.size
    · rw [hjs, links_put] at hl
      obtain rfl := Option.some.inj hl
      exact hjs ▸ hi
    · rw [vertex_put_of_ne src g i tree s hjs] at hl
      exact h.first j l hl
  paid j he hl hplace := by
    by_cases hjs : j = g.size
    · subst hjs
      have hcost : 0 < (tree.map (·.cost src)).getD 0 := (hplace ▸ (hput he).bridges).cost_pos
      rw [cost_put]
      omega
    · rw [Ends, vertex_put_of_ne src g i tree s hjs] at he
      rw [vertex_put_of_ne src g i tree s hjs] at hl hplace ⊢
      exact h.paid j he hl hplace
  carries j he l hl := by
    by_cases hjs : j = g.size
    · rw [hjs, links_put, List.mem_singleton] at hl
      rw [hl, hjs]
      exact hput (hjs ▸ he)
    · rw [Ends, vertex_put_of_ne src g i tree s hjs] at he
      rw [vertex_put_of_ne src g i tree s hjs] at hl
      exact (h.carries j he l hl).mono (lt_of_mem_links hl) (extends_put src g i tree s)

/-- A branch that puts a last tree on its stack has ended. -/
lemma Sound.put_last {t : Tree} (h : g.Sound src.points) (hi : i < g.size)
    (ht : t.isLast = true) : (g.put src i (some t) s).Sound src.points :=
  h.of_put hi fun he =>
    absurd ⟨_, by rw [links_put]; exact List.mem_singleton_self _, t, rfl, ht⟩ he

/-- Any other tree that fits leads to a place behind it. -/
lemma Sound.put (h : g.Sound src.points) (hi : g.Open i) {q : Nat}
    (hb : Bridges src.points (g.vertex i).place (s, q) tree) :
    (g.put src i tree s).Sound src.points ∧ (g.put src i tree s).Open g.size ∧
      ((g.put src i tree s).vertex g.size).place = (s, q) := by
  have hplace : ((g.put src i tree s).vertex g.size).place = (s, q) := by
    rw [place_put]
    exact Prod.ext rfl hb.reach_eq
  have hends : ¬ (g.put src i tree s).Ends g.size := by
    rintro ⟨l, hl, t, ht, hlast⟩
    rw [links_put, List.mem_singleton] at hl
    subst hl
    obtain rfl : tree = some t := ht
    rw [hb.isLast_eq_false] at hlast
    cases hlast
  refine ⟨h.of_put hi.lt fun _ => ⟨hi.mono (extends_put ..), ?_⟩, ⟨?_, hends⟩, hplace⟩
  · rw [hplace, (extends_put src g i tree s).place_eq i hi.lt]
    exact hb
  · rw [size_put]
    exact Nat.lt_succ_self _

end Put

/-! ### Merging -/

lemma vertex_set (g : Graph) {n : Nat} (hn : n < g.size) (v : Vertex) (i : Nat) :
    Graph.vertex (g.set! n v) i = if i = n then v else g.vertex i := by
  simp only [vertex, Array.getD_eq_getD_getElem?, Array.set!_eq_setIfInBounds,
    Array.getElem?_setIfInBounds]
  split
  · rename_i h
    subst h
    simp
  · rename_i h
    rw [if_neg (Ne.symm h)]

/-- A vertex above the bottom gets another link, which holds what it may. -/
lemma Sound.set (h : g.Sound points) (hn : g.Open n) (hne : (g.vertex n).links ≠ [])
    (hl : g.Carries points n l) {v : Vertex} (hplace : v.place = (g.vertex n).place)
    (hcost : v.cost = (g.vertex n).cost) (hlinks : v.links = (g.vertex n).links ++ [l]) :
    Graph.Sound points (g.set! n v) ∧ g.Extends (g.set! n v) := by
  have hends : ¬ Ends (g.set! n v) n := by
    rintro ⟨k, hk, t, ht, hlast⟩
    rw [vertex_set g hn.lt, if_pos rfl, hlinks] at hk
    rcases List.mem_append.1 hk with hk | hk
    · exact hn.not_ends ⟨k, hk, t, ht, hlast⟩
    · rw [List.mem_singleton] at hk
      have hb := hl.bridges
      rw [← hk, ht] at hb
      rw [hb.isLast_eq_false] at hlast
      cases hlast
  have hext : g.Extends (g.set! n v) := by
    refine ⟨by simp, fun i hi => ?_, fun i hi hi' => ?_, fun i hi he => ?_⟩
    · rw [vertex_set g hn.lt]
      split
      · rename_i heq
        rw [heq, hplace]
      · rfl
    · rw [vertex_set g hn.lt]
      split
      · simp [hlinks]
      · exact hi'
    · by_cases hin : i = n
      · exact absurd (hin ▸ he) hends
      · rwa [Ends, vertex_set g hn.lt, if_neg hin] at he
  refine ⟨⟨?_, fun i hi => ?_, fun i k hk => ?_, fun i he hi hi' => ?_, fun i he k hk => ?_⟩, hext⟩
  · exact h.zero_lt.trans_le hext.size_le
  · rw [vertex_set g hn.lt] at hi ⊢
    split at hi
    · rw [hlinks] at hi
      simp at hi
    · rename_i hin
      rw [if_neg hin]
      exact h.bottom i hi
  · apply h.first i k
    rw [vertex_set g hn.lt] at hk
    split at hk
    · rename_i hin
      rw [hin]
      rwa [hlinks, List.head?_append_of_ne_nil _ hne] at hk
    · exact hk
  · by_cases hin : i = n
    · subst hin
      rw [vertex_set g hn.lt, if_pos rfl] at hi' ⊢
      rw [hcost]
      exact h.paid i hn.not_ends hne (hplace ▸ hi')
    · rw [Ends, vertex_set g hn.lt, if_neg hin] at he
      rw [vertex_set g hn.lt, if_neg hin] at hi hi' ⊢
      exact h.paid i he hi hi'
  · by_cases hin : i = n
    · subst hin
      rw [vertex_set g hn.lt, if_pos rfl, hlinks] at hk
      rcases List.mem_append.1 hk with hk | hk
      · exact (h.carries i hn.not_ends k hk).mono hn.lt hext
      · rw [List.mem_singleton] at hk
        exact hk ▸ hl.mono hn.lt hext
    · rw [Ends, vertex_set g hn.lt, if_neg hin] at he
      rw [vertex_set g hn.lt, if_neg hin] at hk
      exact (h.carries i he k hk).mono (lt_of_mem_links hk) hext

/-- The vertex is not the bottom, and the link may lead down from it. -/
structure Takes (points : List Int) (g : Graph) (n : Nat) (l : Link) : Prop
    extends Carries points g n l where
  ne_nil : (g.vertex n).links ≠ []

/-- Links are added one after the other, by an operation that keeps the graph sound. -/
lemma Sound.foldl {f : Graph → Link → Graph} (hf : ∀ {g l}, g.Sound points → g.Open n →
      g.Takes points n l → (f g l).Sound points ∧ g.Extends (f g l)) (h : g.Sound points)
    (hn : g.Open n) {ls : List Link} (hls : ∀ l ∈ ls, g.Takes points n l) :
    (ls.foldl f g).Sound points ∧ g.Extends (ls.foldl f g) := by
  induction ls generalizing g with
  | nil => exact ⟨h, .refl g⟩
  | cons l ls ih =>
    rw [List.forall_mem_cons] at hls
    obtain ⟨hsound, hext⟩ := hf h hn hls.1
    obtain ⟨hsound', hext'⟩ := ih hsound (hn.mono hext) fun k hk =>
      ⟨(hls.2 k hk).mono hn.lt hext, hext.links_ne_nil n hn.lt (hls.2 k hk).ne_nil⟩
    exact ⟨hsound', hext.trans hext'⟩

/-- What leads down from a vertex may lead down from another one that it meets: it is not the
bottom, for that has cost nothing. -/
lemma Sound.takes_of_meets (h : g.Sound points) (hm : g.Open m)
    (hmeets : (g.vertex n).meets (g.vertex m) = true) :
    ∀ l ∈ (g.vertex m).links, g.Takes points n l := by
  intro l hl
  obtain ⟨hplace, hcost⟩ := Vertex.eq_of_meets hmeets
  obtain ⟨hbelow, hb⟩ := h.carries m hm.not_ends l hl
  refine ⟨⟨hbelow, hplace ▸ hb⟩, fun hnil => ?_⟩
  obtain ⟨hbottom, hzero⟩ := h.bottom n hnil
  have := h.paid m hm.not_ends (List.ne_nil_of_mem hl) (hplace ▸ hbottom)
  omega

lemma Sound.addLink {src : Source} (fuel : Nat) (h : g.Sound points) (hn : g.Open n)
    (hl : g.Takes points n l) :
    (g.addLink src fuel n l).Sound points ∧ g.Extends (g.addLink src fuel n l) := by
  induction fuel generalizing g n l with
  | zero => exact ⟨h, .refl g⟩
  | succ fuel ih =>
    rw [Graph.addLink]
    split
    · exact ⟨h, .refl g⟩
    dsimp only
    split
    · rename_i k hk
      have hmem := List.mem_of_find?_eq_some hk
      have hcond := List.find?_some hk
      split
      · exact ⟨h, .refl g⟩
      · rename_i hne
        have hmeets : (g.vertex k.below).meets (g.vertex l.below) = true := by
          simp only [Bool.and_eq_true, Bool.or_eq_true, decide_eq_true_eq, hne, false_or] at hcond
          exact hcond.2
        have hbelow := (h.carries n hn.not_ends k hmem).below
        exact Sound.foldl (fun h hn hl => ih h hn hl) h hbelow (h.takes_of_meets hl.below hmeets)
    · split
      · exact ⟨h, .refl g⟩
      · exact h.set hn hl.ne_nil hl.toCarries rfl rfl rfl

/-- **A merge keeps the stacks sound.** -/
theorem Sound.join {src : Source} (h : g.Sound points) (hn : g.Open n) (hm : g.Open m)
    (hmeets : (g.vertex n).meets (g.vertex m) = true) :
    (g.join src n m).Sound points ∧ g.Extends (g.join src n m) :=
  h.foldl (fun h hn hl => h.addLink _ hn hl) hn (h.takes_of_meets hm hmeets)

end Graph

end ScenarioSyntax
