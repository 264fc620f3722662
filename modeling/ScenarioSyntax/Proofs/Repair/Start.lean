import ScenarioSyntax.Parser.Parse
import ScenarioSyntax.Proofs.Repair.Rounds

/-!
The search is sound from the beginning: the trees on the parser's own stack stand for the text that
has been read, each between two states. So the search comes up with a tree, and it stands for the
text as a whole.
-/

namespace ScenarioSyntax

open Grammar Table

namespace Stack

/-- The trees stand for the text up to the position, one on top of the other, and each of them takes
the parser from the state below it to its own. -/
inductive Rests (points : List Int) : Stack → Nat → Prop
  | nil : Rests points [] 0
  | push {st : Stack} {p q : Nat} {s : StateId} {t : Tree} (below : Rests points st p)
      (moves : t.Moves st.state s) (lies : t.Lies points p q) : Rests points (st.push s t) q

namespace Rests

variable {points : List Int} {st : Stack} {s : StateId} {p q : Nat} {ts : List Tree}
  {n : Nonterminal}

lemma foldl_push (h : Rests points st p) (hs : st.state = s) (hextra : ∀ t ∈ ts, t.isExtra = true)
    (hts : Tree.LiesAll points ts p q) :
    Rests points (ts.foldl (fun st t => st.push s t) st) q := by
  induction ts generalizing st p with
  | nil =>
    obtain rfl : p = q := hts
    exact h
  | cons t ts ih =>
    obtain ⟨m, ht, hts⟩ := hts
    rw [List.forall_mem_cons] at hextra
    exact ih (h.push (.aside hextra.1 hs.symm) ht) rfl hextra.2 hts

/-- What has been read of a construct is taken off; below it the construct begins. -/
theorem pop (h : Rests points st p) {done : List Symbol}
    (hread : hasRead st.state ⟨some n, done⟩ = true) (hts : Tree.LiesAll points ts p q) :
    ∃ m, Rests points (Stack.pop done.length st ts).2 m ∧
      Tree.LiesAll points (Stack.pop done.length st ts).1 m q ∧
      opens (Stack.pop done.length st ts).2.state (some n) = true ∧
      Tree.shapes (Stack.pop done.length st ts).1 = done.reverse.map some ++ Tree.shapes ts := by
  induction h generalizing done ts with
  | nil =>
    cases done with
    | nil =>
      rw [List.length_nil, Stack.pop]
      exact ⟨0, .nil, hts, hread, rfl⟩
    | cons x done =>
      -- nothing has been read at the bottom
      rw [hasRead, if_neg (List.cons_ne_nil _ _), state, progress_start] at hread
      cases of_decide_eq_true hread
  | @push st p q' s t below moves lies ih =>
    cases done with
    | nil =>
      rw [List.length_nil, Stack.pop]
      exact ⟨q', .push below moves lies, hts, hread, rfl⟩
    | cons x done =>
      have hb : Bridges points (st.state, p) (s, q') (some t) := .tree moves lies
      have hts' : Tree.LiesAll points (t :: ts) p q := ⟨q', lies, hts⟩
      obtain ⟨t', ht', ⟨hextra, hread⟩ | ⟨hcounts, y, done', hdone, hshape, hread⟩⟩ :=
        hb.read hread (.inl (List.cons_ne_nil _ _))
      · obtain rfl := Option.some.inj ht'
        rw [List.length_cons, Stack.push, Stack.pop, if_pos hextra,
          ← Tree.shapes_cons_extra hextra ts]
        exact ih hread hts'
      · obtain rfl := Option.some.inj ht'
        obtain ⟨rfl, rfl⟩ := List.cons.inj hdone
        rw [List.length_cons, Stack.push, Stack.pop, if_neg (by simp [hcounts])]
        obtain ⟨m, hrest, hpopped, hopens, hshapes⟩ := ih hread hts'
        refine ⟨m, hrest, hpopped, hopens, ?_⟩
        rw [hshapes, Tree.shapes_cons hcounts, hshape, List.reverse_cons, List.map_append,
          List.append_assoc]
        rfl

theorem reduce (h : Rests points st p) {k : Terminal} {arity : Nat} {l : Layout}
    (ha : action? st.state k = some (.reduce n arity l)) :
    Rests points (st.reduce n arity l) p := by
  obtain ⟨done, hread, rfl, hmem⟩ := hasRead_of_reduce ha
  obtain ⟨m, hrest, hpopped, hopens, hshapes⟩ := h.pop hread
    (show Tree.LiesAll points [] p p from rfl)
  rw [Stack.reduce]
  generalize Stack.pop done.length st [] = x at hrest hpopped hopens hshapes ⊢
  obtain ⟨ts, rest⟩ := x
  dsimp only at hrest hpopped hopens hshapes ⊢
  rw [Tree.shapes_nil, List.append_nil] at hshapes
  obtain ⟨m', hlies, htrailing⟩ := hpopped.exists_node hshapes hmem
  have hmoves : (Tree.node (.rule n l) (Tree.splitTrailing ts).1).Moves rest.state
      (goto rest.state n) := .read rfl rfl (next?_of_opens hopens)
  generalize goto rest.state n = u at hmoves ⊢
  exact (hrest.push hmoves hlies).foldl_push rfl
    (fun t ht => Stack.isExtra_of_mem_trailing ht) htrailing

end Rests

end Stack

namespace Machine

variable {points : List Int} {m m' : Machine} {es : List Event}

/-- **What is on the stack stands for the text that has been read.** -/
theorem rests_of_reaches (h : Reaches (Token.read points) init es m) :
    m.stack.Rests points m.pos := by
  have hs := Token.honest_read points
  have hinit : Tracks (Token.read points) (fun _ _ => ()) init [] ∧ init.stack.Rests points 0 :=
    ⟨tracks_init _ _, .nil⟩
  refine (h.preserves (I := fun m ts => Tracks (Token.read points) (fun _ _ => ()) m ts ∧
    m.stack.Rests points m.pos) (fun {m m' ts e} hm hstep => ?_) hinit).2
  obtain ⟨htracks, hrests⟩ := hm
  refine ⟨htracks.step hs hstep, ?_⟩
  have hread : ∀ t, m.ahead = some t → Token.ReadAt points m.pos t := fun t ht => by
    obtain ⟨st, rfl, -, -⟩ := htracks.fresh t ht
    exact ⟨_, rfl⟩
  cases turn_of_step hstep with
  | read ahead => exact hrests
  | @shift t k s ahead kind action =>
    obtain ⟨hmoves, hlies⟩ := (hread t ahead).shift kind action
    exact hrests.push hmoves hlies
  | @extra t k ahead kind action =>
    obtain rfl := eq_comment_of_extra action
    obtain ⟨hmoves, hlies⟩ := (hread t ahead).extra (s := m.state) kind
    exact hrests.push hmoves hlies
  | @reduce t k n a l ahead kind action => exact hrests.reduce action
  | asIdentifier ahead kind refuses wordlike ne wants => exact hrests

/-- **Where the parser gets stuck**, at a token. -/
theorem rests_of_stuck {fuel : Nat} (h : (run (Token.read points) fuel init).2 = .stuck m) :
    m.stack.Rests points m.pos ∧ ∃ t, m.ahead = some t ∧ Token.ReadAt points m.pos t := by
  obtain ⟨es, hrun⟩ : ∃ es, run (Token.read points) fuel init = (es, .stuck m) :=
    ⟨_, Prod.ext rfl h⟩
  rcases exists_of_run hrun with ⟨m', ho, -⟩ | ⟨es', e, m', rfl, hreach, hlast, -⟩
  · cases ho
  have htracks := (tracks_init (Token.read points) fun _ _ => ()).of_reaches
    (Token.honest_read points) hreach
  cases turn_of_step hlast with
  | @error t ahead _ =>
    obtain ⟨st, rfl, -, -⟩ := htracks.fresh t ahead
    exact ⟨rests_of_reaches hreach, _, ahead, _, rfl⟩

end Machine

/-! ### The stack as a graph -/

namespace Search

variable {src : Source} {st : Stack} {p : Nat}

lemma sound_bottom (points : List Int) : Graph.Sound points #[Vertex.bottom] := by
  have hvertex : ∀ i, Graph.vertex #[Vertex.bottom] i = .bottom := by
    intro i
    cases i <;> rfl
  refine ⟨Nat.one_pos, fun i _ => ?_, fun i l hl => ?_, fun i _ hne => ?_, fun i _ l hl => ?_⟩
  · rw [hvertex]
    exact ⟨rfl, rfl⟩
  · rw [hvertex] at hl
    cases hl
  · rw [hvertex] at hne
    exact absurd rfl hne
  · rw [hvertex] at hl
    cases hl

/-- The stack stands on the graph as it stood in the parser. -/
lemma sound_graph (h : st.Rests src.points p) {g : Graph}
    (hg : st.reverse.foldl (fun g e => Graph.put src g (g.size - 1) (some e.tree) e.state)
      #[Vertex.bottom] = g) :
    g.Sound src.points ∧ g.Open (g.size - 1) ∧ (g.vertex (g.size - 1)).place = (st.state, p) := by
  induction h generalizing g with
  | nil =>
    subst hg
    refine ⟨sound_bottom _, ⟨Nat.one_pos, ?_⟩, rfl⟩
    rintro ⟨l, hl, -⟩
    cases hl
  | @push st p q s t _ moves lies ih =>
    rw [Stack.push, List.reverse_cons, List.foldl_append] at hg
    obtain ⟨hsound, hopen, hplace⟩ := ih rfl
    generalize st.reverse.foldl _ #[Vertex.bottom] = g₀ at hsound hopen hplace hg
    subst hg
    have hb : Bridges src.points (Graph.vertex g₀ (g₀.size - 1)).place (s, q) (some t) :=
      hplace ▸ .tree moves lies
    obtain ⟨hsound', hopen', hplace'⟩ := hsound.put hopen hb
    rw [List.foldl_cons, List.foldl_nil, Graph.size_put, Nat.add_sub_cancel]
    exact ⟨hsound', hopen', hplace'⟩

/-- **The search is sound where the parser got stuck**, and its only branch can go on. -/
theorem sound_ofMachine {m : Machine} {t : Lookahead} (h : m.stack.Rests src.points m.pos)
    (ht : Token.ReadAt src.points m.pos t) :
    (ofMachine src m t).Sound src.points ∧ (ofMachine src m t).Lives := by
  rw [ofMachine]
  obtain ⟨hsound, hopen, hplace⟩ := sound_graph h rfl
  generalize m.stack.reverse.foldl _ #[Vertex.bottom] = g at hsound hopen hplace ⊢
  refine ⟨⟨hsound, fun i => ?_, fun p' t' hcache => ?_, (fun _ hbest => by cases hbest),
    fun _ => rfl⟩, .inr ⟨0, rfl⟩⟩
  · cases i with
    | zero =>
      refine ⟨hopen.lt, fun _ => hopen, fun t' ht' => ?_⟩
      obtain rfl := Option.some.inj ht'
      have hpos : (Graph.vertex g (g.size - 1)).pos = m.pos := congrArg Prod.snd hplace
      exact hpos.symm ▸ ht
    | succ i => exact .of_halted hsound.zero_lt rfl
  · obtain ⟨rfl, rfl⟩ := Prod.mk.inj (Option.some.inj hcache)
    exact ht

/-- **The search comes up with a tree** that stands for the text as a whole. -/
theorem exists_best {fuel : Nat} (fuel' : Nat) {m : Machine} {t : Lookahead}
    (h : (Machine.run (Token.read src.points) fuel .init).2 = .stuck m) (ht : m.ahead = some t) :
    ∃ u, (rounds src fuel' (ofMachine src m t)).best = some u ∧ u.Whole src.points := by
  obtain ⟨hrests, t', ht', hread⟩ := Machine.rests_of_stuck h
  obtain rfl := Option.some.inj (ht.symm.trans ht')
  obtain ⟨hsound, hlives⟩ := sound_ofMachine hrests hread
  obtain ⟨hsound', hbest⟩ := hsound.rounds fuel' hlives
  obtain ⟨u, hu⟩ := Option.isSome_iff_exists.1 hbest
  exact ⟨u, hu, hsound'.best u hu⟩

end Search

end ScenarioSyntax
