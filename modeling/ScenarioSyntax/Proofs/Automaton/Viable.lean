import ScenarioSyntax.Proofs.Automaton.Soundness

/-!
Whatever the automaton has read can be completed to a file: the construct on top of the stack has
an alternative that goes on from what has been read of it, and so have the constructs below.
-/

namespace ScenarioSyntax.Automaton

open Grammar Table

variable {α : Type}

/-! ### Every construct has an instance -/

/-- The construct has an instance of this height at most. -/
def reachable : Nat → Nonterminal → Bool
  | 0, _ => false
  | k + 1, n => (productions n).any fun u => u.all fun p =>
      match p.symbol with
      | .terminal _ => true
      | .nonterminal m => reachable k m

lemma exists_joined_of {P : Part → Prop} (hP : ∀ p, P p → ∃ as : List (Ast α), Shows p as)
    {u : List Part} (h : ∀ p ∈ u, P p) : ∃ as : List (Ast α), Joined Shows u as := by
  induction u with
  | nil => exact ⟨[], .nil⟩
  | cons p u ih =>
    obtain ⟨as, ha⟩ := hP p (h p (by simp))
    obtain ⟨bs, hb⟩ := ih fun q hq => h q (by simp [hq])
    exact ⟨as ++ bs, .cons ha hb⟩

lemma exists_shows_of_reachable [Inhabited α] {k : Nat} {n : Nonterminal} (h : reachable k n = true)
    (f : Option Field) : ∃ as : List (Ast α), Shows ⟨f, .nonterminal n⟩ as := by
  induction k generalizing n f with
  | zero => simp [reachable] at h
  | succ k ih =>
    obtain ⟨u, hu, hall⟩ := List.any_eq_true.1 h
    obtain ⟨as, ha⟩ := exists_joined_of (α := α)
      (P := fun p => match p.symbol with
        | .terminal _ => True
        | .nonterminal m => reachable k m = true)
      (fun p hp => by
        rcases p with ⟨f, t | m⟩
        · exact ⟨_, .leaf f t default⟩
        · exact ih hp f)
      (u := u) fun p hp => by
        have := List.all_eq_true.1 hall p hp
        split at this <;> simp_all
    exact ⟨_, (Grows.of_production hu ha f).1⟩

lemma exists_shows [Inhabited α] (p : Part) : ∃ as : List (Ast α), Shows p as := by
  have key : ∀ n ∈ Nonterminal.all, reachable 12 n = true := by decide +kernel
  rcases p with ⟨f, t | n⟩
  · exact ⟨_, .leaf f t default⟩
  · exact exists_shows_of_reachable (key n (mem_all n)) f

lemma exists_joined [Inhabited α] (u : List Part) : ∃ as : List (Ast α), Joined Shows u as :=
  exists_joined_of (P := fun _ => True) (fun p _ => exists_shows p) fun _ _ => trivial

lemma exists_grows [Inhabited α] (n : Nonterminal) :
    ∃ (g : Growth α) (v : List (Terminal × α)), Grows (.nonterminal n) g v := by
  obtain ⟨as, ha⟩ := exists_shows (α := α) ⟨none, .nonterminal n⟩
  cases ha with
  | visible _ hu h => exact ⟨_, _, .of_production hu h⟩
  | hidden _ hu h => exact ⟨_, _, .of_production hu h⟩

/-! ### Completing what has been read -/

/-- How many constructs can begin one inside the other at the same place. -/
def depth : Nat → Symbol → Nat
  | 0, _ => 0
  | _, .terminal _ => 0
  | k + 1, .nonterminal n => ((productions n).map fun u =>
      match u with
      | [] => 0
      | p :: _ => depth k p.symbol + 1).foldl max 0

def rank (x : Symbol) : Nat := depth 6 x

lemma rank_le (x : Symbol) : rank x ≤ 6 := by
  have key : ∀ n ∈ Nonterminal.all, rank (.nonterminal n) ≤ 6 := by decide +kernel
  cases x with
  | terminal t => simp [rank, depth]
  | nonterminal n => exact key n (mem_all n)

lemma rank_lt {n : Nonterminal} {p : Part} {u : List Part} (h : p :: u ∈ productions n) :
    rank p.symbol < rank (.nonterminal n) := by
  have key : ∀ n ∈ Nonterminal.all, ∀ u ∈ productions n,
      ∀ p ∈ u.head?, rank p.symbol < rank (.nonterminal n) := by decide +kernel
  exact key n (mem_all n) _ h p (by simp)

/-- What has been read is the beginning of an alternative. -/
lemma progresses_ok : (progresses.all fun (_, p) =>
    match p.goal with
    | none => p.done = [.nonterminal .sourceFile]
    | some n =>
      (productions n).any fun u => p.done.reverse.isPrefixOf (u.map (·.symbol))) = true := by
  decide +kernel

lemma progress_mem {s : StateId} {x : Symbol} {goal : Option Nonterminal} {done : List Symbol}
    (h : progress s = ⟨goal, x :: done⟩) : (s, (⟨goal, x :: done⟩ : Progress)) ∈ progresses := by
  unfold progress at h
  cases hl : progresses.lookup s with
  | none => simp [hl] at h
  | some p =>
    obtain rfl : p = _ := by simpa [hl] using h
    exact mem_of_lookup hl

lemma exists_alternative_of_progress {s : StateId} {n : Nonterminal} {x : Symbol}
    {done : List Symbol} (h : progress s = ⟨some n, x :: done⟩) :
    ∃ u v, u ++ v ∈ productions n ∧ u.map (·.symbol) = (x :: done).reverse := by
  have := List.all_eq_true.1 progresses_ok _ (progress_mem h)
  obtain ⟨w, hw, hp⟩ := List.any_eq_true.1 this
  obtain ⟨v, hv⟩ := List.isPrefixOf_iff_prefix.1 hp
  obtain ⟨u, v', rfl, hu, -⟩ := List.map_eq_append_iff.1 hv.symm
  exact ⟨u, v', hw, hu⟩

/-- A valid stack and a symbol that can follow it begin a file. -/
lemma Valid.exists_isFile [Inhabited α] {st : List (Frame α)} {u v : List (Terminal × α)}
    (h : Valid st u) {x : Symbol} {s : StateId} (hs : next? (top st) x = some s)
    {g : Growth α} (hg : Grows x g v) :
    ∃ (d : Ast α) (w : List (Terminal × α)), d.IsFile ∧ d.tokens = u ++ v ++ w := by
  -- a construct on the same stack encloses the one before it, and has a higher rank
  induction hm : st.length * 8 + (7 - rank x) using Nat.strongRecOn
    generalizing st u v x s g with
  | ind m ih =>
    obtain ⟨goal, done, hp, hr⟩ := progress_of_next hs
    obtain ⟨frs, below, u₀, u₁, rfl, rfl, hb, hsp, ho⟩ := h.split hr
    cases goal with
    | none =>
      have hd := List.all_eq_true.1 progresses_ok _ (progress_mem hp)
      obtain ⟨rfl, rfl⟩ : x = .nonterminal .sourceFile ∧ done = [] := by simpa using hd
      obtain ⟨rfl, rfl⟩ := hb.eq_nil (by simpa [opens] using ho)
      cases hsp
      obtain ⟨d, hd, hf, ht⟩ := hg.exists_isFile
      exact ⟨d, [], hf, by simp [ht]⟩
    | some n =>
      obtain ⟨y, z, hyz, hy⟩ := exists_alternative_of_progress hp
      obtain ⟨as, ha, hta⟩ := (Spells.cons hsp (s := s) (by simp [hp]) hg).exists_joined hy
      obtain ⟨bs, hbs⟩ := exists_joined (α := α) z
      have hnext := next?_of_opens ho
      have hn := Grows.of_production hyz (ha.append hbs)
      have hlt : below.length * 8 + (7 - rank (.nonterminal n)) < m := by
        have := rank_le x
        have := rank_le (.nonterminal n)
        cases hsp with
        | nil =>
          obtain ⟨p, rfl, rfl⟩ := List.map_eq_singleton_iff.1 (by simpa using hy)
          have := rank_lt hyz
          simp at hm; omega
        | cons _ _ _ => simp at hm; omega
      obtain ⟨d, w, hd, ht⟩ := ih _ hlt hb hnext hn rfl
      exact ⟨d, Ast.tokensAll bs ++ w, hd, by simp [ht, hta]⟩

/-- **Viability**: what has been read begins a file. -/
theorem Valid.viable [Inhabited α] {st : List (Frame α)} {u : List (Terminal × α)}
    (h : Valid st u) : ∃ (d : Ast α) (w : List (Terminal × α)), d.IsFile ∧ d.tokens = u ++ w := by
  cases h with
  | nil =>
    obtain ⟨g, v, hg⟩ := exists_grows (α := α) .sourceFile
    obtain ⟨d, w, hd, ht⟩ := Valid.nil.exists_isFile next?_start hg
    exact ⟨d, v ++ w, hd, by simp [ht]⟩
  | push below next grows => exact below.exists_isFile next grows

end ScenarioSyntax.Automaton
