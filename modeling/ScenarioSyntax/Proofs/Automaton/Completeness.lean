import ScenarioSyntax.Proofs.Automaton.Step

/-!
The automaton reads every derivation: where a construct may begin, its tokens lead to the state
behind it, with the trees that it stands for in the new frame.
-/

namespace ScenarioSyntax.Automaton

open Grammar Table

variable {α : Type}

/-- Wherever the part may begin and whatever may follow it, the automaton reads its trees. -/
def Read (p : Part) (as : List (Ast α)) : Prop :=
  ∀ (st : List (Frame α)) (ts : List (Terminal × α)) (s : StateId),
    next? (top st) p.symbol = some s →
    (∀ n, p.symbol = .nonterminal n → ahead ts ∈ follow n) →
    ∃ g, Steps ⟨st, Ast.tokensAll as ++ ts⟩ ⟨⟨s, g⟩ :: st, ts⟩ ∧ g p.field = as

/-- Behind the first of several parts the automaton sees what may follow it. -/
lemma ahead_mem_firstOf {behind : List Terminal} {R : Part → List (Ast α) → Prop} {u : List Part}
    {as : List (Ast α)} (h : Joined (fun p as => Shows p as ∧ R p as) u as)
    {ts : List (Terminal × α)} (ht : ahead ts ∈ behind) :
    ahead (Ast.tokensAll as ++ ts) ∈ firstOf behind u := by
  cases h with
  | nil => simpa [firstOf] using ht
  | cons head _ =>
    obtain ⟨t, a, us, hu, hm⟩ := tokens_of_shows head.1
    simpa [firstOf, hu] using hm

/-- The parts of an alternative are read one after the other. -/
lemma steps_of_joined {behind : List Terminal} {u : List Part} {as : List (Ast α)}
    (h : Joined (fun p as => Shows p as ∧ Read p as) u as) (hu : followed behind u = true)
    (st : List (Frame α)) (ts : List (Terminal × α)) {q : StateId}
    (hq : walk? (top st) u = some q) (ht : ahead ts ∈ behind) :
    ∃ frs : List (Frame α), Steps ⟨st, Ast.tokensAll as ++ ts⟩ ⟨frs.reverse ++ st, ts⟩ ∧
      frs.length = u.length ∧ top (frs.reverse ++ st) = q ∧
      ∀ (l : Layout) (i : Nat), l.label i (u.map (·.symbol)) = u →
        Growth.joined l i (frs.map (·.growth)) = as := by
  induction h generalizing st with
  | nil =>
    obtain rfl : top st = q := by simpa [walk?] using hq
    exact ⟨[], .refl, rfl, rfl, fun l i _ => rfl⟩
  | @cons p u as bs head tail ih =>
    simp only [followed, Bool.and_eq_true] at hu
    obtain ⟨s, hs, hw⟩ := Option.bind_eq_some_iff.1 hq
    obtain ⟨g, hg, hgf⟩ := head.2 st (Ast.tokensAll bs ++ ts) s hs fun n hn => by
      have := hu.1
      rw [hn] at this
      simpa using List.all_eq_true.1 this _ (ahead_mem_firstOf tail ht)
    obtain ⟨frs, hfrs, hlen, htop, hj⟩ := ih hu.2 (⟨s, g⟩ :: st) hw
    refine ⟨⟨s, g⟩ :: frs, ?_, by simp [hlen], by simpa using htop, fun l i hl => ?_⟩
    · simpa using hg.trans hfrs
    · simp only [List.map_cons, Layout.label, List.cons.injEq] at hl
      have hp : l.field? i = p.field := congrArg Part.field hl.1
      simp [Growth.joined, hp, hgf, hj l (i + 1) hl.2]

/-- A construct is read by reading one of its alternatives and reducing it. -/
lemma steps_of_production {n : Nonterminal} {u : List Part} {as : List (Ast α)}
    (hu : u ∈ productions n) (h : Joined (fun p as => Shows p as ∧ Read p as) u as)
    (st : List (Frame α)) (ts : List (Terminal × α)) {s : StateId}
    (hs : next? (top st) (.nonterminal n) = some s) (ht : ahead ts ∈ follow n) :
    ∃ g : Growth α, Steps ⟨st, Ast.tokensAll as ++ ts⟩ ⟨⟨s, g⟩ :: st, ts⟩ ∧
      ∀ f, g f = if n.isVisible then [.node f n as] else as := by
  obtain ⟨q, hq, hr⟩ := exists_reduce hs hu
  obtain ⟨frs, hfrs, hlen, htop, hj⟩ :=
    steps_of_joined h (followed_of_mem_productions hu) st ts hq ht
  obtain ⟨l, hl, hlab⟩ := hr _ ht
  rw [← htop] at hl
  have hred : reduce (frs.reverse ++ st) n u.length l =
      ⟨s, .construct n l (frs.map (·.growth))⟩ :: st := by
    have hg : goto (top st) n = s := by
      have : (row (top st)).gotos.lookup n = some s := hs
      simp [goto, this]
    have hlen' : frs.reverse.length = u.length := by simpa using hlen
    simp [reduce, ← hlen', hg]
  have hstep : Step ⟨frs.reverse ++ st, ts⟩ ⟨reduce (frs.reverse ++ st) n u.length l, ts⟩ :=
    .reduce hl
  rw [hred] at hstep
  refine ⟨_, hfrs.tail hstep, fun f => ?_⟩
  rw [Growth.construct, hj l 0 hlab]

/-- **Completeness**: the automaton reads whatever a part stands for. -/
theorem read_of_shows {p : Part} {as : List (Ast α)} (h : Shows p as) : Read p as := by
  refine Shows.ind (fun f t a => ?leaf) (fun f n u as hv hu h => ?visible)
    (fun f n u as hv hu h => ?hidden) h
  case leaf =>
    intro st ts s hs _
    simp only [next?] at hs
    split at hs
    · rename_i r hr
      obtain rfl : r = s := by simpa using hs
      exact ⟨.token t a, by simpa using .single (.shift hr), rfl⟩
    · simp at hs
  case visible =>
    intro st ts s hs ht
    obtain ⟨g, hg, hf⟩ := steps_of_production hu h st ts hs (ht n rfl)
    exact ⟨g, by simpa using hg, by simp [hf, hv]⟩
  case hidden =>
    intro st ts s hs ht
    obtain ⟨g, hg, hf⟩ := steps_of_production hu h st ts hs (ht n rfl)
    exact ⟨g, hg, by simp [hf, hv]⟩

/-- The automaton accepts the tokens of every file, and finds the file in them. -/
theorem steps_of_isFile {d : Ast α} (h : d.IsFile) :
    ∃ g, Steps ⟨[], d.tokens⟩ ⟨[⟨9, g⟩], []⟩ ∧ g none = [d] := by
  have hs := shows_of_wellFormed h.wellFormed
  rw [h.part_eq] at hs
  obtain ⟨g, hg, hd⟩ := read_of_shows hs [] [] 9 next?_start (by simp [follow])
  exact ⟨g, by simpa using hg, hd⟩

lemma atRest_accept (g : Growth α) : AtRest (⟨[⟨9, g⟩], []⟩ : Config α) := by
  simp [AtRest, action?_accept]

/-- A token that is not the last thing seen gets shifted. -/
lemma exists_shift {st fin : List (Frame α)} {t : Terminal} {a : α}
    {inp : List (Terminal × α)} (h : Steps ⟨st, (t, a) :: inp⟩ ⟨fin, []⟩) :
    ∃ st' s, action? (top st') t = some (.shift s) ∧
      Steps ⟨⟨s, .token t a⟩ :: st', inp⟩ ⟨fin, []⟩ := by
  generalize hc : (⟨st, (t, a) :: inp⟩ : Config α) = c at h
  induction h using Relation.ReflTransGen.head_induction_on generalizing st with
  | refl => simp at hc
  | head step tail ih =>
    subst hc
    cases step with
    | shift h => exact ⟨st, _, h, tail⟩
    | reduce h => exact ih rfl

/-- The state behind each token of a file looks for the next one. -/
lemma wants_of_steps {st : List (Frame α)} {u inp : List (Terminal × α)} {t : Terminal} {a : α}
    {g : Growth α} (h : Steps ⟨st, u ++ (t, a) :: inp⟩ ⟨[⟨9, g⟩], []⟩) :
    ∃ s r, action? s t = some (.shift r) ∧ wants r (ahead inp) = true := by
  induction u generalizing st with
  | nil =>
    obtain ⟨st', r, hr, htail⟩ := exists_shift h
    refine ⟨_, r, hr, ?_⟩
    rcases htail.cases_head with heq | ⟨c, step, -⟩
    · obtain ⟨⟨⟨rfl, -⟩, -⟩, rfl⟩ : ((r = 9 ∧ _) ∧ st' = []) ∧ inp = [] := by simpa using heq
      rw [ahead_nil, wants, action?_accept]; rfl
    · cases step with
      | shift ha => rw [wants, ahead_cons]; simpa using congrArg Option.isSome ha
      | reduce ha => rw [wants]; simpa using congrArg Option.isSome ha
  | cons x u ih =>
    obtain ⟨st', r, -, htail⟩ := exists_shift (t := x.1) (a := x.2) h
    exact ih htail

theorem wants_of_tokens {d : Ast α} (hd : d.IsFile) {u inp : List (Terminal × α)} {t : Terminal}
    {a : α} (h : d.tokens = u ++ (t, a) :: inp) :
    ∃ s r, action? s t = some (.shift r) ∧ wants r (ahead inp) = true := by
  obtain ⟨g, hg, -⟩ := steps_of_isFile hd
  rw [h] at hg
  exact wants_of_steps hg

/-- **Unambiguity**: the tokens of a file tell the file. -/
theorem eq_of_tokens_eq {d e : Ast α} (hd : d.IsFile) (he : e.IsFile)
    (h : d.tokens = e.tokens) : d = e := by
  obtain ⟨g, hg, hgd⟩ := steps_of_isFile hd
  obtain ⟨g', hg', hge⟩ := steps_of_isFile he
  rw [h] at hg
  obtain rfl : g = g' := by
    simpa using hg.eq_of_atRest hg' (atRest_accept g) (atRest_accept g')
  simpa [hgd] using hge

end ScenarioSyntax.Automaton
