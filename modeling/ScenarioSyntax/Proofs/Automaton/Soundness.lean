import ScenarioSyntax.Proofs.Automaton.Step

/-!
Every stack that the automaton builds spells the tokens read so far, symbol by symbol. A reduction
finds an alternative of its construct on top of the stack, and below it a state in which the
construct may begin.
-/

namespace ScenarioSyntax.Automaton

open Grammar Table

variable {α : Type}

/-- Whatever its field, the symbol stands for trees with these tokens. -/
def Grows (x : Symbol) (g : Growth α) (v : List (Terminal × α)) : Prop :=
  ∀ f, Shows ⟨f, x⟩ (g f) ∧ Ast.tokensAll (g f) = v

/-- The stack has been built from the tokens. -/
inductive Valid : List (Frame α) → List (Terminal × α) → Prop
  | nil : Valid [] []
  | push {st : List (Frame α)} {u v : List (Terminal × α)} {x : Symbol} {s : StateId}
      {g : Growth α} (below : Valid st u) (next : next? (top st) x = some s)
      (grows : Grows x g v) : Valid (⟨s, g⟩ :: st) (u ++ v)

/-- The frames stand for the symbols; the last one comes first on both sides. -/
inductive Spells : List Symbol → List (Frame α) → List (Terminal × α) → Prop
  | nil : Spells [] [] []
  | cons {done : List Symbol} {frs : List (Frame α)} {v w : List (Terminal × α)} {x : Symbol}
      {s : StateId} {g : Growth α} (below : Spells done frs v)
      (last : (progress s).done.head? = some x) (grows : Grows x g w) :
      Spells (x :: done) (⟨s, g⟩ :: frs) (v ++ w)

lemma Spells.length_eq {done : List Symbol} {frs : List (Frame α)} {v : List (Terminal × α)}
    (h : Spells done frs v) : frs.length = done.length := by
  induction h with
  | nil => rfl
  | cons _ _ _ ih => simp [ih]

lemma label_append (l : Layout) (i : Nat) (xs ys : List Symbol) :
    l.label i (xs ++ ys) = l.label i xs ++ l.label (i + xs.length) ys := by
  induction xs generalizing i with
  | nil => simp [Layout.label]
  | cons x xs ih =>
    simp only [List.cons_append, Layout.label, ih, List.length_cons]
    congr 3; omega

/-- The trees of the frames, with any fields that their parts may have. -/
lemma Spells.exists_joined {done : List Symbol} {frs : List (Frame α)} {v : List (Terminal × α)}
    (h : Spells done frs v) {u : List Part} (hu : u.map (·.symbol) = done.reverse) :
    ∃ as, Joined Shows u as ∧ Ast.tokensAll as = v := by
  induction h generalizing u with
  | nil =>
    obtain rfl : u = [] := by simpa using hu
    exact ⟨[], .nil, rfl⟩
  | @cons done frs v w x s g _ _ grows ih =>
    rw [List.reverse_cons] at hu
    obtain ⟨u, p, rfl, hu', hp⟩ := List.map_eq_append_iff.1 hu
    obtain ⟨p, rfl, rfl⟩ := List.map_eq_singleton_iff.1 hp
    obtain ⟨as, has, ht⟩ := ih hu'
    exact ⟨as ++ g p.field, has.append (Joined.singleton_iff.2 (grows _).1),
      by rw [Ast.tokensAll_append, ht, (grows _).2]⟩

/-- The trees of the frames, with the fields of a layout. -/
lemma Spells.joined {done : List Symbol} {frs : List (Frame α)} {v : List (Terminal × α)}
    (h : Spells done frs v) (l : Layout) :
    Joined Shows (l.label 0 done.reverse) (Growth.joined l 0 (frs.reverse.map (·.growth))) ∧
      Ast.tokensAll (Growth.joined l 0 (frs.reverse.map (·.growth))) = v := by
  induction h with
  | nil => exact ⟨.nil, rfl⟩
  | @cons done frs v w x s g below _ grows ih =>
    simp only [List.reverse_cons, List.map_append, List.map_cons, List.map_nil, label_append,
      Growth.joined_append, List.length_map, List.length_reverse, below.length_eq,
      Ast.tokensAll_append, ih.2, Layout.label, Growth.joined, List.append_nil]
    exact ⟨ih.1.append (Joined.singleton_iff.2 (grows _).1), by rw [(grows _).2]⟩

/-- A valid stack ends in what has been read of the goal, above a state in which it begins. -/
lemma Valid.split {st : List (Frame α)} {u : List (Terminal × α)} (h : Valid st u)
    {goal : Option Nonterminal} {done : List Symbol} (hr : hasRead (top st) ⟨goal, done⟩ = true) :
    ∃ frs below v w, st = frs ++ below ∧ u = v ++ w ∧ Valid below v ∧ Spells done frs w ∧
      opens (top below) goal = true := by
  induction done generalizing st u with
  | nil => exact ⟨[], st, u, [], rfl, by simp, h, .nil, by simpa [hasRead] using hr⟩
  | cons x done ih =>
    have hp : progress (top st) = ⟨goal, x :: done⟩ := by simpa [hasRead] using hr
    cases h with
    | nil => simp at hp
    | @push st u v y s g below next grows =>
      obtain ⟨g', done', hp', hr'⟩ := progress_of_next next
      rw [top_cons] at hp
      obtain ⟨rfl, rfl, rfl⟩ : g' = goal ∧ y = x ∧ done' = done := by
        simpa [hp'] using hp
      obtain ⟨frs, b, w, w', rfl, rfl, hb, hs, ho⟩ := ih below hr'
      exact ⟨_ :: frs, b, w, w' ++ v, rfl, by simp, hb, .cons hs (by simp [hp']) grows, ho⟩

lemma Valid.eq_nil {st : List (Frame α)} {u : List (Terminal × α)} (h : Valid st u)
    (ht : top st = start) : st = [] ∧ u = [] := by
  cases h with
  | nil => exact ⟨rfl, rfl⟩
  | @push st _ _ x s _ below next _ =>
    obtain ⟨g, done, hp, -⟩ := progress_of_next next
    obtain rfl : s = start := ht
    rw [progress_start] at hp
    cases hp

lemma Grows.token (t : Terminal) (a : α) : Grows (.terminal t) (.token t a) [(t, a)] :=
  fun f => ⟨.leaf f t a, by simp [Growth.token]⟩

/-- What a reduction finds on the stack. -/
theorem Valid.exists_of_reduce {st : List (Frame α)} {u : List (Terminal × α)} (h : Valid st u)
    {a : Terminal} {n : Nonterminal} {k : Nat} {l : Layout}
    (ha : action? (top st) a = some (.reduce n k l)) :
    ∃ done v w, u = v ++ w ∧ done.length = k ∧ Valid (st.drop k) v ∧ Spells done (st.take k) w ∧
      l.label 0 done.reverse ∈ productions n ∧
      next? (top (st.drop k)) (.nonterminal n) = some (goto (top (st.drop k)) n) := by
  obtain ⟨done, hp, rfl, hm⟩ := progress_of_reduce ha
  have hne : done ≠ [] := by
    rintro rfl
    exact ne_nil_of_mem_productions hm rfl
  obtain ⟨frs, below, v, w, rfl, rfl, hb, hs, ho⟩ :=
    h.split (show hasRead (top st) ⟨some n, done⟩ = true by rw [hasRead, if_neg hne]; simp [hp])
  have hlen := hs.length_eq
  have hd : (frs ++ below).drop done.length = below := List.drop_left' hlen
  have ht : (frs ++ below).take done.length = frs := List.take_left' hlen
  exact ⟨done, v, w, rfl, rfl, by rwa [hd], by rwa [ht], hm, by rw [hd]; exact next?_of_opens ho⟩

lemma Grows.of_production {n : Nonterminal} {u : List Part} {as : List (Ast α)}
    (hu : u ∈ productions n) (h : Joined Shows u as) :
    Grows (.nonterminal n) (fun f => if n.isVisible then [.node f n as] else as)
      (Ast.tokensAll as) := by
  intro f
  by_cases hv : n.isVisible
  · simp only [hv, if_true]
    exact ⟨.visible hv hu h, by simp⟩
  · simp only [hv]
    exact ⟨.hidden (by simpa using hv) hu h, rfl⟩

lemma Grows.construct {done : List Symbol} {frs : List (Frame α)} {w : List (Terminal × α)}
    (h : Spells done frs w) {n : Nonterminal} {l : Layout}
    (hm : l.label 0 done.reverse ∈ productions n) :
    Grows (.nonterminal n) (.construct n l (frs.reverse.map (·.growth))) w := by
  obtain ⟨hj, ht⟩ := h.joined l
  exact ht ▸ Grows.of_production hm hj

/-- A step keeps the stack valid, and loses and adds no token. -/
theorem Step.valid {c d : Config α} (h : Step c d) {u : List (Terminal × α)}
    (hc : Valid c.stack u) : ∃ v, Valid d.stack v ∧ v ++ d.input = u ++ c.input := by
  cases h with
  | @shift st t a ts s h =>
    exact ⟨u ++ [(t, a)], .push hc (by simp [next?, h]) (.token t a), by simp⟩
  | @reduce st ts n k l h =>
    obtain ⟨done, v, w, rfl, -, hb, hs, hm, hn⟩ := hc.exists_of_reduce h
    exact ⟨v ++ w, .push hb hn (.construct hs hm), rfl⟩

theorem Steps.valid {c d : Config α} (h : Steps c d) {u : List (Terminal × α)}
    (hc : Valid c.stack u) : ∃ v, Valid d.stack v ∧ v ++ d.input = u ++ c.input := by
  induction h with
  | refl => exact ⟨u, hc, rfl⟩
  | tail _ hs ih =>
    obtain ⟨v, hv, he⟩ := ih
    obtain ⟨w, hw, he'⟩ := hs.valid hv
    exact ⟨w, hw, he'.trans he⟩

lemma Grows.exists_isFile {g : Growth α} {v : List (Terminal × α)}
    (h : Grows (.nonterminal .sourceFile) g v) :
    ∃ d, g none = [d] ∧ d.IsFile ∧ d.tokens = v := by
  obtain ⟨hs, ht⟩ := h none
  have hv : Nonterminal.sourceFile.isVisible = true := rfl
  generalize hg : g none = as at hs ht
  cases hs with
  | visible _ hm hj =>
    exact ⟨_, rfl, ⟨shows_iff.1 (.visible (f := none) hv hm hj), rfl⟩, by simpa using ht⟩
  | hidden hh => simp [hv] at hh

/-- **Soundness**: what is accepted is a file with the tokens read. -/
theorem Valid.isFile_of_accept {st : List (Frame α)} {u : List (Terminal × α)} (h : Valid st u)
    {a : Terminal} (ha : action? (top st) a = some .accept) :
    ∃ s g d, st = [⟨s, g⟩] ∧ g none = [d] ∧ d.IsFile ∧ d.tokens = u := by
  obtain ⟨-, hp⟩ := progress_of_accept ha
  obtain ⟨frs, below, v, w, rfl, rfl, hb, hs, ho⟩ :=
    h.split (show hasRead (top st) ⟨none, [.nonterminal .sourceFile]⟩ = true by simp [hasRead, hp])
  obtain ⟨rfl, rfl⟩ := hb.eq_nil (by simpa [opens] using ho)
  cases hs with
  | @cons done frs v w x s g below _ grows =>
    cases below
    obtain ⟨d, hd, hf, ht⟩ := grows.exists_isFile
    exact ⟨s, g, d, rfl, hd, hf, by simpa using ht⟩

end ScenarioSyntax.Automaton
