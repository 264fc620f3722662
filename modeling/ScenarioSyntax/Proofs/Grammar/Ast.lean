import ScenarioSyntax.Proofs.Grammar.Scenario

/-!
Abstract syntax trees, and when they follow the grammar.

A tree is well formed if the children of each node are what a rule admits. The same trees arise
from the finitely many alternatives of each construct, when a tail is replaced by what it stands
for: `Grammar.shows_iff`.
-/

namespace ScenarioSyntax

open Grammar

/-- Every node knows the part that it plays; `α` is what is kept of a token besides its kind. -/
inductive Ast (α : Type) where
  | leaf (field : Option Field) (t : Terminal) (content : α)
  | node (field : Option Field) (n : Nonterminal) (children : List (Ast α))

namespace Ast

variable {α : Type}

def part : Ast α → Part
  | leaf f t _ => ⟨f, .terminal t⟩
  | node f n _ => ⟨f, .nonterminal n⟩

mutual

def tokens : Ast α → List (Terminal × α)
  | leaf _ t a => [(t, a)]
  | node _ _ cs => tokensAll cs

def tokensAll : List (Ast α) → List (Terminal × α)
  | [] => []
  | c :: cs => c.tokens ++ tokensAll cs

end

@[simp] lemma tokensAll_nil : tokensAll ([] : List (Ast α)) = [] := by simp [tokensAll]

@[simp] lemma tokensAll_cons (c : Ast α) (cs : List (Ast α)) :
    tokensAll (c :: cs) = c.tokens ++ tokensAll cs := by simp [tokensAll]

@[simp] lemma tokens_leaf (f : Option Field) (t : Terminal) (a : α) :
    (leaf f t a).tokens = [(t, a)] := by simp [tokens]

@[simp] lemma tokens_node (f : Option Field) (n : Nonterminal) (cs : List (Ast α)) :
    (node f n cs).tokens = tokensAll cs := by simp [tokens]

@[simp] lemma tokensAll_append (as bs : List (Ast α)) :
    tokensAll (as ++ bs) = tokensAll as ++ tokensAll bs := by
  induction as with
  | nil => simp
  | cons a as ih => simp [ih, List.append_assoc]

/-- The children of every node are admitted by its rule. -/
inductive WellFormed : Ast α → Prop
  | leaf (f : Option Field) (t : Terminal) (a : α) : WellFormed (leaf f t a)
  | node {f : Option Field} {n : Nonterminal} {cs : List (Ast α)} (visible : n.isVisible = true)
      (admits : (rule n).Admits (cs.map part)) (children : ∀ c ∈ cs, WellFormed c) :
      WellFormed (node f n cs)

/-- A whole file, derived from the grammar. -/
structure IsFile (a : Ast α) : Prop where
  wellFormed : a.WellFormed
  part_eq : a.part = ⟨none, .nonterminal .sourceFile⟩

end Ast

namespace Grammar

variable {α : Type}

/-- The trees stand for the parts one after the other, as far as `R` says for a single part. -/
inductive Joined (R : Part → List (Ast α) → Prop) : List Part → List (Ast α) → Prop
  | nil : Joined R [] []
  | cons {p : Part} {u : List Part} {as bs : List (Ast α)} (head : R p as)
      (tail : Joined R u bs) : Joined R (p :: u) (as ++ bs)

namespace Joined

variable {R : Part → List (Ast α) → Prop} {u v : List Part} {as bs : List (Ast α)}

lemma imp {S : Part → List (Ast α) → Prop} (h : ∀ p as, R p as → S p as) (hu : Joined R u as) :
    Joined S u as := by
  induction hu with
  | nil => exact .nil
  | cons head _ ih => exact .cons (h _ _ head) ih

lemma append (hu : Joined R u as) (hv : Joined R v bs) : Joined R (u ++ v) (as ++ bs) := by
  induction hu with
  | nil => simpa using hv
  | cons head _ ih => simpa [List.append_assoc] using cons head ih

lemma singleton_iff {p : Part} : Joined R [p] as ↔ R p as := by
  refine ⟨fun h => ?_, fun h => by simpa using cons h nil⟩
  cases h with
  | cons head tail => cases tail; simpa using head

end Joined

/-- The trees that stand in the text for a part: one tree, or a list of them for a tail. -/
inductive Shows : Part → List (Ast α) → Prop
  | leaf (f : Option Field) (t : Terminal) (a : α) : Shows ⟨f, .terminal t⟩ [.leaf f t a]
  | visible {f : Option Field} {n : Nonterminal} {u : List Part} {as : List (Ast α)}
      (visible : n.isVisible = true) (mem : u ∈ productions n) (all : Joined Shows u as) :
      Shows ⟨f, .nonterminal n⟩ [.node f n as]
  | hidden {f : Option Field} {n : Nonterminal} {u : List Part} {as : List (Ast α)}
      (hidden : n.isVisible = false) (mem : u ∈ productions n) (all : Joined Shows u as) :
      Shows ⟨f, .nonterminal n⟩ as

/-- Induction over the alternatives used. -/
@[elab_as_elim]
theorem Shows.ind {P : Part → List (Ast α) → Prop}
    (leaf : ∀ f t a, P ⟨f, .terminal t⟩ [.leaf f t a])
    (visible : ∀ f n u as, n.isVisible = true → u ∈ productions n →
      Joined (fun p as => Shows p as ∧ P p as) u as → P ⟨f, .nonterminal n⟩ [.node f n as])
    (hidden : ∀ f n u as, n.isVisible = false → u ∈ productions n →
      Joined (fun p as => Shows p as ∧ P p as) u as → P ⟨f, .nonterminal n⟩ as)
    {p : Part} {as : List (Ast α)} (h : Shows p as) : P p as := by
  exact @Shows.rec α (fun p as _ => P p as)
    (fun u as _ => Joined (fun p as => Shows p as ∧ P p as) u as)
    leaf (fun hv hu _ ih => visible _ _ _ _ hv hu ih) (fun hv hu _ ih => hidden _ _ _ _ hv hu ih)
    .nil (fun head _ ih iht => .cons ⟨head, ih⟩ iht) p as h

/-! ### From rules to alternatives -/

/-- What a rule admits is an alternative of it, once lists are folded into tails. -/
lemma exists_alternative {r : Rule} {u : List Part} (h : r.Admits u) (hr : r.tidy = true) :
    ∀ as : List (Ast α), as.map Ast.part = u → (∀ a ∈ as, Shows a.part [a]) →
      ∃ v ∈ r.alternatives, Joined Shows v as := by
  induction h with
  | nothing =>
    intro as hu _
    obtain rfl := List.map_eq_nil_iff.1 hu
    exact ⟨[], by simp [Rule.alternatives], .nil⟩
  | part p =>
    intro as hu ha
    obtain ⟨a, rfl, rfl⟩ := List.map_eq_singleton_iff.1 hu
    exact ⟨_, by simp [Rule.alternatives], .singleton_iff.2 (ha a (by simp))⟩
  | @seq r q u v _ _ ihu ihv =>
    intro as hu ha
    simp only [Rule.tidy, Bool.and_eq_true] at hr
    obtain ⟨as, bs, rfl, h1, h2⟩ := List.map_eq_append_iff.1 hu
    obtain ⟨x, hx, hax⟩ := ihu hr.1 as h1 fun a h => ha a (by simp [h])
    obtain ⟨y, hy, hby⟩ := ihv hr.2 bs h2 fun a h => ha a (by simp [h])
    exact ⟨x ++ y, Rule.mem_alternatives_seq.2 ⟨x, hx, y, hy, rfl⟩, hax.append hby⟩
  | left _ ih =>
    intro as hu ha
    simp only [Rule.tidy, Bool.and_eq_true] at hr
    obtain ⟨v, hv, h⟩ := ih hr.1 as hu ha
    exact ⟨v, by simp [Rule.alternatives, hv], h⟩
  | right _ ih =>
    intro as hu ha
    simp only [Rule.tidy, Bool.and_eq_true] at hr
    obtain ⟨v, hv, h⟩ := ih hr.2 as hu ha
    exact ⟨v, by simp [Rule.alternatives, hv], h⟩
  | absent r =>
    intro as hu _
    obtain rfl := List.map_eq_nil_iff.1 hu
    exact ⟨[], by simp [Rule.alternatives], .nil⟩
  | present _ ih =>
    intro as hu ha
    obtain ⟨v, hv, h⟩ := ih hr as hu ha
    exact ⟨v, by simp [Rule.alternatives, hv], h⟩
  | none t r =>
    intro as hu _
    obtain rfl := List.map_eq_nil_iff.1 hu
    exact ⟨[], by simp [Rule.alternatives], .nil⟩
  | @more t r u v _ _ ihu ihv =>
    intro as hu ha
    have hrt := hr
    simp only [Rule.tidy, Bool.and_eq_true, Bool.not_eq_true', decide_eq_true_eq] at hrt
    obtain ⟨⟨ht, he⟩, hr'⟩ := hrt
    obtain ⟨as, bs, rfl, h1, h2⟩ := List.map_eq_append_iff.1 hu
    obtain ⟨x, hx, hax⟩ := ihu hr' as h1 fun a h => ha a (by simp [h])
    obtain ⟨y, hy, hby⟩ := ihv hr bs h2 fun a h => ha a (by simp [h])
    refine ⟨[⟨none, .nonterminal t⟩], by simp [Rule.alternatives], .singleton_iff.2 ?_⟩
    simp only [Rule.alternatives, List.mem_cons, List.not_mem_nil, or_false] at hy
    rcases hy with rfl | rfl
    · -- the last element
      cases hby
      exact .hidden ht ((mem_productions_of_element he).2 ⟨x, hx, .inl rfl⟩) (by simpa using hax)
    · exact .hidden ht ((mem_productions_of_element he).2 ⟨x, hx, .inr rfl⟩) (hax.append hby)

lemma shows_of_wellFormed {a : Ast α} (h : a.WellFormed) : Shows a.part [a] := by
  induction h with
  | leaf f t a => exact .leaf f t a
  | node visible admits _ ih =>
    obtain ⟨u, hu, h⟩ := exists_alternative admits (tidy_rule _) _ rfl ih
    exact .visible visible (by rwa [productions_of_visible visible]) h

/-! ### From alternatives to rules -/

/-- A part stands for one well-formed tree, and a tail for a list of them. -/
def Stands (p : Part) (as : List (Ast α)) : Prop :=
  (∀ a ∈ as, a.WellFormed) ∧ (p.isShown = true → as.map Ast.part = [p]) ∧
    ∀ n, p.symbol = .nonterminal n → n.isVisible = false → Consists n (as.map Ast.part)

lemma wellFormed_of_joined {u : List Part} {as : List (Ast α)} (h : Joined Stands u as) :
    ∀ a ∈ as, a.WellFormed := by
  induction h with
  | nil => simp
  | cons head _ ih =>
    intro a ha
    rcases List.mem_append.1 ha with ha | ha
    · exact head.1 a ha
    · exact ih a ha

lemma unfolds_of_joined {u : List Part} {as : List (Ast α)} (h : Joined Stands u as) :
    Unfolds u (as.map Ast.part) := by
  induction h with
  | nil => exact .nil
  | @cons p u as bs head _ ih =>
    rw [List.map_append]
    by_cases hp : p.isShown = true
    · rw [head.2.1 hp]
      exact .shown hp ih
    · rcases p with ⟨f, t | n⟩
      · exact absurd rfl hp
      · have hidden : n.isVisible = false := Bool.eq_false_iff.2 hp
        exact .tail hidden (head.2.2 n rfl hidden) ih

lemma stands_of_shows {p : Part} {as : List (Ast α)} (h : Shows p as) : Stands p as := by
  refine Shows.ind (fun f t a => ?leaf) (fun f n u as hv hu h => ?visible)
    (fun f n u as hv hu h => ?hidden) h
  case leaf =>
    exact ⟨by simpa using .leaf f t a, fun _ => rfl, fun n h => by simp at h⟩
  case visible =>
    have h := h.imp fun _ _ h => h.2
    have hadmits := (consists_iff_of_visible hv).1 (consists_of_unfolds hu (unfolds_of_joined h))
    refine ⟨?_, fun _ => rfl, fun m hm hidden => ?_⟩
    · simpa using .node hv hadmits (wellFormed_of_joined h)
    · obtain rfl : n = m := by simpa using hm
      simp [hv] at hidden
  case hidden =>
    have h := h.imp fun _ _ h => h.2
    refine ⟨wellFormed_of_joined h, fun hs => ?_, fun m hm _ => ?_⟩
    · simp [Part.isShown, hv] at hs
    · obtain rfl : n = m := by simpa using hm
      exact consists_of_unfolds hu (unfolds_of_joined h)

/-- Rules and alternatives give rise to the same trees. -/
theorem shows_iff {a : Ast α} : Shows a.part [a] ↔ a.WellFormed :=
  ⟨fun h => (stands_of_shows h).1 a (by simp), shows_of_wellFormed⟩

end Grammar

end ScenarioSyntax
