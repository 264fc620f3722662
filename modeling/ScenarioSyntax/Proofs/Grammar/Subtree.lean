import ScenarioSyntax.Proofs.Automaton.Completeness

/-!
The trees within a tree. As a file can be read in one way only, so can each part of it, down to
the parts that the children of every node play.
-/

namespace ScenarioSyntax

open Grammar Automaton

namespace Ast

variable {α : Type} {x d : Ast α}

/-- A tree is found in another one. -/
inductive Within (x : Ast α) : Ast α → Prop
  | refl : Within x x
  | child {c : Ast α} (f : Option Field) (n : Nonterminal) {cs : List (Ast α)} (mem : c ∈ cs)
      (within : Within x c) : Within x (node f n cs)

lemma WellFormed.of_within (hd : d.WellFormed) (hx : x.Within d) : x.WellFormed := by
  induction hx with
  | refl => exact hd
  | child f n mem _ ih =>
    cases hd with
    | node _ _ children => exact ih (children _ mem)

/-- A tree within another one may be replaced by one that plays the same part. -/
lemma exists_replaced (hx : x.Within d) (hd : d.WellFormed) {x' : Ast α} (hx' : x'.WellFormed)
    (hpart : x'.part = x.part) (htok : x'.tokens = x.tokens) :
    ∃ d' : Ast α, d'.WellFormed ∧ d'.part = d.part ∧ d'.tokens = d.tokens ∧ (d' = d → x' = x) := by
  induction hx with
  | refl => exact ⟨x', hx', hpart, htok, id⟩
  | @child c f n cs mem _ ih =>
    cases hd with
    | node visible admits children =>
      obtain ⟨c', hc', hp, ht, heq⟩ := ih (children c mem)
      obtain ⟨l, r, rfl⟩ := List.append_of_mem mem
      refine ⟨node f n (l ++ c' :: r), .node visible ?_ fun a ha => ?_, rfl, ?_, fun h => ?_⟩
      · simpa [hp] using admits
      · rcases List.mem_append.1 ha with ha | ha
        · exact children a (by simp [ha])
        · rcases List.mem_cons.1 ha with rfl | ha
          · exact hc'
          · exact children a (by simp [ha])
      · simp [ht]
      · refine heq ?_
        simpa using h

/-- The same tree in another part. -/
def withField (f : Option Field) : Ast α → Ast α
  | leaf _ t a => leaf f t a
  | node _ n cs => node f n cs

@[simp] lemma part_withField (f : Option Field) (x : Ast α) :
    (x.withField f).part = ⟨f, x.part.symbol⟩ := by
  cases x <;> rfl

@[simp] lemma tokens_withField (f : Option Field) (x : Ast α) :
    (x.withField f).tokens = x.tokens := by
  cases x <;> simp [withField]

lemma WellFormed.withField (h : x.WellFormed) (f : Option Field) : (x.withField f).WellFormed := by
  cases h with
  | leaf _ t a => exact .leaf f t a
  | node visible admits children => exact .node visible admits children

/-- The same trees in other parts. -/
lemma exists_withFields {us : List Part} {cs : List (Ast α)}
    (h : us.map (·.symbol) = cs.map (·.part.symbol)) (hcs : ∀ c ∈ cs, c.WellFormed) :
    ∃ cs' : List (Ast α), cs'.map part = us ∧ tokensAll cs' = tokensAll cs ∧
      ∀ c ∈ cs', c.WellFormed := by
  induction cs generalizing us with
  | nil => exact ⟨[], by simpa using h.symm, rfl, by simp⟩
  | cons c cs ih =>
    obtain ⟨u, us, rfl⟩ : ∃ u us', us = u :: us' := List.exists_cons_of_ne_nil (by
      rintro rfl
      cases h)
    simp only [List.map_cons, List.cons.injEq] at h
    obtain ⟨cs', hp, ht, hw⟩ := ih h.2 fun a ha => hcs a (by simp [ha])
    refine ⟨c.withField u.field :: cs', ?_, by simp [ht], ?_⟩
    · simp [hp, ← h.1]
    · intro a ha
      rcases List.mem_cons.1 ha with rfl | ha
      · exact (hcs c (by simp)).withField _
      · exact hw a ha

/-- **Parts are unique**: the children of a node of a file play no other parts than they do. -/
theorem IsFile.parts_eq (hd : d.IsFile) {f : Option Field} {n : Nonterminal} {cs : List (Ast α)}
    (hx : (node f n cs).Within d) {us : List Part} (hus : (rule n).Admits us)
    (hsymbols : us.map (·.symbol) = cs.map (·.part.symbol)) : us = cs.map part := by
  cases hd.wellFormed.of_within hx with
  | node visible _ children =>
    obtain ⟨cs', rfl, ht, hw⟩ := exists_withFields hsymbols children
    have hx' : (node f n cs').WellFormed := .node visible hus hw
    obtain ⟨d', hd', hp, htok, heq⟩ :=
      exists_replaced hx hd.wellFormed hx' rfl (by simpa using ht)
    have hfile : d'.IsFile := ⟨hd', hp.trans hd.part_eq⟩
    obtain rfl : cs' = cs := by simpa using heq (eq_of_tokens_eq hfile hd htok)
    rfl

end Ast

end ScenarioSyntax
