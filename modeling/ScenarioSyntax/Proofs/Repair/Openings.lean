import ScenarioSyntax.Proofs.Repair.Trees

/-!
Every scenario opens with the same tokens, up to the brace of its first block. None of them is ever
made up, so a tree for a file has them from the text.
-/

namespace ScenarioSyntax

open Automaton Grammar Table

/-- The text can be read to its end, each token for some state, and tokens of these kinds are among
those that are read, in this order. -/
def Mentions (ks : List Terminal) (points : List Int) : Prop :=
  ∃ ts q s, Chain (Token.read points) 0 ts q ∧
    (Token.read points s q).kind? = some .endOfText ∧ ks.Sublist (ts.filterMap (·.kind?))

/-! ### The tokens at the beginning -/

/-- The tokens up to the first block of a scenario. -/
def Terminal.header : List Terminal :=
  [.kwScenario, .identifier, .leftBrace, .kwTraffic, .leftBrace]

/-- The tokens of the header that a tree for the symbol begins with. -/
def Symbol.opening : Symbol → List Terminal
  | .terminal k => if k ∈ Terminal.header then [k] else []
  | .nonterminal .trafficBlock => [.kwTraffic, .leftBrace]
  | .nonterminal .scenarioDeclaration => Terminal.header
  | .nonterminal .sourceFile => Terminal.header
  | .nonterminal _ => []

/-- Each alternative of a construct has the tokens that the construct opens with. -/
lemma opening_sublist {n : Nonterminal} {u : List Part} (hu : u ∈ productions n) :
    (Symbol.nonterminal n).opening.Sublist (u.flatMap (·.symbol.opening)) := by
  have key : ∀ n ∈ Nonterminal.all, ∀ u ∈ productions n,
      (Symbol.nonterminal n).opening.Sublist (u.flatMap (·.symbol.opening)) := by
    decide +kernel
  exact key n (by cases n <;> decide) u hu

/-- Behind a token of the header no state can be reduced. -/
def holdsHeader (r : Row) : Bool :=
  r.actions.all fun (k, a) =>
    match a with
    | .shift q => !Terminal.header.contains k || Terminal.all.all fun t => !reduces q t
    | _ => true

lemma holdsHeader_rows : (rows.toList.zipIdx.all fun (r, _) => holdsHeader r) = true := by
  decide +kernel

lemma Terminal.Supplied.notMem_header {k : Terminal} (h : k.Supplied) : k ∉ header := by
  obtain ⟨s, q, t, hnext, hreduces⟩ := h
  intro hk
  simp only [next?] at hnext
  split at hnext
  · rename_i q' ha
    obtain rfl : q' = q := Option.some.inj hnext
    have hmem := action?_eq ha (by simp)
    rcases row_cases (P := fun _ => holdsHeader) holdsHeader_rows s with hs | hs
    · have hall := List.all_eq_true.1 hs _ hmem
      have hcontains : header.contains k = true := List.contains_iff_mem.2 hk
      simp only [hcontains, Bool.not_true, Bool.false_or] at hall
      have hnot := List.all_eq_true.1 hall t (by cases t <;> decide)
      rw [hreduces] at hnot
      cases hnot
    · rw [hs] at hmem
      cases hmem
  · cases hnext

namespace Tree

variable {points : List Int}

mutual

/-- A tree for a symbol has the tokens that the symbol opens with. -/
lemma Lies.exists_opening {t : Tree} {p q : Nat} (h : t.Lies points p q) :
    ∃ as, Chain (Token.read points) p as q ∧
      ∀ x, t.shape? = some x → x.opening.Sublist (as.filterMap (·.kind?)) := by
  match t with
  | token k s e =>
    obtain ⟨-, -, rfl, st, hleaf⟩ := h
    obtain ⟨hkind, hspan⟩ := Token.span_eq_of_leaf hleaf
    refine ⟨[Token.read points st p], hspan ▸ .cons st (.nil _), fun x hx => ?_⟩
    obtain rfl : .terminal k = x := Option.some.inj hx
    rw [List.filterMap_cons_some hkind, Symbol.opening]
    split
    · exact List.Sublist.refl _
    · exact List.nil_sublist _
  | missing k i =>
    obtain ⟨hsupplied, -, rfl⟩ := h
    refine ⟨[], .nil p, fun x hx => ?_⟩
    obtain rfl : .terminal k = x := Option.some.inj hx
    rw [Symbol.opening, if_neg hsupplied.notMem_header]
    exact List.Sublist.refl _
  | stray s c =>
    obtain ⟨rfl, st, hleaf⟩ := h
    have hspan : (Token.read points st p).span = s := by rw [Lookahead.span, hleaf]
    exact ⟨[Token.read points st p], hspan ▸ .cons st (.nil _), fun x hx => by cases hx⟩
  | node (.rule n l) cs =>
    obtain ⟨hcs, ys, hys, hmem⟩ := lies_node.1 h
    obtain ⟨as, hchain, hopening⟩ := LiesAll.exists_opening hcs
    refine ⟨as, hchain, fun x hx => ?_⟩
    obtain rfl : .nonterminal n = x := Option.some.inj hx
    have hsublist := opening_sublist hmem
    rw [← List.flatMap_map, map_symbol_label] at hsublist
    exact hsublist.trans (hopening ys hys)
  | node (.error aside) cs =>
    obtain ⟨as, hchain, -⟩ := LiesAll.exists_opening (lies_node.1 h).1
    exact ⟨as, hchain, fun x hx => by cases hx⟩
  | node .skipped cs =>
    obtain ⟨as, hchain, -⟩ := LiesAll.exists_opening (lies_node.1 h).1
    exact ⟨as, hchain, fun x hx => by cases hx⟩

lemma LiesAll.exists_opening {ts : List Tree} {p q : Nat} (h : LiesAll points ts p q) :
    ∃ as, Chain (Token.read points) p as q ∧ ∀ ys : List Symbol, shapes ts = ys.map some →
      (ys.flatMap Symbol.opening).Sublist (as.filterMap (·.kind?)) := by
  match ts with
  | [] =>
    obtain rfl : p = q := h
    refine ⟨[], .nil p, fun ys hys => ?_⟩
    obtain rfl : ys = [] := List.map_eq_nil_iff.1 hys.symm
    exact List.Sublist.refl _
  | t :: ts =>
    obtain ⟨m, ht, hts⟩ := h
    obtain ⟨as, hchain, hopening⟩ := Lies.exists_opening ht
    obtain ⟨bs, hchain', hopening'⟩ := LiesAll.exists_opening hts
    refine ⟨as ++ bs, hchain.append hchain', fun ys hys => ?_⟩
    rw [List.filterMap_append]
    by_cases hextra : t.isExtra = true
    · rw [shapes_cons_extra hextra] at hys
      exact (hopening' ys hys).trans (List.sublist_append_right ..)
    · rw [shapes_cons (by simpa using hextra)] at hys
      obtain ⟨y, ys, rfl, hy, hys⟩ := List.map_eq_cons_iff.1 hys.symm
      rw [List.flatMap_cons]
      exact (hopening y hy.symm).append (hopening' ys hys.symm)

end

end Tree

end ScenarioSyntax
