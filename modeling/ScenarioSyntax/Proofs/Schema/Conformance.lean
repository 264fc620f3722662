import Mathlib.Data.List.Find
import ScenarioSyntax.Proofs.Text.RoundTrip
import ScenarioSyntax.Proofs.Tree.Shown
import ScenarioSyntax.Query.Path

/-!
The tree of a text without errors against the schema, and against the rules of the grammar: a field
leads to the child that plays its part in the rule, whatever comments there are.
-/

namespace ScenarioSyntax

open Grammar Schema

namespace Node

/-- The schema has one entry for the type of the node, and the children of the node are what this
entry says. Comments may stand anywhere, but in no field. -/
structure Conforms (ν : Node) : Prop where
  exists_entry : ∃ s, ν.data.kind = .symbol s ∧
    nodeTypes.filter (fun t => t.name = ν.data.kind.name && t.isNamed = ν.isNamed) = [s]
  leaf : ∀ t, ν.data.kind = .symbol (.terminal t) → ν.children = []
  allows : ∀ n, ν.data.kind = .symbol (.nonterminal n) → (shape n).Allows (ν.proper.map role)
  comment : ∀ c ∈ ν.children, c.isComment = true → c.data.field = none

/-- The children besides comments are, one after the other, parts that the rule admits. -/
structure Derives (ν : Node) (n : Nonterminal) (us : List Part) : Prop where
  admits : (rule n).Admits us
  kinds : us.map (fun p => .symbol p.symbol) = ν.proper.map (·.data.kind)

variable {ν : Node}

lemma entries_of_visible {s : Symbol} (hs : s.isVisible = true) :
    nodeTypes.filter (fun t => t.name = s.name && t.isNamed = s.isNamed) = [s] := by
  have key : ∀ s ∈ Symbol.all, s.isVisible = true → (Symbol.all.filter (·.isVisible)).filter
      (fun t => t.name = s.name && t.isNamed = s.isNamed) = [s] := by decide +kernel
  have hmem : s ∈ Symbol.all := by
    cases s with
    | terminal t => cases t <;> decide
    | nonterminal n => cases n <;> decide
  refine List.perm_singleton.1 ?_
  rw [← key s hmem hs]
  exact (List.mergeSort_perm _ _).filter _

namespace Neat

/-- The kind of a neat node is a visible symbol. -/
lemma exists_symbol (h : ν.Neat) : ∃ s, ν.data.kind = .symbol s ∧ s.isVisible = true := by
  cases h with
  | comment e start stop => exact ⟨_, rfl, rfl⟩
  | @token t ht f e start stop =>
    refine ⟨_, rfl, ?_⟩
    simp only [Terminal.isExtra, Bool.or_eq_false_iff, decide_eq_false_iff_not] at ht
    simpa [Symbol.isVisible, Terminal.isVisible] using ht.2
  | construct visible f e start stop children => exact ⟨_, rfl, visible⟩

lemma children (h : ν.Neat) : ∀ c ∈ ν.children, c.Neat := by
  cases h with
  | comment e start stop => simp [Node.children]
  | token ht f e start stop => simp [Node.children]
  | construct visible f e start stop children => exact children

lemma field_eq_none (h : ν.Neat) (hc : ν.isComment = true) : ν.data.field = none := by
  cases h with
  | comment e start stop => rfl
  | token ht f e start stop =>
    obtain rfl : _ = Terminal.comment := by simpa [isComment, data] using hc
    cases ht
  | construct visible f e start stop children => simp [isComment, data] at hc

/-- A construct shows one tree, with what its children show below it. -/
lemma bare_eq {α : Type} (h : ν.Neat) {n : Nonterminal}
    (hk : ν.data.kind = .symbol (.nonterminal n)) (text : Nat → Nat → α) :
    ν.bare text = [.node ν.data.field n (bareAll text ν.children)] := by
  cases h with
  | comment e start stop => cases hk
  | token ht f e start stop => cases hk
  | construct visible f e start stop children => exact bare_nonterminal text rfl hk _

end Neat

/-! ### Looking for a field -/

lemma childBy?_node (l : Location) (P : Node → Bool) :
    (l.childBy? P).map (·.node) = l.node.children.find? P := by
  rw [List.find?_eq_bind_findIdx?_getElem?, Location.childBy?]
  rcases l.node.children.findIdx? P with _ | i
  · rfl
  · simp [Location.child?, Function.comp_def]

lemma step?_field (l : Location) (f : Field) :
    (l.step? (.field f.spelling)).map (·.node) =
      l.node.children.find? (·.data.field = some f) := by
  have hf : Field.ofSpelling? f.spelling = some f := by cases f <;> decide
  rw [Location.step?, hf, Option.bind_some, childBy?_node]

/-- Comments are no obstacle. -/
lemma find?_proper (h : ∀ c ∈ ν.children, c.isComment = true → c.data.field = none) (f : Field) :
    ν.children.find? (·.data.field = some f) = ν.proper.find? (·.data.field = some f) := by
  rw [proper, List.find?_filter]
  refine List.find?_congr fun c hc => ?_
  rcases hcomment : c.isComment with _ | _
  · simp
  · simp [h c hc hcomment]

/-- Children that play their parts are found by them. -/
lemma find?_zip {us : List Part} {cs : List Node} (h : us.map Schema.role = cs.map Node.role)
    (f : Field) : ((us.zip cs).find? (·.1.field = some f)).map (·.2) =
      cs.find? (·.data.field = some f) := by
  induction cs generalizing us with
  | nil => simp
  | cons c cs ih =>
    obtain ⟨u, us, rfl⟩ : ∃ u us', us = u :: us' := List.exists_cons_of_ne_nil (by
      rintro rfl
      cases h)
    simp only [List.map_cons, List.cons.injEq] at h
    have hfield : u.field = c.data.field := congrArg Prod.fst h.1
    by_cases hf : c.data.field = some f
    · simp [hfield, hf]
    · simpa [hfield, hf] using ih h.2

end Node

/-! ### Trees of texts without errors -/

open Node

variable {src : Source}

/-- Below the root there are neat nodes only, which stand for what a file is made of. -/
lemma exists_isFile_of_hasError (h : (parse src).hasError = false) :
    (parse src).toNode.Neat ∧
      ∃ d : Ast Unit, d.IsFile ∧ (parse src).toNode.bare (fun _ _ => ()) = [d] := by
  obtain ⟨m, t, d, -, -, -, hd, -, hbare, hclean, hsym⟩ :=
    Machine.exists_isFile_of_accepted (Token.honest_read src.points) (fun _ _ => ())
      (Prod.ext rfl (accepted_of_hasError h))
  exact ⟨hclean.neat_toNode hsym rfl, d, hd, hbare⟩

/-- The children of a construct play the parts that its rule gives them, and no other parts. -/
lemma exists_derives {ρ ν : Node} (hρ : ρ.Neat) {d : Ast Unit} (hd : d.IsFile)
    (hbare : ρ.bare (fun _ _ => ()) = [d]) (hν : ν ∈ ρ.preorder) {n : Nonterminal}
    (hk : ν.data.kind = .symbol (.nonterminal n)) :
    ∃ us, us.map Schema.role = ν.proper.map Node.role ∧ ∀ vs, ν.Derives n vs ↔ vs = us := by
  obtain ⟨hneat, hwithin⟩ := hρ.of_mem_preorder (fun _ _ => ()) hν
  have hx := hneat.bare_eq hk fun _ _ => ()
  obtain ⟨d', hd', hw⟩ := hwithin _ (by rw [hx]; exact List.mem_singleton_self _)
  obtain rfl : d' = d := by simpa [hbare] using hd'
  have hroles := role_bareAll (fun _ _ => ()) hneat.children
  have hsymbols : ∀ vs : List Part,
      vs.map (fun p => Kind.symbol p.symbol) = ν.proper.map (·.data.kind) ↔
        vs.map (·.symbol) = (bareAll (fun _ _ => ()) ν.children).map (·.part.symbol) := by
    intro vs
    have hkinds := congrArg (List.map Prod.snd) hroles
    rw [List.map_map, List.map_map] at hkinds
    rw [← List.map_inj_right (fun _ _ => Kind.symbol.inj), List.map_map, List.map_map]
    exact Eq.congr_right hkinds.symm
  refine ⟨(bareAll (fun _ _ => ()) ν.children).map Ast.part, ?_, fun vs => ⟨fun h => ?_, ?_⟩⟩
  · rw [List.map_map]
    exact hroles
  · exact hd.parts_eq hw h.admits ((hsymbols vs).1 h.kinds)
  · rintro rfl
    cases hd.wellFormed.of_within hw with
    | node _ admits _ => exact ⟨admits, (hsymbols _).2 (by simp)⟩

/-- **Conformance**: in the tree of a text without errors every node conforms to the schema, and
the children of every construct play the parts that its rule gives them, and no others. Looking for
a field leads to the child that plays this part, if there is one. -/
theorem conforms_of_hasError (src : Source) (h : (parse src).hasError = false) :
    ∀ ν ∈ (parse src).toNode.preorder, ν.Conforms ∧
      ∀ n, ν.data.kind = .symbol (.nonterminal n) →
        ∃ us, (∀ vs, ν.Derives n vs ↔ vs = us) ∧
          ∀ l : Location, l.node = ν → ∀ f, (l.step? (.field f.spelling)).map (·.node) =
            ((us.zip ν.proper).find? (·.1.field = some f)).map (·.2) := by
  intro ν hν
  obtain ⟨hroot, d, hd, hbare⟩ := exists_isFile_of_hasError h
  obtain ⟨hneat, -⟩ := hroot.of_mem_preorder (fun _ _ => ()) hν
  have hcomment : ∀ c ∈ ν.children, c.isComment = true → c.data.field = none :=
    fun c hc => (hneat.children c hc).field_eq_none
  refine ⟨⟨?_, fun t ht => ?_, fun n hn => ?_, hcomment⟩, fun n hn => ?_⟩
  · obtain ⟨s, hs, hv⟩ := hneat.exists_symbol
    refine ⟨s, hs, ?_⟩
    rw [isNamed, hs]
    exact entries_of_visible hv
  · cases hneat with
    | comment e start stop => rfl
    | token _ f e start stop => rfl
    | construct visible f e start stop children => cases ht
  · obtain ⟨us, hus, hderives⟩ := exists_derives hroot hd hbare hν hn
    rw [← hus]
    exact allows_of_admits ((hderives us).2 rfl).admits
  · obtain ⟨us, hus, hderives⟩ := exists_derives hroot hd hbare hν hn
    refine ⟨us, hderives, ?_⟩
    rintro l rfl f
    rw [step?_field, find?_proper hcomment, find?_zip hus]

/-- The parameters of a scenario are found behind a comment. -/
theorem conforms_commented_file : ∃ ν ∈
    (parse (Source.ofString .utf8 "scenario a//\n<b=1>\x7btraffic\x7b\x7d\x7d")).toNode.preorder,
    ν.Conforms ∧ ν.children[2]?.map (·.isComment) = some true ∧
      ∃ us, ν.Derives .scenarioDeclaration us ∧
        ((us.zip ν.proper).find? (·.1.field = some .params)).map (fun x => (x.2.start, x.2.stop)) =
          some (14, 17) := by
  let src := Source.ofString .utf8 "scenario a//\n<b=1>\x7btraffic\x7b\x7d\x7d"
  have h : (parse src).hasError = false := by decide +kernel
  have hfind : ((parse src).toNode.preorder.find? (·.data.kind =
      .symbol (.nonterminal .scenarioDeclaration))).map (fun ν => (ν.children[2]?.map (·.isComment),
        ((Location.ofRoot ν).step? (.field Field.params.spelling)).map
          fun l => (l.node.start, l.node.stop))) = some (some true, some (14, 17)) := by
    decide +kernel
  obtain ⟨ν, hν, heq⟩ := Option.map_eq_some_iff.1 hfind
  obtain ⟨hcomment, hparams⟩ := Prod.mk.inj heq
  have hmem := List.mem_of_find?_eq_some hν
  have hkind : ν.data.kind = .symbol (.nonterminal .scenarioDeclaration) := by
    simpa using List.find?_some hν
  obtain ⟨hconforms, hfields⟩ := conforms_of_hasError src h ν hmem
  obtain ⟨us, hderives, hstep⟩ := hfields _ hkind
  refine ⟨ν, hmem, hconforms, hcomment, us, (hderives us).2 rfl, ?_⟩
  have hnode := congrArg (Option.map fun c => (c.start, c.stop)) (hstep (.ofRoot ν) rfl .params)
  rw [Option.map_map, Option.map_map] at hnode
  exact hnode.symm.trans hparams

end ScenarioSyntax
