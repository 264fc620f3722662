import ScenarioSyntax.Proofs.Highlight.Locations
import ScenarioSyntax.Proofs.Machine.Tight
import ScenarioSyntax.Proofs.Schema.Conformance

/-!
Highlighting is total and unambiguous: in the tree of a text without errors every word and every
sign is shown in one style, by a rule for itself or by one for the construct around it.
-/

namespace ScenarioSyntax

open Grammar Highlight

namespace Highlight

/-- The styles of the rules that apply to a node. -/
def stylesAt (parent : Option Kind) (k : Kind) (f : Option Field) : List Style :=
  (rules.filter (·.selector.applies parent ⟨k, f, .plain, false, false, 0, 0⟩)).map (·.style)

/-- The styles that a construct gives to all that it consists of. -/
def stylesOn (n : Nonterminal) : List Style := stylesAt none (.symbol (.nonterminal n)) none

/-- The style of a name by the part that it plays. -/
def nameStyle : Nonterminal → Field → Option Style
  | .scenarioDeclaration, .name => some .type
  | .streamStatement, .stream => some .variableName
  | .injectionCase, .stream => some .variableName
  | .sequenceBlock, .entity => some .variableName
  | .expectStatement, .rule => some .function
  | .annotationItem, .key => some .attribute
  | .predicate, .key => some .property
  | _, _ => none

lemma nameStyle_notMem {n : Nonterminal} {f : Field} {σ : Style} (h : nameStyle n f = some σ) :
    σ ∉ [.keyword, .builtinFunction, .builtinProperty, .boolean] := by
  unfold nameStyle at h
  split at h <;> cases h <;> decide

lemma map_style_capturesAt (parent : Option Kind) (d : NodeData) :
    (capturesAt parent d).map (·.style) = stylesAt parent d.kind d.field := by
  have happlies : ∀ s : Selector,
      s.applies parent ⟨d.kind, d.field, .plain, false, false, 0, 0⟩ = s.applies parent d := by
    intro s
    cases s <;> rfl
  simp only [capturesAt, stylesAt, happlies]
  generalize rules = rs
  generalize 0 = i
  induction rs generalizing i with
  | nil => rfl
  | cons r rs ih =>
    by_cases h : r.selector.applies parent d
    · simp [List.zipIdx_cons, h, ih]
    · simp [List.zipIdx_cons, h, ih]

lemma stylesAt_congr {p q : Option Kind} {k : Kind} {f g : Option Field}
    (h : ∀ s : Selector, s.applies p ⟨k, f, .plain, false, false, 0, 0⟩ =
      s.applies q ⟨k, g, .plain, false, false, 0, 0⟩) : stylesAt p k f = stylesAt q k g := by
  simp only [stylesAt, h]

/-- What surrounds a construct has no say in it. -/
lemma stylesAt_nonterminal (parent : Option Kind) (n : Nonterminal) (f : Option Field) :
    stylesAt parent (.symbol (.nonterminal n)) f = stylesOn n :=
  stylesAt_congr fun s => by cases s <;> simp [Selector.applies]

/-- A comment is shown as a comment wherever it stands. -/
lemma stylesAt_comment (parent : Option Kind) :
    stylesAt parent (.symbol (.terminal .comment)) none = [.comment] := by
  have hnone : stylesAt none (.symbol (.terminal .comment)) none = [.comment] := by decide
  rw [← hnone]
  exact stylesAt_congr fun s => by cases s <;> simp [Selector.applies]

/-! ### The rules of highlighting against the rules of the grammar -/

/-- The styles of a token that plays a part in a construct. -/
def stylesOf (n : Nonterminal) (f : Option Field) (t : Terminal) : List Style :=
  stylesAt (some (.symbol (.nonterminal n))) (.symbol (.terminal t)) f ++ stylesOn n

/-- A construct within another one gets no style from it. A token has one style, and the path of a
declaration two; a name has the style of the part that it plays. -/
def fits (n : Nonterminal) (p : Part) : Bool :=
  match p.symbol with
  | .nonterminal _ => stylesOn n = []
  | .terminal t =>
    (if n = .useDeclaration && t = .string then stylesOf n p.field t = [.specialString, .string]
      else (stylesOf n p.field t).length = 1) &&
    (t != .identifier || (stylesOn n = [] &&
      (p.field.bind (nameStyle n)).toList = stylesOf n p.field t))

lemma fits_rules :
    (Nonterminal.all.all fun n => (rule n).parts.all (fits n)) = true := by decide +kernel

lemma fits_of_mem_parts {n : Nonterminal} {p : Part} (h : p ∈ (rule n).parts) : fits n p = true :=
  List.all_eq_true.1 (List.all_eq_true.1 fits_rules n (mem_all n)) p h

lemma stylesOn_of_mem_parts {n m : Nonterminal} {f : Option Field}
    (h : ⟨f, .nonterminal m⟩ ∈ (rule n).parts) : stylesOn n = [] := by
  simpa [fits] using fits_of_mem_parts h

lemma stylesOf_of_mem_parts {n : Nonterminal} {f : Option Field} {t : Terminal}
    (h : ⟨f, .terminal t⟩ ∈ (rule n).parts) :
    (n = .useDeclaration → t = .string → stylesOf n f t = [.specialString, .string]) ∧
      (n ≠ .useDeclaration ∨ t ≠ .string → (stylesOf n f t).length = 1) ∧
      (t = .identifier → stylesOn n = [] ∧
        ∃ g σ, f = some g ∧ nameStyle n g = some σ ∧ stylesOf n f t = [σ]) := by
  have hfits := fits_of_mem_parts h
  simp only [fits, Bool.and_eq_true, Bool.or_eq_true, bne_iff_ne, decide_eq_true_eq] at hfits
  obtain ⟨hstyles, hname⟩ := hfits
  refine ⟨fun hn ht => ?_, fun hne => ?_, fun ht => ?_⟩
  · simpa [hn, ht] using hstyles
  · rw [if_neg (fun hand => by simp [hand.1, hand.2] at hne)] at hstyles
    simpa using hstyles
  · obtain ⟨hon, hlist⟩ := hname.resolve_left (by simp [ht])
    have hlength : (stylesOf n f t).length = 1 := by
      rw [if_neg (by simp [ht])] at hstyles
      simpa using hstyles
    rcases hσ : f.bind (nameStyle n) with _ | σ
    · rw [← hlist, hσ] at hlength
      cases hlength
    · obtain ⟨g, hg, hgσ⟩ := Option.bind_eq_some_iff.1 hσ
      exact ⟨hon, g, σ, hg, hgσ, by rw [← hlist, hσ]; rfl⟩

/-- What a construct with a style of its own consists of is one token. -/
lemma most_of_stylesOn {n : Nonterminal} (h : stylesOn n ≠ []) :
    (rule n).most (fun _ => true) = some 1 ∧ n ≠ .sourceFile := by
  have key : ∀ n ∈ Nonterminal.all, stylesOn n ≠ [] →
      (rule n).most (fun _ => true) = some 1 ∧ n ≠ .sourceFile := by decide
  exact key n (mem_all n) h

lemma least_of_isVisible {n : Nonterminal} (h : n.isVisible = true) :
    0 < (rule n).least fun _ => true := by
  have key : ∀ n ∈ Nonterminal.all, n.isVisible = true → 0 < (rule n).least fun _ => true := by
    decide
  exact key n (mem_all n) h

end Highlight

/-! ### Nodes of a file -/

namespace Node

/-- The root of a tree without errors. -/
structure IsFile (ρ : Node) : Prop where
  neat : ρ.Neat
  exists_bare : ∃ d : Ast Unit, d.IsFile ∧ ρ.bare (fun _ _ => ()) = [d]
  tight : ∀ c ∈ ρ.children, c.Tight

lemma Neat.exists_construct {ν c : Node} (h : ν.Neat) (hc : c ∈ ν.children) :
    ∃ n, ν.data.kind = .symbol (.nonterminal n) := by
  cases h with
  | comment e start stop => cases hc
  | token ht f e start stop => cases hc
  | construct visible f e start stop children => exact ⟨_, rfl⟩

namespace IsFile

variable {ρ ν c : Node} {n : Nonterminal}

lemma kind_eq (h : ρ.IsFile) : ρ.data.kind = .symbol (.nonterminal .sourceFile) := by
  obtain ⟨d, hd, hbare⟩ := h.exists_bare
  have hpart := hd.part_eq
  cases h.neat with
  | comment e start stop => simp [bare] at hbare
  | @token t ht f e start stop =>
    rw [bare_terminal _ rfl rfl, List.cons.injEq] at hbare
    rw [← hbare.1] at hpart
    cases hpart
  | @construct n visible f e start stop cs children =>
    rw [bare_nonterminal _ rfl rfl, List.cons.injEq] at hbare
    rw [← hbare.1] at hpart
    cases hpart
    rfl

lemma neat_of_mem (h : ρ.IsFile) (hν : ν ∈ ρ.preorder) : ν.Neat :=
  (h.neat.of_mem_preorder (fun _ _ => ()) hν).1

/-- The children of a construct besides comments play parts of its rule. -/
lemma exists_parts (h : ρ.IsFile) (hν : ν ∈ ρ.preorder)
    (hk : ν.data.kind = .symbol (.nonterminal n)) :
    ∃ us, (rule n).Admits us ∧ us.map Schema.role = ν.proper.map role := by
  obtain ⟨d, hd, hbare⟩ := h.exists_bare
  obtain ⟨us, hus, hderives⟩ := exists_derives h.neat hd hbare hν hk
  exact ⟨us, ((hderives us).2 rfl).admits, hus⟩

lemma exists_part (h : ρ.IsFile) (hν : ν ∈ ρ.preorder)
    (hk : ν.data.kind = .symbol (.nonterminal n)) (hc : c ∈ ν.children)
    (hcomment : c.isComment = false) :
    ∃ p ∈ (rule n).parts, c.data.field = p.field ∧ c.data.kind = .symbol p.symbol := by
  obtain ⟨us, hadmits, hus⟩ := h.exists_parts hν hk
  have hmem : role c ∈ ν.proper.map role :=
    List.mem_map_of_mem (List.mem_filter.2 ⟨hc, by simp [hcomment]⟩)
  rw [← hus, List.mem_map] at hmem
  obtain ⟨p, hp, hrole⟩ := hmem
  exact ⟨p, hadmits.mem_parts p hp, (congrArg Prod.fst hrole).symm, (congrArg Prod.snd hrole).symm⟩

/-- A construct is no leaf. -/
lemma children_ne_nil (h : ρ.IsFile) (hν : ν ∈ ρ.preorder)
    (hk : ν.data.kind = .symbol (.nonterminal n)) (hn : n.isVisible = true) :
    ν.children ≠ [] := by
  intro hnil
  obtain ⟨us, hadmits, hus⟩ := h.exists_parts hν hk
  have hle := hadmits.least_le (P := fun _ => true)
  have hpos := Highlight.least_of_isVisible hn
  obtain rfl : us = [] := by simpa [proper, hnil] using hus
  simp only [List.countP_nil] at hle
  omega

/-- There is no comment in a construct with a style of its own. -/
lemma isComment_of_stylesOn (h : ρ.IsFile) (hν : ν ∈ ρ.preorder)
    (hk : ν.data.kind = .symbol (.nonterminal n)) (ht : ν.Tight) (hs : stylesOn n ≠ [])
    (hc : c ∈ ν.children) : c.isComment = false := by
  obtain ⟨us, hadmits, hus⟩ := h.exists_parts hν hk
  have hle := hadmits.countP_le (most_of_stylesOn hs).1
  have hlength : us.length = ν.proper.length := by simpa using congrArg List.length hus
  rw [List.countP_eq_length_filter, List.filter_true, hlength] at hle
  cases ht with
  | leaf d => cases hc
  | node d enclosed children =>
    by_contra hcomment
    have htwo := enclosed.two_le_length hc (by simpa using hcomment)
    rw [proper] at hle
    exact absurd (htwo.trans hle) (by decide)

end IsFile

end Node

/-! ### Locations of a file -/

namespace Location

variable {ρ : Node} {l : Location}

/-- The nodes above a construct give it no style. -/
structure Sound (ρ : Node) (l : Location) : Prop where
  mem : l.node ∈ ρ.preorder
  tight : l.node = ρ ∨ l.node.Tight
  styles : ∀ n, l.node.data.kind = .symbol (.nonterminal n) →
    l.coverings.map (·.style) = stylesOn n

lemma sound_ofRoot (ρ : Node) : Sound ρ (ofRoot ρ) where
  mem := Node.mem_preorder_self ρ
  tight := .inl rfl
  styles := by
    intro n hk
    rw [coverings_ofRoot, map_style_capturesAt]
    have hkind : ρ.data.kind = .symbol (.nonterminal n) := hk
    rw [hkind, stylesAt_nonterminal]

/-- The styles at a child of a construct. -/
lemma Sound.map_style_child (h : Sound ρ l) {n : Nonterminal}
    (hk : l.node.data.kind = .symbol (.nonterminal n)) (c : Node) (i : Nat) :
    (coverings ⟨c, (l.node, i) :: l.above⟩).map (·.style) =
      stylesAt (some (.symbol (.nonterminal n))) c.data.kind c.data.field ++ stylesOn n := by
  rw [coverings_child, List.map_append, map_style_capturesAt, h.styles n hk, hk]

lemma Sound.child (hρ : ρ.IsFile) (h : Sound ρ l) {c : Node} (hc : c ∈ l.node.children) (i : Nat) :
    Sound ρ ⟨c, (l.node, i) :: l.above⟩ where
  mem := Node.mem_preorder_child h.mem hc
  tight := by
    right
    rcases h.tight with heq | ht
    · exact hρ.tight c (heq ▸ hc)
    · exact ht.of_mem hc
  styles := by
    intro m hm
    have hm : c.data.kind = .symbol (.nonterminal m) := hm
    obtain ⟨n, hk⟩ := (hρ.neat_of_mem h.mem).exists_construct hc
    obtain ⟨⟨f, s⟩, hp, -, hs⟩ := hρ.exists_part h.mem hk hc (by simp [Node.isComment, hm])
    obtain rfl : .nonterminal m = s := Kind.symbol.inj (hm.symm.trans hs)
    rw [h.map_style_child hk, hm, stylesAt_nonterminal, stylesOn_of_mem_parts hp, List.append_nil]

theorem sound_of_in (hρ : ρ.IsFile) (h : In ρ l) : Sound ρ l := by
  induction h with
  | root => exact sound_ofRoot ρ
  | child _ get ih => exact ih.child hρ (List.mem_of_getElem? get) _

/-- One capture covers a leaf, and two cover the path of a declaration. A name is shown by its
part. -/
structure Lit (l : Location) : Prop where
  path : l.node.data.kind = .symbol (.terminal .string) →
    l.parentKind = some (.symbol (.nonterminal .useDeclaration)) →
    l.coverings.map (·.style) = [.specialString, .string]
  single : l.node.data.kind ≠ .symbol (.terminal .string) ∨
    l.parentKind ≠ some (.symbol (.nonterminal .useDeclaration)) → ∃ c, l.coverings = [c]
  name : l.node.data.kind = .symbol (.terminal .identifier) →
    ∃ n f σ, l.parentKind = some (.symbol (.nonterminal n)) ∧ l.node.data.field = some f ∧
      nameStyle n f = some σ ∧ l.captures.map (·.style) = [σ] ∧ l.coverings.map (·.style) = [σ]

/-- A comment stands in constructs without a style of their own. -/
lemma Sound.lit_comment (hρ : ρ.IsFile) (h : Sound ρ l) {n : Nonterminal}
    (hk : l.node.data.kind = .symbol (.nonterminal n)) {c : Node} (hc : c ∈ l.node.children)
    (hcomment : c.isComment = true) (i : Nat) : Lit ⟨c, (l.node, i) :: l.above⟩ := by
  have hkind : c.data.kind = .symbol (.terminal .comment) := by
    simpa [Node.isComment] using hcomment
  have hmem := Node.mem_preorder_child h.mem hc
  have hfield := (hρ.neat_of_mem hmem).field_eq_none hcomment
  have hon : stylesOn n = [] := by
    by_contra hs
    rcases h.tight with heq | ht
    · rw [heq, hρ.kind_eq] at hk
      cases hk
      exact (most_of_stylesOn hs).2 rfl
    · rw [hρ.isComment_of_stylesOn h.mem hk ht hs hc] at hcomment
      cases hcomment
  have hstyles := h.map_style_child hk c i
  rw [hkind, hfield, stylesAt_comment, hon, List.append_nil] at hstyles
  obtain ⟨x, hx, -⟩ := List.map_eq_singleton_iff.1 hstyles
  refine ⟨fun hstring => ?_, fun _ => ⟨x, hx⟩, fun hid => ?_⟩
  · rw [hkind] at hstring
    cases hstring
  · rw [hkind] at hid
    cases hid

lemma Sound.lit_token (hρ : ρ.IsFile) (h : Sound ρ l) {n : Nonterminal}
    (hk : l.node.data.kind = .symbol (.nonterminal n)) {c : Node} (hc : c ∈ l.node.children)
    (hcomment : c.isComment = false) {t : Terminal} (ht : c.data.kind = .symbol (.terminal t))
    (i : Nat) : Lit ⟨c, (l.node, i) :: l.above⟩ := by
  obtain ⟨⟨f, s⟩, hp, hfield, hs⟩ := hρ.exists_part h.mem hk hc hcomment
  obtain rfl : .terminal t = s := Kind.symbol.inj (ht.symm.trans hs)
  have hstyles : (coverings ⟨c, (l.node, i) :: l.above⟩).map (·.style) = stylesOf n f t := by
    rw [h.map_style_child hk, ht, hfield, stylesOf]
  have hparent : parentKind ⟨c, (l.node, i) :: l.above⟩ = some (.symbol (.nonterminal n)) :=
    congrArg some hk
  obtain ⟨hpath, hsingle, hname⟩ := stylesOf_of_mem_parts hp
  refine ⟨fun hstring huse => ?_, fun hne => ?_, fun hid => ?_⟩
  · rw [hparent] at huse
    rw [ht] at hstring
    rw [hstyles]
    exact hpath (by simpa using huse) (by simpa using hstring)
  · rw [ht, hparent] at hne
    have hlength := hsingle (by simpa [or_comm] using hne)
    rw [← hstyles, List.length_map] at hlength
    exact List.length_eq_one_iff.1 hlength
  · rw [ht] at hid
    obtain ⟨hon, g, σ, rfl, hσ, hof⟩ := hname (by simpa using hid)
    refine ⟨n, g, σ, hparent, hfield, hσ, ?_, hstyles.trans hof⟩
    rw [stylesOf, hon, List.append_nil] at hof
    rw [captures, map_style_capturesAt, hparent, ht, hfield, hof]

/-- **Every leaf is lit** by one rule, or two for a path. -/
theorem lit_of_in (hρ : ρ.IsFile) (h : In ρ l) (hleaf : l.node.children = []) : l.Lit := by
  cases h with
  | root => exact absurd hleaf (hρ.children_ne_nil (Node.mem_preorder_self ρ) hρ.kind_eq rfl)
  | @child l c i above get =>
    have hc := List.mem_of_getElem? get
    have hsound := sound_of_in hρ above
    have hmem := Node.mem_preorder_child hsound.mem hc
    obtain ⟨n, hk⟩ := (hρ.neat_of_mem hsound.mem).exists_construct hc
    cases hρ.neat_of_mem hmem with
    | comment e start stop => exact hsound.lit_comment hρ hk hc rfl i
    | @token t ht f e start stop =>
      refine hsound.lit_token hρ hk hc ?_ rfl i
      have hne : t ≠ .comment := by
        rintro rfl
        cases ht
      simpa [Node.isComment, Node.data] using hne
    | construct visible f e start stop children =>
      exact absurd hleaf (hρ.children_ne_nil hmem rfl visible)

end Location

/-! ### Texts without errors -/

variable {src : Source}

lemma isFile_of_hasError (h : (parse src).hasError = false) : (parse src).toNode.IsFile := by
  obtain ⟨hneat, d, hd, hbare⟩ := exists_isFile_of_hasError h
  have hs := Token.honest_read src.points
  have hrun : Machine.runText src.points = (_, .accepted (parse src)) :=
    Prod.ext rfl (accepted_of_hasError h)
  obtain ⟨-, -, -, -, -, -, -, -, -, -, hsym⟩ :=
    Machine.exists_isFile_of_accepted hs (fun _ _ => ()) hrun
  have htight := Machine.tight_of_accepted hs hrun
  refine ⟨hneat, ⟨d, hd, hbare⟩, fun c hc => ?_⟩
  obtain ⟨l, ts, heq⟩ := Tree.eq_node_of_symbol? hsym
  rw [heq] at hc htight
  have hmem : c ∈ (Tree.viewAll l 0 ts).nodes := by
    simpa [Tree.toNode, Tree.view, Nonterminal.isVisible, View.wrap, Node.children] using hc
  obtain ⟨t, ht, f, -, hshown⟩ := Tree.mem_viewAll hmem
  rcases htight t ht with htree | hend
  · exact (htree.view f).1 c hshown
  · -- the end of the text shows nothing
    obtain ⟨s, e, rfl⟩ := Tree.eq_token_of_symbol? hend
    simp [Tree.view, Terminal.isVisible] at hshown

/-- **Highlighting** is total and unambiguous in texts without errors: the captures are those on
the nodes, and each leaf is covered by one of them, or by two if it is the path of a declaration.
A name is shown by its part alone, and so never as a word of the language. -/
theorem lit_of_hasError (src : Source) (h : (parse src).hasError = false) :
    (captures (parse src).toNode).Perm ((parse src).toNode.locations.flatMap Location.captures) ∧
      ∀ l ∈ (parse src).toNode.locations, l.node.children = [] → l.Lit ∧
        (l.node.data.kind = .symbol (.terminal .identifier) → ∀ c ∈ l.coverings,
          c.style ∉ [.keyword, .builtinFunction, .builtinProperty, .boolean]) := by
  refine ⟨Node.captures_perm _, fun l hl hleaf => ?_⟩
  have hlit := Location.lit_of_in (isFile_of_hasError h) (Node.in_of_mem_locations hl) hleaf
  refine ⟨hlit, fun hid c hc => ?_⟩
  obtain ⟨n, f, σ, -, -, hσ, -, hstyles⟩ := hlit.name hid
  have hmem : c.style ∈ l.coverings.map (·.style) := List.mem_map_of_mem hc
  rw [hstyles, List.mem_singleton] at hmem
  rw [hmem]
  exact nameStyle_notMem hσ

/-- The name of a scenario may be spelled like a keyword. -/
theorem lit_scenario_use : ∃ src, ∃ l ∈ (parse src).toNode.locations,
    l.node.data.kind = .symbol (.terminal .identifier) ∧
      l.coverings.map (·.style) = [.type] := by
  let src := Source.ofString .utf8 "scenario use\x7btraffic\x7b\x7d\x7d"
  have h : ((parse src).toNode.locations.any fun l =>
      l.node.children.isEmpty && l.node.data.kind = .symbol (.terminal .identifier) &&
        l.node.data.field = some .name &&
        l.parentKind = some (.symbol (.nonterminal .scenarioDeclaration))) = true := by
    decide +kernel
  obtain ⟨l, hl, hall⟩ := List.any_eq_true.1 h
  simp only [Bool.and_eq_true, List.isEmpty_iff, decide_eq_true_eq] at hall
  obtain ⟨⟨⟨hleaf, hid⟩, hfield⟩, hparent⟩ := hall
  have hlit := ((lit_of_hasError src (by decide +kernel)).2 l hl hleaf).1
  obtain ⟨n, f, σ, hn, hf, hσ, -, hstyles⟩ := hlit.name hid
  rw [hparent] at hn
  rw [hfield] at hf
  cases hn
  cases hf
  cases hσ
  exact ⟨src, l, hl, hid, hstyles⟩

end ScenarioSyntax
