import Mathlib.Data.List.Infix
import ScenarioSyntax.Proofs.Highlight.Locations
import ScenarioSyntax.Proofs.Tree.Shown
import ScenarioSyntax.Query.Cursor
import ScenarioSyntax.Query.Path
import ScenarioSyntax.Query.Range

/-!
Finding the way in a tree. A cursor always stands on a node of the tree, and numbers the nodes as
they come in preorder. The smallest node around a stretch of text holds it, and the child that
reaches far enough does not.
-/

namespace ScenarioSyntax

namespace Node

lemma preorderAll_append (cs ds : List Node) :
    preorderAll (cs ++ ds) = preorderAll cs ++ preorderAll ds := by
  induction cs with
  | nil => rfl
  | cons c cs ih => rw [List.cons_append, preorderAll, ih, preorderAll, List.append_assoc]

lemma sizeAll_append (cs ds : List Node) : sizeAll (cs ++ ds) = sizeAll cs + sizeAll ds := by
  induction cs with
  | nil => simp [sizeAll]
  | cons c cs ih => rw [List.cons_append, sizeAll, ih, sizeAll, Nat.add_assoc]

mutual

lemma length_preorder (ν : Node) : ν.preorder.length = ν.size := by
  cases ν with
  | mk d cs => rw [preorder, List.length_cons, length_preorderAll cs, size]

lemma length_preorderAll (cs : List Node) : (preorderAll cs).length = sizeAll cs := by
  cases cs with
  | nil => rfl
  | cons c cs =>
    rw [preorderAll, List.length_append, length_preorder c, length_preorderAll cs, sizeAll]

end

end Node

/-! ### The cursor -/

namespace Location

open Node

variable {ρ : Node} {l : Location}

lemma index_child (l : Location) (c : Node) (i : Nat) :
    index ⟨c, (l.node, i) :: l.above⟩ = sizeAll (l.node.children.take i) + 1 + l.index := rfl

namespace In

lemma child? (h : In ρ l) {i : Nat} {m : Location} (hm : l.child? i = some m) : In ρ m := by
  obtain ⟨c, hc, rfl⟩ := Option.map_eq_some_iff.1 hm
  exact .child h hc

lemma parent? (h : In ρ l) {m : Location} (hm : l.parent? = some m) : In ρ m := by
  cases h with
  | root => cases hm
  | child above get =>
    obtain rfl := Option.some.inj hm
    exact above

lemma nextSibling? (h : In ρ l) {m : Location} (hm : l.nextSibling? = some m) : In ρ m := by
  cases h with
  | root => cases hm
  | child above get =>
    obtain ⟨c, hc, rfl⟩ := Option.map_eq_some_iff.1 hm
    exact .child above hc

lemma lastChild? (h : In ρ l) {m : Location} (hm : l.lastChild? = some m) : In ρ m := by
  unfold Location.lastChild? at hm
  split at hm
  · cases hm
  · exact h.child? hm

lemma attempt (h : In ρ l) {target : Option Location} (ht : ∀ m, target = some m → In ρ m) :
    In ρ (l.attempt target).2 := by
  cases target with
  | none => exact h
  | some m => exact ht m rfl

lemma root_eq (h : In ρ l) : l.root = ρ := by
  induction h with
  | root => rfl
  | @child l c i above get ih =>
    rw [Location.root, List.getLast?_cons, Option.map_some, Option.getD_some] at *
    rcases hlast : l.above.getLast? with _ | x <;> simpa [hlast] using ih

/-- What is at and below the node stands together in preorder. -/
lemma preorder_prefix (h : In ρ l) : l.node.preorder <+: ρ.preorder.drop l.index := by
  induction h with
  | root => exact List.prefix_rfl
  | @child l c i above get ih =>
    have hlt := (List.getElem?_eq_some_iff.1 get).1
    have hchildren : l.node.children =
        l.node.children.take i ++ c :: l.node.children.drop (i + 1) := by
      rw [← (List.getElem?_eq_some_iff.1 get).2, ← List.drop_eq_getElem_cons hlt,
        List.take_append_drop]
    have hall : preorderAll l.node.children = preorderAll (l.node.children.take i) ++
        (c.preorder ++ preorderAll (l.node.children.drop (i + 1))) := by
      conv_lhs => rw [hchildren]
      rw [preorderAll_append, preorderAll]
    have hdrop : l.node.preorder.drop (sizeAll (l.node.children.take i) + 1) =
        c.preorder ++ preorderAll (l.node.children.drop (i + 1)) := by
      rw [preorder_eq, List.drop_succ_cons, hall, ← length_preorderAll, List.drop_left]
    rw [index_child, Nat.add_comm, ← List.drop_drop]
    exact List.IsPrefix.trans ⟨_, hdrop.symm⟩ (ih.drop _)

/-- The number of a location is the number of its node in preorder. -/
theorem getElem?_preorder (h : In ρ l) : ρ.preorder[l.index]? = some l.node := by
  obtain ⟨u, hu⟩ := h.preorder_prefix
  have hhead := congrArg (·[0]?) hu
  rw [preorder_eq, List.getElem?_drop] at hhead
  exact hhead.symm

end In

mutual

/-- Going to a node by its number leads there. -/
lemma in_of_ofIndex? {above : List (Node × Nat)} {k : Nat} {ν : Node} (h : In ρ ⟨ν, above⟩)
    (hl : ofIndex? above k ν = some l) : In ρ l ∧ l.index = index ⟨ν, above⟩ + k := by
  cases ν with
  | mk d cs =>
    cases k with
    | zero =>
      obtain rfl := Option.some.inj hl
      exact ⟨h, rfl⟩
    | succ k =>
      have hall := in_of_ofIndexAll? (p := .mk d cs) h rfl hl
      refine ⟨hall.1, ?_⟩
      rw [hall.2, List.take_zero, sizeAll]
      omega

lemma in_of_ofIndexAll? {p : Node} {above : List (Node × Nat)} {i k : Nat} {cs : List Node}
    (h : In ρ ⟨p, above⟩) (hcs : p.children.drop i = cs)
    (hl : ofIndexAll? p above i k cs = some l) :
    In ρ l ∧ l.index = sizeAll (p.children.take i) + 1 + index ⟨p, above⟩ + k := by
  cases cs with
  | nil => cases hl
  | cons c cs =>
    obtain ⟨hget, hrest⟩ := getElem?_of_drop_eq_cons hcs
    rw [ofIndexAll?] at hl
    split at hl
    · exact in_of_ofIndex? (.child h hget) hl
    · rename_i hk
      obtain ⟨hat, hindex⟩ := in_of_ofIndexAll? h hrest hl
      refine ⟨hat, ?_⟩
      rw [hindex, List.take_add_one, hget, Option.toList_some, sizeAll_append, sizeAll, sizeAll]
      omega

end

mutual

/-- Every number below the size of a tree belongs to a node. -/
lemma isSome_ofIndex? (above : List (Node × Nat)) {k : Nat} {ν : Node} (hk : k < ν.size) :
    (ofIndex? above k ν).isSome = true := by
  cases ν with
  | mk d cs =>
    cases k with
    | zero => rfl
    | succ k =>
      rw [size] at hk
      exact isSome_ofIndexAll? _ above 0 (by omega)

lemma isSome_ofIndexAll? (p : Node) (above : List (Node × Nat)) (i : Nat) {k : Nat}
    {cs : List Node} (hk : k < sizeAll cs) : (ofIndexAll? p above i k cs).isSome = true := by
  cases cs with
  | nil => exact absurd hk (Nat.not_lt_zero k)
  | cons c cs =>
    rw [sizeAll] at hk
    rw [ofIndexAll?]
    split
    · exact isSome_ofIndex? _ (by assumption)
    · exact isSome_ofIndexAll? p above (i + 1) (by omega)

end

/-- **A move** stays in the tree. -/
theorem In.move (src : Source) (h : In ρ l) (m : Motion) : In ρ (l.move src m).2 := by
  cases m with
  | firstChild => exact h.attempt fun _ => h.child?
  | lastChild => exact h.attempt fun _ => h.lastChild?
  | nextSibling => exact h.attempt fun _ => h.nextSibling?
  | parent => exact h.attempt fun _ => h.parent?
  | childAtByte b =>
    rw [Location.move]
    rcases ht : (l.node.children.findIdx? fun c => b ≤ src.byte c.stop).bind l.child? with _ | m
    · simpa [ht] using h
    · obtain ⟨i, -, hm⟩ := Option.bind_eq_some_iff.1 ht
      simpa [ht] using h.child? hm
  | descendant k =>
    rw [Location.move, h.root_eq]
    rcases hm : ofIndex? [] k ρ with _ | m
    · exact .root
    · exact (in_of_ofIndex? .root hm).1

/-- **The cursor** stands on a node of the tree all the time, and its index is the number of this
node in preorder; it can be sent to every number. -/
theorem walk_in (src : Source) (ρ : Node) (ms : List Motion) :
    (∀ x ∈ (ofRoot ρ).walk src ms, In ρ x.2 ∧ ρ.preorder[x.2.index]? = some x.2.node) ∧
    ∀ l k, In ρ l → k < ρ.size → (l.move src (.descendant k)).2.index = k := by
  constructor
  · have hwalk : ∀ l, In ρ l → ∀ x ∈ l.walk src ms, In ρ x.2 := by
      induction ms with
      | nil => simp [walk]
      | cons m ms ih =>
        intro l hl x hx
        rcases List.mem_cons.1 hx with rfl | hx
        · exact hl.move src m
        · exact ih _ (hl.move src m) x hx
    exact fun x hx => ⟨hwalk _ .root x hx, (hwalk _ .root x hx).getElem?_preorder⟩
  · intro l k hl hk
    obtain ⟨m, hm⟩ := Option.isSome_iff_exists.1 (isSome_ofIndex? [] hk)
    rw [Location.move, hl.root_eq, hm, Option.getD_some, (in_of_ofIndex? .root hm).2]
    exact Nat.zero_add k

/-! ### Paths -/

lemma In.step? (h : In ρ l) {s : Step} {m : Location} (hm : l.step? s = some m) : In ρ m := by
  cases s with
  | field f =>
    obtain ⟨f, -, hf⟩ := Option.bind_eq_some_iff.1 hm
    unfold childBy? at hf
    split at hf
    · exact h.child? hf
    · cases hf
  | parent => exact h.parent? hm
  | named k =>
    obtain ⟨i, -, hi⟩ := Option.bind_eq_some_iff.1 hm
    exact h.child? hi
  | child k => exact h.child? hm

/-- **A path** leads to a node of the tree, or the number of its first step that leads nowhere is
told. -/
theorem follow_in (h : In ρ l) (i : Nat) (path : List Step) :
    (∃ m, l.follow i path = .ok m ∧ In ρ m) ∨
      ∃ u s v m, path = u ++ s :: v ∧ l.follow i u = .ok m ∧ In ρ m ∧ m.step? s = none ∧
        l.follow i path = .error (i + u.length) := by
  induction path generalizing l i with
  | nil => exact .inl ⟨l, rfl, h⟩
  | cons s path ih =>
    rcases hs : l.step? s with _ | m
    · exact .inr ⟨[], s, path, l, rfl, rfl, h, hs, by simp [follow, hs]⟩
    · have hfollow : ∀ q, l.follow i (s :: q) = m.follow (i + 1) q := fun q => by
        simp only [follow, hs]
      rw [hfollow]
      rcases ih (h.step? hs) (i + 1) with hok | ⟨u, s', v, n, rfl, hu, hn, hnone, herr⟩
      · exact .inl hok
      · refine .inr ⟨s :: u, s', v, n, rfl, by rw [hfollow, hu], hn, hnone, ?_⟩
        rw [herr, List.length_cons, Nat.add_assoc, Nat.add_comm 1]

end Location

/-! ### Nodes around a stretch of text -/

namespace Node

variable {α : Type} (src : Source) (g : Gauge α) (p : Node → Bool) (a b : α)

/-- The node begins at the beginning of the stretch or before, and reaches to its end. -/
def holds (ν : Node) : Bool :=
  !g.before a (g.locate (src.place ν.start)) && ν.reaches src g a b

/-- No child of the node with the property is reached on the way to the stretch. -/
def Ends (ν : Node) : Prop :=
  ∀ c, ν.children.find? (·.reaches src g a b) = some c → p c = true →
    g.before a (g.locate (src.place c.start)) = true

mutual

/-- The way down ends at the last node with the property. -/
lemma around_cases (last ν : Node) :
    (around src g p a b last ν = last ∧ ν.Ends src g p a b) ∨
      (around src g p a b last ν ∈ preorderAll ν.children ∧
        p (around src g p a b last ν) = true ∧ (around src g p a b last ν).holds src g a b = true ∧
        (around src g p a b last ν).Ends src g p a b) := by
  cases ν with
  | mk d cs => exact aroundAll_cases last cs

lemma aroundAll_cases (last : Node) (cs : List Node) :
    (aroundAll src g p a b last cs = last ∧
      ∀ c, cs.find? (·.reaches src g a b) = some c → p c = true →
        g.before a (g.locate (src.place c.start)) = true) ∨
      (aroundAll src g p a b last cs ∈ preorderAll cs ∧
        p (aroundAll src g p a b last cs) = true ∧
        (aroundAll src g p a b last cs).holds src g a b = true ∧
        (aroundAll src g p a b last cs).Ends src g p a b) := by
  cases cs with
  | nil => exact .inl ⟨rfl, by simp⟩
  | cons c cs =>
    rw [aroundAll, preorderAll, preorder_eq]
    by_cases hreach : c.reaches src g a b = true
    · by_cases hstart : g.before a (g.locate (src.place c.start)) = true
      · refine .inl ⟨by simp [hreach, hstart], fun c' hc' _ => ?_⟩
        obtain rfl : c = c' := by simpa [hreach] using hc'
        exact hstart
      · have hc := around_cases (if p c then c else last) c
        rw [if_pos hreach, if_neg hstart]
        by_cases hp : p c = true
        · rw [if_pos hp] at hc ⊢
          right
          rcases hc with ⟨heq, hends⟩ | ⟨hmem, hrest⟩
          · rw [heq]
            exact ⟨by simp, hp, by simp [holds, hstart, hreach], hends⟩
          · exact ⟨by simp [hmem], hrest⟩
        · rw [if_neg hp] at hc ⊢
          rcases hc with ⟨heq, -⟩ | ⟨hmem, hrest⟩
          · refine .inl ⟨heq, fun c' hc' hp' => ?_⟩
            obtain rfl : c = c' := by simpa [hreach] using hc'
            exact absurd hp' hp
          · exact .inr ⟨by simp [hmem], hrest⟩
    · rw [if_neg hreach, List.find?_cons_of_neg (by simpa using hreach)]
      rcases aroundAll_cases last cs with hlast | ⟨hmem, hrest⟩
      · exact .inl hlast
      · exact .inr ⟨by simp [hmem], hrest⟩

end

/-- **The smallest node** around a stretch of text holds the stretch, unless it is the root; and the
first of its children that reaches far enough begins behind the beginning of the stretch. If only
named nodes are wanted, it is named, and the others do not count. -/
theorem smallest_holds (namedOnly : Bool) (root : Node) :
    let ν := root.smallest src g namedOnly a b
    (ν = root ∨ ν ∈ preorderAll root.children ∧ (namedOnly = true → ν.isNamed = true) ∧
      ν.holds src g a b = true) ∧
    ∀ c, ν.children.find? (·.reaches src g a b) = some c → (namedOnly = true → c.isNamed = true) →
      g.before a (g.locate (src.place c.start)) = true := by
  have hp : ∀ c : Node, (!namedOnly || c.isNamed) = true ↔
      (namedOnly = true → c.isNamed = true) := by
    cases namedOnly <;> simp
  intro ν
  rcases around_cases src g (fun n => !namedOnly || n.isNamed) a b root root with
    ⟨heq, hends⟩ | ⟨hmem, hnamed, hholds, hends⟩
  · have hν : ν = root := heq
    rw [hν]
    exact ⟨.inl rfl, fun c hc hn => hends c hc ((hp c).2 hn)⟩
  · exact ⟨.inr ⟨hmem, (hp ν).1 hnamed, hholds⟩, fun c hc hn => hends c hc ((hp c).2 hn)⟩

end Node

end ScenarioSyntax
