import ScenarioSyntax.Proofs.Highlight.Locations
import ScenarioSyntax.Proofs.Tree.Shown
import ScenarioSyntax.Tree.Sexp

/-!
What a tree shows besides the places of its nodes: the list of the nodes, each before its children,
and the tree as text.
-/

namespace ScenarioSyntax

/-- What a node shows besides its place. -/
def NodeData.unplaced (d : NodeData) : NodeData := { d with start := 0, stop := 0 }

/-- The depth of a node, its field, its kind and its flags. -/
def Location.entry (l : Location) : Nat × NodeData := (l.depth, l.node.data.unplaced)

namespace Node

def outline (ν : Node) : List (Nat × NodeData) := ν.locations.map Location.entry

mutual

/-- The node with all places taken to be 0. -/
def unplaced : Node → Node
  | mk d cs => mk d.unplaced (unplacedAll cs)

def unplacedAll : List Node → List Node
  | [] => []
  | n :: ns => n.unplaced :: unplacedAll ns

end

@[simp] lemma unplacedAll_append (ms ns : List Node) :
    unplacedAll (ms ++ ns) = unplacedAll ms ++ unplacedAll ns := by
  induction ms with
  | nil => rfl
  | cons m ms ih => rw [List.cons_append, unplacedAll, unplacedAll, ih]; rfl

mutual

lemma map_entry_locationsBelow {above above' : List (Node × Nat)} (h : above.length = above'.length)
    (ν : Node) : (locationsBelow above ν.unplaced).map Location.entry =
      (locationsBelow above' ν).map Location.entry := by
  cases ν with
  | mk d cs =>
    rw [unplaced, locationsBelow, locationsBelow, List.map_cons, List.map_cons,
      map_entry_locationsAll _ (mk d cs) 0 h cs, Location.entry, Location.entry, Location.depth,
      Location.depth, h]
    rfl

lemma map_entry_locationsAll {above above' : List (Node × Nat)} (p p' : Node) (i : Nat)
    (h : above.length = above'.length) (cs : List Node) :
    (locationsAll p above i (unplacedAll cs)).map Location.entry =
      (locationsAll p' above' i cs).map Location.entry := by
  cases cs with
  | nil => rfl
  | cons c cs =>
    have hlength : ((p, i) :: above).length = ((p', i) :: above').length := by simp [h]
    rw [unplacedAll, locationsAll, locationsAll, List.map_append, List.map_append,
      map_entry_locationsAll p p' (i + 1) h cs, map_entry_locationsBelow hlength c]

end

/-- The outline does not depend on places. -/
theorem outline_unplaced (ν : Node) : ν.unplaced.outline = ν.outline :=
  map_entry_locationsBelow rfl ν

lemma sexpAll_unplacedAll {cs : List Node} (h : ∀ c ∈ cs, c.unplaced.sexp = c.sexp) :
    sexpAll (unplacedAll cs) = sexpAll cs := by
  induction cs with
  | nil => rfl
  | cons c cs ih =>
    rw [unplacedAll, sexpAll, sexpAll, h c List.mem_cons_self,
      ih fun c hc => h c (List.mem_cons_of_mem _ hc)]
    cases c
    rfl

/-- Nor does the text of a tree without errors. -/
theorem Neat.sexp_unplaced {ν : Node} (h : ν.Neat) : ν.unplaced.sexp = ν.sexp := by
  induction h with
  | comment e start stop => rfl
  | token ht f e start stop => rfl
  | construct visible f e start stop children ih =>
    rw [unplaced, sexp, sexp]
    simp only [NodeData.unplaced, sexpAll_unplacedAll ih]

end Node

lemma Location.In.mem_preorder {ρ : Node} {l : Location} (h : In ρ l) : l.node ∈ ρ.preorder := by
  induction h with
  | root => exact Node.mem_preorder_self ρ
  | child above get ih => exact Node.mem_preorder_child ih (List.mem_of_getElem? get)

/-! ### Trees without places -/

def View.unplaced (v : View) : View := ⟨v.span.map fun _ => ⟨0, 0, 0⟩, Node.unplacedAll v.nodes⟩

namespace Tree

mutual

/-- The tree with all places taken to be 0. -/
def unplaced : Tree → Tree
  | token k _ extra => token k ⟨0, 0, 0⟩ extra
  | missing k _ => missing k 0
  | stray _ c => stray ⟨0, 0, 0⟩ c
  | node l cs => node l (unplacedAll cs)

def unplacedAll : List Tree → List Tree
  | [] => []
  | t :: ts => t.unplaced :: unplacedAll ts

end

lemma unplacedAll_eq (ts : List Tree) : unplacedAll ts = ts.map unplaced := by
  induction ts with
  | nil => rfl
  | cons t ts ih => rw [unplacedAll, ih]; rfl

@[simp] lemma isExtra_unplaced (t : Tree) : t.unplaced.isExtra = t.isExtra := by
  rcases t with _ | _ | _ | ⟨_ | _ | _, cs⟩ <;> rfl

mutual

lemma hasError_unplaced (t : Tree) : t.unplaced.hasError = t.hasError := by
  rcases t with _ | _ | _ | ⟨_ | _ | _, cs⟩
  case node.rule => exact anyError_unplacedAll cs
  all_goals rfl

lemma anyError_unplacedAll (ts : List Tree) : anyError (unplacedAll ts) = anyError ts := by
  cases ts with
  | nil => rfl
  | cons t ts => rw [unplacedAll, anyError, anyError, hasError_unplaced t, anyError_unplacedAll ts]

end

lemma append_unplaced (v w : View) : (v.append w).unplaced = v.unplaced.append w.unplaced := by
  obtain ⟨_ | s, ns⟩ := v <;> obtain ⟨_ | t, ms⟩ := w <;>
    simp [View.append, View.unplaced, Span.join]

lemma wrap_unplaced (v : View) (k : Kind) (f : Option Field) (extra hasError : Bool) :
    (v.wrap k f extra hasError).unplaced = v.unplaced.wrap k f extra hasError := by
  obtain ⟨_ | s, ns⟩ := v <;> rfl

mutual

/-- What a tree shows does not depend on places, but for the places that it shows. -/
theorem view_unplaced (f : Option Field) (t : Tree) : t.unplaced.view f = (t.view f).unplaced := by
  match t with
  | token k s extra =>
    rw [unplaced, view, view]
    split <;> rfl
  | missing k p => rfl
  | stray s c => rfl
  | node (.rule n l) cs =>
    rw [unplaced, view, view, viewAll_unplaced l 0 cs, anyError_unplacedAll]
    split
    · rw [wrap_unplaced]
    · rfl
  | node (.error aside) cs =>
    rw [unplaced, view, view, viewAll_unplaced .plain 0 cs, wrap_unplaced]
  | node .skipped cs =>
    rw [unplaced, view, view, viewAll_unplaced .plain 0 cs]

lemma viewAll_unplaced (l : Layout) (i : Nat) (ts : List Tree) :
    viewAll l i (unplacedAll ts) = (viewAll l i ts).unplaced := by
  match ts with
  | [] => rfl
  | t :: ts =>
    rw [unplacedAll, viewAll, viewAll, isExtra_unplaced]
    split
    · rw [view_unplaced none t, viewAll_unplaced l i ts, append_unplaced]
    · rw [view_unplaced _ t, viewAll_unplaced l (i + 1) ts, append_unplaced]

end

lemma toNode_unplaced (t : Tree) : t.unplaced.toNode = t.toNode.unplaced := by
  rw [toNode, toNode, view_unplaced]
  obtain ⟨s, ns⟩ := t.view none
  rcases ns with _ | ⟨n, _ | ⟨m, ns⟩⟩ <;> rfl

/-- Trees that differ in places only have the same outline and the same text. -/
theorem outline_eq_of_unplaced {t u : Tree} (h : t.unplaced = u.unplaced) :
    t.toNode.outline = u.toNode.outline := by
  rw [← Node.outline_unplaced, ← Node.outline_unplaced u.toNode, ← toNode_unplaced, h,
    toNode_unplaced]

theorem sexp_eq_of_unplaced {t u : Tree} (h : t.unplaced = u.unplaced) (ht : t.toNode.Neat)
    (hu : u.toNode.Neat) : t.toNode.sexp = u.toNode.sexp := by
  rw [← ht.sexp_unplaced, ← hu.sexp_unplaced, ← toNode_unplaced, h, toNode_unplaced]

end Tree

end ScenarioSyntax
