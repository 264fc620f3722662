import Mathlib.Tactic.Common
import ScenarioSyntax.Highlight.Capture
import ScenarioSyntax.Query.Location

/-!
The captures of a tree by the locations of the nodes that they are on. The text of a node is shown
as the captures on the node itself and on its ancestors say.
-/

namespace ScenarioSyntax

open Highlight

namespace Node

mutual

/-- The locations of the node and its descendants, each before its children. -/
def locationsBelow (above : List (Node × Nat)) : Node → List Location
  | mk d cs => ⟨mk d cs, above⟩ :: locationsAll (mk d cs) above 0 cs

/-- The locations at and below children of `p`, the first of them being its `i`-th. -/
def locationsAll (p : Node) (above : List (Node × Nat)) (i : Nat) : List Node → List Location
  | [] => []
  | c :: cs => locationsBelow ((p, i) :: above) c ++ locationsAll p above (i + 1) cs

end

def locations (ν : Node) : List Location := locationsBelow [] ν

end Node

namespace Location

/-- The ancestors on the way to the root. -/
def ancestorsOn : List (Node × Nat) → List Location
  | [] => []
  | (p, _) :: above => ⟨p, above⟩ :: ancestorsOn above

def parentKind (l : Location) : Option Kind := l.parent?.map (·.node.data.kind)

/-- The captures on the node itself. -/
def captures (l : Location) : List Capture := capturesAt l.parentKind l.node.data

/-- The captures on the node and on its ancestors. -/
def coverings (l : Location) : List Capture := (l :: ancestorsOn l.above).flatMap captures

lemma coverings_ofRoot (ν : Node) : (ofRoot ν).coverings = capturesAt none ν.data :=
  List.append_nil _

lemma coverings_child (l : Location) (c : Node) (i : Nat) :
    coverings ⟨c, (l.node, i) :: l.above⟩ =
      capturesAt (some l.node.data.kind) c.data ++ l.coverings := rfl

/-- The location leads from the root to its node, each number being that of the child that leads
on. -/
inductive In (ρ : Node) : Location → Prop
  | root : In ρ (ofRoot ρ)
  | child {l : Location} {c : Node} {i : Nat} (above : In ρ l)
      (get : l.node.children[i]? = some c) : In ρ ⟨c, (l.node, i) :: l.above⟩

end Location

namespace Node

open Location

mutual

lemma capturesBelow_eq (above : List (Node × Nat)) (ν : Node) :
    capturesBelow (parentKind ⟨ν, above⟩) ν =
      (locationsBelow above ν).flatMap Location.captures := by
  cases ν with
  | mk d cs =>
    rw [capturesBelow, locationsBelow, List.flatMap_cons, ← capturesAll_eq (mk d cs) above 0 cs]
    rfl

lemma capturesAll_eq (p : Node) (above : List (Node × Nat)) (i : Nat) (cs : List Node) :
    capturesAll (some p.data.kind) cs = (locationsAll p above i cs).flatMap Location.captures := by
  cases cs with
  | nil => rfl
  | cons c cs =>
    rw [capturesAll, locationsAll, List.flatMap_append, ← capturesBelow_eq ((p, i) :: above) c,
      ← capturesAll_eq p above (i + 1) cs]
    rfl

end

/-- Sorting aside, the captures of a tree are those on its nodes. -/
theorem captures_perm (ρ : Node) :
    (Highlight.captures ρ).Perm (ρ.locations.flatMap Location.captures) := by
  rw [locations, ← capturesBelow_eq [] ρ]
  exact List.mergeSort_perm _ _

lemma getElem?_of_drop_eq_cons {cs ds : List Node} {c : Node} {i : Nat} (h : cs.drop i = c :: ds) :
    cs[i]? = some c ∧ cs.drop (i + 1) = ds := by
  refine ⟨?_, by rw [← List.drop_drop, h, List.drop_one, List.tail_cons]⟩
  rw [← Nat.add_zero i, ← List.getElem?_drop, h]
  rfl

mutual

lemma in_of_mem_locationsBelow {ρ : Node} (above : List (Node × Nat)) (ν : Node)
    (h : In ρ ⟨ν, above⟩) : ∀ l ∈ locationsBelow above ν, In ρ l := by
  cases ν with
  | mk d cs =>
    intro l hl
    rw [locationsBelow, List.mem_cons] at hl
    rcases hl with rfl | hl
    · exact h
    · exact in_of_mem_locationsAll (mk d cs) above 0 cs h rfl l hl

lemma in_of_mem_locationsAll {ρ : Node} (p : Node) (above : List (Node × Nat)) (i : Nat)
    (cs : List Node) (h : In ρ ⟨p, above⟩) (hcs : p.children.drop i = cs) :
    ∀ l ∈ locationsAll p above i cs, In ρ l := by
  cases cs with
  | nil =>
    intro l hl
    simp [locationsAll] at hl
  | cons c cs =>
    intro l hl
    rw [locationsAll, List.mem_append] at hl
    obtain ⟨hget, hrest⟩ := getElem?_of_drop_eq_cons hcs
    rcases hl with hl | hl
    · exact in_of_mem_locationsBelow _ c (.child h hget) l hl
    · exact in_of_mem_locationsAll p above (i + 1) cs h hrest l hl

end

lemma in_of_mem_locations {ρ : Node} {l : Location} (h : l ∈ ρ.locations) : In ρ l :=
  in_of_mem_locationsBelow [] ρ .root l h

end Node

end ScenarioSyntax
