import ScenarioSyntax.Proofs.Automaton.Step
import ScenarioSyntax.Tree.Node

/-!
The abstract syntax tree that a tree shows when its comments are left out.
-/

namespace ScenarioSyntax

open Automaton

variable {α : Type}

namespace Node

mutual

/-- `text` says what is kept of the text of a token. -/
def bare (text : Nat → Nat → α) : Node → List (Ast α)
  | mk d cs =>
    if d.extra then []
    else
      match d.kind with
      | .symbol (.terminal t) => [.leaf d.field t (text d.start d.stop)]
      | .symbol (.nonterminal n) => [.node d.field n (bareAll text cs)]
      | .error => []

def bareAll (text : Nat → Nat → α) : List Node → List (Ast α)
  | [] => []
  | n :: ns => n.bare text ++ bareAll text ns

end

variable (text : Nat → Nat → α)

@[simp] lemma bareAll_nil : bareAll text [] = [] := by simp [bareAll]

@[simp] lemma bareAll_cons (n : Node) (ns : List Node) :
    bareAll text (n :: ns) = n.bare text ++ bareAll text ns := by simp [bareAll]

@[simp] lemma bareAll_append (ms ns : List Node) :
    bareAll text (ms ++ ns) = bareAll text ms ++ bareAll text ns := by
  induction ms with
  | nil => simp
  | cons m ms ih => simp [ih, List.append_assoc]

lemma bare_of_extra {d : NodeData} (h : d.extra = true) (cs : List Node) :
    (mk d cs).bare text = [] := by simp [bare, h]

lemma bare_terminal {d : NodeData} (h : d.extra = false) {t : Terminal}
    (hk : d.kind = .symbol (.terminal t)) (cs : List Node) :
    (mk d cs).bare text = [.leaf d.field t (text d.start d.stop)] := by simp [bare, h, hk]

lemma bare_nonterminal {d : NodeData} (h : d.extra = false) {n : Nonterminal}
    (hk : d.kind = .symbol (.nonterminal n)) (cs : List Node) :
    (mk d cs).bare text = [.node d.field n (bareAll text cs)] := by simp [bare, h, hk]

end Node

namespace Tree

variable (text : Nat → Nat → α)

/-- What a tree stands for, given its field. -/
def growth (t : Tree) : Growth α := fun f => Node.bareAll text (t.view f).nodes

lemma growth_token {t : Terminal} (h : t ≠ .endOfText) (s : Span) :
    (token t s false).growth text = Growth.token t (text s.start s.stop) := by
  funext f
  have hv : t.isVisible = true := by simpa [Terminal.isVisible] using h
  simp [growth, view, hv, Node.bare, Growth.token]

/-- Comments and other asides stand for nothing. -/
lemma growth_of_isExtra {t : Tree} (h : t.isExtra = true) (f : Option Field) :
    t.growth text f = [] := by
  match t, h with
  | token k s true, _ =>
    by_cases hv : k.isVisible <;> simp [growth, view, hv, Node.bare]
  | node (.error true) cs, _ => simp [growth, view, View.wrap, Node.bare]

@[simp] lemma nodes_append (v w : View) : (v.append w).nodes = v.nodes ++ w.nodes := rfl

lemma bareAll_viewAll (l : Layout) (i : Nat) (cs : List Tree) :
    Node.bareAll text (viewAll l i cs).nodes =
      Growth.joined l i ((cs.filter fun t => !t.isExtra).map (growth text)) := by
  induction cs generalizing i with
  | nil => simp [viewAll, View.empty, Growth.joined]
  | cons t cs ih =>
    by_cases h : t.isExtra
    · have := growth_of_isExtra text h none
      simp only [growth] at this
      simp [viewAll, h, ih, this]
    · simp [viewAll, h, ih, Growth.joined, growth]

lemma growth_node (n : Nonterminal) (l : Layout) (cs : List Tree) :
    (node (.rule n l) cs).growth text =
      Growth.construct n l ((cs.filter fun t => !t.isExtra).map (growth text)) := by
  funext f
  rw [Growth.construct, ← bareAll_viewAll]
  simp only [growth]
  by_cases h : n.isVisible
  · simp [view, h, View.wrap, Node.bare]
  · simp [view, h]

end Tree

end ScenarioSyntax
