import ScenarioSyntax.Proofs.Grammar.Count
import ScenarioSyntax.Proofs.Grammar.Scenario
import ScenarioSyntax.Schema.NodeTypes

/-!
What the schema allows as children, and that the rules of the grammar keep to it.
-/

namespace ScenarioSyntax.Schema

open Grammar

/-- As many children as a slot can take, of its types. -/
structure Slot.Takes (s : Slot) (kinds : List Kind) : Prop where
  required : s.required = true → kinds ≠ []
  single : s.multiple = false → kinds.length ≤ 1
  types : ∀ k ∈ kinds, ∃ t ∈ s.types, k = .symbol t

/-- The fields and kinds of the children are those that the schema declares. -/
structure Shape.Allows (s : Shape) (roles : List (Option Field × Kind)) : Prop where
  /-- A required field occurs once, any other one at most once. -/
  declared : ∀ f slot, (f, slot) ∈ s.fields →
    slot.multiple = false ∧ slot.Takes ((roles.filter (·.1 = some f)).map (·.2))
  undeclared : ∀ x ∈ roles, ∀ f, x.1 = some f → ∃ slot, (f, slot) ∈ s.fields
  others : ∀ slot, s.others = some slot →
    slot.Takes ((roles.filter fun x => x.1 = none && x.2.isNamed).map (·.2))
  none_else : s.others = none → ∀ x ∈ roles, x.1 = none → x.2.isNamed = false

/-! ### Rules within the schema -/

/-- The parts that satisfy `P` fill the slot, whatever the rule admits. -/
def Slot.covers (s : Slot) (P : Part → Bool) (r : Rule) : Bool :=
  (!s.required || 1 ≤ r.least P) && (s.multiple || r.most P = some 0 || r.most P = some 1) &&
    r.parts.all fun p => !P p || p.symbol ∈ s.types

def isPlain (p : Part) : Bool := p.field = none && p.symbol.isNamed

def Shape.covers (s : Shape) (r : Rule) : Bool :=
  s.fields.all (fun x => !x.2.multiple && x.2.covers (·.field = some x.1) r) &&
  (r.parts.all fun p => p.field.all fun f => s.fields.any (·.1 = f)) &&
  match s.others with
  | some slot => slot.covers isPlain r
  | none => r.parts.all fun p => !isPlain p

lemma covers_rule (n : Nonterminal) : (shape n).covers (rule n) = true := by
  cases n <;> decide

/-- The field and the kind that a part stands for. -/
def role (p : Part) : Option Field × Kind := (p.field, .symbol p.symbol)

variable {s : Slot} {P : Part → Bool} {r : Rule} {u : List Part}

lemma Slot.Takes.of_covers (h : s.covers P r = true) (hu : r.Admits u) :
    s.Takes ((u.filter P).map fun p => .symbol p.symbol) := by
  simp only [Slot.covers, Bool.and_eq_true, Bool.or_eq_true, Bool.not_eq_true', decide_eq_true_eq,
    List.all_eq_true] at h
  obtain ⟨⟨hrequired, hsingle⟩, htypes⟩ := h
  have hlen : ((u.filter P).map fun p => Kind.symbol p.symbol).length = u.countP P := by
    rw [List.length_map, List.countP_eq_length_filter]
  refine ⟨fun hr hnil => ?_, fun hm => ?_, fun k hk => ?_⟩
  · have hle : r.least P ≤ u.countP P := hu.least_le
    rw [hnil] at hlen
    rcases hrequired with h | h
    · rw [hr] at h
      cases h
    · simp only [List.length_nil] at hlen
      omega
  · rw [hlen]
    rcases hsingle with (h | h) | h
    · rw [hm] at h
      cases h
    · exact Nat.le_trans (hu.countP_le h) (by decide)
    · exact hu.countP_le h
  · obtain ⟨p, hp, rfl⟩ := List.mem_map.1 hk
    obtain ⟨hpu, hP⟩ := List.mem_filter.1 hp
    refine ⟨p.symbol, ?_, rfl⟩
    rcases htypes p (hu.mem_parts p hpu) with h | h
    · rw [hP] at h
      cases h
    · exact h

lemma filter_role (Q : Option Field × Kind → Bool) (u : List Part) :
    ((u.map role).filter Q).map (·.2) =
      (u.filter fun p => Q (role p)).map fun p => .symbol p.symbol := by
  rw [List.filter_map, List.map_map]
  rfl

/-- **The grammar keeps to the schema**: what the rule of a construct admits, the schema allows. -/
theorem allows_of_admits {n : Nonterminal} (hu : (rule n).Admits u) :
    (shape n).Allows (u.map role) := by
  have h := covers_rule n
  simp only [Shape.covers, Bool.and_eq_true, List.all_eq_true, Bool.not_eq_true'] at h
  obtain ⟨⟨hfields, hdeclared⟩, hothers⟩ := h
  refine ⟨fun f slot hf => ?_, fun x hx f hxf => ?_, fun slot hslot => ?_, fun hnone x hx hxf => ?_⟩
  · obtain ⟨hsingle, hcovers⟩ := hfields _ hf
    refine ⟨hsingle, ?_⟩
    rw [filter_role]
    exact .of_covers hcovers hu
  · obtain ⟨p, hp, rfl⟩ := List.mem_map.1 hx
    have := hdeclared p (hu.mem_parts p hp)
    simp only [show p.field = some f from hxf, Option.all_some, List.any_eq_true,
      decide_eq_true_eq] at this
    obtain ⟨⟨f', slot⟩, hmem, rfl⟩ := this
    exact ⟨slot, hmem⟩
  · rw [hslot] at hothers
    rw [filter_role]
    exact .of_covers hothers hu
  · obtain ⟨p, hp, rfl⟩ := List.mem_map.1 hx
    rw [hnone] at hothers
    simp only [List.all_eq_true, Bool.not_eq_true'] at hothers
    have := hothers p (hu.mem_parts p hp)
    simpa [isPlain, role, Kind.isNamed, show p.field = none from hxf] using this

end ScenarioSyntax.Schema
