import ScenarioSyntax.Proofs.Grammar.Rule

/-!
How often parts of some sort occur in what a rule admits.
-/

namespace ScenarioSyntax.Grammar.Rule

/-- All parts that a rule speaks of. -/
def parts : Rule → List Part
  | nothing => []
  | part p => [p]
  | seq r q => r.parts ++ q.parts
  | either r q => r.parts ++ q.parts
  | optional r => r.parts
  | many _ r => r.parts

/-- The least number of parts that satisfy `P`. -/
def least (P : Part → Bool) : Rule → Nat
  | nothing => 0
  | part p => if P p then 1 else 0
  | seq r q => r.least P + q.least P
  | either r q => min (r.least P) (q.least P)
  | optional _ => 0
  | many _ _ => 0

/-- The greatest number of parts that satisfy `P`, if there is one. -/
def most (P : Part → Bool) : Rule → Option Nat
  | nothing => some 0
  | part p => some (if P p then 1 else 0)
  | seq r q => (r.most P).bind fun a => (q.most P).map fun b => a + b
  | either r q => (r.most P).bind fun a => (q.most P).map fun b => max a b
  | optional r => r.most P
  | many _ r => if r.most P = some 0 then some 0 else none

namespace Admits

variable {P : Part → Bool} {r : Rule} {u : List Part}

lemma mem_parts (h : Admits r u) : ∀ p ∈ u, p ∈ r.parts := by
  induction h with
  | nothing => simp
  | part p => simp [parts]
  | seq _ _ ihu ihv =>
    intro p hp
    rcases List.mem_append.1 hp with hp | hp
    · exact List.mem_append_left _ (ihu p hp)
    · exact List.mem_append_right _ (ihv p hp)
  | left _ ih => exact fun p hp => List.mem_append_left _ (ih p hp)
  | right _ ih => exact fun p hp => List.mem_append_right _ (ih p hp)
  | absent r => simp
  | present _ ih => exact ih
  | none t r => simp
  | more _ _ ihu ihv =>
    intro p hp
    rcases List.mem_append.1 hp with hp | hp
    · exact ihu p hp
    · exact ihv p hp

theorem least_le (h : Admits r u) : r.least P ≤ u.countP P := by
  induction h with
  | nothing => simp [least]
  | part p => simp [least, List.countP_cons]
  | seq _ _ ihu ihv =>
    rw [least, List.countP_append]
    omega
  | left _ ih => exact Nat.le_trans (Nat.min_le_left _ _) ih
  | right _ ih => exact Nat.le_trans (Nat.min_le_right _ _) ih
  | absent r => simp [least]
  | present _ _ => simp [least]
  | none t r => simp [least]
  | more _ _ _ _ => simp [least]

theorem countP_le (h : Admits r u) {k : Nat} (hk : r.most P = some k) : u.countP P ≤ k := by
  induction h generalizing k with
  | nothing => simp
  | part p =>
    obtain rfl : (if P p then 1 else 0) = k := Option.some.inj hk
    simp [List.countP_cons]
  | seq _ _ ihu ihv =>
    simp only [most, Option.bind_eq_some_iff, Option.map_eq_some_iff] at hk
    obtain ⟨a, ha, b, hb, rfl⟩ := hk
    rw [List.countP_append]
    exact Nat.add_le_add (ihu ha) (ihv hb)
  | left _ ih =>
    simp only [most, Option.bind_eq_some_iff, Option.map_eq_some_iff] at hk
    obtain ⟨a, ha, b, -, rfl⟩ := hk
    exact Nat.le_trans (ih ha) (Nat.le_max_left a b)
  | right _ ih =>
    simp only [most, Option.bind_eq_some_iff, Option.map_eq_some_iff] at hk
    obtain ⟨a, -, b, hb, rfl⟩ := hk
    exact Nat.le_trans (ih hb) (Nat.le_max_right a b)
  | absent r => simp
  | present _ ih => exact ih hk
  | none t r => simp
  | @more t r u v _ _ ihu ihv =>
    -- a list has a bound only where its elements hold no such part
    by_cases hz : r.most P = some 0
    · have hu := ihu hz
      have hv := ihv hk
      rw [List.countP_append]
      omega
    · simp [most, hz] at hk

end Admits

end ScenarioSyntax.Grammar.Rule
