import Mathlib.Computability.Language
import ScenarioSyntax.Lexer.Pattern

/-!
Patterns as regular expressions. The marks of a pattern stand for the ways to go on from what has
been read, so moving them with every character comes down to taking the derivative.
-/

namespace ScenarioSyntax

open Computability

section Cons

variable {α : Type} {A B : Language α} {c : α} {s : List α}

lemma cons_mem_mul : c :: s ∈ A * B ↔
    (∃ u v, c :: u ∈ A ∧ v ∈ B ∧ u ++ v = s) ∨ ([] ∈ A ∧ c :: s ∈ B) := by
  rw [Language.mem_mul]
  constructor
  · rintro ⟨a, ha, b, hb, h⟩
    rcases a with _ | ⟨d, a⟩
    · obtain rfl : b = c :: s := h
      exact .inr ⟨ha, hb⟩
    · obtain ⟨rfl, rfl⟩ : d = c ∧ a ++ b = s := by simpa using h
      exact .inl ⟨a, b, ha, hb, rfl⟩
  · rintro (⟨u, v, hu, hv, rfl⟩ | ⟨hA, hB⟩)
    · exact ⟨c :: u, hu, v, hv, rfl⟩
    · exact ⟨[], hA, c :: s, hB, rfl⟩

lemma cons_mem_kstar : c :: s ∈ A∗ ↔ ∃ u v, c :: u ∈ A ∧ v ∈ A∗ ∧ u ++ v = s := by
  constructor
  · rw [Language.mem_kstar_iff_exists_nonempty]
    rintro ⟨L, hL, hA⟩
    rcases L with _ | ⟨a, L⟩
    · simp at hL
    · obtain ⟨ha, hne⟩ := hA a (by simp)
      obtain ⟨d, a, rfl⟩ := List.exists_cons_of_ne_nil hne
      obtain ⟨rfl, rfl⟩ : c = d ∧ s = a ++ L.flatten := by simpa using hL
      exact ⟨a, L.flatten, ha, Language.join_mem_kstar fun y hy => (hA y (by simp [hy])).1, rfl⟩
  · rintro ⟨u, v, hu, hv, rfl⟩
    rw [← Language.one_add_self_mul_kstar_eq_kstar, Language.mem_add]
    exact .inr (Language.append_mem_mul hu hv)

lemma cons_mem_mul_kstar : c :: s ∈ A * A∗ ↔ c :: s ∈ A∗ := by
  rw [cons_mem_mul, ← cons_mem_kstar]
  exact or_iff_left_of_imp And.right

end Cons

lemma CharClass.exists_holds (k : CharClass) : ∃ c, k.holds c = true := by
  cases k with
  | only d => exact ⟨d.toNat, by simp [holds]⟩
  | digit => exact ⟨48, by decide⟩
  | letter => exact ⟨65, by decide⟩
  | wordChar => exact ⟨65, by decide⟩
  | timeUnit => exact ⟨115, by decide⟩
  | quoted => exact ⟨65, by decide⟩
  | inLine => exact ⟨65, by decide⟩

namespace Pattern

/-- The texts that match, whatever marks there are. -/
def language : Pattern → Language Int
  | char _ k => {u | ∃ c, k.holds c = true ∧ u = [c]}
  | seq p q => p.language * q.language
  | either p q => p.language + q.language
  | optional p => 1 + p.language
  | many p => p.language∗
  | many1 p => p.language * p.language∗

/-- The texts that complete a match from one of the marks. -/
def rest : Pattern → Language Int
  | char m _ => {u | m = true ∧ u = []}
  | seq p q => p.rest * q.language + q.rest
  | either p q => p.rest + q.rest
  | optional p => p.rest
  | many p => p.rest * p.language∗
  | many1 p => p.rest * p.language∗

variable {p : Pattern} {c : Int} {s u : List Int}

lemma mem_language_char {m : Bool} {k : CharClass} :
    u ∈ (char m k).language ↔ ∃ c, k.holds c = true ∧ u = [c] := Iff.rfl

lemma mem_rest_char {m : Bool} {k : CharClass} : u ∈ (char m k).rest ↔ m = true ∧ u = [] := Iff.rfl

lemma nullable_iff : p.nullable = true ↔ [] ∈ p.language := by
  induction p with
  | char m k => simp [nullable, mem_language_char]
  | seq p q ihp ihq => simp [nullable, language, Language.mem_mul, ihp, ihq]
  | either p q ihp ihq =>
    simp only [nullable, language, Bool.or_eq_true, Language.mem_add, ihp, ihq]
  | optional p ih => simp only [nullable, language, Language.mem_add, Language.mem_one, true_or]
  | many p ih => simp [nullable, language, Language.nil_mem_kstar]
  | many1 p ih => simp [nullable, language, Language.mem_mul, Language.nil_mem_kstar, ih]

/-- A mark at an end means that nothing more is needed. -/
lemma final_iff : p.final = true ↔ [] ∈ p.rest := by
  induction p with
  | char m k => simp [final, mem_rest_char]
  | seq p q ihp ihq =>
    simp only [final, rest, Bool.or_eq_true, Bool.and_eq_true, Language.mem_add, Language.mem_mul,
      ihp, ihq, nullable_iff, List.append_eq_nil_iff, exists_eq_right_right]
  | either p q ihp ihq => simp only [final, rest, Bool.or_eq_true, Language.mem_add, ihp, ihq]
  | optional p ih => simp [final, rest, ih]
  | many p ih => simp [final, rest, Language.mem_mul, Language.nil_mem_kstar, ih]
  | many1 p ih => simp [final, rest, Language.mem_mul, Language.nil_mem_kstar, ih]

lemma exists_mem_language (p : Pattern) : ∃ u, u ∈ p.language := by
  induction p with
  | char m k =>
    obtain ⟨c, hc⟩ := k.exists_holds
    exact ⟨[c], c, hc, rfl⟩
  | seq p q ihp ihq =>
    obtain ⟨u, hu⟩ := ihp
    obtain ⟨v, hv⟩ := ihq
    exact ⟨u ++ v, Language.append_mem_mul hu hv⟩
  | either p q ihp _ =>
    obtain ⟨u, hu⟩ := ihp
    exact ⟨u, .inl hu⟩
  | optional p _ => exact ⟨[], .inl rfl⟩
  | many p _ => exact ⟨[], Language.nil_mem_kstar _⟩
  | many1 p ih =>
    obtain ⟨u, hu⟩ := ih
    exact ⟨u ++ [], Language.append_mem_mul hu (Language.nil_mem_kstar _)⟩

/-- As long as a mark is left, a match is possible. -/
lemma live_iff : p.live = true ↔ ∃ u, u ∈ p.rest := by
  have mul : ∀ A B : Language Int, (∃ v, v ∈ B) → ((∃ u, u ∈ A) ↔ ∃ u, u ∈ A * B) := by
    rintro A B ⟨v, hv⟩
    constructor
    · rintro ⟨u, hu⟩
      exact ⟨u ++ v, Language.append_mem_mul hu hv⟩
    · rintro ⟨u, hu⟩
      obtain ⟨a, ha, -⟩ := Language.mem_mul.1 hu
      exact ⟨a, ha⟩
  induction p with
  | char m k => simp [live, mem_rest_char]
  | seq p q ihp ihq =>
    simp only [live, rest, Bool.or_eq_true, ihp, ihq, Language.mem_add, exists_or]
    rw [mul _ _ q.exists_mem_language]
  | either p q ihp ihq =>
    simp only [live, rest, Bool.or_eq_true, Language.mem_add, ihp, ihq, exists_or]
  | optional p ih => simp [live, rest, ih]
  | many p ih => exact ih.trans (mul _ _ ⟨[], Language.nil_mem_kstar _⟩)
  | many1 p ih => exact ih.trans (mul _ _ ⟨[], Language.nil_mem_kstar _⟩)

@[simp] lemma language_step (enter : Bool) (c : Int) (p : Pattern) :
    (p.step enter c).language = p.language := by
  induction p generalizing enter with
  | char m k => rfl
  | seq p q ihp ihq => simp [step, language, ihp, ihq]
  | either p q ihp ihq => simp [step, language, ihp, ihq]
  | optional p ih => simp [step, language, ih]
  | many p ih => simp [step, language, ih]
  | many1 p ih => simp [step, language, ih]

/-- **Moving the marks takes the derivative.** -/
theorem mem_rest_step {enter : Bool} : s ∈ (p.step enter c).rest ↔
    c :: s ∈ p.rest ∨ enter = true ∧ c :: s ∈ p.language := by
  induction p generalizing enter s with
  | char m k => simp [step, mem_rest_char, mem_language_char, and_assoc]
  | seq p q ihp ihq =>
    simp only [step, rest, language, Language.mem_add, cons_mem_mul, language_step]
    simp only [Language.mem_mul, ihp, ihq, Bool.or_eq_true, Bool.and_eq_true, final_iff,
      nullable_iff]
    grind
  | either p q ihp ihq =>
    simp only [step, rest, language, Language.mem_add, ihp, ihq]
    tauto
  | optional p ih =>
    simp only [step, rest, language, Language.mem_add, ih, Language.mem_one]
    simp
  | many p ih =>
    simp only [step, rest, language, cons_mem_mul, cons_mem_kstar, language_step]
    simp only [Language.mem_mul, ih, Bool.or_eq_true, final_iff]
    grind
  | many1 p ih =>
    simp only [step, rest, language, cons_mem_mul_kstar]
    simp only [cons_mem_mul, cons_mem_kstar, language_step]
    simp only [Language.mem_mul, ih, Bool.or_eq_true, final_iff]
    grind

/-- The marks after reading a text from the beginning. -/
def after (p : Pattern) : List Int → Pattern
  | [] => p
  | c :: u => u.foldl (fun p c => p.step false c) (p.step true c)

lemma after_concat (p : Pattern) (c : Int) (u : List Int) (d : Int) :
    p.after (c :: u ++ [d]) = (p.after (c :: u)).step false d := by
  simp [after]

lemma rest_foldl (u : List Int) :
    s ∈ (u.foldl (fun p c => p.step false c) p).rest ↔ u ++ s ∈ p.rest := by
  induction u generalizing p with
  | nil => rfl
  | cons c u ih => simp [ih, mem_rest_step]

/-- Without any mark there is nothing to go on from. -/
lemma notMem_rest (h : p.live = false) : s ∉ p.rest := by
  intro hs
  rw [live_iff.2 ⟨s, hs⟩] at h
  cases h

/-- What completes a match after reading a text. -/
theorem mem_rest_after (h : p.live = false) : s ∈ (p.after (c :: u)).rest ↔
    c :: u ++ s ∈ p.language := by
  rw [after, rest_foldl, mem_rest_step]
  simp [notMem_rest h]

theorem final_after_iff (h : p.live = false) :
    (p.after (c :: u)).final = true ↔ c :: u ∈ p.language := by
  rw [final_iff, mem_rest_after h, List.append_nil]

theorem live_after_iff (h : p.live = false) :
    (p.after (c :: u)).live = true ↔ ∃ s, c :: u ++ s ∈ p.language := by
  simp only [live_iff, mem_rest_after h]

end Pattern

end ScenarioSyntax
