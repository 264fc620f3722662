import Mathlib.Data.List.TakeDrop
import ScenarioSyntax.Text.Edit

/-!
Edits: which ones a text takes, what they make of it, and how a series of them is carried out.
-/

namespace ScenarioSyntax.Edit

variable {e : Edit} {bytes b : List UInt8}

lemma fits_iff : e.fits bytes = true ↔ e.start ≤ e.stop ∧ e.stop ≤ bytes.length := by
  simp [fits]

/-- One stretch of the text gives way to another. -/
theorem result?_eq_some_iff : e.result? bytes = some b ↔
    ∃ u v w, bytes = u ++ v ++ w ∧ e.start = u.length ∧ e.stop = u.length + v.length ∧
      b = u ++ e.text ++ w := by
  rw [result?, Option.ite_none_right_eq_some, fits_iff]
  constructor
  · rintro ⟨⟨hle, hlen⟩, h⟩
    have hdrop : bytes.drop e.start = (bytes.drop e.start).take (e.stop - e.start) ++
        bytes.drop e.stop := by
      rw [← Nat.add_sub_cancel' hle, ← List.drop_drop, Nat.add_sub_cancel' hle,
        List.take_append_drop]
    refine ⟨bytes.take e.start, (bytes.drop e.start).take (e.stop - e.start), bytes.drop e.stop,
      ?_, ?_, ?_, (Option.some.inj h).symm⟩
    · rw [List.append_assoc, ← hdrop, List.take_append_drop]
    · rw [List.length_take]
      omega
    · simp only [List.length_take, List.length_drop]
      omega
  · rintro ⟨u, v, w, rfl, hstart, hstop, rfl⟩
    refine ⟨⟨by omega, ?_⟩, ?_⟩
    · simp only [List.length_append]
      omega
    · rw [hstart, hstop, ← List.length_append, List.drop_left, List.append_assoc u v w,
        List.take_left]

/-- What an edit has done can be undone by another one. -/
theorem exists_undo (h : e.result? bytes = some b) :
    ∃ e' : Edit, e'.start = e.start ∧ e'.result? b = some bytes := by
  obtain ⟨u, v, w, rfl, hstart, -, rfl⟩ := result?_eq_some_iff.1 h
  exact ⟨⟨u.length, u.length + e.text.length, v⟩, hstart.symm,
    result?_eq_some_iff.2 ⟨u, e.text, w, rfl, rfl, rfl, rfl⟩⟩

/-- The text that a series of edits leaves behind. -/
def final (bytes : List UInt8) (es : List Edit) : List UInt8 :=
  es.foldl (fun bytes e => (e.result? bytes).getD bytes) bytes

/-- **A series of edits** has one result for each, on the text that those before it have left
behind. An edit that does not fit leaves the text as it is. -/
theorem getElem?_results (bytes : List UInt8) (es : List Edit) (i : Nat) :
    (results bytes es)[i]? = es[i]?.map fun e => e.result? (final bytes (es.take i)) := by
  induction es generalizing bytes i with
  | nil => rfl
  | cons e es ih =>
    have hresults : results bytes (e :: es) =
        e.result? bytes :: results ((e.result? bytes).getD bytes) es := by
      rw [results]
      split <;> rename_i h <;> simp [h]
    rw [hresults]
    cases i with
    | zero => rfl
    | succ i => exact ih _ i

end ScenarioSyntax.Edit
