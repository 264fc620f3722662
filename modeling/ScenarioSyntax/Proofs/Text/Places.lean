import Mathlib.Algebra.GroupWithZero.Nat
import Mathlib.Data.List.DropRight
import Mathlib.Tactic.Common
import ScenarioSyntax.Text.Source

/-!
The places in a text: bytes add up, rows count newlines, and columns count the bytes since the last
of them.
-/

namespace ScenarioSyntax

lemma Encoding.width_pos (e : Encoding) (c : Int) : 0 < e.width c := by
  cases e <;> unfold width <;> dsimp only <;> repeat' split
  all_goals decide

/-- The number of bytes of a text. -/
def Encoding.size (e : Encoding) (l : List Int) : Nat := (l.map e.width).sum

namespace Encoding

variable (e : Encoding)

@[simp] lemma size_nil : e.size [] = 0 := rfl

@[simp] lemma size_cons (c : Int) (l : List Int) : e.size (c :: l) = e.width c + e.size l := rfl

@[simp] lemma size_append (l m : List Int) : e.size (l ++ m) = e.size l + e.size m := by
  simp [size]

end Encoding

/-- The last line of a text, behind the last newline. -/
def lastLine (l : List Int) : List Int := l.rtakeWhile fun c => c ≠ newline

lemma lastLine_newline (l : List Int) : lastLine (l ++ [newline]) = [] :=
  List.rtakeWhile_concat_neg _ _ _ (by simp)

lemma lastLine_concat (l : List Int) {c : Int} (h : c ≠ newline) :
    lastLine (l ++ [c]) = lastLine l ++ [c] :=
  List.rtakeWhile_concat_pos _ _ _ (by simpa using h)

namespace Place

variable (e : Encoding)

/-- The place behind a text. -/
def behind (l : List Int) : Place := l.foldl (after e) origin

lemma behind_concat (l : List Int) (c : Int) :
    behind e (l ++ [c]) = (behind e l).after e c := by simp [behind]

lemma along_getElem? (p : Place) (l : List Int) {i : Nat} (h : i ≤ l.length) :
    (along e p l)[i]? = some ((l.take i).foldl (after e) p) := by
  induction l generalizing p i with
  | nil =>
    obtain rfl : i = 0 := by simpa using h
    rfl
  | cons c l ih =>
    cases i with
    | zero => rfl
    | succ i => simpa [along] using ih (p.after e c) (by simpa using h)

theorem behind_eq (l : List Int) :
    behind e l = ⟨e.size l, l.count newline, e.size (lastLine l)⟩ := by
  induction l using List.reverseRecOn with
  | nil => rfl
  | append_singleton l c ih =>
    rw [behind_concat, ih, after]
    by_cases hc : c = newline
    · subst hc
      rw [if_pos rfl, lastLine_newline]
      simp
    · rw [if_neg hc, lastLine_concat l hc]
      simp [hc]

end Place

namespace Source

variable (src : Source) {i j : Nat}

/-- The column of the boundary before the `i`-th code point. -/
def column (i : Nat) : Nat := (src.place i).column

/-- **The place** of a boundary: its byte, the number of newlines in front of it, and the number of
bytes since the last of them. -/
theorem place_eq (h : i ≤ src.length) : src.place i =
    ⟨src.encoding.size (src.points.take i), (src.points.take i).count newline,
      src.encoding.size (lastLine (src.points.take i))⟩ := by
  rw [place, src.places_eq, Array.getD_eq_getD_getElem?, List.getElem?_toArray,
    Place.along_getElem? _ _ _ h, Option.getD_some]
  exact Place.behind_eq _ _

lemma byte_eq (h : i ≤ src.length) : src.byte i = src.encoding.size (src.points.take i) := by
  rw [byte, src.place_eq h]

lemma byte_succ {c : Int} (h : src.points[i]? = some c) :
    src.byte (i + 1) = src.byte i + src.encoding.width c := by
  obtain ⟨hlt, -⟩ := List.getElem?_eq_some_iff.1 h
  rw [src.byte_eq hlt, src.byte_eq (show i ≤ src.length from hlt.le), List.take_add_one, h]
  simp

lemma byte_lt (hij : i < j) (hj : j ≤ src.length) : src.byte i < src.byte j := by
  induction j with
  | zero => omega
  | succ j ih =>
    have hlt : j < src.points.length := hj
    rw [src.byte_succ (List.getElem?_eq_getElem hlt)]
    have := src.encoding.width_pos src.points[j]
    rcases Nat.lt_or_ge i j with h | h
    · have := ih h (by omega)
      omega
    · obtain rfl : i = j := by omega
      omega

lemma byte_le (hij : i ≤ j) (hj : j ≤ src.length) : src.byte i ≤ src.byte j := by
  rcases hij.eq_or_lt with rfl | h
  · exact le_rfl
  · exact (src.byte_lt h hj).le

/-- Every byte belongs to a code point. -/
lemma exists_byte {b : Nat} (h : b < src.byte src.length) :
    ∃ i c, src.points[i]? = some c ∧ src.byte i ≤ b ∧ b < src.byte (i + 1) := by
  have key : ∀ n ≤ src.length, b < src.byte n →
      ∃ i < n, src.byte i ≤ b ∧ b < src.byte (i + 1) := by
    intro n hn hb
    induction n with
    | zero => simp [src.byte_eq] at hb
    | succ n ih =>
      rcases Nat.lt_or_ge b (src.byte n) with h | h
      · obtain ⟨i, hi, h⟩ := ih (by omega) h
        exact ⟨i, by omega, h⟩
      · exact ⟨n, by omega, h, hb⟩
  obtain ⟨i, hi, hle, hlt⟩ := key _ le_rfl h
  exact ⟨i, _, List.getElem?_eq_getElem hi, hle, hlt⟩

end Source

end ScenarioSyntax
