import ScenarioSyntax.Proofs.Text.Lossless
import ScenarioSyntax.Tree.Sexp

/-!
A string is parsed in the same way whether it comes in UTF-8 or in UTF-16. The parser sees the same
code points; only the bytes that they take up are counted differently.
-/

namespace ScenarioSyntax

/-- The code units of a character: itself, or a pair of surrogates. -/
def Utf16.encodeChar (c : Char) : List UInt16 :=
  if c.toNat < 0x10000 then [.ofNat c.toNat]
  else
    [.ofNat (0xd800 + (c.toNat - 0x10000) / 0x400), .ofNat (0xdc00 + (c.toNat - 0x10000) % 0x400)]

/-- The code points of a string. -/
def codePoints (cs : List Char) : List Int := cs.map fun c => (c.toNat : Int)

namespace Encoding

lemma size_utf8 (cs : List Char) :
    utf8.size (codePoints cs) = (cs.flatMap String.utf8EncodeChar).length := by
  induction cs with
  | nil => rfl
  | cons c cs ih =>
    rw [List.flatMap_cons, List.length_append, (Utf8.isCharacter_encode c).length_eq, ← ih]
    rfl

lemma size_utf16 (cs : List Char) :
    utf16.size (codePoints cs) = 2 * (cs.flatMap Utf16.encodeChar).length := by
  induction cs with
  | nil => rfl
  | cons c cs ih =>
    have hwidth : utf16.width c.toNat = 2 * (Utf16.encodeChar c).length := by
      unfold width Utf16.encodeChar
      dsimp only
      split_ifs <;> simp <;> omega
    rw [List.flatMap_cons, List.length_append, Nat.mul_add, ← hwidth, ← ih]
    rfl

end Encoding

namespace Source

/-- The bytes of a string in UTF-8, decoded. -/
def ofUtf8 (s : String) : Source := .ofPoints .utf8 (Utf8.decode s.toUTF8.data.toList)

def ofUtf16 (s : String) : Source := .ofString .utf16 s

lemma ofUtf8_eq (s : String) : ofUtf8 s = .ofString .utf8 s := by
  rw [ofUtf8, String.toUTF8_eq_toByteArray, ← String.utf8Encode_toList, List.utf8Encode,
    List.toList_data_toByteArray, Utf8.decode_encode]
  rfl

variable {s : String} {i : Nat}

lemma points_ofUtf16 (s : String) : (ofUtf16 s).points = codePoints s.toList := rfl

lemma points_ofUtf8 (s : String) : (ofUtf8 s).points = codePoints s.toList := by
  rw [ofUtf8_eq]
  rfl

lemma length_ofUtf16 (s : String) : (ofUtf16 s).length = s.toList.length := List.length_map ..

lemma length_ofUtf8 (s : String) : (ofUtf8 s).length = s.toList.length := by
  rw [ofUtf8_eq]
  exact List.length_map ..

lemma byte_ofUtf8 (h : i ≤ s.toList.length) :
    (ofUtf8 s).byte i = ((s.toList.take i).flatMap String.utf8EncodeChar).length := by
  rw [byte_eq _ (h.trans_eq (length_ofUtf8 s).symm), points_ofUtf8, codePoints, ← List.map_take]
  exact Encoding.size_utf8 _

lemma byte_ofUtf16 (h : i ≤ s.toList.length) :
    (ofUtf16 s).byte i = 2 * ((s.toList.take i).flatMap Utf16.encodeChar).length := by
  rw [byte_eq _ (h.trans_eq (length_ofUtf16 s).symm), points_ofUtf16, codePoints, ← List.map_take]
  exact Encoding.size_utf16 _

lemma row_ofUtf8 (h : i ≤ s.toList.length) : (ofUtf8 s).row i = (ofUtf16 s).row i := by
  rw [row, row, place_eq _ (h.trans_eq (length_ofUtf8 s).symm),
    place_eq _ (h.trans_eq (length_ofUtf16 s).symm), points_ofUtf8, points_ofUtf16]

end Source

/-- The boundaries stand behind the same characters in both encodings, and in the same row. -/
def SameBoundary (s : String) (i j : Nat) : Prop :=
  ∃ k ≤ s.toList.length,
    (Source.ofUtf8 s).byte i = ((s.toList.take k).flatMap String.utf8EncodeChar).length ∧
    (Source.ofUtf16 s).byte j = 2 * ((s.toList.take k).flatMap Utf16.encodeChar).length ∧
    (Source.ofUtf8 s).row i = (Source.ofUtf16 s).row j

lemma sameBoundary {s : String} {i : Nat} (h : i ≤ s.toList.length) : SameBoundary s i i :=
  ⟨i, h, Source.byte_ofUtf8 h, Source.byte_ofUtf16 h, Source.row_ofUtf8 h⟩

/-- Texts of the same code points have the same tree, if there is no error. -/
lemma parse_eq_of_points {src src' : Source} (h : src.points = src'.points)
    (herror : (parse src).hasError = false) :
    parse src' = parse src ∧ (parse src').hasError = false := by
  have haccepted := accepted_of_hasError herror
  rw [h] at haccepted
  rw [parse_of_accepted haccepted]
  exact ⟨rfl, herror⟩

/-- **The encoding** makes no difference. -/
theorem encodings_agree (s : String) :
    ((parse (.ofUtf8 s)).hasError = false ↔ (parse (.ofUtf16 s)).hasError = false) ∧
    ((parse (.ofUtf8 s)).hasError = false →
      (parse (.ofUtf8 s)).toNode.sexp = (parse (.ofUtf16 s)).toNode.sexp ∧
      List.Forall₂ (fun l l' => l.entry = l'.entry ∧
          SameBoundary s l.node.start l'.node.start ∧ SameBoundary s l.node.stop l'.node.stop)
        (parse (.ofUtf8 s)).toNode.locations (parse (.ofUtf16 s)).toNode.locations) := by
  have hpoints : (Source.ofUtf8 s).points = (Source.ofUtf16 s).points := Source.points_ofUtf8 s
  refine ⟨⟨fun h => (parse_eq_of_points hpoints h).2,
    fun h => (parse_eq_of_points hpoints.symm h).2⟩, fun h => ?_⟩
  rw [(parse_eq_of_points hpoints h).1]
  refine ⟨rfl, List.forall₂_same.2 fun l hl => ?_⟩
  obtain ⟨ps, hps, -⟩ := Machine.exists_isMadeOf_of_accepted (accepted_of_hasError h)
  have hwithin := hps.within (Node.in_of_mem_locations hl).mem_preorder
  rw [show (Source.ofUtf8 s).points.length = s.toList.length from Source.length_ofUtf8 s] at hwithin
  exact ⟨rfl, sameBoundary hwithin.1, sameBoundary hwithin.2⟩

/-- A comment with a letter of two bytes and a sign of four, or of one code unit and of two. -/
def commentedFile : String := "// é𝄞\nscenario a\x7btraffic\x7b\x7d\x7d"

theorem encodings_agree_commented_file :
    (parse (.ofUtf16 commentedFile)).hasError = false ∧
    (parse (.ofUtf8 commentedFile)).toNode.sexp =
      "(source_file (comment) (scenario_declaration name: (identifier) (traffic_block)))" ∧
    (parse (.ofUtf16 commentedFile)).toNode.sexp =
      "(source_file (comment) (scenario_declaration name: (identifier) (traffic_block)))" ∧
    (parse (.ofUtf8 commentedFile)).toNode.leaves.head?.map
      (fun l => (Source.ofUtf8 commentedFile).byte l.stop) = some 9 ∧
    (parse (.ofUtf16 commentedFile)).toNode.leaves.head?.map
      (fun l => (Source.ofUtf16 commentedFile).byte l.stop) = some 12 := by
  have hutf16 : (parse (.ofUtf16 commentedFile)).toNode.sexp =
      "(source_file (comment) (scenario_declaration name: (identifier) (traffic_block)))" := by
    decide +kernel
  obtain ⟨hiff, hagree⟩ := encodings_agree commentedFile
  have herror : (parse (.ofUtf8 commentedFile)).hasError = false := hiff.2 (by decide +kernel)
  refine ⟨hiff.1 herror, (hagree herror).1.trans hutf16, hutf16, ?_, by decide +kernel⟩
  rw [Source.ofUtf8_eq]
  decide +kernel

end ScenarioSyntax
