import ScenarioSyntax.Proofs.Text.Decoding
import ScenarioSyntax.Proofs.Text.Pieces
import ScenarioSyntax.Proofs.Text.RoundTrip
import ScenarioSyntax.Proofs.Tree.Outline

/-!
The tree of a text without errors keeps all of the text. Its leaves are disjoint and in order, and
no byte outside them is part of anything but a blank or the byte order mark; every node knows its
place.
-/

namespace ScenarioSyntax

open Piece

namespace Node

lemma mem_leaves_of_mem {ν ρ l : Node} (hν : ν ∈ ρ.preorder) (hl : l ∈ ν.leaves) :
    l ∈ ρ.leaves := by
  rw [leaves, List.mem_filter] at hl ⊢
  exact ⟨mem_preorder_of_mem hl.1 ρ hν, hl.2⟩

/-- The leaves follow one another through the text. A byte outside them belongs to a blank, or to a
byte order mark at the beginning, of which no byte is in a leaf. -/
structure Covers (src : Source) (ls : List Node) : Prop where
  nonempty : ∀ l ∈ ls, src.byte l.start < src.byte l.stop
  disjoint : ls.Pairwise fun a b => src.byte a.stop ≤ src.byte b.start
  within : ∀ l ∈ ls, src.byte l.stop ≤ src.byte src.length
  outside : ∀ b < src.byte src.length,
    (∀ l ∈ ls, ¬ (src.byte l.start ≤ b ∧ b < src.byte l.stop)) →
    ∃ i c, src.points[i]? = some c ∧ src.byte i ≤ b ∧ b < src.byte (i + 1) ∧
      (isBlank c = true ∨ i = 0 ∧ c = byteOrderMark) ∧
      ∀ l ∈ ls, src.byte l.stop ≤ src.byte i ∨ src.byte (i + 1) ≤ src.byte l.start

namespace IsMadeOf

variable {points : List Int} {ps : List Piece} {ρ : Node}

lemma exists_span (h : ρ.IsMadeOf points ps) {l : Node} (hl : l ∈ ρ.leaves) :
    ∃ x ∈ spans 0 (Token.origin points 0) ps, x.2.start = l.start ∧ x.2.stop = l.stop := by
  have hmem := List.mem_map_of_mem (f := extent) hl
  rw [h.leaves_eq] at hmem
  obtain ⟨x, hx, heq⟩ := List.mem_map.1 hmem
  exact ⟨x, hx, congrArg (·.2.1) heq, congrArg (·.2.2) heq⟩

lemma exists_leaf (h : ρ.IsMadeOf points ps) {x : Terminal × Span}
    (hx : x ∈ spans 0 (Token.origin points 0) ps) :
    ∃ l ∈ ρ.leaves, x.2.start = l.start ∧ x.2.stop = l.stop := by
  have hmem := List.mem_map_of_mem (f := extentOf) hx
  rw [← h.leaves_eq] at hmem
  obtain ⟨l, hl, heq⟩ := List.mem_map.1 hmem
  exact ⟨l, hl, (congrArg (·.2.1) heq).symm, (congrArg (·.2.2) heq).symm⟩

lemma pairwise_leaves (h : ρ.IsMadeOf points ps) :
    ρ.leaves.Pairwise fun a b => a.stop ≤ b.start := by
  have hpair := (h.spelled.pairwise_spans 0 (Token.origin points 0)).1
  have hmap : (ρ.leaves.map extent).Pairwise fun a b => a.2.2 ≤ b.2.1 := by
    rw [h.leaves_eq, List.pairwise_map]
    exact hpair
  exact List.pairwise_map.1 hmap

lemma bounds (h : ρ.IsMadeOf points ps) {l : Node} (hl : l ∈ ρ.leaves) :
    l.start < l.stop ∧ l.stop ≤ points.length := by
  obtain ⟨x, hx, hstart, hstop⟩ := h.exists_span hl
  have hall := (h.spelled.pairwise_spans 0 (Token.origin points 0)).2 x hx
  have := Token.origin_le (Nat.zero_le points.length)
  rw [List.length_drop] at hall
  omega

end IsMadeOf

/-- **The leaves of a text** that is made of pieces cover it. -/
theorem IsMadeOf.covers {src : Source} {ps : List Piece} {ρ : Node}
    (h : ρ.IsMadeOf src.points ps) : Covers src ρ.leaves where
  nonempty l hl := src.byte_lt (h.bounds hl).1 (h.bounds hl).2
  disjoint := h.pairwise_leaves.imp_of_mem fun _ hb hle =>
    src.byte_le hle ((h.bounds hb).1.le.trans (h.bounds hb).2)
  within l hl := src.byte_le (h.bounds hl).2 le_rfl
  outside b hb hout := by
    obtain ⟨i, c, hc, hle, hlt⟩ := src.exists_byte hb
    obtain ⟨hi, -⟩ := List.getElem?_eq_some_iff.1 hc
    have apart : ∀ l ∈ ρ.leaves, l.stop ≤ i ∨ i + 1 ≤ l.start := by
      intro l hl
      by_contra hin
      have hstop := src.byte_le (show i + 1 ≤ l.stop by omega) (h.bounds hl).2
      have hstart := src.byte_le (show l.start ≤ i by omega) hi.le
      exact hout l hl ⟨by omega, by omega⟩
    refine ⟨i, c, hc, hle, hlt, ?_, fun l hl => ?_⟩
    · by_cases horigin : Token.origin src.points 0 ≤ i
      · obtain ⟨c', hc', hblank⟩ := h.spelled.blank_of_notMem rfl horigin hi fun x hx hin => by
          obtain ⟨l, hl, hstart, hstop⟩ := h.exists_leaf hx
          have := apart l hl
          omega
        rw [hc, Option.some.injEq] at hc'
        exact .inl (hc' ▸ hblank)
      · -- only the byte order mark stands before the origin
        unfold Token.origin at horigin
        split at horigin
        · rename_i hmark
          obtain rfl : i = 0 := by omega
          rw [List.head?_eq_getElem?, hc, Option.some.injEq] at hmark
          exact .inr ⟨rfl, hmark.2⟩
        · omega
    · have hbounds := h.bounds hl
      exact (apart l hl).imp (fun hle => src.byte_le hle hi.le)
        fun hle => src.byte_le hle (by unfold Source.length; omega)

namespace IsMadeOf

variable {points : List Int} {ps : List Piece} {ρ ν : Node}

lemma exists_first (h : ρ.IsMadeOf points ps) :
    ∃ l, ρ.leaves.head? = some l ∧ l.start = ρ.start := by
  obtain ⟨x, ps', rfl⟩ := List.exists_cons_of_ne_nil h.ne
  obtain ⟨l, hl, -⟩ := h.exists_leaf (List.mem_cons_self (l := _))
  obtain ⟨l, ls, hls⟩ := List.exists_cons_of_ne_nil (List.ne_nil_of_mem hl)
  exact ⟨l, by rw [hls]; rfl, h.start_eq l (by rw [hls]; rfl)⟩

/-- Every node of the tree lies within the text. -/
lemma within (h : ρ.IsMadeOf points ps) (hν : ν ∈ ρ.preorder) :
    ν.start ≤ points.length ∧ ν.stop ≤ points.length := by
  rw [preorder_eq, List.mem_cons] at hν
  rcases hν with rfl | hbelow
  · obtain ⟨l, hl, hstart⟩ := h.exists_first
    have := h.bounds (List.mem_of_mem_head? hl)
    have := h.stop_eq
    omega
  · have hmem : ν ∈ ρ.preorder := by
      rw [preorder_eq]
      exact List.mem_cons_of_mem _ hbelow
    obtain ⟨⟨l, hl, hstart, -⟩, l', hl', hstop, -⟩ := h.wraps ν hbelow
    have := h.bounds (mem_leaves_of_mem hmem (List.mem_of_mem_head? hl))
    have := h.bounds (mem_leaves_of_mem hmem (List.mem_of_mem_getLast? hl'))
    omega

end IsMadeOf

end Node

/-- **Nothing is lost** of a text without errors. The leaves cover the text but for blanks and a
byte order mark. Every node below the root reaches from its first leaf to its last, neither of which
is a comment unless the node is one; the root reaches from the first leaf to the end of the text.
Every node begins and ends in the row and column that the text in front of it gives, and for a text
that is read from bytes all this is true of the bytes. -/
theorem lossless_of_hasError (src : Source) (h : (parse src).hasError = false) :
    Node.Covers src (parse src).toNode.leaves ∧
    (∀ ν ∈ Node.preorderAll (parse src).toNode.children, ν.Wraps) ∧
    (∃ l, (parse src).toNode.leaves.head? = some l ∧ l.start = (parse src).toNode.start) ∧
    (parse src).toNode.stop = src.length ∧
    (∀ ν ∈ (parse src).toNode.preorder, ∀ i ∈ [ν.start, ν.stop], i ≤ src.length ∧
      src.byte i = src.encoding.size (src.points.take i) ∧
      src.row i = (src.points.take i).count newline ∧
      src.column i = src.encoding.size (lastLine (src.points.take i))) ∧
    ∀ bytes, src = .ofPoints .utf8 (Utf8.decode bytes) → src.Spells bytes := by
  obtain ⟨ps, hps, -⟩ := Machine.exists_isMadeOf_of_accepted (accepted_of_hasError h)
  refine ⟨hps.covers, hps.wraps, hps.exists_first, hps.stop_eq, fun ν hν i hi => ?_, ?_⟩
  · have hle : i ≤ src.length := by
      have hwithin := hps.within hν
      simp only [List.mem_cons, List.not_mem_nil, or_false] at hi
      rcases hi with rfl | rfl
      · exact hwithin.1
      · exact hwithin.2
    simp [hle, Source.byte, Source.row, Source.column, src.place_eq hle]
  · rintro bytes rfl
    exact Source.spells_decode bytes

/-- A byte order mark and a comment with a letter of two bytes in front of a file. -/
theorem lossless_commented_file : ∃ (bytes : List UInt8) (l : Node),
    (parse (.ofPoints .utf8 (Utf8.decode bytes))).hasError = false ∧
      (parse (.ofPoints .utf8 (Utf8.decode bytes))).toNode.leaves.head? = some l ∧
      l.isComment = true ∧ (Source.ofPoints .utf8 (Utf8.decode bytes)).byte l.start = 3 ∧
      (Source.ofPoints .utf8 (Utf8.decode bytes)).byte l.stop = 8 ∧
      Node.Covers (.ofPoints .utf8 (Utf8.decode bytes))
        (parse (.ofPoints .utf8 (Utf8.decode bytes))).toNode.leaves ∧
      (Source.ofPoints .utf8 (Utf8.decode bytes)).Spells bytes := by
  let bytes := "\ufeff// é\nscenario a\x7btraffic\x7b\x7d\x7d".toList.flatMap String.utf8EncodeChar
  let src := Source.ofPoints .utf8 (Utf8.decode bytes)
  have h : (parse src).hasError = false := by decide +kernel
  have hfirst : ((parse src).toNode.leaves.head?.map fun l =>
      (l.isComment, src.byte l.start, src.byte l.stop)) = some (true, 3, 8) := by
    decide +kernel
  obtain ⟨hcovers, -, -, -, -, hbytes⟩ := lossless_of_hasError src h
  obtain ⟨l, hl, heq⟩ := Option.map_eq_some_iff.1 hfirst
  simp only [Prod.mk.injEq] at heq
  exact ⟨bytes, l, h, hl, heq.1, heq.2.1, heq.2.2, hcovers, hbytes bytes rfl⟩

end ScenarioSyntax
