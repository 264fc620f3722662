import ScenarioSyntax.Proofs.Text.Respelling
import ScenarioSyntax.Proofs.Text.Returns

/-!
Texts with a carriage return in front of every newline. There is no error in such a text exactly if
there is none in the text without them, but for strings in which a backslash takes the carriage
return along: it may not stand in front of a newline.
-/

namespace ScenarioSyntax

open Piece Terminal

variable {c : Int} {text : List Int}

/-! ### Pieces -/

/-- The piece without carriage returns. -/
def Piece.withoutReturns (x : Piece) : Piece :=
  ⟨ScenarioSyntax.withoutReturns x.gap, x.kind, ScenarioSyntax.withoutReturns x.lexeme⟩

/-- No string takes a carriage return along behind a backslash. -/
def LeavesReturns (ts : List (Terminal × List Int)) : Prop :=
  ∀ t ∈ ts, t.1 = .string → escapesReturn t.2 = false

lemma Piece.map_kind_withoutReturns (ps : List Piece) :
    (ps.map Piece.withoutReturns).map (·.kind) = ps.map (·.kind) := by
  rw [List.map_map]
  rfl

namespace Spelled

variable {ps qs : List Piece}

lemma adjoins_of_kinds {k : Terminal} (hkinds : qs.map (·.kind) = ps.map (·.kind))
    (h : ∀ y ∈ ps.head?, Adjoins k y.kind) : ∀ y ∈ qs.head?, Adjoins k y.kind := by
  intro y hy
  obtain ⟨qs, rfl⟩ := List.head?_eq_some_iff.1 hy
  cases ps with
  | nil => simp at hkinds
  | cons z ps =>
    rw [show y.kind = z.kind from (List.cons.inj hkinds).1]
    exact h z rfl

/-- **Carriage returns may be left out** in front of newlines. -/
theorem withoutReturns (h : Spelled ps text) (htext : Paired text)
    (hs : LeavesReturns (ps.map Piece.content)) :
    Spelled (ps.map Piece.withoutReturns) (withoutReturns text) := by
  induction h with
  | last blank => exact .last fun c hc => blank c (List.mem_of_mem_filter hc)
  | @cons x ps r blank lexeme stops adjoins rest ih =>
    have hr : Paired r := (Paired.of_append htext).of_append
    obtain ⟨hx, hs⟩ := List.forall_mem_cons.1 hs
    rw [withoutReturns_append, withoutReturns_append, List.map_cons]
    exact .cons (x := x.withoutReturns) (fun c hc => blank c (List.mem_of_mem_filter hc))
      (lexeme.withoutReturns hx) (stops.withoutReturns hr)
      (adjoins_of_kinds (map_kind_withoutReturns ps) adjoins) (ih hr hs)

/-- What closes a comment inside the text is a newline. -/
lemma eq_newline (h : Spelled ps text) (hstops : comment.Stops text) (hne : text ≠ []) :
    ∃ r, text = newline :: r := by
  obtain ⟨c, r, rfl⟩ := List.exists_cons_of_ne_nil hne
  have hline : CharClass.inLine.holds c = false := hstops c rfl
  rcases eq_or_ne c 0 with rfl | hzero
  · rcases h.front with ⟨hblank, -⟩ | hprintable
    · cases hblank
    · omega
  · have hc : c = newline := by simpa [CharClass.holds, hzero, newline] using hline
    exact ⟨r, by rw [hc]⟩

lemma blank_withReturns {b : List Int} (h : ∀ c ∈ b, isBlank c = true) :
    ∀ c ∈ ScenarioSyntax.withReturns b, isBlank c = true := by
  intro c hc
  obtain ⟨d, hd, hc⟩ := List.mem_flatMap.1 hc
  split at hc
  · simp only [List.mem_cons, List.not_mem_nil, or_false] at hc
    rcases hc with rfl | rfl <;> rfl
  · obtain rfl := List.mem_singleton.1 hc
    exact h c hd

/-- A comment takes along the carriage return behind it, in front of a newline. -/
lemma concat_return {g l r : List Int} (h : Spelled ps (carriageReturn :: newline :: r))
    (blank : ∀ c ∈ g, isBlank c = true) (lexeme : comment.Lexeme l) :
    ∃ qs, Spelled (⟨g, .comment, l ++ [carriageReturn]⟩ :: qs)
        (g ++ (l ++ carriageReturn :: newline :: r)) ∧
      qs.map Piece.content = ps.map Piece.content := by
  obtain ⟨-, qs, hqs, hcontent⟩ := h.front.resolve_right (by decide)
  have htext : l ++ carriageReturn :: newline :: r = l ++ [carriageReturn] ++ newline :: r := by
    rw [List.append_assoc]
    rfl
  rw [htext]
  exact ⟨qs, .cons blank lexeme.concat_return (by rintro _ ⟨⟩; rfl) (fun y _ => .inl rfl) hqs,
    hcontent⟩

/-- **Carriage returns may be set in** in front of newlines. A comment takes the one in front of the
newline that closes it. -/
theorem withReturns (h : Spelled ps text) (htext : carriageReturn ∉ text) :
    ∃ qs, Spelled qs (withReturns text) ∧ qs.map (·.kind) = ps.map (·.kind) ∧
      LeavesReturns (qs.map Piece.content) := by
  induction h with
  | last blank => exact ⟨[], .last (blank_withReturns blank), rfl, fun t ht => by cases ht⟩
  | @cons x ps r blank lexeme stops adjoins rest ih =>
    obtain ⟨hgap, hrest⟩ := not_or.1 (List.mem_append.not.1 htext)
    obtain ⟨hlexeme, hr⟩ := not_or.1 (List.mem_append.not.1 hrest)
    obtain ⟨qs, hqs, hkinds, hreturns⟩ := ih hr
    rw [withReturns_append, withReturns_append]
    by_cases hstops : x.kind.scanned.Stops (ScenarioSyntax.withReturns r)
    · refine ⟨⟨_, x.kind, _⟩ :: qs, .cons (blank_withReturns blank) lexeme.withReturns hstops
        (adjoins_of_kinds hkinds adjoins) hqs, congrArg (x.kind :: ·) hkinds, ?_⟩
      refine List.forall_mem_cons.2 ⟨fun hstring => ?_, hreturns⟩
      have lexeme : string.Lexeme x.lexeme := hstring ▸ lexeme
      exact lexeme.escapesReturn_withReturns hlexeme
    -- only a comment goes on with the carriage return
    have hcomment : x.kind = .comment := by
      by_contra hne
      exact hstops (stops.withReturns fun h => hne (eq_of_scanned h (by decide)))
    obtain ⟨g, k, l⟩ := x
    obtain rfl : k = .comment := hcomment
    obtain ⟨r, rfl⟩ : ∃ s, r = newline :: s := rest.eq_newline stops fun hnil => by
      subst hnil
      exact hstops fun c hc => by cases hc
    rw [withReturns_newline] at hqs ⊢
    rw [withReturns_eq_self (lexeme.newline_notMem (show comment ≠ string by decide))]
    obtain ⟨qs', hqs', hcontent⟩ := hqs.concat_return (blank_withReturns blank) lexeme
    refine ⟨_, hqs', ?_, ?_⟩
    · rw [List.map_cons, ← map_fst_content, hcontent, map_fst_content, hkinds]
      rfl
    · rw [List.map_cons, hcontent]
      refine List.forall_mem_cons.2 ⟨fun hstring => ?_, hreturns⟩
      cases hstring

end Spelled

/-! ### The whole text -/

/-- A byte order mark at the beginning stays there, and nothing becomes one. -/
lemma Source.drop_withReturns (src : Source) :
    src.withReturns.points.drop (Token.origin src.withReturns.points 0) =
      ScenarioSyntax.withReturns (src.points.drop (Token.origin src.points 0)) := by
  have hpoints : src.withReturns.points = ScenarioSyntax.withReturns src.points := rfl
  rw [hpoints]
  rcases src.points with _ | ⟨c, l⟩
  · rfl
  by_cases hn : c = newline
  · subst hn
    rfl
  rw [withReturns_cons hn]
  by_cases hmark : c = byteOrderMark
  · subst hmark
    rfl
  · have horigin : ∀ l, Token.origin (c :: l) 0 = 0 := fun l =>
      if_neg fun h => hmark (by simpa using h.2)
    rw [horigin, horigin, List.drop_zero, List.drop_zero, withReturns_cons hn]

namespace Node.IsMadeOf

variable {src : Source} {ps : List Piece} {ρ : Node}

/-- The strings of a tree, and those of the pieces it is made of. -/
lemma leavesReturns_iff (h : ρ.IsMadeOf src.points ps) : LeavesReturns (ps.map Piece.content) ↔
    ∀ ν ∈ ρ.leaves, ν.data.kind = .symbol (.terminal .string) →
      escapesReturn (src.textOf ν) = false := by
  have hleaves : (∀ ν ∈ ρ.leaves, ν.data.kind = .symbol (.terminal .string) →
      escapesReturn (src.textOf ν) = false) ↔
      ∀ e ∈ ρ.leaves.map fun ν => (ν.data.kind, src.textOf ν),
        e.1 = .symbol (.terminal .string) → escapesReturn e.2 = false := by
    simp
  rw [hleaves, h.map_content]
  simp [LeavesReturns]

end Node.IsMadeOf

section Source

variable {src : Source}

/-- A text without error has none with carriage returns either. -/
lemma Source.parse_withReturns (hret : carriageReturn ∉ src.points)
    (h : (parse src).hasError = false) :
    (parse src.withReturns).hasError = false ∧
      (parse src.withReturns).unplaced = (parse src).unplaced ∧
      ∃ rs, (parse src.withReturns).toNode.IsMadeOf src.withReturns.points rs ∧
        LeavesReturns (rs.map Piece.content) := by
  obtain ⟨ps, hps, htaken⟩ := Machine.exists_isMadeOf_of_accepted (accepted_of_hasError h)
  obtain ⟨qs, hqs, hkinds, hreturns⟩ := hps.spelled.withReturns fun hmem =>
    hret (List.mem_of_mem_drop hmem)
  rw [← src.drop_withReturns] at hqs
  obtain ⟨h', htree, rs, hrs, hcontent⟩ := parse_of_kinds h htaken hqs hkinds
  exact ⟨h', htree, rs, hrs, hcontent ▸ hreturns⟩

/-- Nor has it any without them, if no string takes one of them along. -/
lemma Source.hasError_of_withReturns (hret : carriageReturn ∉ src.points)
    (h : (parse src.withReturns).hasError = false)
    (hreturns : ∀ ν ∈ (parse src.withReturns).toNode.leaves,
      ν.data.kind = .symbol (.terminal .string) →
        escapesReturn (src.withReturns.textOf ν) = false) :
    (parse src).hasError = false := by
  obtain ⟨ps, hps, htaken⟩ := Machine.exists_isMadeOf_of_accepted (accepted_of_hasError h)
  have hdrop : carriageReturn ∉ src.points.drop (Token.origin src.points 0) := fun hmem =>
    hret (List.mem_of_mem_drop hmem)
  have hspelled := hps.spelled
  rw [src.drop_withReturns] at hspelled
  have hqs := hspelled.withoutReturns (paired_withReturns hdrop) (hps.leavesReturns_iff.2 hreturns)
  rw [withoutReturns_withReturns hdrop] at hqs
  exact (parse_of_kinds h htaken hqs (map_kind_withoutReturns ps)).1

end Source

/-- **Line endings.** A text without carriage returns has no error if and only if there is none
when one is set in front of every newline and no string has a backslash in front of it, unless that
is taken along by another one. The two texts then have trees that are written in the same way. -/
theorem withReturns_hasError (src : Source) (h : carriageReturn ∉ src.points) :
    ((parse src).hasError = false ↔ (parse src.withReturns).hasError = false ∧
      ∀ ν ∈ (parse src.withReturns).toNode.leaves, ν.data.kind = .symbol (.terminal .string) →
        escapesReturn (src.withReturns.textOf ν) = false) ∧
    ((parse src).hasError = false →
      (parse src.withReturns).toNode.sexp = (parse src).toNode.sexp) := by
  refine ⟨⟨fun hparse => ?_, fun ⟨hparse, hleaves⟩ => ?_⟩, fun hparse => ?_⟩
  · obtain ⟨hparse', -, ps, hps, hreturns⟩ := Source.parse_withReturns h hparse
    exact ⟨hparse', hps.leavesReturns_iff.1 hreturns⟩
  · exact Source.hasError_of_withReturns h hparse hleaves
  · obtain ⟨hparse', htree, -⟩ := Source.parse_withReturns h hparse
    exact Tree.sexp_eq_of_unplaced htree (exists_isFile_of_hasError hparse').1
      (exists_isFile_of_hasError hparse).1

/-- Newlines behind an escaped backslash and behind a comment do no harm. One that a backslash would
take along is an error, and a carriage return hides it. -/
theorem withReturns_escaped_newline :
    (∃ src : Source, src.points.count newline = 2 ∧ carriageReturn ∉ src.points ∧
      (parse src).hasError = false ∧ (parse src.withReturns).hasError = false ∧
      (parse src.withReturns).toNode.sexp = (parse src).toNode.sexp) ∧
    ∃ src : Source, carriageReturn ∉ src.points ∧
      (parse src.withReturns).hasError = false ∧ (parse src).hasError = true := by
  constructor
  · let src := Source.ofString .utf8 "use\"\\\\\n\"//a\nscenario a\x7btraffic\x7b\x7d\x7d"
    have hret : carriageReturn ∉ src.points := by decide +kernel
    have hparse : (parse src).hasError = false := by decide +kernel
    obtain ⟨hiff, hsexp⟩ := withReturns_hasError src hret
    exact ⟨src, by decide +kernel, hret, hparse, (hiff.1 hparse).1, hsexp hparse⟩
  · let src := Source.ofString .utf8 "use\"\\\n\"scenario a\x7btraffic\x7b\x7d\x7d"
    have hret : carriageReturn ∉ src.points := by decide +kernel
    have hparse : (parse src.withReturns).hasError = false := by decide +kernel
    have hescapes : ∃ ν ∈ (parse src.withReturns).toNode.leaves,
        ν.data.kind = .symbol (.terminal .string) ∧
          escapesReturn (src.withReturns.textOf ν) = true := by
      decide +kernel
    refine ⟨src, hret, hparse, ?_⟩
    obtain ⟨ν, hν, hstring, hescapes⟩ := hescapes
    rw [← Bool.not_eq_false]
    intro h
    have := ((withReturns_hasError src hret).1.1 h).2 ν hν hstring
    rw [hescapes] at this
    cases this

end ScenarioSyntax
