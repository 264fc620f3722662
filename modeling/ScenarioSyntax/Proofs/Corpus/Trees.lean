import ScenarioSyntax.Proofs.Corpus.Normal
import ScenarioSyntax.Proofs.Grammar.Lookahead
import ScenarioSyntax.Proofs.Lexer.Longest

/-!
Written trees are in normal form, whatever they hold. So a case is passed by one text only, up to
its layout: the tree of its source as it is written.
-/

namespace ScenarioSyntax

open Corpus

/-! ### Names and characters -/

lemma Kind.isNormal_name (k : Kind) : IsNormal k.name.toList := by
  have hterminal : ∀ t ∈ Terminal.all, solid t.name.toList = true := by decide +kernel
  have hnonterminal : ∀ n ∈ Nonterminal.all, solid n.name.toList = true := by decide +kernel
  refine .of_solid ?_
  rcases k with (t | n) | _
  · exact hterminal t (Terminal.mem_all t)
  · exact hnonterminal n (Grammar.mem_all n)
  · decide

/-- Punctuation has no name but its signs, and these may be parentheses. -/
lemma Kind.leads_name {k : Kind} (h : k.isNamed = true) : leads k.name.toList = true := by
  have hterminal : ∀ t ∈ Terminal.all, t.isNamed = true → leads t.name.toList = true := by
    decide +kernel
  have hnonterminal : ∀ n ∈ Nonterminal.all, leads n.name.toList = true := by decide +kernel
  rcases k with (t | n) | _
  · exact hterminal t (Terminal.mem_all t) h
  · exact hnonterminal n (Grammar.mem_all n)
  · decide

lemma Field.isNormal_spelling (f : Field) :
    IsNormal f.spelling.toList ∧ leads f.spelling.toList = true := by
  have key : ∀ f ∈ Field.all,
      solid f.spelling.toList = true ∧ leads f.spelling.toList = true := by
    decide +kernel
  have hf := key f (by cases f <;> decide)
  exact ⟨.of_solid hf.1, hf.2⟩

lemma isBlankChar_of_isDigit {c : Char} (h : c.isDigit = true) :
    isBlankChar c = false ∧ c ≠ ')' := by
  have hrange : 48 ≤ c.toNat ∧ c.toNat ≤ 57 := by
    simpa [Char.isDigit, UInt32.le_iff_toNat_le] using h
  refine ⟨?_, by rintro rfl; simp at hrange⟩
  simp only [isBlankChar, isBlank, Bool.or_eq_false_iff, Bool.and_eq_false_iff,
    decide_eq_false_iff_not]
  omega

lemma isNormal_repr (n : Nat) : IsNormal n.repr.toList ∧ leads n.repr.toList = true := by
  have hrepr : n.repr.toList = Nat.toDigits 10 n := String.toList_ofList
  have hdigit : ∀ c ∈ n.repr.toList, c.isDigit = true := fun c hc =>
    Nat.isDigit_of_mem_toDigits (by decide) (by decide) (hrepr ▸ hc)
  refine ⟨.of_solid (solid_iff.2 fun c hc => (isBlankChar_of_isDigit (hdigit c hc)).1), ?_⟩
  obtain ⟨c, v, hv⟩ := List.exists_cons_of_ne_nil (hrepr ▸ Nat.toDigits_ne_nil)
  refine leads_iff.2 ⟨c, v, hv, (isBlankChar_of_isDigit (hdigit c ?_)).2⟩
  rw [hv]
  exact List.mem_cons_self

lemma isNormal_showUnexpected (c : Int) :
    IsNormal (showUnexpected c).toList ∧ leads (showUnexpected c).toList = true := by
  unfold showUnexpected
  iterate 5
    split
    · exact ⟨.of_solid rfl, by decide⟩
  split
  · -- a space in quotes is the only white space
    rename_i hprintable
    have hquote : IsNormal ['\''] := .of_solid rfl
    have hletter : IsNormal ('\'' :: [Char.ofNat c.toNat, '\'']) := by
      have key : ∀ n < 127, 32 < n → isBlankChar (Char.ofNat n) = false := by decide
      simp only [Bool.and_eq_true, decide_eq_true_eq] at hprintable
      rcases eq_or_ne c 32 with rfl | hne
      · exact hquote.append_space (List.cons_ne_nil _ _) hquote rfl
      · have := key c.toNat (by omega) (by omega)
        exact .of_solid (by simpa [solid, this] using (show isBlankChar '\'' = false by decide))
    simpa [leads] using hletter
  · rw [show toString c = c.repr from rfl, Int.repr_eq_if]
    split
    · exact isNormal_repr c.toNat
    · have hminus : IsNormal ['-'] := .of_solid rfl
      simpa [leads] using hminus.append (isNormal_repr (-c).toNat).1

namespace Node

lemma leads_sexp (ν : Node) : leads ν.sexp.toList = true := by
  obtain ⟨d, cs⟩ := ν
  rw [sexp]
  split
  · split <;> simp [leads]
  · split <;> simp [leads]
  · simp [leads]

lemma isNormal_label {d : NodeData} {u v : List Char} (hu : IsNormal u) (hne : u ≠ [])
    (hv : IsNormal v) (h : leads v = true) : IsNormal (u ++ ' ' :: (d.label.toList ++ v)) := by
  unfold NodeData.label
  split
  · rename_i f _
    obtain ⟨hf, hlead⟩ := f.isNormal_spelling
    have hcolon : IsNormal (f.spelling.toList ++ [':']) := hf.append (.of_solid rfl)
    have := (hu.append_space hne hcolon (leads_append hlead [':'])).append_space (by simp) hv h
    simpa using this
  · simpa using hu.append_space hne hv h

mutual

theorem isNormal_sexp (ν : Node) : IsNormal ν.sexp.toList := by
  obtain ⟨d, cs⟩ := ν
  have hopen : IsNormal ['('] := .of_solid rfl
  have hclose : IsNormal [')'] := .of_solid rfl
  have hquote : IsNormal ['"'] := .of_solid rfl
  have hname := d.kind.isNormal_name
  rw [sexp]
  split
  · have hmissing : IsNormal "(MISSING".toList := .of_solid rfl
    split
    · rename_i hnamed
      have hlead := d.kind.leads_name hnamed
      simpa using (hmissing.append_space (by simp) hname hlead).append hclose
    · have hquoted := (hquote.append hname).append hquote
      simpa using (hmissing.append_space (by simp) hquoted rfl).append hclose
  · split
    · rename_i c _ _
      obtain ⟨hshow, hlead⟩ := isNormal_showUnexpected c
      have hstray : IsNormal "(UNEXPECTED".toList := .of_solid rfl
      simpa using (hstray.append_space (by simp) hshow hlead).append hclose
    · simpa using (hopen.append hname).append hclose
  · simpa using (isNormal_sexpAll (hopen.append hname) (by simp) cs).append hclose

lemma isNormal_sexpAll {u : List Char} (hu : IsNormal u) (hne : u ≠ []) (ns : List Node) :
    IsNormal (u ++ (sexpAll ns).toList) := by
  cases ns with
  | nil => simpa [sexpAll] using hu
  | cons n ns =>
    have hn := isNormal_sexp n
    rw [sexpAll]
    split
    · have hlabel := isNormal_label (d := n.data) hu hne hn n.leads_sexp
      simpa using isNormal_sexpAll hlabel (by simp) ns
    · simpa using isNormal_sexpAll hu hne ns

end

end Node

/-- **Written trees** are in normal form, whatever kinds, fields, missing tokens and unexpected
characters they have. A case is passed if and only if the tree of its source is written like the
normal form of what is expected. -/
theorem normalize_sexp : (∀ ν : Node, normalize ν.sexp = ν.sexp) ∧
    ∀ c : Case, c.check.passes = true ↔
      normalize (String.ofList c.expected) =
        (parse (.ofString .utf8 (String.ofList c.source))).toNode.sexp := by
  have key : ∀ ν : Node, normalize ν.sexp = ν.sexp := fun ν => by
    rw [Corpus.normalize, ν.isNormal_sexp.normal_eq_self, String.ofList_toList]
  refine ⟨key, fun c => ?_⟩
  rw [Verdict.passes, beq_iff_eq, Case.check, key, eq_comm]

end ScenarioSyntax
