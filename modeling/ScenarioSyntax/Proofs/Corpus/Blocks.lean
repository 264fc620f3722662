import Mathlib.Data.List.Basic
import ScenarioSyntax.Corpus.Case

/-!
Corpus files as they are written: a preamble, and blocks of which each holds a case. Reading such a
file gives the cases of its blocks, whichever way its lines end.
-/

namespace ScenarioSyntax

/-! ### Lines -/

inductive LineEnd where
  | lineFeed | carriageReturnLineFeed

def LineEnd.chars : LineEnd → List Char
  | lineFeed => ['\n']
  | carriageReturnLineFeed => ['\r', '\n']

namespace Line

/-- The lines written out, each with its end. -/
def write (ls : List (Line × LineEnd)) : List Char := ls.flatMap fun l => l.1 ++ l.2.chars

/-- The line has no character that ends a line. -/
def Unbroken (l : Line) : Prop := '\n' ∉ l ∧ '\r' ∉ l

lemma splitFrom_append {l : Line} (h : '\n' ∉ l) (line : Line) (cs : List Char) :
    splitFrom line (l ++ cs) = splitFrom (l.reverse ++ line) cs := by
  induction l generalizing line with
  | nil => rfl
  | cons c l ih =>
    obtain ⟨hc, hl⟩ := not_or.1 (List.mem_cons.not.1 h)
    have hstep : splitFrom line (c :: (l ++ cs)) = splitFrom (c :: line) (l ++ cs) := by
      rw [splitFrom]
      exact fun h => hc h.symm
    rw [List.cons_append, hstep, ih hl, List.reverse_cons, List.append_assoc]
    rfl

lemma splitFrom_newline {line : Line} (h : '\r' ∉ line) (cs : List Char) :
    splitFrom line ('\n' :: cs) = line.reverse :: splitFrom [] cs := by
  cases line with
  | nil => rfl
  | cons c line =>
    obtain ⟨hc, -⟩ := not_or.1 (List.mem_cons.not.1 h)
    rw [splitFrom]
    exact fun rest h => hc (List.cons.inj h).1.symm

lemma splitFrom_end {l : Line} (h : l.Unbroken) (e : LineEnd) (cs : List Char) :
    splitFrom [] (l ++ e.chars ++ cs) = l :: splitFrom [] cs := by
  rw [List.append_assoc, splitFrom_append h.1, List.append_nil]
  cases e with
  | lineFeed =>
    have hreverse : '\r' ∉ l.reverse := by simpa using h.2
    have := splitFrom_newline hreverse cs
    rwa [List.reverse_reverse] at this
  | carriageReturnLineFeed => simp [LineEnd.chars, splitFrom]

/-- **Lines** are read as they were written, with either end. -/
theorem ofChars_write {ls : List (Line × LineEnd)} (h : ∀ l ∈ ls.map (·.1), l.Unbroken) :
    ofChars (write ls) = ls.map (·.1) := by
  induction ls with
  | nil => rfl
  | cons l ls ih =>
    obtain ⟨hl, hls⟩ := List.forall_mem_cons.1 h
    have hrest : splitFrom [] (write ls) = ls.map (·.1) := ih hls
    have hcons : write (l :: ls) = l.1 ++ l.2.chars ++ write ls := rfl
    rw [ofChars, hcons, splitFrom_end hl, hrest, List.map_cons]

end Line

namespace Corpus

/-! ### Blocks -/

/-- A line of one sign, three times or more. -/
structure Rule (sign : Char) where
  length : Nat
  three_le_length : 3 ≤ length

def Rule.line {sign : Char} (r : Rule sign) : Line := List.replicate r.length sign

lemma byteLength_replicate {sign : Char} (h : sign.utf8Size = 1) (n : Nat) :
    Line.byteLength (List.replicate n sign) = n := by
  induction n with
  | zero => rfl
  | succ n ih =>
    rw [Line.byteLength] at ih ⊢
    rw [List.replicate_succ, List.foldr_cons, ih, h, Nat.add_comm]

lemma isRule_iff {sign : Char} (h : sign.utf8Size = 1) {l : Line} :
    isRule sign l = true ↔ ∃ r : Rule sign, r.line = l := by
  rw [isRule, Bool.and_eq_true, decide_eq_true_eq, List.all_eq_true]
  constructor
  · rintro ⟨hlength, hall⟩
    have hl : List.replicate l.length sign = l :=
      (List.eq_replicate_of_mem fun c hc => by simpa using hall c hc).symm
    rw [← hl, byteLength_replicate h] at hlength
    exact ⟨⟨l.length, hlength⟩, hl⟩
  · rintro ⟨r, rfl⟩
    refine ⟨?_, fun c hc => by simpa using List.eq_of_mem_replicate hc⟩
    rw [Rule.line, byteLength_replicate h]
    exact r.three_le_length

/-- Lines none of which is a rule of the sign. -/
def Plain (sign : Char) (ls : List Line) : Prop := ∀ r : Rule sign, r.line ∉ ls

/-- A case as it is written: its name under a rule, and its source and the tree expected of it on
both sides of another one. The line under the name closes its frame, but it may hold anything. -/
structure Block where
  rule : Rule '='
  name : Line
  underline : Line
  source : List Line
  divider : Rule '-'
  expected : List Line
  plain_source : Plain '-' source
  plain_expected : Plain '=' expected

namespace Block

def lines (b : Block) : List Line :=
  b.rule.line :: b.name :: b.underline :: (b.source ++ b.divider.line :: b.expected)

/-- The case that the block stands for. -/
def toCase (b : Block) : Case where
  name := trimBy isBlankChar b.name
  source := trimBy (· = '\n') (Line.join b.source) ++ ['\n']
  expected := Line.join b.expected

end Block

/-- A whole file. No rule of equals signs stands in front of the first block. -/
structure Sheet where
  preamble : List Line
  blocks : List Block
  plain_preamble : Plain '=' preamble

def Sheet.lines (f : Sheet) : List Line := f.preamble ++ f.blocks.flatMap Block.lines

section Plain

variable {sign : Char} {ls rest : List Line}

lemma Plain.isRule_eq_false (hsign : sign.utf8Size = 1) (h : Plain sign ls) {l : Line}
    (hl : l ∈ ls) : isRule sign l = false := by
  rw [← Bool.not_eq_true, isRule_iff hsign]
  rintro ⟨r, rfl⟩
  exact h r hl

lemma Plain.of_isRule (h : ∀ l ∈ ls, isRule sign l = false) (hsign : sign.utf8Size = 1) :
    Plain sign ls := by
  intro r hr
  have := (isRule_iff hsign).2 ⟨r, rfl⟩
  rw [h _ hr] at this
  cases this

/-- Plain lines go on up to the next rule. -/
lemma Plain.span (hsign : sign.utf8Size = 1) (h : Plain sign ls)
    (hrest : ∀ l ∈ rest.head?, isRule sign l = true) :
    (ls ++ rest).takeWhile (fun l => !isRule sign l) = ls ∧
      (ls ++ rest).dropWhile (fun l => !isRule sign l) = rest := by
  have hplain : ∀ l ∈ ls, (!isRule sign l) = true := fun l hl => by
    simpa using h.isRule_eq_false hsign hl
  rw [List.takeWhile_append_of_pos hplain, List.dropWhile_append_of_pos hplain]
  cases rest with
  | nil => simp
  | cons l rest => simp [hrest l rfl]

end Plain

/-! ### Reading blocks -/

lemma casesOf_of_nil {ls : List Line} (h : ls.dropWhile (fun l => !isRule '=' l) = []) :
    casesOf ls = [] := by
  rw [casesOf]
  split
  · rfl
  · rename_i hcons
    rw [h] at hcons
    cases hcons

lemma casesOf_of_cons {ls rest : List Line} {l : Line}
    (h : ls.dropWhile (fun l => !isRule '=' l) = l :: rest) :
    casesOf ls = caseOf rest :: casesOf (afterCase rest) := by
  rw [casesOf]
  split
  · rename_i hnil
    rw [h] at hnil
    cases hnil
  · rename_i hcons
    rw [h] at hcons
    obtain ⟨rfl, rfl⟩ := List.cons.inj hcons
    rfl

lemma Rule.isRule_line {sign : Char} (hsign : sign.utf8Size = 1) (r : Rule sign) :
    isRule sign r.line = true :=
  (isRule_iff hsign).2 ⟨r, rfl⟩

/-- A block ends where the next one begins. -/
lemma isRule_of_head? (bs : List Block) :
    ∀ l ∈ (bs.flatMap Block.lines).head?, isRule '=' l = true := by
  cases bs with
  | nil => simp
  | cons b bs =>
    rintro _ ⟨⟩
    exact b.rule.isRule_line rfl

/-- **One block**: its case is read, and the blocks behind it are left. -/
lemma Block.read (b : Block) (bs : List Block) {rest : List Line}
    (hrest : rest = b.name :: b.underline :: (b.source ++ b.divider.line ::
      (b.expected ++ bs.flatMap Block.lines))) :
    caseOf rest = b.toCase ∧ afterCase rest = bs.flatMap Block.lines := by
  have hdivider : ∀ l ∈ (b.divider.line :: (b.expected ++ bs.flatMap Block.lines)).head?,
      isRule '-' l = true := by
    rintro _ ⟨⟩
    exact b.divider.isRule_line rfl
  obtain ⟨htake, hdrop⟩ := b.plain_source.span rfl hdivider
  obtain ⟨htake', hdrop'⟩ := b.plain_expected.span rfl (isRule_of_head? bs)
  subst hrest
  constructor
  · simp only [caseOf, toCase, List.headD_cons, List.drop_succ_cons, List.drop_zero, htake, hdrop,
      htake']
  · simp only [afterCase, List.drop_succ_cons, List.drop_zero, hdrop, hdrop']

theorem casesOf_lines {ls : List Line} (h : Plain '=' ls) (bs : List Block) :
    casesOf (ls ++ bs.flatMap Block.lines) = bs.map Block.toCase := by
  induction bs generalizing ls with
  | nil => exact casesOf_of_nil (h.span rfl (by simp)).2
  | cons b bs ih =>
    have hdrop := (h.span rfl (isRule_of_head? (b :: bs))).2
    rw [List.flatMap_cons, Block.lines] at hdrop
    simp only [List.cons_append, List.append_assoc] at hdrop
    obtain ⟨hcase, hafter⟩ := b.read bs rfl
    have hnil : Plain '=' [] := fun _ => List.not_mem_nil
    rw [List.flatMap_cons, Block.lines]
    simp only [List.cons_append, List.append_assoc]
    rw [casesOf_of_cons hdrop, hcase, hafter, List.map_cons, ← ih hnil, List.nil_append]

/-- **Corpus files** are read as they were written: whatever stands in front of the first block and
whichever way each line ends, the cases are those of the blocks, in their order. -/
theorem parseCases_write (f : Sheet) (hunbroken : ∀ l ∈ f.lines, l.Unbroken)
    {ls : List (Line × LineEnd)} (hls : ls.map (·.1) = f.lines) :
    parseCases (String.ofList (Line.write ls)) = f.blocks.map Block.toCase := by
  rw [← hls] at hunbroken
  rw [parseCases, String.toList_ofList, Line.ofChars_write hunbroken, hls, Sheet.lines,
    casesOf_lines f.plain_preamble]

/-- A name, a source and an expected tree may each look like a rule, and a block may be empty. -/
theorem parseCases_two_blocks : ∃ (f : Sheet) (ls : List (Line × LineEnd)),
    (∀ l ∈ f.lines, l.Unbroken) ∧ ls.map (·.1) = f.lines ∧
    String.ofList (Line.write ls) =
      "---\n===\r\n====\n===\n\r\n===\n---\r\n---\n(a)\n=====\r\n two\n---\n---\r\n" ∧
    parseCases (String.ofList (Line.write ls)) =
      [⟨"====".toList, "===\n".toList, "---\n(a)".toList⟩, ⟨"two".toList, "\n".toList, []⟩] := by
  let equals : Rule '=' := ⟨3, by decide⟩
  let hyphens : Rule '-' := ⟨3, by decide⟩
  let b : Block := ⟨equals, "====".toList, equals.line, ["".toList, "===".toList], hyphens,
    ["---".toList, "(a)".toList], .of_isRule (by decide) rfl, .of_isRule (by decide) rfl⟩
  let b' : Block := ⟨⟨5, by decide⟩, " two".toList, hyphens.line, [], hyphens, [],
    .of_isRule (by decide) rfl, .of_isRule (by decide) rfl⟩
  let f : Sheet := ⟨[hyphens.line], [b, b'], .of_isRule (by decide) rfl⟩
  let ends : List LineEnd := [.lineFeed, .carriageReturnLineFeed, .lineFeed, .lineFeed,
    .carriageReturnLineFeed, .lineFeed, .carriageReturnLineFeed, .lineFeed, .lineFeed,
    .carriageReturnLineFeed, .lineFeed, .lineFeed, .carriageReturnLineFeed]
  have hunbroken : ∀ l ∈ f.lines, l.Unbroken := by unfold Line.Unbroken; decide
  have hls : (f.lines.zip ends).map (·.1) = f.lines := rfl
  refine ⟨f, f.lines.zip ends, hunbroken, hls, by decide, ?_⟩
  rw [parseCases_write f hunbroken hls]
  decide

end Corpus

end ScenarioSyntax
