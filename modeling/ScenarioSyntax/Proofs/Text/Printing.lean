import ScenarioSyntax.Lexer.Token
import ScenarioSyntax.Proofs.Grammar.Ast
import ScenarioSyntax.Proofs.Lexer.Words
import ScenarioSyntax.Text.Source

/-!
The texts that a file can be written as: its tokens in order, with blanks and comments around them.
-/

namespace ScenarioSyntax

open Terminal CharClass

/-- What may stand in front of a token: blanks, and comments that a newline closes. -/
inductive Gap : List Int → Prop
  | nil : Gap []
  | blank {c : Int} {g : List Int} (hc : isBlank c = true) (hg : Gap g) : Gap (c :: g)
  | comment {v g : List Int} (hv : ∀ c ∈ v, inLine.holds c = true) (hg : Gap g) :
      Gap (47 :: 47 :: (v ++ newline :: g))

/-- Behind the last token, the end of the text may close a comment too. -/
inductive LastGap : List Int → Prop
  | gap {g : List Int} (hg : Gap g) : LastGap g
  | comment {g v : List Int} (hg : Gap g) (hv : ∀ c ∈ v, inLine.holds c = true) :
      LastGap (g ++ 47 :: 47 :: v)

/-- The text is made of the tokens and gaps; `w` says that it stands behind a word. Between a word
and a token that begins with a letter, a digit or an underscore there is a gap. -/
inductive Printed : Bool → List (Terminal × List Int) → List Int → Prop
  | last {w : Bool} {g : List Int} (hg : LastGap g) : Printed w [] g
  | token {w : Bool} {k : Terminal} {l g text : List Int} {ts : List (Terminal × List Int)}
      (gap : Gap g) (lexeme : k.Lexeme l)
      (apart : w = true → g = [] → ∀ c ∈ l.head?, wordChar.holds c = false)
      (rest : Printed k.isWord ts text) : Printed w ((k, l) :: ts) (g ++ (l ++ text))

/-- The text is the file written out, perhaps behind a byte order mark. -/
structure IsPrinting (points : List Int) (d : Ast (List Int)) : Prop where
  isFile : d.IsFile
  printed : Printed false d.tokens points ∨
    ∃ rest, points = byteOrderMark :: rest ∧ Printed false d.tokens rest

/-! ### The characters that tokens begin with -/

lemma printable {c : Int} (h : 33 ≤ c ∧ c ≤ 126) :
    isBlank c = false ∧ c ≠ 0 ∧ c ≠ byteOrderMark := by
  refine ⟨?_, by omega, by unfold byteOrderMark; omega⟩
  simp only [isBlank, Bool.or_eq_false_iff, Bool.and_eq_false_iff, decide_eq_false_iff_not]
  omega

/-- Every token begins with a printable character. -/
lemma Terminal.Lexeme.head {k : Terminal} {c : Int} {l : List Int} (h : k.Lexeme (c :: l)) :
    33 ≤ c ∧ c ≤ 126 := by
  have key : ∀ t ∈ Terminal.all, t.pattern? ≠ none → 33 ≤ t.lead ∧ t.lead ≤ 126 := by
    decide +kernel
  obtain ⟨p, hp, hl⟩ := h.matches
  have hlead := h.matches.shape.lead
  have := key k.scanned (by cases k.scanned <;> decide) (by simp [hp])
  rw [← hlead] at this
  unfold leadOf at this
  split at this
  · rename_i hd
    simp only [isDigit, Bool.and_eq_true, decide_eq_true_eq] at hd
    omega
  · split at this
    · rename_i hc
      simp only [isLetter, Bool.or_eq_true, Bool.and_eq_true, decide_eq_true_eq] at hc
      omega
    · split at this
      · rename_i hc
        simp only [Bool.or_eq_true, decide_eq_true_eq] at hc
        omega
      · exact this

lemma Terminal.Lexeme.exists_cons {k : Terminal} {l : List Int} (h : k.Lexeme l) :
    ∃ c v, l = c :: v ∧ 33 ≤ c ∧ c ≤ 126 := by
  obtain ⟨c, v, rfl⟩ := List.exists_cons_of_ne_nil h.matches.ne_nil
  exact ⟨c, v, rfl, h.head⟩

/-- Tokens other than strings and comments are printable. -/
lemma Terminal.Lexeme.all_printable {k : Terminal} {l : List Int} (h : k.Lexeme l)
    (hstring : k ≠ .string) (hcomment : k ≠ .comment) : ∀ c ∈ l, 33 ≤ c ∧ c ≤ 126 := by
  have hword : ∀ {c : Int}, CharClass.wordChar.holds c = true → 33 ≤ c ∧ c ≤ 126 := by
    intro c hc
    simp only [CharClass.holds, CharClass.isLetter, CharClass.isDigit, Bool.or_eq_true,
      Bool.and_eq_true, decide_eq_true_eq] at hc
    omega
  have hdecimal : ∀ {v : List Int}, v ∈ Pattern.decimal.language → ∀ c ∈ v, 33 ≤ c ∧ c ≤ 126 := by
    intro v hv c hc
    have := (Pattern.mem_decimal hv).2 c hc
    simp only [Pattern.isDecimal, CharClass.isDigit, Bool.or_eq_true, Bool.and_eq_true,
      decide_eq_true_eq] at this
    omega
  have hshape := h.matches.shape
  generalize hk : k.scanned = t at hshape
  cases hshape with
  | word hc hv =>
    refine List.forall_mem_cons.2 ⟨hword ?_, fun d hd => hword (hv d hd)⟩
    simp [CharClass.holds, hc]
  | quantity hq hu =>
    subst hu
    refine List.forall_mem_append.2 ?_
    cases hq with
    | number hv => exact ⟨hdecimal hv, by simp⟩
    | rate hv => exact ⟨hdecimal hv, by decide⟩
    | percent hv => exact ⟨hdecimal hv, by decide⟩
    | duration hv hunit =>
      refine ⟨hdecimal hv, ?_⟩
      rcases timeUnit_cases hunit with rfl | rfl | rfl | rfl <;> decide
  | string _ _ => exact absurd (eq_of_scanned hk (by decide)) hstring
  | comment _ _ => exact absurd (eq_of_scanned hk (by decide)) hcomment
  | sign hs =>
    have key : ∀ x ∈ signs, ∀ c ∈ x.2, 33 ≤ c ∧ c ≤ 126 := by decide
    exact key _ hs

/-! ### Gaps -/

lemma gap_of_blanks {g : List Int} (h : ∀ c ∈ g, isBlank c = true) : Gap g := by
  induction g with
  | nil => exact .nil
  | cons c g ih => exact .blank (h c (by simp)) (ih fun d hd => h d (by simp [hd]))

lemma Gap.append {g g' : List Int} (h : Gap g) (h' : Gap g') : Gap (g ++ g') := by
  induction h with
  | nil => exact h'
  | blank hc _ ih => exact .blank hc ih
  | comment hv _ ih => simpa using Gap.comment hv ih

lemma Gap.of_newline {g : List Int} (h : Gap (newline :: g)) : Gap g := by
  cases h with
  | blank _ hg => exact hg

/-- A gap may be made longer in front. -/
lemma Printed.prepend {w w' : Bool} {ts : List (Terminal × List Int)} {g text : List Int}
    (h : Printed w ts text) (hg : Gap g) (hne : g ≠ []) : Printed w' ts (g ++ text) := by
  cases h with
  | last hl =>
    cases hl with
    | gap hg' => exact .last (.gap (hg.append hg'))
    | comment hg' hv =>
      rw [← List.append_assoc]
      exact .last (.comment (hg.append hg') hv)
  | token gap lexeme _ rest =>
    rw [← List.append_assoc]
    exact .token (hg.append gap) lexeme (fun _ h => by simp [hne] at h) rest

/-- A newline may be taken off in front. -/
lemma Printed.of_newline {w : Bool} {ts : List (Terminal × List Int)} {text : List Int}
    (h : Printed w ts (newline :: text)) : Printed false ts text := by
  generalize hx : newline :: text = x at h
  cases h with
  | last hl =>
    cases hl with
    | gap hg =>
      subst hx
      exact .last (.gap hg.of_newline)
    | @comment g v hg hv =>
      rcases g with _ | ⟨c, g⟩
      · simp [newline] at hx
      · obtain ⟨rfl, rfl⟩ := List.cons.inj hx
        exact .last (.comment hg.of_newline hv)
  | @token _ k l g text' ts gap lexeme apart rest =>
    rcases g with _ | ⟨c, g⟩
    · obtain ⟨c, v, rfl, hc⟩ := lexeme.exists_cons
      obtain ⟨rfl, -⟩ := List.cons.inj hx
      simp [newline] at hc
    · obtain ⟨rfl, rfl⟩ := List.cons.inj hx
      exact .token gap.of_newline lexeme (fun h => by cases h) rest

/-- No token is printed as nothing. -/
lemma Printed.eq_nil {w : Bool} {ts : List (Terminal × List Int)} (h : Printed w ts []) :
    ts = [] := by
  generalize hx : ([] : List Int) = x at h
  cases h with
  | last _ => rfl
  | token _ lexeme _ _ =>
    obtain ⟨c, v, rfl, -⟩ := lexeme.exists_cons
    simp at hx

/-- A comment that ends where a line or the text ends may stand in front. -/
lemma Printed.comment {w : Bool} {ts : List (Terminal × List Int)} {b v r : List Int}
    (hb : ∀ c ∈ b, isBlank c = true) (hv : ∀ c ∈ v, inLine.holds c = true)
    (hr : ∀ c ∈ r.head?, c = newline) (h : Printed false ts r) :
    Printed w ts (b ++ (47 :: 47 :: v ++ r)) := by
  cases r with
  | nil =>
    rw [h.eq_nil, List.append_nil]
    exact .last (.comment (gap_of_blanks hb) hv)
  | cons c r =>
    obtain rfl := hr c rfl
    have hgap : Gap (b ++ 47 :: 47 :: (v ++ [newline])) :=
      (gap_of_blanks hb).append (.comment hv .nil)
    have : Printed w ts (b ++ 47 :: 47 :: (v ++ [newline]) ++ r) :=
      h.of_newline.prepend hgap (by simp)
    simpa using this

/-- What a printed text begins with, behind blanks: a comment, the first token or the end. -/
inductive Front (ts : List (Terminal × List Int)) : List Int → Prop
  | comment {v r : List Int} (hv : ∀ c ∈ v, inLine.holds c = true)
      (hr : ∀ c ∈ r.head?, c = newline) (rest : Printed false ts r) :
      Front ts (47 :: 47 :: (v ++ r))
  | token {k : Terminal} {l r : List Int} {ts' : List (Terminal × List Int)}
      (hts : ts = (k, l) :: ts') (lexeme : k.Lexeme l) (rest : Printed k.isWord ts' r) :
      Front ts (l ++ r)
  | ended (hts : ts = []) : Front ts []

lemma front_of_gap {ts : List (Terminal × List Int)} {g r : List Int} (hg : Gap g)
    (hr : Front ts r) (hp : Printed false ts r) :
    ∃ b r', g ++ r = b ++ r' ∧ (∀ c ∈ b, isBlank c = true) ∧ Front ts r' := by
  induction hg with
  | nil => exact ⟨[], r, rfl, by simp, hr⟩
  | blank hc _ ih =>
    obtain ⟨b, r', h, hb, hf⟩ := ih
    exact ⟨_ :: b, r', congrArg _ h, List.forall_mem_cons.2 ⟨hc, hb⟩, hf⟩
  | @comment v g hv hg _ =>
    have hp' : Printed false ts (newline :: (g ++ r)) :=
      hp.prepend (Gap.blank (by decide) hg) (by simp)
    exact ⟨[], _, rfl, by simp, by simpa using Front.comment hv (by simp) hp'⟩

theorem Printed.front {w : Bool} {ts : List (Terminal × List Int)} {text : List Int}
    (h : Printed w ts text) :
    ∃ b r, text = b ++ r ∧ (∀ c ∈ b, isBlank c = true) ∧ Front ts r := by
  cases h with
  | last hl =>
    cases hl with
    | gap hg =>
      have := front_of_gap hg (.ended rfl) (.last (.gap .nil))
      rwa [List.append_nil] at this
    | @comment g v hg hv =>
      have hf : Front [] (47 :: 47 :: (v ++ [])) := .comment hv (by simp) (.last (.gap .nil))
      have hp : Printed false [] ([] ++ 47 :: 47 :: v) := .last (.comment .nil hv)
      rw [List.append_nil] at hf
      exact front_of_gap hg hf hp
  | token gap lexeme _ rest =>
    refine front_of_gap gap (.token rfl lexeme rest) ?_
    exact .token .nil lexeme (fun h => by cases h) rest

/-- A printed text begins with a blank or a printable character. -/
lemma Printed.head {w : Bool} {ts : List (Terminal × List Int)} {c : Int} {r : List Int}
    (h : Printed w ts (c :: r)) : isBlank c = true ∨ 33 ≤ c ∧ c ≤ 126 := by
  obtain ⟨b, x, hx, hb, hf⟩ := h.front
  rcases b with _ | ⟨d, b⟩
  · right
    generalize hy : c :: r = y at hx
    rw [List.nil_append] at hx
    subst hx
    cases hf with
    | comment _ _ _ =>
      obtain ⟨rfl, -⟩ := List.cons.inj hy
      decide
    | token _ lexeme _ =>
      obtain ⟨d, v, rfl, hd⟩ := lexeme.exists_cons
      obtain ⟨rfl, -⟩ := List.cons.inj hy
      exact hd
    | ended _ => cases hy
  · obtain ⟨rfl, -⟩ := List.cons.inj hx
    exact .inl (hb _ (by simp))

/-- The front is where the blanks end. -/
lemma Front.dropWhile {ts : List (Terminal × List Int)} {r : List Int} (h : Front ts r)
    {b : List Int} (hb : ∀ c ∈ b, isBlank c = true) : (b ++ r).dropWhile isBlank = r := by
  have hr : ∀ c ∈ r.head?, isBlank c = false := by
    intro c hc
    cases h with
    | comment _ _ _ =>
      obtain rfl : 47 = c := by simpa using hc
      decide
    | token _ lexeme _ =>
      obtain ⟨d, v, rfl, hd⟩ := lexeme.exists_cons
      obtain rfl : d = c := by simpa using hc
      exact (printable hd).1
    | ended _ => cases hc
  rw [List.dropWhile_append_of_pos hb]
  cases r with
  | nil => rfl
  | cons c r => rw [List.dropWhile_cons_of_neg (by simp [hr c rfl])]

end ScenarioSyntax
