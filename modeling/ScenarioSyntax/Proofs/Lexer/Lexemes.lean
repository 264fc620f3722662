import ScenarioSyntax.Lexer.Keyword
import ScenarioSyntax.Proofs.Lexer.Longest

/-!
The texts that the tokens are, written out.
-/

namespace ScenarioSyntax

open Computability

namespace Pattern

variable {k : CharClass} {u : List Int}

lemma mem_one : u ∈ (one k).language ↔ ∃ c, k.holds c = true ∧ u = [c] := Iff.rfl

lemma mem_many_one : u ∈ (many (one k)).language ↔ ∀ c ∈ u, k.holds c = true := by
  induction u with
  | nil => simp [language, Language.nil_mem_kstar]
  | cons c u ih =>
    rw [language] at ih ⊢
    rw [cons_mem_kstar]
    constructor
    · rintro ⟨v, w, hv, hw, rfl⟩
      obtain ⟨d, hd, h⟩ := mem_one.1 hv
      obtain ⟨rfl, rfl⟩ : c = d ∧ v = [] := by simpa using h
      intro e he
      rcases List.mem_cons.1 he with rfl | he
      · exact hd
      · exact ih.1 hw e he
    · intro h
      exact ⟨[], u, ⟨c, h c (by simp), rfl⟩, ih.2 fun d hd => h d (by simp [hd]), rfl⟩

lemma mem_many1_one : u ∈ (many1 (one k)).language ↔ u ≠ [] ∧ ∀ c ∈ u, k.holds c = true := by
  cases u with
  | nil => simp [language, Language.mem_mul, mem_one]
  | cons c u =>
    have : c :: u ∈ (many1 (one k)).language ↔ c :: u ∈ (many (one k)).language :=
      cons_mem_mul_kstar
    simp [this, mem_many_one]

lemma mem_seq {p q : Pattern} : u ∈ (seq p q).language ↔
    ∃ v ∈ p.language, ∃ w ∈ q.language, v ++ w = u := Language.mem_mul

lemma mem_either {p q : Pattern} : u ∈ (either p q).language ↔ u ∈ p.language ∨ u ∈ q.language :=
  Iff.rfl

lemma mem_optional {p : Pattern} : u ∈ (optional p).language ↔ u = [] ∨ u ∈ p.language := Iff.rfl

lemma mem_one_only {c : Char} : u ∈ (one (.only c)).language ↔ u = [(c.toNat : Int)] := by
  simp [mem_one, CharClass.holds]

lemma mem_literal {c : Char} {cs : List Char} :
    u ∈ (literal c cs).language ↔ u = (c :: cs).map fun c => (c.toNat : Int) := by
  induction cs generalizing c u with
  | nil => exact mem_one_only
  | cons d cs ih => simp [literal, mem_seq, mem_one_only, ih, eq_comm]

/-! ### Words, numbers and strings -/

open CharClass in
lemma mem_identifier : u ∈ identifier.language ↔
    ∃ c v, u = c :: v ∧ isLetter c = true ∧ ∀ d ∈ v, wordChar.holds d = true := by
  simp only [identifier, mem_seq, mem_many_one, mem_one]
  constructor
  · rintro ⟨_, ⟨c, hc, rfl⟩, v, hv, rfl⟩
    exact ⟨c, v, rfl, hc, hv⟩
  · rintro ⟨c, v, rfl, hc, hv⟩
    exact ⟨[c], ⟨c, hc, rfl⟩, v, hv, rfl⟩

lemma mem_digits : u ∈ digits.language ↔ u ≠ [] ∧ ∀ c ∈ u, CharClass.isDigit c = true :=
  mem_many1_one

/-- A decimal is all digits, or has digits on both sides of its point. -/
lemma mem_decimal_iff : u ∈ decimal.language ↔
    u ∈ digits.language ∨ ∃ v ∈ digits.language, ∃ w ∈ digits.language, u = v ++ 46 :: w := by
  simp only [decimal, mem_seq, mem_optional, mem_one_only]
  constructor
  · rintro ⟨v, hv, _, rfl | ⟨_, rfl, w, hw, rfl⟩, rfl⟩
    · rw [List.append_nil]
      exact .inl hv
    · exact .inr ⟨v, hv, w, hw, rfl⟩
  · rintro (hu | ⟨v, hv, w, hw, rfl⟩)
    · exact ⟨u, hu, [], .inl rfl, List.append_nil u⟩
    · exact ⟨v, hv, 46 :: w, .inr ⟨[46], rfl, w, hw, rfl⟩, rfl⟩

/-- Characters that decimals consist of. -/
def isDecimal (c : Int) : Bool := CharClass.isDigit c || c = 46

lemma isDecimal_of_mem_digits (h : u ∈ digits.language) : ∀ c ∈ u, isDecimal c = true := by
  intro c hc
  simp [isDecimal, (mem_digits.1 h).2 c hc]

/-- A decimal begins with a digit. -/
lemma mem_decimal (h : u ∈ decimal.language) :
    (∃ c v, u = c :: v ∧ CharClass.isDigit c = true) ∧ ∀ c ∈ u, isDecimal c = true := by
  have digit : ∀ {v : List Int}, v ∈ digits.language →
      ∃ c w, v = c :: w ∧ CharClass.isDigit c = true := by
    intro v hv
    obtain ⟨hne, hd⟩ := mem_digits.1 hv
    obtain ⟨c, w, rfl⟩ := List.exists_cons_of_ne_nil hne
    exact ⟨c, w, rfl, hd c (by simp)⟩
  rcases mem_decimal_iff.1 h with h | ⟨v, hv, w, hw, rfl⟩
  · exact ⟨digit h, isDecimal_of_mem_digits h⟩
  · obtain ⟨c, v', rfl, hc⟩ := digit hv
    refine ⟨⟨c, v' ++ 46 :: w, rfl, hc⟩, List.forall_mem_append.2 ⟨isDecimal_of_mem_digits hv, ?_⟩⟩
    exact List.forall_mem_cons.2 ⟨by decide, isDecimal_of_mem_digits hw⟩

/-- A number with what stands behind it, if anything. -/
inductive Quantity : Terminal → List Int → List Int → Prop
  | number {v : List Int} (h : v ∈ decimal.language) : Quantity .number v []
  | rate {v : List Int} (h : v ∈ decimal.language) : Quantity .rateConstant v [47, 115]
  | percent {v : List Int} (h : v ∈ decimal.language) : Quantity .percent v [37]
  | duration {v : List Int} {c : Int} (h : v ∈ decimal.language)
      (unit : CharClass.timeUnit.holds c = true) : Quantity .duration v [c]

/-- The inside of a string. -/
inductive Quoted : List Int → Prop
  | nil : Quoted []
  | plain {c : Int} {u : List Int} (hc : CharClass.quoted.holds c = true) (hu : Quoted u) :
      Quoted (c :: u)
  | escape {c : Int} {u : List Int} (hc : CharClass.inLine.holds c = true) (hu : Quoted u) :
      Quoted (92 :: c :: u)

lemma quoted_of_mem
    (h : u ∈ (many (either (one .quoted) (seq (one (.only '\\')) (one .inLine)))).language) :
    Quoted u := by
  induction hn : u.length using Nat.strongRecOn generalizing u with
  | ind n ih =>
    cases u with
    | nil => exact .nil
    | cons c u =>
      rw [language, cons_mem_kstar] at h
      obtain ⟨v, w, hv, hw, rfl⟩ := h
      simp only [List.length_cons, List.length_append] at hn
      have hw := ih w.length (by omega) hw rfl
      rcases mem_either.1 hv with hv | hv
      · obtain ⟨d, hd, h⟩ := mem_one.1 hv
        obtain ⟨rfl, rfl⟩ : c = d ∧ v = [] := by simpa using h
        exact .plain hd hw
      · obtain ⟨x, hx, y, hy, h⟩ := mem_seq.1 hv
        obtain rfl := mem_one_only.1 hx
        obtain ⟨d, hd, rfl⟩ := mem_one.1 hy
        obtain ⟨rfl, rfl⟩ : 92 = c ∧ [d] = v := by simpa using h
        exact .escape hd hw

lemma mem_of_quoted (h : Quoted u) :
    u ∈ (many (either (one .quoted) (seq (one (.only '\\')) (one .inLine)))).language := by
  induction h with
  | nil => exact Language.nil_mem_kstar _
  | @plain c u hc _ ih =>
    exact cons_mem_kstar.2 ⟨[], u, mem_either.2 (.inl ⟨c, hc, rfl⟩), ih, rfl⟩
  | @escape c u hc _ ih =>
    refine cons_mem_kstar.2 ⟨[c], u, mem_either.2 (.inr ?_), ih, rfl⟩
    exact mem_seq.2 ⟨[92], mem_one_only.2 rfl, [c], ⟨c, hc, rfl⟩, rfl⟩

/-- The quotation mark that closes a string is the first one that is not escaped. -/
lemma Quoted.eq_of_append {v w x y : List Int} (hv : Quoted v) (hw : Quoted w)
    (h : v ++ 34 :: x = w ++ 34 :: y) : v = w ∧ x = y := by
  induction hv generalizing w with
  | nil =>
    cases hw with
    | nil => simpa using h
    | plain hc _ =>
      obtain ⟨rfl, -⟩ := List.cons.inj h
      cases hc
    | escape _ _ => simp at h
  | @plain c u hc _ ih =>
    cases hw with
    | nil =>
      obtain ⟨rfl, -⟩ := List.cons.inj h
      cases hc
    | plain _ hw' =>
      obtain ⟨rfl, htail⟩ := List.cons.inj h
      obtain ⟨rfl, rfl⟩ := ih hw' htail
      exact ⟨rfl, rfl⟩
    | escape _ _ =>
      obtain ⟨rfl, -⟩ := List.cons.inj h
      cases hc
  | @escape c u _ _ ih =>
    cases hw with
    | nil => simp at h
    | plain hc _ =>
      obtain ⟨rfl, -⟩ := List.cons.inj h
      cases hc
    | escape _ hw' =>
      simp only [List.cons_append, List.cons.injEq, true_and] at h
      obtain ⟨rfl, h⟩ := h
      obtain ⟨rfl, rfl⟩ := ih hw' h
      exact ⟨rfl, rfl⟩

end Pattern

open Pattern

/-! ### The forms that tokens have -/

namespace Terminal

/-- The tokens that are signs, with each of their spellings. -/
def signs : List (Terminal × List Int) :=
  [(.hashBracket, [35, 91]), (.rightBracket, [93]), (.less, [60]), (.greater, [62]),
   (.leftBrace, [123]), (.rightBrace, [125]), (.comma, [44]), (.equals, [61]), (.leftParen, [40]),
   (.rightParen, [41]), (.dots, [46, 46]), (.comparisonOperator, [62, 61]),
   (.comparisonOperator, [60, 61]), (.comparisonOperator, [62]), (.comparisonOperator, [60]),
   (.comparisonOperator, [61, 61])]

inductive Shape : Terminal → List Int → Prop
  | word {c : Int} {v : List Int} (hc : CharClass.isLetter c = true)
      (hv : ∀ d ∈ v, CharClass.wordChar.holds d = true) : Shape .identifier (c :: v)
  | quantity {t : Terminal} {v s u : List Int} (h : Quantity t v s) (hu : v ++ s = u) : Shape t u
  | string {v u : List Int} (h : Quoted v) (hu : 34 :: (v ++ [34]) = u) : Shape .string u
  | comment {v u : List Int} (h : ∀ c ∈ v, CharClass.inLine.holds c = true)
      (hu : 47 :: 47 :: v = u) : Shape .comment u
  | sign {t : Terminal} {u : List Int} (h : (t, u) ∈ signs) : Shape t u

lemma Matches.shape {t : Terminal} {u : List Int} (h : t.Matches u) : t.Shape u := by
  obtain ⟨p, hp, hu⟩ := h
  cases t <;> simp only [pattern?, Option.some.injEq, reduceCtorEq] at hp <;> subst hp
  case identifier =>
    obtain ⟨c, v, rfl, hc, hv⟩ := mem_identifier.1 hu
    exact .word hc hv
  case string =>
    obtain ⟨a, ha, b, hb, rfl⟩ := mem_seq.1 hu
    obtain ⟨v, hv, c, hc, rfl⟩ := mem_seq.1 hb
    obtain rfl := mem_one_only.1 ha
    obtain rfl := mem_one_only.1 hc
    exact .string (quoted_of_mem hv) rfl
  case rateConstant =>
    obtain ⟨v, hv, s, hs, rfl⟩ := mem_seq.1 hu
    obtain rfl := mem_literal.1 hs
    exact .quantity (.rate hv) rfl
  case percent =>
    obtain ⟨v, hv, s, hs, rfl⟩ := mem_seq.1 hu
    obtain rfl := mem_one_only.1 hs
    exact .quantity (.percent hv) rfl
  case duration =>
    obtain ⟨v, hv, s, hs, rfl⟩ := mem_seq.1 hu
    obtain ⟨c, hc, rfl⟩ := mem_one.1 hs
    exact .quantity (.duration (mem_decimal_iff.2 (.inl hv)) hc) rfl
  case number => exact .quantity (.number hu) (by simp)
  case comment =>
    obtain ⟨a, ha, v, hv, rfl⟩ := mem_seq.1 hu
    obtain rfl := mem_literal.1 ha
    exact .comment (mem_many_one.1 hv) rfl
  case comparisonOperator =>
    simp only [Pattern.comparison, mem_either, mem_literal] at hu
    rcases hu with rfl | rfl | rfl | rfl | rfl <;> exact .sign (by decide)
  all_goals
    obtain rfl := mem_literal.1 hu
    exact .sign (by decide)

/-- A number that stands for all characters that tokens of one family begin with. -/
def leadOf (c : Int) : Int :=
  if CharClass.isDigit c then 48 else if CharClass.isLetter c then 65
  else if c = 61 || c = 62 then 60 else c

def lead : Terminal → Int
  | .identifier => 65
  | .string => 34
  | .rateConstant | .percent | .duration | .number => 48
  | .comment => 47
  | t => ((signs.lookup t).bind fun u => u.head?.map leadOf).getD 0

lemma leadOf_digit {c : Int} (h : CharClass.isDigit c = true) : leadOf c = 48 := by
  simp [leadOf, h]

lemma leadOf_letter {c : Int} (h : CharClass.isLetter c = true) : leadOf c = 65 := by
  have hd : CharClass.isDigit c = false := by
    simp only [CharClass.isDigit, CharClass.isLetter, Bool.or_eq_true, Bool.and_eq_true,
      decide_eq_true_eq, Bool.and_eq_false_iff, decide_eq_false_iff_not] at h ⊢
    omega
  simp [leadOf, h, hd]

lemma Shape.lead {t : Terminal} {c : Int} {u : List Int} (h : t.Shape (c :: u)) :
    leadOf c = t.lead := by
  generalize hx : c :: u = x at h
  cases h with
  | word hc _ =>
    obtain ⟨rfl, -⟩ := List.cons.inj hx
    exact leadOf_letter hc
  | @quantity t v s _ h hu =>
    have key : v ∈ decimal.language ∧ t.lead = 48 := by cases h <;> exact ⟨by assumption, rfl⟩
    obtain ⟨⟨d, w, rfl, hd⟩, -⟩ := mem_decimal key.1
    rw [← hx] at hu
    obtain ⟨rfl, -⟩ := List.cons.inj hu
    rw [leadOf_digit hd, key.2]
  | string _ hu =>
    rw [← hx] at hu
    obtain ⟨rfl, -⟩ := List.cons.inj hu
    rfl
  | comment _ hu =>
    rw [← hx] at hu
    obtain ⟨rfl, -⟩ := List.cons.inj hu
    rfl
  | sign h =>
    have key : ∀ x ∈ signs, ∀ c ∈ x.2.head?, leadOf c = x.1.lead := by decide
    exact key _ h c (by rw [← hx]; rfl)

/-! ### No token goes on -/

/-- The text behind a token does not make it longer. -/
def Stops (k : Terminal) (rest : List Int) : Prop :=
  ∀ c ∈ rest.head?, match k with
    | .identifier => CharClass.wordChar.holds c = false
    | .number => isDecimal c = false ∧ c ≠ 37 ∧ CharClass.timeUnit.holds c = false ∧
        rest.take 2 ≠ [47, 115]
    | .comparisonOperator => c ≠ 61
    | .comment => CharClass.inLine.holds c = false
    | _ => True

/-- Tokens of which one can be the beginning of the other. -/
def clash (k t : Terminal) : Bool :=
  (k = .comparisonOperator && (t = .less || t = .greater || t = .equals)) ||
    (t = .comparisonOperator && (k = .less || k = .greater || k = .equals))

lemma Stops.of_append {k : Terminal} {u v : List Int} (h : k.Stops (u ++ v)) : k.Stops u := by
  cases u with
  | nil => intro c hc; cases hc
  | cons d u =>
    intro c hc
    have := h c (by simpa using hc)
    cases k <;> simp only at this ⊢ <;> try exact this
    refine ⟨this.1, this.2.1, this.2.2.1, fun hu => this.2.2.2 ?_⟩
    rcases u with _ | ⟨e, u⟩ <;> simp at hu ⊢
    exact hu

/-- The longest beginning of one class reaches as far as any other one. -/
lemma exists_append {P : Int → Bool} {v w x y : List Int} (hv : ∀ c ∈ v, P c = true)
    (hy : ∀ c ∈ y.head?, P c = false) (h : v ++ x = w ++ y) : ∃ z, w = v ++ z ∧ x = z ++ y := by
  rcases List.append_eq_append_iff.1 h with ⟨z, hw, hx⟩ | ⟨z, rfl, rfl⟩
  · exact ⟨z, hw, hx⟩
  · cases z with
    | nil => exact ⟨[], by simp, rfl⟩
    | cons c z =>
      have hc := hy c rfl
      rw [hv c (by simp)] at hc
      cases hc

lemma append_eq_append {P : Int → Bool} {v w x y : List Int} (hv : ∀ c ∈ v, P c = true)
    (hw : ∀ c ∈ w, P c = true) (hx : ∀ c ∈ x.head?, P c = false)
    (hy : ∀ c ∈ y.head?, P c = false) (h : v ++ x = w ++ y) : v = w ∧ x = y := by
  obtain ⟨z, rfl, rfl⟩ := exists_append hv hy h
  cases z with
  | nil => exact ⟨(List.append_nil v).symm, rfl⟩
  | cons c z =>
    have hc := hx c rfl
    rw [hw c (by simp)] at hc
    cases hc

lemma timeUnit_cases {c : Int} (h : CharClass.timeUnit.holds c = true) :
    c = 115 ∨ c = 109 ∨ c = 104 ∨ c = 100 := by
  simpa [CharClass.holds, or_assoc] using h

lemma isDecimal_of_quantity {t : Terminal} {v s : List Int} (h : Quantity t v s) :
    (∀ c ∈ v, isDecimal c = true) ∧ ∀ c ∈ s.head?, isDecimal c = false := by
  cases h with
  | number h => exact ⟨(mem_decimal h).2, by simp⟩
  | rate h => exact ⟨(mem_decimal h).2, by decide⟩
  | percent h => exact ⟨(mem_decimal h).2, by decide⟩
  | duration h hc =>
    refine ⟨(mem_decimal h).2, ?_⟩
    rcases timeUnit_cases hc with rfl | rfl | rfl | rfl <;> decide

lemma quantity_only {k t : Terminal} {v s w s' u : List Int} (hk : Quantity k v s)
    (ht : Quantity t w s') (hu : k.Stops u) (h : v ++ s ++ u = w ++ s') : t = k ∧ u = [] := by
  rw [List.append_assoc] at h
  have hhead : ∀ c ∈ (s ++ u).head?, isDecimal c = false := by
    intro c hc
    cases hk with
    | number _ => exact (hu c hc).1
    | rate hv => exact (isDecimal_of_quantity (.rate hv)).2 c hc
    | percent hv => exact (isDecimal_of_quantity (.percent hv)).2 c hc
    | duration hv hunit => exact (isDecimal_of_quantity (.duration hv hunit)).2 c hc
  obtain ⟨rfl, hs⟩ := append_eq_append (isDecimal_of_quantity hk).1 (isDecimal_of_quantity ht).1
    hhead (isDecimal_of_quantity ht).2 h
  clear h hhead
  cases hk with
  | number _ =>
    rw [List.nil_append] at hs
    subst hs
    cases ht with
    | number _ => exact ⟨rfl, rfl⟩
    | rate _ => exact absurd rfl (hu 47 rfl).2.2.2
    | percent _ => exact absurd rfl (hu 37 rfl).2.1
    | duration _ hunit =>
      have := (hu _ rfl).2.2.1
      rw [hunit] at this
      cases this
  | rate _ =>
    cases ht with
    | duration _ hunit =>
      obtain ⟨rfl, -⟩ := List.cons.inj hs
      cases hunit
    | _ => simp_all
  | percent _ =>
    cases ht with
    | duration _ hunit =>
      obtain ⟨rfl, -⟩ := List.cons.inj hs
      cases hunit
    | _ => simp_all
  | duration _ hunit =>
    cases ht with
    | rate _ =>
      obtain ⟨rfl, -⟩ := List.cons.inj hs
      cases hunit
    | percent _ =>
      obtain ⟨rfl, -⟩ := List.cons.inj hs
      cases hunit
    | _ => simp_all

/-- What a character of the wrong class stands behind is complete. -/
lemma class_only {k : CharClass} {v u w : List Int} (hv : ∀ d ∈ v, k.holds d = true)
    (hu : ∀ d ∈ u.head?, k.holds d = false) (h : w ++ u = v) : u = [] := by
  cases u with
  | nil => rfl
  | cons d u =>
    have hd := hu d rfl
    rw [hv d (by simp [← h])] at hd
    cases hd

lemma sign_only {k t : Terminal} {l u w : List Int} (hk : (k, l) ∈ signs) (ht : (t, w) ∈ signs)
    (hclash : clash k t = false) (hu : k.Stops u) (h : l ++ u = w) : t = k ∧ u = [] := by
  have key : ∀ x ∈ signs, ∀ y ∈ signs, clash x.1 y.1 = false → x.2.isPrefixOf y.2 = true →
      y.1 = x.1 ∧ (y.2.drop x.2.length = [] ∨
        x.1 = .comparisonOperator ∧ y.2.drop x.2.length = [61]) := by decide
  subst h
  have := key _ hk _ ht hclash (List.isPrefixOf_iff_prefix.2 (List.prefix_append _ _))
  simp only [List.drop_left] at this
  obtain ⟨heq, hdrop | ⟨rfl, rfl⟩⟩ := this
  · exact ⟨heq, hdrop⟩
  · exact absurd rfl (hu 61 rfl)

/-- A word goes on with every letter, and a comment up to the end of the line. -/
lemma Matches.concat {k : Terminal} (hk : k = .identifier ∨ k = .comment) {l : List Int}
    (h : k.Matches l) {c : Int} (hc : ¬ k.Stops [c]) : k.Matches (l ++ [c]) := by
  have all : ∀ {j : CharClass} {v : List Int}, (∀ d ∈ v, j.holds d = true) → j.holds c = true →
      ∀ d ∈ v ++ [c], j.holds d = true := by
    intro j v hv hj d hd
    rcases List.mem_append.1 hd with hd | hd
    · exact hv d hd
    · obtain rfl : d = c := by simpa using hd
      exact hj
  obtain ⟨p, hp, hl⟩ := h
  rcases hk with rfl | rfl
  · obtain rfl : Pattern.identifier = p := Option.some.inj hp
    obtain ⟨d, v, rfl, hd, hv⟩ := mem_identifier.1 hl
    have hj : CharClass.wordChar.holds c = true := by simpa [Stops] using hc
    exact ⟨_, rfl, mem_identifier.2 ⟨d, v ++ [c], rfl, hd, all hv hj⟩⟩
  · obtain rfl : Pattern.comment = p := Option.some.inj hp
    obtain ⟨a, ha, v, hv, rfl⟩ := mem_seq.1 hl
    have hj : CharClass.inLine.holds c = true := by simpa [Stops] using hc
    exact ⟨_, rfl, mem_seq.2 ⟨a, ha, v ++ [c], mem_many_one.2 (all (mem_many_one.1 hv) hj),
      by simp⟩⟩

lemma lead_of_quantity {t : Terminal} {v s : List Int} (h : Quantity t v s) : t.lead = 48 := by
  cases h <;> rfl

lemma lead_of_sign {t : Terminal} {l : List Int} (h : (t, l) ∈ signs) :
    t.lead ≠ 65 ∧ t.lead ≠ 48 ∧ t.lead ≠ 34 ∧ t.lead ≠ 47 := by
  have key : ∀ x ∈ signs, x.1.lead ≠ 65 ∧ x.1.lead ≠ 48 ∧ x.1.lead ≠ 34 ∧ x.1.lead ≠ 47 := by
    decide
  exact key _ h

/-- Tokens that begin alike are of one family. -/
lemma Matches.lead_eq {k t : Terminal} {l u : List Int} (hk : k.Matches l)
    (ht : t.Matches (l ++ u)) : k.lead = t.lead := by
  obtain ⟨c, l, rfl⟩ := List.exists_cons_of_ne_nil hk.ne_nil
  exact hk.shape.lead.symm.trans ht.shape.lead

lemma Shape.eq_identifier {t : Terminal} {u : List Int} (h : t.Shape u) (hlead : t.lead = 65) :
    t = .identifier := by
  cases h with
  | word _ _ => rfl
  | quantity h _ => exact absurd ((lead_of_quantity h).symm.trans hlead) (by decide)
  | string _ _ => exact absurd hlead (by decide)
  | comment _ _ => exact absurd hlead (by decide)
  | sign h => exact absurd hlead (lead_of_sign h).1

lemma Shape.exists_quantity {t : Terminal} {u : List Int} (h : t.Shape u) (hlead : t.lead = 48) :
    ∃ v s, Quantity t v s ∧ v ++ s = u := by
  cases h with
  | quantity h hu => exact ⟨_, _, h, hu⟩
  | sign h => exact absurd hlead (lead_of_sign h).2.1
  | word _ _ => exact absurd hlead (by decide)
  | string _ _ => exact absurd hlead (by decide)
  | comment _ _ => exact absurd hlead (by decide)

lemma Shape.mem_signs {k t : Terminal} {l u : List Int} (h : t.Shape u) (hk : (k, l) ∈ signs)
    (hlead : k.lead = t.lead) : (t, u) ∈ signs := by
  obtain ⟨hword, hquantity, hstring, hcomment⟩ := lead_of_sign hk
  cases h with
  | sign h => exact h
  | word _ _ => exact absurd hlead hword
  | quantity h _ => exact absurd (hlead.trans (lead_of_quantity h)) hquantity
  | string _ _ => exact absurd hlead hstring
  | comment _ _ => exact absurd hlead hcomment

/-- **Nothing else is read.** Where a token stops, every token that matches so far or further is
that token. -/
theorem Matches.only {k t : Terminal} {l u : List Int} (hk : k.Matches l) (ht : t.Matches (l ++ u))
    (hclash : clash k t = false) (hu : k.Stops u) : t = k ∧ u = [] := by
  have hlead := hk.lead_eq ht
  have hks := hk.shape
  have hts := ht.shape
  generalize hw : l ++ u = w at hts
  cases hks with
  | word hc hv =>
    obtain rfl := hts.eq_identifier hlead.symm
    cases hts with
    | word hd hx => exact ⟨rfl, class_only hx hu (List.cons.inj hw).2⟩
    | quantity h _ => cases h
    | sign h => exact absurd rfl (lead_of_sign h).1
  | quantity h hl =>
    obtain ⟨_, _, h', hw'⟩ := hts.exists_quantity (hlead.symm.trans (lead_of_quantity h))
    subst hl hw'
    exact quantity_only h h' hu hw
  | string hv hl =>
    cases hts with
    | string hv' hw' =>
      subst hl
      rw [← hw'] at hw
      simp only [List.cons_append, List.append_assoc, List.cons.injEq, true_and,
        List.nil_append] at hw
      exact ⟨rfl, (hv.eq_of_append hv' hw).2⟩
    | word _ _ => exact absurd hlead (by decide)
    | quantity h _ => exact absurd (hlead.trans (lead_of_quantity h)) (by decide)
    | comment _ _ => exact absurd hlead (by decide)
    | sign h => exact absurd hlead.symm (lead_of_sign h).2.2.1
  | comment hv hl =>
    cases hts with
    | comment hv' hw' =>
      subst hl
      rw [← hw'] at hw
      exact ⟨rfl, class_only hv' hu (by simpa using hw)⟩
    | word _ _ => exact absurd hlead (by decide)
    | quantity h _ => exact absurd (hlead.trans (lead_of_quantity h)) (by decide)
    | string _ _ => exact absurd hlead (by decide)
    | sign h => exact absurd hlead.symm (lead_of_sign h).2.2.2
  | sign h => exact sign_only h (hts.mem_signs h hlead) hclash hu hw

end Terminal

end ScenarioSyntax
