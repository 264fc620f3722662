import ScenarioSyntax.Proofs.Text.Stops

/-!
Carriage returns in front of newlines: the texts with and without them, and what becomes of tokens.
Only a string can take part in it, and only a comment goes on with a carriage return.
-/

namespace ScenarioSyntax

def carriageReturn : Int := 13

/-- A carriage return in front of every newline. -/
def withReturns (points : List Int) : List Int :=
  points.flatMap fun c => if c = newline then [carriageReturn, newline] else [c]

/-- No carriage returns. -/
def withoutReturns (points : List Int) : List Int := points.filter (· ≠ carriageReturn)

/-- A backslash that is not taken along itself stands in front of a carriage return. -/
def escapesReturn : List Int → Bool
  | 92 :: c :: rest => c = carriageReturn || escapesReturn rest
  | _ :: rest => escapesReturn rest
  | [] => false

def Source.withReturns (src : Source) : Source :=
  .ofPoints src.encoding (ScenarioSyntax.withReturns src.points)

variable {c : Int} {l r u v text : List Int} {k : Terminal}

/-! ### Line endings -/

@[simp] lemma withReturns_nil : withReturns [] = [] := rfl

lemma withReturns_newline (l : List Int) :
    withReturns (newline :: l) = carriageReturn :: newline :: withReturns l := rfl

lemma withReturns_cons (h : c ≠ newline) (l : List Int) :
    withReturns (c :: l) = c :: withReturns l := by
  simp [withReturns, h]

lemma withReturns_append (l r : List Int) :
    withReturns (l ++ r) = withReturns l ++ withReturns r :=
  List.flatMap_append

lemma withReturns_eq_self (h : newline ∉ l) : withReturns l = l := by
  induction l with
  | nil => rfl
  | cons c l ih =>
    obtain ⟨hc, hl⟩ := not_or.1 (List.mem_cons.not.1 h)
    rw [withReturns_cons (Ne.symm hc), ih hl]

lemma withoutReturns_cons (h : c ≠ carriageReturn) (l : List Int) :
    withoutReturns (c :: l) = c :: withoutReturns l := by
  simp [withoutReturns, h]

lemma withoutReturns_append (l r : List Int) :
    withoutReturns (l ++ r) = withoutReturns l ++ withoutReturns r :=
  List.filter_append l r

lemma withoutReturns_eq_self (h : carriageReturn ∉ l) : withoutReturns l = l := by
  refine List.filter_eq_self.2 fun c hc => ?_
  rw [decide_eq_true_eq]
  rintro rfl
  exact h hc

lemma withoutReturns_withReturns (h : carriageReturn ∉ l) : withoutReturns (withReturns l) = l := by
  induction l with
  | nil => rfl
  | cons c l ih =>
    obtain ⟨hc, hl⟩ := not_or.1 (List.mem_cons.not.1 h)
    by_cases hn : c = newline
    · rw [hn, withReturns_newline]
      exact congrArg (newline :: ·) (ih hl)
    · rw [withReturns_cons hn, withoutReturns_cons (Ne.symm hc), ih hl]

/-- Every carriage return stands in front of a newline. -/
def Paired (text : List Int) : Prop :=
  ∀ u v, text = u ++ carriageReturn :: v → v.head? = some newline

lemma Paired.of_append (h : Paired (l ++ r)) : Paired r := by
  rintro u v rfl
  exact h (l ++ u) v (List.append_assoc l u _).symm

lemma paired_withReturns (h : carriageReturn ∉ l) : Paired (withReturns l) := by
  induction l with
  | nil =>
    rintro u v hv
    simp at hv
  | cons c l ih =>
    obtain ⟨hc, hl⟩ := not_or.1 (List.mem_cons.not.1 h)
    rintro u v hv
    by_cases hn : c = newline
    · rw [hn, withReturns_newline] at hv
      rcases u with _ | ⟨a, _ | ⟨b, u⟩⟩
      · obtain ⟨-, rfl⟩ := List.cons.inj hv
        rfl
      · obtain ⟨-, hv⟩ := List.cons.inj hv
        cases (List.cons.inj hv).1
      · exact ih hl u v (List.cons.inj (List.cons.inj hv).2).2
    · rw [withReturns_cons hn] at hv
      cases u with
      | nil => exact absurd (List.cons.inj hv).1.symm hc
      | cons a u => exact ih hl u v (List.cons.inj hv).2

/-- How a text begins when carriage returns are set in. -/
lemma head?_withReturns (r : List Int) : ∀ c ∈ (withReturns r).head?,
    isBlank c = true ∨ r.head? = some c ∧
      (withReturns r).tail = withReturns r.tail := by
  rcases r with _ | ⟨a, r⟩
  · simp
  by_cases ha : a = newline
  · subst ha
    rintro _ ⟨⟩
    exact .inl rfl
  · rw [withReturns_cons ha]
    rintro _ ⟨⟩
    exact .inr ⟨rfl, rfl⟩

/-- How a text begins when they are left out. -/
lemma head?_withoutReturns (hr : Paired r) : ∀ c ∈ (withoutReturns r).head?,
    isBlank c = true ∨ r.head? = some c ∧
      (withoutReturns r).tail = withoutReturns r.tail := by
  rcases r with _ | ⟨a, r⟩
  · simp [withoutReturns]
  by_cases ha : a = carriageReturn
  · subst ha
    obtain ⟨r, rfl⟩ := List.head?_eq_some_iff.1 (hr [] r rfl)
    rintro _ ⟨⟩
    exact .inl rfl
  · rw [withoutReturns_cons ha]
    rintro _ ⟨⟩
    exact .inr ⟨rfl, rfl⟩

lemma escapesReturn_cons (h : c ≠ 92) (r : List Int) :
    escapesReturn (c :: r) = escapesReturn r := by
  rw [escapesReturn]
  exact fun d s hc _ => h hc

/-! ### Tokens -/

namespace Pattern.Quoted

lemma ne_backslash (hc : CharClass.quoted.holds c = true) : c ≠ 92 := by
  rintro rfl
  cases hc

lemma ne_newline (hc : CharClass.inLine.holds c = true) : c ≠ newline := by
  rintro rfl
  cases hc

/-- A newline inside may have a carriage return in front of it. -/
lemma withReturns (h : Quoted v) : Quoted (withReturns v) := by
  induction h with
  | nil => exact .nil
  | @plain c u hc _ ih =>
    by_cases hn : c = newline
    · subst hn
      exact .plain rfl (.plain hc ih)
    · rw [withReturns_cons hn]
      exact .plain hc ih
  | @escape c u hc _ ih =>
    rw [withReturns_cons (by decide), withReturns_cons (ne_newline hc)]
    exact .escape hc ih

lemma escapesReturn_withReturns (h : Quoted v) (hr : carriageReturn ∉ v) (r : List Int) :
    escapesReturn (ScenarioSyntax.withReturns v ++ r) = escapesReturn r := by
  induction h with
  | nil => rfl
  | @plain c u hc _ ih =>
    have ih := ih fun hu => hr (List.mem_cons_of_mem c hu)
    by_cases hn : c = newline
    · subst hn
      rw [withReturns_newline, List.cons_append, List.cons_append,
        escapesReturn_cons (by decide), escapesReturn_cons (by decide), ih]
    · rw [withReturns_cons hn, List.cons_append, escapesReturn_cons (ne_backslash hc), ih]
  | @escape c u hc _ ih =>
    have hret : c ≠ carriageReturn := by
      rintro rfl
      simp at hr
    have ih := ih fun hu => hr (List.mem_cons_of_mem 92 (List.mem_cons_of_mem c hu))
    rw [withReturns_cons (by decide), withReturns_cons (ne_newline hc), List.cons_append,
      List.cons_append, escapesReturn, ih, decide_eq_false hret, Bool.false_or]

/-- Carriage returns that no backslash takes along may be left out. -/
lemma withoutReturns (h : Quoted v) (hs : escapesReturn (v ++ r) = false) :
    Quoted (withoutReturns v) := by
  induction h with
  | nil => exact .nil
  | @plain c u hc _ ih =>
    rw [List.cons_append, escapesReturn_cons (ne_backslash hc)] at hs
    by_cases hret : c = carriageReturn
    · subst hret
      exact ih hs
    · rw [withoutReturns_cons hret]
      exact .plain hc (ih hs)
  | @escape c u hc _ ih =>
    rw [List.cons_append, List.cons_append, escapesReturn, Bool.or_eq_false_iff,
      decide_eq_false_iff_not] at hs
    rw [withoutReturns_cons (by decide), withoutReturns_cons hs.1]
    exact .escape hc (ih hs.2)

end Pattern.Quoted

namespace Terminal

lemma Lexeme.newline_notMem (h : k.Lexeme l) (hstring : k ≠ .string) : newline ∉ l := by
  intro hmem
  by_cases hcomment : k = .comment
  · subst hcomment
    obtain ⟨v, rfl, hv⟩ := comment_lexeme_iff.1 h
    simp only [List.mem_cons] at hmem
    rcases hmem with h | h | h
    · cases h
    · cases h
    · cases hv _ h
  · have := h.all_printable hstring hcomment _ hmem
    unfold newline at this
    omega

lemma Lexeme.withReturns (h : k.Lexeme l) : k.Lexeme (withReturns l) := by
  by_cases hstring : k = .string
  · subst hstring
    obtain ⟨v, rfl, hv⟩ := string_lexeme_iff.1 h
    rw [withReturns_cons (by decide), withReturns_append]
    exact string_lexeme_iff.2 ⟨_, rfl, hv.withReturns⟩
  · rwa [withReturns_eq_self (h.newline_notMem hstring)]

lemma Lexeme.escapesReturn_withReturns (h : string.Lexeme l) (hr : carriageReturn ∉ l) :
    escapesReturn (ScenarioSyntax.withReturns l) = false := by
  obtain ⟨v, rfl, hv⟩ := string_lexeme_iff.1 h
  have hv' : carriageReturn ∉ v := fun hmem => hr (by simp [hmem])
  rw [withReturns_cons (by decide), withReturns_append, escapesReturn_cons (by decide),
    hv.escapesReturn_withReturns hv']
  rfl

lemma Lexeme.withoutReturns (h : k.Lexeme l) (hs : k = .string → escapesReturn l = false) :
    k.Lexeme (withoutReturns l) := by
  by_cases hstring : k = .string
  · subst hstring
    have hs := hs rfl
    obtain ⟨v, rfl, hv⟩ := string_lexeme_iff.1 h
    rw [escapesReturn_cons (by decide)] at hs
    rw [withoutReturns_cons (by decide), withoutReturns_append]
    exact string_lexeme_iff.2 ⟨_, rfl, hv.withoutReturns hs⟩
  by_cases hcomment : k = .comment
  · subst hcomment
    obtain ⟨v, rfl, hv⟩ := comment_lexeme_iff.1 h
    rw [withoutReturns_cons (by decide), withoutReturns_cons (by decide)]
    exact comment_lexeme_iff.2 ⟨_, rfl, fun c hc => hv c (List.mem_of_mem_filter hc)⟩
  · have hmem : carriageReturn ∉ l := by
      intro hmem
      have := h.all_printable hstring hcomment _ hmem
      unfold carriageReturn at this
      omega
    rwa [withoutReturns_eq_self hmem]

lemma Lexeme.concat_return (h : comment.Lexeme l) : comment.Lexeme (l ++ [carriageReturn]) := by
  obtain ⟨v, rfl, hv⟩ := comment_lexeme_iff.1 h
  refine comment_lexeme_iff.2 ⟨v ++ [carriageReturn], rfl, List.forall_mem_append.2 ⟨hv, ?_⟩⟩
  decide

lemma Stops.withReturns (h : k.Stops r) (hk : k ≠ .comment) : k.Stops (withReturns r) := by
  refine h.of_head hk fun c hc => ?_
  refine (head?_withReturns r c hc).imp_right fun ⟨hhead, htail⟩ => ⟨hhead, fun d hd => ?_⟩
  rw [htail] at hd
  exact (head?_withReturns r.tail d hd).imp_right And.left

lemma Stops.withoutReturns (h : k.Stops r) (hr : Paired r) : k.Stops (withoutReturns r) := by
  by_cases hk : k = .comment
  · subst hk
    rcases r with _ | ⟨a, r⟩
    · exact fun c hc => by cases hc
    have ha := h a rfl
    rw [withoutReturns_cons (by rintro rfl; cases ha)]
    exact fun c hc => h c hc
  refine h.of_head hk fun c hc => ?_
  refine (head?_withoutReturns hr c hc).imp_right fun ⟨hhead, htail⟩ => ⟨hhead, fun d hd => ?_⟩
  obtain ⟨s, rfl⟩ := List.head?_eq_some_iff.1 hhead
  rw [htail] at hd
  exact (head?_withoutReturns (Paired.of_append (l := [c]) hr) d hd).imp_right And.left

end Terminal

end ScenarioSyntax
