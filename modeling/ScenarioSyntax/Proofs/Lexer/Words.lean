import ScenarioSyntax.Proofs.Lexer.Lexemes

/-!
Keywords: what is read of them, and the texts that are tokens when keywords are told apart from
identifiers.
-/

namespace ScenarioSyntax

namespace Terminal

/-- The texts that are tokens of this kind. An identifier may be spelled like a keyword. -/
def Lexeme (t : Terminal) (l : List Int) : Prop :=
  if t.isKeyword then l = t.spelling else t.Matches l

/-- What the lexer finds before it looks for keywords. -/
def scanned (t : Terminal) : Terminal := if t.isKeyword then .identifier else t

def isWord (t : Terminal) : Bool := t.scanned = .identifier

lemma scanned_eq_self {t : Terminal} (h : t.scanned ≠ .identifier) : t.scanned = t := by
  unfold scanned at h ⊢
  split
  · rename_i hk
    simp [hk] at h
  · rfl

lemma eq_of_scanned {t k : Terminal} (h : t.scanned = k) (hk : k ≠ .identifier) : t = k :=
  (scanned_eq_self (h ▸ hk)).symm.trans h

lemma mem_keywords {t : Terminal} : t ∈ keywords ↔ t.isKeyword = true := by
  simp [isKeyword]

/-- Keywords have no pattern. -/
lemma Matches.isKeyword_eq_false {t : Terminal} {l : List Int} (h : t.Matches l) :
    t.isKeyword = false := by
  obtain ⟨p, hp, -⟩ := h
  cases t <;> first | rfl | cases hp

lemma matches_spelling {t : Terminal} (ht : t ∈ keywords) : identifier.Matches t.spelling := by
  have key : ∀ t ∈ keywords, identifier.accepts t.spelling = true := by decide
  exact accepts_iff.1 (key t ht)

lemma Lexeme.matches {t : Terminal} {l : List Int} (h : t.Lexeme l) : t.scanned.Matches l := by
  unfold Lexeme at h
  unfold scanned
  split at h
  · rename_i hk
    rw [if_pos hk, h]
    exact matches_spelling (mem_keywords.2 hk)
  · rename_i hk
    rwa [if_neg hk]

lemma comment_lexeme_iff {l : List Int} : comment.Lexeme l ↔
    ∃ v, l = 47 :: 47 :: v ∧ ∀ c ∈ v, CharClass.inLine.holds c = true := by
  constructor
  · intro h
    obtain ⟨p, hp, hl⟩ := h.matches
    obtain rfl : Pattern.comment = p := Option.some.inj hp
    obtain ⟨a, ha, v, hv, rfl⟩ := Pattern.mem_seq.1 hl
    obtain rfl := Pattern.mem_literal.1 ha
    exact ⟨v, rfl, Pattern.mem_many_one.1 hv⟩
  · rintro ⟨v, rfl, hv⟩
    have hmany := Pattern.mem_many_one.2 hv
    exact ⟨_, rfl, Pattern.mem_seq.2 ⟨_, Pattern.mem_literal.2 rfl, v, hmany, rfl⟩⟩

lemma string_lexeme_iff {l : List Int} :
    string.Lexeme l ↔ ∃ v, l = 34 :: (v ++ [34]) ∧ Pattern.Quoted v := by
  constructor
  · intro h
    obtain ⟨p, hp, hl⟩ := h.matches
    obtain rfl : Pattern.string = p := Option.some.inj hp
    obtain ⟨a, ha, b, hb, rfl⟩ := Pattern.mem_seq.1 hl
    obtain ⟨v, hv, c, hc, rfl⟩ := Pattern.mem_seq.1 hb
    obtain rfl := Pattern.mem_one_only.1 ha
    obtain rfl := Pattern.mem_one_only.1 hc
    exact ⟨v, rfl, Pattern.quoted_of_mem hv⟩
  · rintro ⟨v, rfl, hv⟩
    refine ⟨_, rfl, Pattern.mem_seq.2 ⟨[34], Pattern.mem_one_only.2 rfl, v ++ [34], ?_, rfl⟩⟩
    exact Pattern.mem_seq.2 ⟨v, Pattern.mem_of_quoted hv, [34], Pattern.mem_one_only.2 rfl, rfl⟩

end Terminal

namespace Keyword

open Terminal

lemma token?_spelling {t : Terminal} (ht : t ∈ keywords) : token? t.spelling = some t := by
  have key : ∀ t ∈ keywords, token? t.spelling = some t := by decide
  exact key t ht

lemma spelling_of_token? {s : State} {t : Terminal} (h : token? s = some t) :
    t ∈ keywords ∧ t.spelling = s :=
  ⟨List.mem_of_find?_eq_some h, by simpa using List.find?_some h⟩

lemma begins_iff {s : State} : begins s = true ↔ ∃ t ∈ keywords, s <+: t.spelling := by
  simp [begins]

/-- The keyword found, if any, is spelled at the beginning of the text. -/
def Spelled (text : List Int) (found : Option (Terminal × Nat)) : Prop :=
  ∀ t n, found = some (t, n) → t ∈ keywords ∧ n ≤ text.length ∧ t.spelling = text.take n

lemma Spelled.append {s : State} {found : Option (Terminal × Nat)} (h : Spelled s found)
    (rest : List Int) : Spelled (s ++ rest) found := by
  intro t n hf
  obtain ⟨ht, hn, hs⟩ := h t n hf
  refine ⟨ht, by rw [List.length_append]; omega, ?_⟩
  rw [hs, List.take_append_of_le_length hn]

lemma Spelled.best {s : State} {found : Option (Terminal × Nat)} (h : Spelled s found) :
    Spelled s (best s s.length found) := by
  unfold Keyword.best
  split
  · rename_i t ht
    obtain ⟨hmem, hs⟩ := spelling_of_token? ht
    rintro t n h
    obtain ⟨rfl, rfl⟩ : _ = t ∧ s.length = n := by simpa using h
    exact ⟨hmem, le_refl _, by rw [List.take_length, hs]⟩
  · exact h

lemma Spelled.scan {s : State} {found : Option (Terminal × Nat)} (h : Spelled s found)
    (points : List Int) : Spelled (s ++ points) (scan s s.length found points).found := by
  induction points generalizing s found with
  | nil => simpa [Keyword.scan] using h.best
  | cons c rest ih =>
    unfold Keyword.scan
    split
    · have := ih (h.best.append [c])
      rw [List.length_append, List.append_assoc] at this
      exact this
    · exact h.best.append (c :: rest)

/-- The keyword that a text begins with. -/
theorem spelled_read (points : List Int) : Spelled points (read points) := by
  have h : Spelled [] none := fun t n h => by cases h
  exact h.scan points

/-- No keyword goes on to another one. -/
lemma not_begins_spelling {t : Terminal} (ht : t ∈ keywords) (c : Int) :
    begins (t.spelling ++ [c]) = false := by
  have key : ∀ t ∈ keywords, ∀ k ∈ keywords, t.spelling.isPrefixOf k.spelling = true → t = k := by
    decide +kernel
  rw [Bool.eq_false_iff, ne_eq, begins_iff]
  rintro ⟨k, hk, hp⟩
  obtain rfl := key t ht k hk (List.isPrefixOf_iff_prefix.2 ((List.prefix_append _ _).trans hp))
  have := hp.length_le
  rw [List.length_append, List.length_singleton] at this
  omega

lemma scan_spelling {t : Terminal} (ht : t ∈ keywords) {s : State} {v : List Int}
    (hs : s ++ v = t.spelling) (found : Option (Terminal × Nat)) (rest : List Int) :
    (scan s s.length found (v ++ rest)).found = some (t, t.spelling.length) := by
  induction v generalizing s found with
  | nil =>
    rw [List.append_nil] at hs
    subst hs
    have hbest : best t.spelling t.spelling.length found = some (t, t.spelling.length) := by
      rw [best, token?_spelling ht]
    cases rest with
    | nil => exact hbest
    | cons c rest =>
      rw [List.nil_append, scan, if_neg (by simp [not_begins_spelling ht])]
      exact hbest
  | cons c v ih =>
    have hs' : s ++ [c] ++ v = t.spelling := by simpa using hs
    have hbegins : begins (s ++ [c]) = true := begins_iff.2 ⟨t, ht, v, hs'⟩
    have := ih hs' (best s s.length found)
    rw [List.length_append] at this
    rw [List.cons_append, scan, if_pos hbegins]
    exact this

/-- A keyword is found whatever follows it. -/
theorem read_spelling {t : Terminal} (ht : t ∈ keywords) (rest : List Int) :
    read (t.spelling ++ rest) = some (t, t.spelling.length) :=
  scan_spelling ht (s := []) rfl none rest

/-- **The keyword found** is the one that the text begins with. -/
theorem read_eq_some_iff {points : List Int} {t : Terminal} {n : Nat} :
    read points = some (t, n) ↔
      t ∈ keywords ∧ n = t.spelling.length ∧ t.spelling <+: points := by
  constructor
  · intro h
    obtain ⟨ht, hn, hs⟩ := spelled_read points t n h
    refine ⟨ht, ?_, hs ▸ List.take_prefix n points⟩
    rw [hs, List.length_take, Nat.min_eq_left hn]
  · rintro ⟨ht, rfl, rest, rfl⟩
    exact read_spelling ht rest

/-- A text begins with one keyword at most. -/
lemma eq_of_spelling_prefix {points : List Int} {t k : Terminal} (ht : t ∈ keywords)
    (hk : k ∈ keywords) (htp : t.spelling <+: points) (hkp : k.spelling <+: points) : t = k := by
  have h := (read_eq_some_iff.2 ⟨ht, rfl, htp⟩).symm.trans (read_eq_some_iff.2 ⟨hk, rfl, hkp⟩)
  exact (Prod.mk.inj (Option.some.inj h)).1

end Keyword

end ScenarioSyntax
