import Mathlib.Data.List.Chain
import Mathlib.Data.List.DropRight
import ScenarioSyntax.Corpus.Case

/-!
The normal form of written trees. Two texts have the same normal form if and only if they are the
same but for the layout of their white space.
-/

namespace ScenarioSyntax.Corpus

variable {c d : Char} {s u v : List Char}

/-! ### Words -/

/-- Texts one character at a time, white space or not. -/
@[elab_as_elim]
lemma layout_induction {motive : List Char → Prop} (nil : motive [])
    (blank : ∀ c s, isBlankChar c = true → motive s → motive (c :: s))
    (letter : ∀ c s, isBlankChar c = false → motive s → motive (c :: s)) (s : List Char) :
    motive s := by
  induction s with
  | nil => exact nil
  | cons c s ih =>
    cases hc : isBlankChar c with
    | true => exact blank c s hc ih
    | false => exact letter c s hc ih

/-- The first character that is not white space. -/
def first? (s : List Char) : Option Char := s.find? fun c => !isBlankChar c

@[simp] lemma first?_nil : first? [] = none := rfl

@[simp] lemma first?_cons_of_blank (h : isBlankChar c = true) (s : List Char) :
    first? (c :: s) = first? s := by
  simp [first?, h]

@[simp] lemma first?_cons (h : isBlankChar c = false) (s : List Char) :
    first? (c :: s) = some c := by
  simp [first?, h]

lemma first?_eq_none_iff : first? s = none ↔ ∀ c ∈ s, isBlankChar c = true := by
  simp [first?]

lemma wordsFrom_of_ne_nil {word : List Char} (h : word ≠ []) (s : List Char) :
    wordsFrom word s = (word.reverse ++ s.takeWhile fun c => !isBlankChar c) ::
      words (s.dropWhile fun c => !isBlankChar c) := by
  induction s using layout_induction generalizing word with
  | nil => simp [wordsFrom, words, h]
  | blank c s hc => simp [wordsFrom, words, h, hc]
  | letter c s hc ih => simp [wordsFrom, hc, ih (List.cons_ne_nil c word)]

@[simp] lemma words_nil : words [] = [] := rfl

@[simp] lemma words_cons_of_blank (h : isBlankChar c = true) (s : List Char) :
    words (c :: s) = words s := by
  simp [words, wordsFrom, h]

lemma words_cons (h : isBlankChar c = false) (s : List Char) :
    words (c :: s) = (c :: s.takeWhile fun d => !isBlankChar d) ::
      words (s.dropWhile fun d => !isBlankChar d) := by
  simp only [words, wordsFrom, h, Bool.false_eq_true, if_false]
  exact wordsFrom_of_ne_nil (List.cons_ne_nil c []) s

lemma words_eq_nil_iff : words s = [] ↔ first? s = none := by
  induction s using layout_induction with
  | nil => simp
  | blank c s hc ih => simp [hc, ih]
  | letter c s hc => simp [words_cons hc, hc]

/-- A text begins with white space. -/
def startsBlank (s : List Char) : Bool := s.head?.any isBlankChar

@[simp] lemma startsBlank_nil : startsBlank [] = false := rfl

@[simp] lemma startsBlank_cons : startsBlank (c :: s) = isBlankChar c := by
  simp [startsBlank]

/-- The words of a text with one space between them. -/
def spaced (s : List Char) : List Char := [' '].intercalate (words s)

@[simp] lemma spaced_nil : spaced [] = [] := rfl

@[simp] lemma spaced_cons_of_blank (h : isBlankChar c = true) (s : List Char) :
    spaced (c :: s) = spaced s := by
  rw [spaced, spaced, words_cons_of_blank h]

lemma spaced_cons (h : isBlankChar c = false) (s : List Char) : spaced (c :: s) =
    c :: if startsBlank s && (first? s).isSome then ' ' :: spaced s else spaced s := by
  rcases s with _ | ⟨d, s⟩
  · simp [spaced, words_cons h]
  by_cases hd : isBlankChar d = true
  · have hwords : words (c :: d :: s) = [c] :: words (d :: s) := by simp [words_cons h, hd]
    rcases hw : words (d :: s) with _ | ⟨w, ws⟩
    · have hnone := words_eq_nil_iff.1 hw
      simp [spaced, hwords, hw, hnone]
    · have hsome : first? (d :: s) ≠ none := by
        rw [ne_eq, ← words_eq_nil_iff, hw]
        exact List.cons_ne_nil w ws
      simp [spaced, hwords, hw, Option.isSome_iff_ne_none.2 hsome, hd, -first?_cons_of_blank,
        List.intercalate_cons_cons]
  · have hd : isBlankChar d = false := by simpa using hd
    rw [spaced, spaced, words_cons h, words_cons hd]
    rcases hw : words (s.dropWhile fun e => !isBlankChar e) with _ | ⟨w, ws⟩ <;>
      simp [hd, hw, List.intercalate_cons_cons]

lemma head?_spaced (s : List Char) : (spaced s).head? = first? s := by
  induction s using layout_induction with
  | nil => rfl
  | blank c s hc ih => simp [hc, ih]
  | letter c s hc => simp [spaced_cons hc, hc]

/-! ### The normal form, character by character -/

lemma closeUp_cons (h : c ≠ ' ') (s : List Char) : closeUp (c :: s) = c :: closeUp s := by
  cases s <;> simp [closeUp, h]

lemma closeUp_space (s : List Char) :
    closeUp (' ' :: s) = if s.head? = some ')' then closeUp s else ' ' :: closeUp s := by
  rcases s with _ | ⟨d, s⟩
  · rfl
  by_cases hd : d = ')'
  · subst hd
    rw [List.head?_cons, if_pos rfl, closeUp, closeUp_cons (by decide)]
  · simp [closeUp, hd]

/-- A text that begins with white space begins with a space in normal form, unless nothing or a
closing parenthesis follows. -/
def keepsSpace (s : List Char) : Bool := startsBlank s && (first? s).any (· ≠ ')')

lemma normal_eq (s : List Char) : normal s = closeUp (spaced s) := rfl

@[simp] lemma normal_nil : normal [] = [] := rfl

@[simp] lemma normal_cons_of_blank (h : isBlankChar c = true) (s : List Char) :
    normal (c :: s) = normal s :=
  congrArg closeUp (spaced_cons_of_blank h s)

/-- **The normal form** of a text, by that of the text behind its first character. -/
theorem normal_cons (h : isBlankChar c = false) (s : List Char) :
    normal (c :: s) = c :: if keepsSpace s then ' ' :: normal s else normal s := by
  have hc : c ≠ ' ' := by
    rintro rfl
    cases h
  calc normal (c :: s) = closeUp (spaced (c :: s)) := rfl
    _ = c :: closeUp (if startsBlank s && (first? s).isSome then ' ' :: spaced s
          else spaced s) := by
      rw [spaced_cons h, closeUp_cons hc]
    _ = c :: if keepsSpace s then ' ' :: normal s else normal s := by
      rcases hs : startsBlank s
      · simp [keepsSpace, hs, normal_eq]
      · rcases hd : first? s with _ | d
        · simp [keepsSpace, hd, normal_eq]
        · by_cases hd' : d = ')' <;>
            simp [keepsSpace, hs, hd, hd', closeUp_space, head?_spaced, normal_eq]

lemma head?_normal (s : List Char) : (normal s).head? = first? s := by
  induction s using layout_induction with
  | nil => rfl
  | blank c s hc ih => simp [hc, ih]
  | letter c s hc => simp [normal_cons hc, hc]

lemma normal_append_of_blank (hu : ∀ c ∈ u, isBlankChar c = true) (s : List Char) :
    normal (u ++ s) = normal s := by
  induction u with
  | nil => rfl
  | cons c u ih =>
    have hcu := List.forall_mem_cons.1 hu
    rw [List.cons_append, normal_cons_of_blank hcu.1, ih hcu.2]

lemma normal_append_blank (s : List Char) (hv : ∀ c ∈ v, isBlankChar c = true) :
    normal (s ++ v) = normal s := by
  have hfirst : ∀ s, first? (s ++ v) = first? s := by
    intro s
    have hnone := first?_eq_none_iff.2 hv
    rw [first?, List.find?_append, ← first?, ← first?, hnone, Option.or_none]
  induction s using layout_induction with
  | nil => simpa using normal_append_of_blank hv []
  | blank c s hc ih => simp [hc, ih]
  | letter c s hc ih =>
    have hkeeps : keepsSpace (s ++ v) = keepsSpace s := by
      cases s with
      | nil => simp [keepsSpace, first?_eq_none_iff.2 hv]
      | cons d s =>
        rw [keepsSpace, keepsSpace, hfirst]
        rfl
    rw [List.cons_append, normal_cons hc, normal_cons hc, hkeeps, ih]

/-! ### Texts in normal form -/

/-- What may stand in front of what: white space is a space, and what follows it is neither white
space nor a closing parenthesis. -/
def Fits (c d : Char) : Prop :=
  isBlankChar c = true → c = ' ' ∧ isBlankChar d = false ∧ d ≠ ')'

/-- A text begins, and not with a closing parenthesis. -/
def leads (s : List Char) : Bool := s.head?.any (· ≠ ')')

lemma leads_iff : leads s = true ↔ ∃ d v, s = d :: v ∧ d ≠ ')' := by
  cases s <;> simp [leads]

lemma leads_append (h : leads u = true) (v : List Char) : leads (u ++ v) = true := by
  obtain ⟨d, u, rfl, hd⟩ := leads_iff.1 h
  exact leads_iff.2 ⟨d, u ++ v, rfl, hd⟩

/-- A text without white space. -/
def solid (s : List Char) : Bool := s.all fun c => !isBlankChar c

lemma solid_iff : solid s = true ↔ ∀ c ∈ s, isBlankChar c = false := by
  simp [solid]

/-- White space is single spaces inside the text, none of them in front of a closing parenthesis. -/
structure IsNormal (s : List Char) : Prop where
  chain : s.IsChain Fits
  head : ∀ c ∈ s.head?, isBlankChar c = false
  last : ∀ c ∈ s.getLast?, isBlankChar c = false

namespace IsNormal

lemma of_solid (h : solid s = true) : IsNormal s where
  chain := by
    have hs := solid_iff.1 h
    clear h
    induction s with
    | nil => exact .nil
    | cons c s ih =>
      have hcs := List.forall_mem_cons.1 hs
      refine List.isChain_cons.2 ⟨fun d _ hblank => ?_, ih hcs.2⟩
      rw [hcs.1] at hblank
      cases hblank
  head c hc := solid_iff.1 h c (List.mem_of_mem_head? hc)
  last c hc := solid_iff.1 h c (List.mem_of_mem_getLast? hc)

lemma append (hu : IsNormal u) (hv : IsNormal v) : IsNormal (u ++ v) where
  chain := by
    refine List.isChain_append.2 ⟨hu.chain, hv.chain, fun c hc d _ hblank => ?_⟩
    rw [hu.last c hc] at hblank
    cases hblank
  head c hc := by
    rw [List.head?_append] at hc
    rcases Option.or_eq_some_iff.1 hc with hc | ⟨-, hc⟩
    · exact hu.head c hc
    · exact hv.head c hc
  last c hc := by
    rw [List.getLast?_append] at hc
    rcases Option.or_eq_some_iff.1 hc with hc | ⟨-, hc⟩
    · exact hv.last c hc
    · exact hu.last c hc

/-- A space may stand between two texts. -/
lemma append_space (hu : IsNormal u) (hne : u ≠ []) (hv : IsNormal v) (h : leads v = true) :
    IsNormal (u ++ ' ' :: v) := by
  obtain ⟨d, v, rfl, hd⟩ := leads_iff.1 h
  have hspace : Fits ' ' d := fun _ => ⟨rfl, hv.head d rfl, hd⟩
  refine ⟨List.isChain_append.2 ⟨hu.chain, List.isChain_cons_cons.2 ⟨hspace, hv.chain⟩, ?_⟩, ?_, ?_⟩
  · intro c hc e _ hblank
    rw [hu.last c hc] at hblank
    cases hblank
  · rw [List.head?_append_of_ne_nil _ hne]
    exact hu.head
  · rw [List.getLast?_append, List.getLast?_cons_cons, List.getLast?_cons, Option.some_or,
      ← List.getLast?_cons]
    exact hv.last

lemma eq_space (h : IsNormal s) (hc : c ∈ s) (hblank : isBlankChar c = true) : c = ' ' := by
  obtain ⟨u, v, rfl⟩ := List.append_of_mem hc
  cases v with
  | nil =>
    rw [h.last c (by simp)] at hblank
    cases hblank
  | cons d v =>
    have hchain := (List.isChain_append.1 h.chain).2.1
    exact ((List.isChain_cons_cons.1 hchain).1 hblank).1

lemma fits_of_infix (h : IsNormal s) (hcd : [c, d] <:+: s) : Fits c d := by
  have hchain := List.IsChain.infix h.chain hcd
  exact (List.isChain_cons_cons.1 hchain).1

end IsNormal

/-- **The normal form** is in normal form. -/
theorem isNormal_normal (s : List Char) : IsNormal (normal s) := by
  induction s using layout_induction with
  | nil => exact .of_solid rfl
  | blank c s hc ih => rwa [normal_cons_of_blank hc]
  | letter c s hc ih =>
    have hsingle : IsNormal [c] := .of_solid (by simpa [solid] using hc)
    rw [normal_cons hc]
    split
    · rename_i hkeeps
      refine hsingle.append_space (List.cons_ne_nil c []) ih ?_
      rw [leads, head?_normal]
      exact (Bool.and_eq_true_iff.1 hkeeps).2
    · exact hsingle.append ih

lemma normal_of_chain (hchain : s.IsChain Fits) (hlast : ∀ c ∈ s.getLast?, isBlankChar c = false) :
    normal s = s.dropWhile isBlankChar := by
  induction s using layout_induction with
  | nil => rfl
  | blank c s hc ih =>
    rw [normal_cons_of_blank hc, List.dropWhile_cons_of_pos hc]
    exact ih (List.isChain_cons.1 hchain).2 fun e he => hlast e (List.mem_getLast?_cons he)
  | letter c s hc ih =>
    rw [normal_cons hc, List.dropWhile_cons_of_neg (by simp [hc]),
      ih (List.isChain_cons.1 hchain).2 fun e he => hlast e (List.mem_getLast?_cons he)]
    refine congrArg (c :: ·) ?_
    rcases s with _ | ⟨d, s⟩
    · rfl
    by_cases hd : isBlankChar d = true
    · rcases s with _ | ⟨e, s⟩
      · have := hlast d rfl
        simp [hd] at this
      · have hfits := (List.isChain_cons_cons.1 (List.isChain_cons_cons.1 hchain).2).1
        obtain ⟨rfl, he, hclose⟩ := hfits hd
        simp [keepsSpace, hd, he, hclose]
    · simp [keepsSpace, hd]

/-- A text in normal form is left as it is. -/
theorem IsNormal.normal_eq_self (h : IsNormal s) : normal s = s := by
  rw [normal_of_chain h.chain h.last]
  cases s with
  | nil => rfl
  | cons c s => rw [List.dropWhile_cons_of_neg (by simp [h.head c rfl])]

/-! ### Layout -/

/-- Leaves out the white space directly in front of closing parentheses. -/
def tuck : List Char → List Char
  | [] => []
  | c :: s => if isBlankChar c && first? s = some ')' then tuck s else c :: tuck s

/-- Makes one space of each stretch of white space. -/
def collapse : List Char → List Char
  | [] => []
  | c :: s =>
    if isBlankChar c then if startsBlank s then collapse s else ' ' :: collapse s
    else c :: collapse s

/-- The text without white space at its ends and in front of closing parentheses, and with one space
for every other stretch of it. -/
def compact (s : List Char) : List Char := collapse (tuck (trimBy isBlankChar s))

lemma trimBy_eq (p : Char → Bool) (s : List Char) : trimBy p s = (s.dropWhile p).rdropWhile p := rfl

/-- What is taken off the ends of a text, and what is left. -/
lemma exists_trimBy (p : Char → Bool) (s : List Char) : ∃ u v, s = u ++ (trimBy p s ++ v) ∧
    (∀ c ∈ u, p c = true) ∧ (∀ c ∈ v, p c = true) ∧ (∀ c ∈ (trimBy p s).head?, p c = false) ∧
    ∀ c ∈ (trimBy p s).getLast?, p c = false := by
  refine ⟨s.takeWhile p, (s.dropWhile p).rtakeWhile p, ?_, fun c hc => List.mem_takeWhile_imp hc,
    fun c hc => List.mem_rtakeWhile_imp hc, fun c hc => ?_, fun c hc => ?_⟩
  · rw [trimBy_eq, List.rdropWhile_append_rtakeWhile, List.takeWhile_append_dropWhile]
  · obtain ⟨r, hr⟩ := List.head?_eq_some_iff.1 hc
    obtain ⟨v, hv⟩ := List.rdropWhile_prefix p (s.dropWhile p)
    rw [← trimBy_eq, hr, List.cons_append] at hv
    have hne : s.dropWhile p ≠ [] := hv ▸ List.cons_ne_nil c (r ++ v)
    have := List.head_dropWhile_not p hne
    simpa [← hv] using this
  · have hne : (s.dropWhile p).rdropWhile p ≠ [] := by
      rintro hnil
      rw [trimBy_eq, hnil] at hc
      cases hc
    have := List.rdropWhile_last_not p _ hne
    rw [trimBy_eq, List.getLast?_eq_some_getLast hne] at hc
    obtain rfl := Option.some.inj hc
    simpa using this

lemma head?_tuck (h : first? s ≠ some ')') : (tuck s).head? = s.head? := by
  cases s using layout_induction with
  | nil => rfl
  | blank c s hc =>
    rw [first?_cons_of_blank hc] at h
    simp [tuck, h]
  | letter c s hc => simp [tuck, hc]

lemma collapse_tuck (hlast : ∀ c ∈ s.getLast?, isBlankChar c = false) :
    collapse (tuck s) = if keepsSpace s then ' ' :: normal s else normal s := by
  induction s using layout_induction with
  | nil => rfl
  | blank c s hc ih =>
    have ih := ih fun d hd => hlast d (List.mem_getLast?_cons hd)
    rcases hfirst : first? s with _ | d
    · -- a text of white space only does not end with anything else
      have hblank := first?_eq_none_iff.1 ((first?_cons_of_blank hc s).trans hfirst)
      have hmem := List.getLast_mem (List.cons_ne_nil c s)
      have := hlast _ (List.getLast?_eq_some_getLast (List.cons_ne_nil c s))
      rw [hblank _ hmem] at this
      cases this
    by_cases hd : d = ')'
    · subst hd
      simp [tuck, keepsSpace, hc, hfirst, ih]
    · have hstarts : startsBlank (tuck s) = startsBlank s := by
        rw [startsBlank, head?_tuck (by simp [hfirst, hd]), startsBlank]
      rcases hs : startsBlank s <;>
        simp [tuck, collapse, keepsSpace, hc, hfirst, hd, hstarts, hs, ih]
  | letter c s hc ih =>
    have ih := ih fun d hd => hlast d (List.mem_getLast?_cons hd)
    simp [tuck, collapse, keepsSpace, hc, ih, normal_cons hc]

/-- **The normal form** of a text is the text with its white space put in order. -/
theorem normal_eq_compact (s : List Char) : normal s = compact s := by
  obtain ⟨u, v, hs, hu, hv, hhead, hlast⟩ := exists_trimBy isBlankChar s
  have hstarts : startsBlank (trimBy isBlankChar s) = false := by
    rw [startsBlank, ← Bool.not_eq_true, Option.any_eq_true]
    rintro ⟨c, hc, hblank⟩
    rw [hhead c hc] at hblank
    cases hblank
  calc normal s = normal (u ++ (trimBy isBlankChar s ++ v)) := congrArg normal hs
    _ = normal (trimBy isBlankChar s) := by
      rw [normal_append_of_blank hu, normal_append_blank _ hv]
    _ = compact s := by
      rw [compact, collapse_tuck hlast, keepsSpace, hstarts]
      rfl

/-- **Normal forms** are canonical. Normalizing twice is normalizing once. In the result white space
is single spaces, none of them at an end or in front of a closing parenthesis. Two texts have the
same normal form if and only if they become equal when the white space at the ends and in front of
closing parentheses is left out and every other stretch of it becomes one space. -/
theorem normalize_canonical (s t : String) :
    normalize (normalize s) = normalize s ∧
    ((∀ c ∈ (normalize s).toList, isBlankChar c = true → c = ' ') ∧
      ¬ [' ', ' '] <:+: (normalize s).toList ∧ ¬ [' ', ')'] <:+: (normalize s).toList ∧
      (normalize s).toList.head? ≠ some ' ' ∧ (normalize s).toList.getLast? ≠ some ' ') ∧
    (normalize s = normalize t ↔ compact s.toList = compact t.toList) := by
  have hs : (normalize s).toList = normal s.toList := String.toList_ofList
  have hnormal := isNormal_normal s.toList
  refine ⟨?_, ?_, ?_⟩
  · rw [normalize, hs, hnormal.normal_eq_self, normalize]
  · rw [hs]
    refine ⟨fun c => hnormal.eq_space, fun h => ?_, fun h => ?_, fun h => ?_, fun h => ?_⟩
    · cases (hnormal.fits_of_infix h rfl).2.1
    · exact (hnormal.fits_of_infix h rfl).2.2 rfl
    · cases hnormal.head ' ' h
    · cases hnormal.last ' ' h
  · rw [normalize, normalize, normal_eq_compact, normal_eq_compact, String.ofList_inj]

end ScenarioSyntax.Corpus
