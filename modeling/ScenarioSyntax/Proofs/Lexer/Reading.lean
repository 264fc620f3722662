import ScenarioSyntax.Lexer.Token
import ScenarioSyntax.Proofs.Automaton.Trail
import ScenarioSyntax.Proofs.Lexer.Words

/-!
Reading a token from a text: what is read stands in the text, and what stands in the text is read
where the state can use it and nothing makes it longer.
-/

namespace ScenarioSyntax

open Terminal

/-! ### Facts about the table -/

namespace Table

variable {s : StateId}

/-- No state but the one that skips tokens looks for one token that can be the beginning of
another, or for an identifier and a keyword. -/
def distinct (s : StateId) (r : Row) : Bool :=
  s = lost || r.actions.all fun (k, _) => r.actions.all fun (t, _) =>
    !clash k t && !(k = .identifier && t.isKeyword)

lemma distinct_rows : (rows.toList.zipIdx.all fun (r, s) => distinct s r) = true := by
  decide +kernel

lemma mem_row_of_wants {t : Terminal} (h : wants s t = true) (ht : t ≠ .comment) :
    ∃ a, (t, a) ∈ (row s).actions := by
  obtain ⟨a, ha⟩ := Option.isSome_iff_exists.1 h
  rw [action?, if_neg ht] at ha
  exact ⟨a, mem_of_lookup ha⟩

lemma distinct_of_wants (hs : s ≠ lost) {k t : Terminal} (hk : wants s k = true)
    (ht : wants s t = true) : clash k t = false ∧ (k = .identifier → t.isKeyword = false) := by
  by_cases hkc : k = .comment
  · subst hkc
    cases t <;> decide
  by_cases htc : t = .comment
  · subst htc
    cases k <;> decide
  obtain ⟨a, ha⟩ := mem_row_of_wants hk hkc
  obtain ⟨b, hb⟩ := mem_row_of_wants ht htc
  rcases row_cases distinct_rows s with h | h
  · simp only [distinct, Bool.or_eq_true, decide_eq_true_eq, hs, false_or, List.all_eq_true] at h
    have := h _ ha _ hb
    simp only [Bool.and_eq_true, Bool.not_eq_true', Bool.and_eq_false_iff,
      decide_eq_false_iff_not] at this
    exact ⟨this.1, fun hid => this.2.resolve_left fun hne => hne hid⟩
  · simp [h] at ha

lemma mem_mode {t : Terminal} : t ∈ mode s ↔ t.isKeyword = false ∧
    (wants s t = true ∨ t = .identifier ∧ ∃ k ∈ keywords, wants s k = true) := by
  simp [mode, t.mem_all]

lemma scanned_mem_mode {k : Terminal} (h : wants s k = true) : k.scanned ∈ mode s := by
  rw [mem_mode, scanned]
  by_cases hk : k.isKeyword
  · rw [if_pos hk]
    exact ⟨by decide, .inr ⟨rfl, k, mem_keywords.2 hk, h⟩⟩
  · rw [if_neg hk]
    exact ⟨by simpa using hk, .inl h⟩

lemma clash_of_mem_mode (hs : s ≠ lost) {k t : Terminal} (hk : wants s k = true)
    (ht : t ∈ mode s) : clash k.scanned t = false := by
  have word : ∀ t, clash .identifier t = false ∧ clash t .identifier = false := by
    intro t
    cases t <;> decide
  rw [scanned]
  by_cases hkw : k.isKeyword
  · rw [if_pos hkw]
    exact (word t).1
  · rw [if_neg hkw]
    rcases (mem_mode.1 ht).2 with h | ⟨rfl, -⟩
    · exact (distinct_of_wants hs hk h).1
    · exact (word k).2

lemma mem_general {t : Terminal} (h : t.isKeyword = false) : t ∈ Mode.general := by
  have key : ∀ t ∈ Terminal.all, t.isKeyword = false → t ∈ Mode.general := by decide +kernel
  exact key t t.mem_all h

/-- A token that the state's own mode does not find is of no use to the state. -/
lemma wants_eq_false_of_finds {cs : List Int} (hown : (mode s).Finds cs none) {m : Mode}
    {k : Terminal} {n : Nat} (h : m.Finds cs (some (k.scanned, n))) : wants s k = false := by
  rw [Bool.eq_false_iff]
  intro hw
  have hmem := scanned_mem_mode hw
  generalize k.scanned = t at h hmem
  cases hown with
  | nothing hnone ended =>
    cases h with
    | ended _ => exact ended rfl hmem
    | token hlong =>
      have hm := (Mode.matches_of_first? hlong.first).2
      exact Mode.first?_eq_none_iff.1 (hnone _ hlong.le_length) _ hmem hm

end Table

/-! ### The places where tokens are read -/

namespace Token

variable {points : List Int} {s : StateId} {pos : Nat}

/-- A byte order mark at the beginning is passed over. -/
def origin (points : List Int) (pos : Nat) : Nat :=
  if pos = 0 ∧ points.head? = some byteOrderMark then 1 else pos

lemma le_origin (points : List Int) (pos : Nat) : pos ≤ origin points pos := by
  unfold origin
  split <;> omega

lemma origin_le (h : pos ≤ points.length) : origin points pos ≤ points.length := by
  unfold origin
  split
  · rename_i hmark
    obtain ⟨r, rfl⟩ := List.head?_eq_some_iff.1 hmark.2
    simp
  · exact h

/-- The first position that is not a blank. -/
def begin (points : List Int) (pos : Nat) : Nat :=
  origin points pos + ((points.drop (origin points pos)).takeWhile isBlank).length

lemma drop_begin (points : List Int) (pos : Nat) :
    points.drop (begin points pos) = (points.drop (origin points pos)).dropWhile isBlank := by
  generalize hl : points.drop (origin points pos) = l
  have h : l.takeWhile isBlank ++ l.dropWhile isBlank = l := List.takeWhile_append_dropWhile
  rw [begin, ← List.drop_drop, hl]
  calc l.drop (l.takeWhile isBlank).length
      = (l.takeWhile isBlank ++ l.dropWhile isBlank).drop (l.takeWhile isBlank).length := by rw [h]
    _ = l.dropWhile isBlank := List.drop_left

lemma readAt_eq (m : Mode) (points : List Int) (pos : Nat) : m.readAt points pos =
    (LexState.start m).scan (origin points pos) (origin points pos) none
      (points.drop (origin points pos)) := by
  rcases hd : points.drop pos with _ | ⟨c, rest⟩
  · have ho : origin points pos = pos := by
      rw [origin, if_neg]
      rintro ⟨rfl, hh⟩
      simp [List.drop_zero] at hd
      simp [hd] at hh
    rw [Mode.readAt, ho, hd]
  · by_cases h : pos = 0 ∧ c = byteOrderMark
    · obtain ⟨rfl, rfl⟩ := h
      rw [List.drop_zero] at hd
      subst hd
      simp [Mode.readAt, origin]
    · have ho : origin points pos = pos := by
        rw [origin, if_neg]
        rintro ⟨rfl, hh⟩
        rw [List.drop_zero] at hd
        subst hd
        exact h ⟨rfl, by simpa using hh⟩
      rw [ho, hd]
      simp only [Mode.readAt, hd]
      rw [if_neg (by simpa using h)]

/-- What a mode finds at a position. -/
lemma readAt_finds (m : Mode) (points : List Int) (pos : Nat) :
    (m.readAt points pos).start = begin points pos ∧
      ∃ f, m.Finds (points.drop (begin points pos)) f ∧
        (m.readAt points pos).found = f.map fun x => (x.1, begin points pos + x.2) := by
  rw [readAt_eq, drop_begin]
  exact LexState.scan_start m (origin points pos) (points.drop (origin points pos))

/-- The state's own mode, or the general one where it finds nothing. -/
def Serves (points : List Int) (s : StateId) (pos : Nat) (m : Mode) : Prop :=
  m = Table.mode s ∨
    m = Mode.general ∧ (Table.mode s).Finds (points.drop (begin points pos)) none

/-- The tokens that can be read at a position. -/
inductive Reads (points : List Int) (s : StateId) (pos : Nat) : Lookahead → Prop
  | token {m : Mode} {k : Terminal} {n : Nat} (serves : Serves points s pos m)
      (found : m.Finds (points.drop (begin points pos)) (some (k, n))) (ne : k ≠ .identifier) :
      Reads points s pos ⟨.token k ⟨pos, begin points pos, begin points pos + n⟩
        (decide (k = .endOfText)), s, m, false⟩
  | word {m : Mode} {n : Nat} (serves : Serves points s pos m)
      (found : m.Finds (points.drop (begin points pos)) (some (.identifier, n))) :
      Reads points s pos (word points s m pos (begin points pos) (begin points pos + n))
  | stray (none : Mode.general.Finds (points.drop (begin points pos)) none) (stop : Nat) (c : Int) :
      Reads points s pos ⟨.stray ⟨pos, begin points pos, stop⟩ c, s, Mode.general, false⟩

lemma reads_of_ofReading {m : Mode} (hm : Serves points s pos m) {t : Lookahead}
    (h : ofReading points s pos m (m.readAt points pos) = some t) : Reads points s pos t := by
  obtain ⟨hstart, f, hf, hfound⟩ := readAt_finds m points pos
  rw [ofReading, hfound, hstart] at h
  rcases f with _ | ⟨k, n⟩
  · cases h
  · simp only [Option.map_some, Option.some.injEq] at h
    subst h
    by_cases hk : k = .identifier
    · subst hk
      rw [if_pos rfl]
      exact .word hm hf
    · rw [if_neg hk]
      exact .token hm hf hk

lemma finds_none_of_ofReading {m : Mode}
    (h : ofReading points s pos m (m.readAt points pos) = none) :
    m.Finds (points.drop (begin points pos)) none := by
  obtain ⟨-, f, hf, hfound⟩ := readAt_finds m points pos
  rw [ofReading, hfound] at h
  rcases f with _ | x
  · exact hf
  · cases h

theorem reads_read (points : List Int) (s : StateId) (pos : Nat) :
    Reads points s pos (read points s pos) := by
  unfold read
  dsimp only
  split
  · rename_i t ht
    exact reads_of_ofReading (.inl rfl) ht
  · rename_i hown
    have hown := finds_none_of_ofReading hown
    split
    · rename_i t ht
      exact reads_of_ofReading (.inr ⟨rfl, hown⟩) ht
    · rename_i hgen
      have hstart := (readAt_finds Mode.general points pos).1
      simp only [hstart]
      exact .stray (finds_none_of_ofReading hgen) _ _

/-- A word is an identifier, or a keyword that the state can use. -/
lemma exists_word (points : List Int) (s : StateId) (m : Mode) (lead start n : Nat) :
    ∃ k w,
      word points s m lead start (start + n) = ⟨.token k ⟨lead, start, start + n⟩ false, s, m, w⟩ ∧
      (k = .identifier ∨ Keyword.read (points.drop start) = some (k, n) ∧
        Table.wants s k = true) ∧
      (k = .identifier → ∀ k', Keyword.read (points.drop start) = some (k', n) →
        Table.wants s k' = false) := by
  unfold word
  split
  · rename_i k' n' hr
    by_cases h : n' = n ∧ Table.wants s k' = true
    · obtain ⟨rfl, hw⟩ := h
      refine ⟨k', true, by simp [hw], .inr ⟨hr, hw⟩, ?_⟩
      rintro rfl
      have := (Keyword.spelled_read _ _ _ hr).1
      exact absurd this (by decide)
    · refine ⟨.identifier, true, ?_, .inl rfl, fun _ k hk => ?_⟩
      · have : ¬ (start + n' = start + n ∧ Table.wants s k' = true) := by
          rwa [Nat.add_left_cancel_iff]
        simp only [Bool.and_eq_true, decide_eq_true_eq]
        rw [if_neg this]
      · rw [hr] at hk
        obtain ⟨rfl, rfl⟩ : k' = k ∧ n' = n := by simpa using hk
        simpa using h
  · rename_i hr
    exact ⟨.identifier, false, rfl, .inl rfl, fun _ k hk => by simp [hr] at hk⟩

lemma start_read (points : List Int) (s : StateId) (pos : Nat) :
    (read points s pos).span.start = begin points pos := by
  have hr := reads_read points s pos
  generalize read points s pos = t at hr
  cases hr with
  | token _ _ _ => rfl
  | @word m n _ found =>
    obtain ⟨k, w, heq, -, -⟩ := exists_word points s m pos (begin points pos) n
    rw [heq]; rfl
  | stray _ _ _ => rfl

/-! ### What is read stands in the text -/

/-- Behind the longest word there is no letter, and behind the longest comment the line ends. -/
lemma stops_of_longest {m : Mode} {cs : List Int} {k : Terminal} {n : Nat}
    (h : m.Longest cs k n) (hk : k = .identifier ∨ k = .comment) : k.Stops (cs.drop n) := by
  obtain ⟨hmem, hmatch⟩ := Mode.matches_of_first? h.first
  rcases hd : cs.drop n with _ | ⟨c, rest⟩
  · intro c hc
    cases hc
  have hlt : n < cs.length := by
    by_contra hle
    rw [List.drop_eq_nil_of_le (by omega)] at hd
    cases hd
  have htake : cs.take (n + 1) = cs.take n ++ [c] := by
    rw [List.take_add, hd]; rfl
  have hnot := Mode.first?_eq_none_iff.1 (h.longest (n + 1) (by omega) (by omega)) k hmem
  rw [htake] at hnot
  have hstop : k.Stops [c] := by
    by_contra hc
    exact hnot (hmatch.concat hk hc)
  rcases hk with rfl | rfl <;> exact hstop

/-- A token of kind `k` and length `n` has been read from the text. -/
structure IsRead (points : List Int) (s : StateId) (pos : Nat) (k : Terminal) (n : Nat) : Prop where
  leaf_eq : (read points s pos).leaf =
    .token k ⟨pos, begin points pos, begin points pos + n⟩ false
  longest : ∃ m : Mode, m.Longest (points.drop (begin points pos)) k.scanned n
  lexeme : k.Lexeme ((points.drop (begin points pos)).take n)
  wanted : (read points s pos).wordlike = true → k ≠ .identifier → Table.wants s k = true
  unwanted : k = .identifier → ∀ k' ∈ keywords,
    (points.drop (begin points pos)).take n = k'.spelling → Table.wants s k' = false

lemma IsRead.span_eq {k : Terminal} {n : Nat} (h : IsRead points s pos k n) :
    (read points s pos).span = ⟨pos, begin points pos, begin points pos + n⟩ := by
  simp [Lookahead.span, h.leaf_eq]

lemma longest_of_finds {m : Mode} {cs : List Int} {k : Terminal} {n : Nat}
    (h : m.Finds cs (some (k, n))) (hk : k ≠ .endOfText) : m.Longest cs k n := by
  cases h with
  | ended _ => exact absurd rfl hk
  | token h => exact h

lemma not_isKeyword_of_longest {m : Mode} {cs : List Int} {k : Terminal} {n : Nat}
    (h : m.Longest cs k n) : k.isKeyword = false :=
  (Mode.matches_of_first? h.first).2.isKeyword_eq_false

theorem exists_isRead {k : Terminal} (h : (read points s pos).kind? = some k)
    (hk : k ≠ .endOfText) : ∃ n, IsRead points s pos k n := by
  have hr := reads_read points s pos
  generalize ht : read points s pos = t at h hr
  cases hr with
  | @token m k' n _ found ne =>
    obtain rfl : k' = k := by simpa [Lookahead.kind?] using h
    have hlong := longest_of_finds found hk
    have hkw := not_isKeyword_of_longest hlong
    have hscanned : k'.scanned = k' := by simp [scanned, hkw]
    refine ⟨n, by simp [ht, hk], ⟨m, by rwa [hscanned]⟩, ?_, ?_, fun hid => absurd hid ne⟩
    · rw [Lexeme, if_neg (by simp [hkw])]
      exact (Mode.matches_of_first? hlong.first).2
    · simp [ht]
  | @word m n _ found =>
    have hlong := longest_of_finds found (by decide)
    obtain ⟨k', w, heq, hor, hnot⟩ := exists_word points s m pos (begin points pos) n
    rw [heq] at ht h
    obtain rfl : k' = k := by simpa [Lookahead.kind?] using h
    have hkw : k' ∈ keywords → k'.scanned = .identifier := fun hm => by
      simp [scanned, mem_keywords.1 hm]
    refine ⟨n, by simp [ht], ⟨m, ?_⟩, ?_, fun _ hne => ?_, fun hid kw hmem hs => ?_⟩
    · rcases hor with rfl | ⟨hread, -⟩
      · exact hlong
      · rwa [hkw (Keyword.spelled_read _ _ _ hread).1]
    · rcases hor with rfl | ⟨hread, -⟩
      · exact (Mode.matches_of_first? hlong.first).2
      · obtain ⟨hmem, -, hs⟩ := Keyword.spelled_read _ _ _ hread
        rw [Lexeme, if_pos (mem_keywords.1 hmem), hs]
    · exact (hor.resolve_left hne).2
    · refine hnot hid kw ?_
      have hsplit := List.take_append_drop n (points.drop (begin points pos))
      rw [hs] at hsplit
      rw [← hsplit, Keyword.read_spelling hmem, ← hs, List.length_take,
        Nat.min_eq_left hlong.le_length]
  | stray _ _ _ => cases h

/-- The mode in which a token is read finds it. -/
lemma exists_serves {k : Terminal} (h : (read points s pos).kind? = some k) :
    ∃ n, Serves points s pos (read points s pos).mode ∧
      (read points s pos).mode.Finds (points.drop (begin points pos)) (some (k.scanned, n)) := by
  have hr := reads_read points s pos
  generalize read points s pos = t at h hr
  cases hr with
  | @token m k' n serves found ne =>
    obtain rfl : k' = k := by simpa [Lookahead.kind?] using h
    have hscanned : k'.scanned = k' := by
      by_cases hend : k' = .endOfText
      · subst hend
        rfl
      · simp [scanned, not_isKeyword_of_longest (longest_of_finds found hend)]
    rw [hscanned]
    exact ⟨n, serves, found⟩
  | @word m n serves found =>
    obtain ⟨k', w, heq, hor, -⟩ := exists_word points s m pos (begin points pos) n
    rw [heq] at h ⊢
    obtain rfl : k' = k := by simpa [Lookahead.kind?] using h
    have hscanned : k'.scanned = .identifier := by
      rcases hor with rfl | ⟨hread, -⟩
      · rfl
      · simp [scanned, mem_keywords.1 (Keyword.spelled_read _ _ _ hread).1]
    rw [hscanned]
    exact ⟨n, serves, found⟩
  | stray _ _ _ => cases h

lemma IsRead.zero_lt {k : Terminal} {n : Nat} (h : IsRead points s pos k n) : 0 < n := by
  obtain ⟨m, hm⟩ := h.longest
  exact hm.pos

lemma IsRead.le {k : Terminal} {n : Nat} (h : IsRead points s pos k n) :
    begin points pos + n ≤ points.length := by
  obtain ⟨m, hm⟩ := h.longest
  have := hm.le_length
  have := hm.pos
  rw [List.length_drop] at *
  omega

lemma IsRead.stops {k : Terminal} {n : Nat} (h : IsRead points s pos k n)
    (hk : k.isWord = true ∨ k = .comment) :
    k.scanned.Stops (points.drop (begin points pos + n)) := by
  obtain ⟨m, hm⟩ := h.longest
  rw [← List.drop_drop]
  refine stops_of_longest hm ?_
  rcases hk with hk | rfl
  · exact .inl (by simpa [isWord] using hk)
  · exact .inr rfl

/-- At the end only blanks are left. -/
theorem end_of_kind? (h : (read points s pos).kind? = some .endOfText) :
    points.drop (begin points pos) = [] ∧
      (read points s pos).leaf = .token .endOfText (read points s pos).span true ∧
      (read points s pos).wordlike = false := by
  have hr := reads_read points s pos
  generalize read points s pos = t at h hr
  cases hr with
  | @token m k' n _ found ne =>
    obtain rfl : k' = .endOfText := by simpa [Lookahead.kind?] using h
    refine ⟨?_, rfl, rfl⟩
    generalize points.drop (begin points pos) = cs at found
    cases found with
    | ended _ => rfl
    | token hlong =>
      obtain ⟨p, hp, -⟩ := (Mode.matches_of_first? hlong.first).2
      cases hp
  | @word m n _ found =>
    obtain ⟨k', w, heq, hor, -⟩ := exists_word points s m pos (begin points pos) n
    rw [heq] at h
    obtain rfl : k' = .endOfText := by simpa [Lookahead.kind?] using h
    rcases hor with hid | ⟨hread, -⟩
    · cases hid
    · exact absurd (Keyword.spelled_read _ _ _ hread).1 (by decide)
  | stray _ _ _ => cases h

/-- Where nothing is read, no token stands in the text. -/
theorem not_lexeme_of_kind? (h : (read points s pos).kind? = none) {k : Terminal} {l : List Int}
    (hl : k.Lexeme l) : ¬ l <+: points.drop (begin points pos) := by
  have hr := reads_read points s pos
  generalize read points s pos = t at h hr
  rintro ⟨rest, hrest⟩
  cases hr with
  | token _ _ _ => cases h
  | @word m n _ found =>
    obtain ⟨k', w, heq, -, -⟩ := exists_word points s m pos (begin points pos) n
    rw [heq] at h
    cases h
  | stray hnone _ _ =>
    generalize points.drop (begin points pos) = cs at hnone hrest
    cases hnone with
    | nothing hnone _ =>
      have hmem : k.scanned ∈ Mode.general := Table.mem_general (by
        unfold scanned
        split
        · rfl
        · rename_i hk
          simpa using hk)
      have := Mode.first?_eq_none_iff.1 (hnone l.length (by simp [← hrest])) _ hmem
      rw [← hrest, List.take_left] at this
      exact this hl.matches

/-! ### What stands in the text is read -/

/-- The end is found where only blanks are left. -/
theorem leaf_of_end (h : points.drop (begin points pos) = []) (s : StateId) :
    (read points s pos).leaf =
      .token .endOfText ⟨pos, begin points pos, begin points pos⟩ true := by
  have hr := reads_read points s pos
  generalize read points s pos = t at hr
  cases hr with
  | @token m k n _ found ne =>
    rw [h] at found
    cases found with
    | ended _ => rfl
    | token hlong => exact absurd rfl hlong.ne_nil
  | word _ found =>
    rw [h] at found
    cases found with
    | token hlong => exact absurd rfl hlong.ne_nil
  | stray hnone _ _ =>
    rw [h] at hnone
    cases hnone with
    | nothing _ ended => exact absurd (Table.mem_general (by decide)) (ended rfl)

theorem kind?_of_end (h : points.drop (begin points pos) = []) :
    (read points s pos).kind? = some .endOfText := by
  rw [Lookahead.kind?, leaf_of_end h]

/-- A token that does not go on is the longest one of a mode that it does not clash with. -/
lemma longest_of_stops {m : Mode} {k : Terminal} {l rest : List Int} (hk : k ∈ m)
    (hclash : ∀ t ∈ m, clash k t = false) (hl : k.Matches l) (hstops : k.Stops rest) :
    m.Longest (l ++ rest) k l.length := by
  have only : ∀ t ∈ m, ∀ u v, u ++ v = rest → t.Matches (l ++ u) → t = k ∧ u = [] := by
    intro t ht u v huv hm
    exact hl.only hm (hclash t ht) (huv ▸ hstops).of_append
  refine ⟨by simp, ?_, fun n hn hle => ?_⟩
  · rw [List.take_left]
    rcases hf : m.first? l with _ | t
    · exact absurd hl (Mode.first?_eq_none_iff.1 hf _ hk)
    · obtain ⟨hmem, hm⟩ := Mode.matches_of_first? hf
      rw [(only t hmem [] rest rfl (by simpa using hm)).1]
  · rw [Mode.first?_eq_none_iff]
    intro t ht hm
    rw [List.take_append, List.take_of_length_le hn.le] at hm
    have := (only t ht _ _ (List.take_append_drop (n - l.length) rest) hm).2
    have hlen : (rest.take (n - l.length)).length = 0 := by rw [this]; rfl
    rw [List.length_append] at hle
    rw [List.length_take] at hlen
    omega

/-- The token is the longest one that the lexer can find. -/
lemma longest_of_lexeme (hs : s ≠ Table.lost) {k : Terminal} (hw : Table.wants s k = true)
    {l rest : List Int} (hl : k.Lexeme l) (hstops : k.scanned.Stops rest) :
    (Table.mode s).Longest (l ++ rest) k.scanned l.length :=
  longest_of_stops (Table.scanned_mem_mode hw) (fun _ ht => Table.clash_of_mem_mode hs hw ht)
    hl.matches hstops

/-- **Promotion.** A word is a keyword where it is spelled like one that the state can use, and
else an identifier. -/
lemma exists_promoted {l rest : List Int} {begin : Nat} (hd : points.drop begin = l ++ rest)
    (s : StateId) (m : Mode) (pos : Nat) :
    ∃ k, (word points s m pos begin (begin + l.length)).leaf =
        .token k ⟨pos, begin, begin + l.length⟩ false ∧
      (k = .identifier ∨ k ∈ keywords) ∧
      ∀ kw ∈ keywords, k = kw ↔ l = kw.spelling ∧ Table.wants s kw = true := by
  obtain ⟨k, w, heq, hor, hnot⟩ := exists_word points s m pos begin l.length
  rw [hd] at hor hnot
  have hread : ∀ kw, Keyword.read (l ++ rest) = some (kw, l.length) ↔
      kw ∈ keywords ∧ l = kw.spelling := by
    intro kw
    rw [Keyword.read_eq_some_iff]
    refine and_congr_right fun _ => ⟨fun ⟨hlen, hp⟩ => ?_, ?_⟩
    · rw [List.prefix_iff_eq_take, ← hlen, List.take_left] at hp
      exact hp.symm
    · rintro rfl
      exact ⟨rfl, List.prefix_append _ rest⟩
  simp only [hread] at hor hnot
  refine ⟨k, by rw [heq], hor.imp_right fun h => h.1.1, fun kw hkw => ⟨?_, fun ⟨hl, hw⟩ => ?_⟩⟩
  · rintro rfl
    rcases hor with rfl | ⟨⟨-, hl⟩, hw⟩
    · exact absurd hkw (by decide)
    · exact ⟨hl, hw⟩
  · rcases hor with hid | ⟨⟨hk, hl'⟩, -⟩
    · rw [hnot hid kw ⟨hkw, hl⟩] at hw
      cases hw
    · refine Keyword.eq_of_spelling_prefix hk hkw (List.prefix_rfl) ?_
      rw [← hl, ← hl']

/-- A word is read as what the state looks for. -/
lemma leaf_word (hs : s ≠ Table.lost) {k : Terminal} (hw : Table.wants s k = true)
    (hk : k.scanned = .identifier) {l rest : List Int} (hl : k.Lexeme l) {begin : Nat}
    (hd : points.drop begin = l ++ rest) (m : Mode) (pos : Nat) :
    (word points s m pos begin (begin + l.length)).leaf =
      .token k ⟨pos, begin, begin + l.length⟩ false := by
  obtain ⟨k', heq, hor, hiff⟩ := exists_promoted hd s m pos
  have hk' : k' = k := by
    by_cases hkw : k.isKeyword
    · exact (hiff k (mem_keywords.2 hkw)).2 ⟨by simpa [Lexeme, hkw] using hl, hw⟩
    · obtain rfl : k = .identifier := by simpa [scanned, hkw] using hk
      refine hor.resolve_right fun hmem => ?_
      have hwants := ((hiff k' hmem).1 rfl).2
      have := (Table.distinct_of_wants hs hw hwants).2 rfl
      rw [mem_keywords.1 hmem] at this
      cases this
  rw [heq, hk']

/-- **A token is read** where the state can use it and it does not go on. -/
theorem read_of_lexeme (hs : s ≠ Table.lost) {k : Terminal} (hw : Table.wants s k = true)
    {l rest : List Int} (hl : k.Lexeme l) (hd : points.drop (begin points pos) = l ++ rest)
    (hstops : k.scanned.Stops rest) : (read points s pos).leaf =
      .token k ⟨pos, begin points pos, begin points pos + l.length⟩ false := by
  obtain ⟨hstart, f, hf, hfound⟩ := readAt_finds (Table.mode s) points pos
  rw [hd] at hf
  obtain rfl := hf.eq_of_longest (longest_of_lexeme hs hw hl hstops)
  have hread : ofReading points s pos (Table.mode s) ((Table.mode s).readAt points pos) =
      some (if k.scanned = .identifier
        then word points s (Table.mode s) pos (begin points pos) (begin points pos + l.length)
        else ⟨.token k.scanned ⟨pos, begin points pos, begin points pos + l.length⟩
          (decide (k.scanned = .endOfText)), s, Table.mode s, false⟩) := by
    rw [ofReading, hfound, hstart]; rfl
  rw [read, hread]
  by_cases hid : k.scanned = .identifier
  · rw [hid] at hstops
    simp only [hid, if_true]
    exact leaf_word hs hw hid hl hd _ pos
  · have hkw : k.isKeyword = false := by
      by_contra h
      simp [scanned, h] at hid
    have hscanned : k.scanned = k := by simp [scanned, hkw]
    have hend : k ≠ .endOfText := by
      rintro rfl
      obtain ⟨p, hp, -⟩ := hl.matches
      cases hp
    rw [hscanned] at hid
    simp [hscanned, hid, hend]

end Token

end ScenarioSyntax
