import ScenarioSyntax.Lexer.Numbering
import ScenarioSyntax.Proofs.Lexer.Reading

/-!
The numbered states in which the lexer starts. From each of them it finds the longest of the
tokens that the parser can use in the states with that mode.
-/

namespace ScenarioSyntax

open Terminal

section Visits

variable {α : Type} [BEq α]

/-- What has been found stays where it is. -/
lemma prefix_foldl_insert (bs found : List α) :
    found <+: bs.foldl (fun fs b => if fs.contains b then fs else fs ++ [b]) found := by
  induction bs generalizing found with
  | nil => exact List.prefix_rfl
  | cons b bs ih =>
    rw [List.foldl_cons]
    split
    · exact ih found
    · exact (List.prefix_append found [b]).trans (ih _)

lemma mem_foldl_insert [LawfulBEq α] {b : α} {bs : List α} (hb : b ∈ bs) (found : List α) :
    b ∈ bs.foldl (fun fs b => if fs.contains b then fs else fs ++ [b]) found := by
  induction bs generalizing found with
  | nil => cases hb
  | cons d bs ih =>
    rcases List.mem_cons.1 hb with rfl | hb
    · rw [List.foldl_cons]
      refine (prefix_foldl_insert bs _).subset ?_
      split
      · rename_i h
        simpa using h
      · simp
    · exact ih hb _

/-- Nothing is found but what is put in. -/
lemma forall_mem_foldl_insert {P : α → Prop} {bs found : List α} (hbs : ∀ b ∈ bs, P b)
    (hfound : ∀ a ∈ found, P a) :
    ∀ a ∈ bs.foldl (fun fs b => if fs.contains b then fs else fs ++ [b]) found, P a := by
  induction bs generalizing found with
  | nil => exact hfound
  | cons b bs ih =>
    rw [List.foldl_cons]
    refine ih (fun d hd => hbs d (List.mem_cons_of_mem b hd)) ?_
    split
    · exact hfound
    · exact List.forall_mem_append.2 ⟨hfound, List.forall_mem_singleton.2 (hbs b (by simp))⟩

lemma prefix_explore (next : α → List α) (fuel i : Nat) (found : List α) :
    found <+: explore next fuel i found := by
  induction fuel generalizing i found with
  | zero => exact List.prefix_rfl
  | succ fuel ih =>
    unfold explore
    split
    · exact List.prefix_rfl
    · exact (prefix_foldl_insert _ found).trans (ih _ _)

/-- What holds of the elements to begin with, and is passed on, holds of all that are visited. -/
lemma forall_mem_explore {P : α → Prop} {next : α → List α} (hnext : ∀ a, P a → ∀ b ∈ next a, P b)
    {fuel i : Nat} {found : List α} (hfound : ∀ a ∈ found, P a) :
    ∀ a ∈ explore next fuel i found, P a := by
  induction fuel generalizing i found with
  | zero => exact hfound
  | succ fuel ih =>
    unfold explore
    split
    · exact hfound
    · rename_i a ha
      exact ih (forall_mem_foldl_insert (hnext a (hfound a (List.mem_of_getElem? ha))) hfound)

end Visits

lemma getElem?_findIdx_beq {α : Type} [BEq α] [LawfulBEq α] {xs : Array α} {a : α} (h : a ∈ xs) :
    xs[xs.findIdx (· == a)]? = some a := by
  have hlt : xs.findIdx (· == a) < xs.size :=
    Array.findIdx_lt_size_of_exists ⟨a, h, beq_self_eq_true a⟩
  have hget := Array.findIdx_getElem (w := hlt)
  rw [Array.getElem?_eq_getElem hlt, eq_of_beq hget]

lemma Mode.mem_all {s : StateId} (h : s < Table.rows.size) : Table.mode s ∈ Mode.all :=
  mem_foldl_insert (List.mem_map.2 ⟨s, List.mem_range.2 h, rfl⟩) []

lemma Mode.general_prefix_all : [Mode.general] <+: Mode.all := by
  obtain ⟨n, hn⟩ : ∃ n, Table.rows.size = n + 1 := ⟨182, by decide +kernel⟩
  rw [Mode.all, hn, List.range_succ_eq_map, List.map_cons, List.foldl_cons]
  exact prefix_foldl_insert _ _

section ReadFrom

variable {α : Type} {states : Array α} {n : Nat} {q : α}

lemma readFrom_of_some (h : states[n]? = some q) (read : α → List Int → Reading) :
    readFrom states read n = read q := by
  funext points
  rw [readFrom, h]

lemma readFrom_of_none (h : states[n]? = none) (read : α → List Int → Reading) :
    readFrom states read n = fun _ => ⟨none, 0, 0⟩ := by
  funext points
  rw [readFrom, h]

end ReadFrom

namespace LexState

lemma exists_ofMode (m : Mode) : ∃ qs, ofMode m = start m :: qs := by
  obtain ⟨qs, hqs⟩ := prefix_explore successors 100 0
    (if m.contains .endOfText then [start m, ended] else [start m])
  rw [ofMode, ← hqs]
  split
  · exact ⟨_, rfl⟩
  · exact ⟨_, rfl⟩

lemma start_mem_all {m : Mode} (h : m ∈ Mode.all) : start m ∈ all := by
  obtain ⟨qs, hqs⟩ := exists_ofMode m
  rw [all, List.mem_toArray, List.mem_flatMap]
  exact ⟨m, h, by rw [hqs]; exact List.mem_cons_self⟩

/-- Every number reads like one of the states, or finds nothing at all. -/
lemma readNumbered_cases (n : Nat) : (∃ q ∈ all, readNumbered n = q.read) ∨
    readNumbered n = fun _ => ⟨none, 0, 0⟩ := by
  rcases h : all[n]? with _ | q
  · right
    exact readFrom_of_none h read
  · exact .inl ⟨q, Array.mem_of_getElem? h, readFrom_of_some h read⟩

lemma readNumbered_index {m : Mode} (h : m ∈ Mode.all) (points : List Int) :
    readNumbered m.index points = (start m).read points := by
  refine congrFun (readFrom_of_some ?_ read) points
  rw [Mode.index]
  exact getElem?_findIdx_beq (start_mem_all h)

lemma readNumbered_zero (points : List Int) :
    readNumbered 0 points = (start Mode.general).read points := by
  obtain ⟨ms, hms⟩ := Mode.general_prefix_all
  obtain ⟨qs, hqs⟩ := exists_ofMode Mode.general
  refine congrFun (readFrom_of_some ?_ read) points
  rw [all, ← hms, List.getElem?_toArray, List.singleton_append, List.flatMap_cons, hqs]
  rfl

end LexState

/-- The law of the longest match, where `IsToken` says which texts are tokens and `ends` that the
end of the text is one. -/
structure Reading.IsLongest (r : Reading) (IsToken : Terminal → List Int → Prop) (ends : Prop)
    (points : List Int) : Prop where
  start : r.start = (points.takeWhile isBlank).length
  /-- Something is found if the text behind the blanks begins with a token, or ends there. -/
  found : r.found.isSome = true ↔
    (∃ u t, u ≠ [] ∧ u <+: points.dropWhile isBlank ∧ IsToken t u) ∨
      (ends ∧ points.dropWhile isBlank = [])
  /-- It is the longest beginning that is a token, and no other token. -/
  token : points.dropWhile isBlank ≠ [] → ∀ t stop, r.found = some (t, stop) →
    ∃ u, u ≠ [] ∧ u <+: points.dropWhile isBlank ∧ stop = r.start + u.length ∧
      (∀ t', IsToken t' u ↔ t' = t) ∧
      ∀ v t', v <+: points.dropWhile isBlank → IsToken t' v → v.length ≤ u.length
  ended : points.dropWhile isBlank = [] → ∀ t stop, r.found = some (t, stop) →
    t = .endOfText ∧ stop = r.start

namespace Mode

variable {m : Mode} {IsToken : Terminal → List Int → Prop} {ends : Prop}

/-- The law holds of a mode that takes the right token first, wherever there is one. -/
theorem isLongest_read (hfirst : ∀ t u, IsToken t u ↔ m.first? u = some t)
    (hends : ends ↔ .endOfText ∈ m) (points : List Int) :
    ((LexState.start m).read points).IsLongest IsToken ends points := by
  have hnone : ∀ {u t}, m.first? u = none → ¬ IsToken t u := by
    intro u t h ht
    rw [(hfirst t u).1 ht] at h
    cases h
  obtain ⟨hstart, f, hf, hfound⟩ := LexState.scan_start m 0 points
  rw [LexState.read]
  generalize (LexState.start m).scan 0 0 none points = r at hstart hfound ⊢
  rw [Nat.zero_add] at hstart hfound
  rw [← hstart] at hfound
  generalize hcs : points.dropWhile isBlank = cs at hf
  cases hf with
  | ended h =>
    refine ⟨hstart, ?_, fun hne => absurd hcs hne, fun _ t stop hts => ?_⟩
    · simp [hfound, hcs, hends, h]
    · rw [hfound] at hts
      obtain ⟨rfl, rfl⟩ : .endOfText = t ∧ r.start = stop := by simpa using hts
      exact ⟨rfl, rfl⟩
  | @token _ t n h =>
    have hlength : (cs.take n).length = n := by
      rw [List.length_take, Nat.min_eq_left h.le_length]
    have hne : cs.take n ≠ [] := by
      rw [← List.length_pos_iff, hlength]
      exact h.pos
    have hprefix : cs.take n <+: points.dropWhile isBlank := by
      rw [hcs]
      exact List.take_prefix n cs
    refine ⟨hstart, ?_, fun _ t' stop hts => ?_, fun hnil => ?_⟩
    · simp only [hfound, Option.map_some, Option.isSome_some, true_iff]
      exact .inl ⟨cs.take n, t, hne, hprefix, (hfirst _ _).2 h.first⟩
    · rw [hfound] at hts
      obtain ⟨rfl, rfl⟩ : t = t' ∧ r.start + n = stop := by simpa using hts
      refine ⟨cs.take n, hne, hprefix, by rw [hlength], fun t' => ?_, fun v t' hv ht => ?_⟩
      · rw [hfirst, h.first, Option.some.injEq, eq_comm]
      · rw [hcs] at hv
        by_contra hlt
        rw [hlength, not_le] at hlt
        refine hnone (h.longest v.length hlt hv.length_le) (t := t') ?_
        rwa [← List.prefix_iff_eq_take.1 hv]
    · exact absurd (hcs.symm.trans hnil) h.ne_nil
  | nothing h hend =>
    have hnot : ∀ t stop, r.found ≠ some (t, stop) := by simp [hfound]
    refine ⟨hstart, ?_, fun _ t stop hts => absurd hts (hnot t stop),
      fun _ t stop hts => absurd hts (hnot t stop)⟩
    simp only [hfound, Option.map_none, Option.isSome_none, Bool.false_eq_true, false_iff, not_or,
      not_exists, not_and, hcs]
    refine ⟨fun u t _ hu ht => ?_, fun he hnil => hend hnil (hends.1 he)⟩
    refine hnone (h u.length hu.length_le) (t := t) ?_
    rwa [← List.prefix_iff_eq_take.1 hu]

/-- Of the tokens that a state can use, a text is one at most. -/
lemma first?_mode_iff {s : StateId} (hs : s ≠ Table.lost) (t : Terminal) (u : List Int) :
    (∃ k, Table.wants s k = true ∧ k.scanned = t) ∧ t.Matches u ↔
      (Table.mode s).first? u = some t := by
  constructor
  · rintro ⟨⟨k, hk, rfl⟩, hm⟩
    rcases hf : (Table.mode s).first? u with _ | t
    · exact absurd hm (first?_eq_none_iff.1 hf _ (Table.scanned_mem_mode hk))
    · obtain ⟨hmem, ht⟩ := matches_of_first? hf
      have hstops : k.scanned.Stops [] := fun c hc => by cases hc
      rw [(hm.only (by rwa [List.append_nil]) (Table.clash_of_mem_mode hs hk hmem) hstops).1]
  · intro h
    obtain ⟨hmem, hm⟩ := matches_of_first? h
    refine ⟨?_, hm⟩
    obtain ⟨hkw, hor⟩ := Table.mem_mode.1 hmem
    rcases hor with hw | ⟨rfl, k, hk, hw⟩
    · exact ⟨t, hw, by simp [scanned, hkw]⟩
    · exact ⟨k, hw, by simp [scanned, mem_keywords.1 hk]⟩

/-- Among all tokens the signs of one character come before the comparisons. -/
lemma first?_general_iff (t : Terminal) (u : List Int) :
    t.Matches u ∧ (t = .comparisonOperator → u.length = 2) ↔ general.first? u = some t := by
  have key : ∀ x ∈ signs,
      general.first? x.2 = some x.1 ↔ (x.1 = .comparisonOperator → x.2.length = 2) := by
    decide +kernel
  constructor
  · rintro ⟨hm, hlength⟩
    rcases hf : general.first? u with _ | t'
    · exact absurd hm (first?_eq_none_iff.1 hf t (Table.mem_general hm.isKeyword_eq_false))
    · have hm' := (matches_of_first? hf).2
      have hstops : t.Stops [] := fun c hc => by cases hc
      have only : clash t t' = false → some t' = some t := fun hclash => by
        rw [(hm.only (by rwa [List.append_nil]) hclash hstops).1]
      cases hm.shape with
      | word _ _ => exact only (by cases t' <;> rfl)
      | quantity h _ => exact only (by cases h <;> cases t' <;> rfl)
      | string _ _ => exact only (by cases t' <;> rfl)
      | comment _ _ => exact only (by cases t' <;> rfl)
      | sign h => rw [← hf, (key _ h).2 hlength]
  · intro h
    have hm := (matches_of_first? h).2
    refine ⟨hm, ?_⟩
    rintro rfl
    cases hm.shape with
    | quantity hq _ => cases hq
    | sign hmem => exact (key _ hmem).1 h rfl

end Mode

/-- **The modes** are the longest-match lexers of the tokens that the states can use, with the
keywords among the identifiers. The mode that knows every token reads a sign of one character as
punctuation. -/
theorem longest_of_mode :
    (∀ s, s ≠ Table.lost → s < Table.rows.size → ∀ points,
      (LexState.readNumbered (Table.mode s).index points).IsLongest
        (fun t u => (∃ k, Table.wants s k = true ∧ k.scanned = t) ∧ t.Matches u)
        (Table.wants s .endOfText = true) points) ∧
      ∀ points, (LexState.readNumbered 0 points).IsLongest
        (fun t u => t.Matches u ∧ (t = .comparisonOperator → u.length = 2)) True points := by
  constructor
  · intro s hs hlt points
    rw [LexState.readNumbered_index (Mode.mem_all hlt)]
    refine Mode.isLongest_read (Mode.first?_mode_iff hs) ?_ points
    simp [Table.mem_mode, show endOfText.isKeyword = false from rfl]
  · intro points
    rw [LexState.readNumbered_zero]
    refine Mode.isLongest_read Mode.first?_general_iff ?_ points
    exact iff_of_true trivial (Table.mem_general rfl)

theorem found_use_start :
    (LexState.readNumbered (Table.mode Table.start).index [32, 117, 115, 101]).found.isSome := by
  have h := longest_of_mode.1 Table.start (by decide) (by decide +kernel) [32, 117, 115, 101]
  refine h.found.2 (.inl ⟨kwUse.spelling, .identifier, by decide, by decide, ?_⟩)
  exact ⟨⟨.kwUse, by decide +kernel, rfl⟩, matches_spelling (by decide)⟩

end ScenarioSyntax
