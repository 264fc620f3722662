import ScenarioSyntax.Proofs.Lexer.Modes

/-!
Words and keywords. One lexer finds how far a word goes, another one which keyword the text begins
with; a word is a keyword where the two end together and the state can use that keyword.
-/

namespace ScenarioSyntax

open Terminal

namespace Keyword

lemma getElem?_states_zero : states[0]? = some [] := by
  obtain ⟨qs, hqs⟩ := prefix_explore successors 1000 0 [[]]
  rw [states, ← hqs, List.getElem?_toArray]
  rfl

lemma readNumbered_zero (points : List Int) : readNumbered 0 points = scan [] 0 none points :=
  congrFun (readFrom_of_some getElem?_states_zero fun s => scan s 0 none) points

end Keyword

namespace Token

variable {points : List Int} {s : StateId} {pos : Nat} {l rest : List Int}

/-- What begins like a word is one. -/
lemma eq_identifier_of_longest {m : Mode} {k : Terminal} {n : Nat} (hl : identifier.Matches l)
    (h : m.Longest (l ++ rest) k n) : k = .identifier := by
  obtain ⟨c, v, rfl⟩ := List.exists_cons_of_ne_nil hl.ne_nil
  obtain ⟨n, rfl⟩ := Nat.exists_eq_succ_of_ne_zero h.pos.ne'
  have hm := (Mode.matches_of_first? h.first).2
  rw [List.cons_append, List.take_succ_cons] at hm
  exact hm.shape.eq_identifier (hm.shape.lead.symm.trans hl.shape.lead)

/-- Every mode that finds a word finds the whole of it. -/
lemma finds_word {m : Mode} (hl : identifier.Matches l) (hstops : identifier.Stops rest)
    (hm : Terminal.identifier ∈ m) {f : Option (Terminal × Nat)} (hf : m.Finds (l ++ rest) f) :
    f = some (.identifier, l.length) := by
  have hclash : ∀ t ∈ m, clash .identifier t = false := by
    intro t _
    cases t <;> rfl
  exact hf.eq_of_longest (longest_of_stops hm hclash hl hstops)

/-- In every state a word is what is read of it. -/
theorem read_of_word (hd : points.drop (begin points pos) = l ++ rest)
    (hl : identifier.Matches l) (hstops : identifier.Stops rest) (s : StateId) :
    ∃ m, read points s pos =
      word points s m pos (begin points pos) (begin points pos + l.length) := by
  have hr := reads_read points s pos
  generalize read points s pos = t at hr
  cases hr with
  | @token m k n _ found ne =>
    rw [hd] at found
    generalize hcs : l ++ rest = cs at found
    cases found with
    | ended _ => exact absurd (List.append_eq_nil_iff.1 hcs).1 hl.ne_nil
    | token hlong => exact absurd (eq_identifier_of_longest hl (hcs ▸ hlong)) ne
  | @word m n _ found =>
    rw [hd] at found
    have hm := (Mode.matches_of_first? (longest_of_finds found (by decide)).first).1
    have := finds_word hl hstops hm found
    obtain rfl : n = l.length := by simpa using this
    exact ⟨m, rfl⟩
  | stray hnone _ _ =>
    rw [hd] at hnone
    have := finds_word hl hstops (Table.mem_general rfl) hnone
    cases this

end Token

/-- **Keywords.** What is found when keywords are looked for is the one, at most, that the text
begins with, whatever follows it. So in every state a word is read as a whole, as the keyword that
it is spelled like if the state has an action for it, and else as an identifier. -/
theorem keyword_of_word :
    (∀ (points : List Int) (k : Terminal) (n : Nat),
      (Keyword.readNumbered 0 points).found = some (k, n) ↔
        k ∈ keywords ∧ n = k.spelling.length ∧ k.spelling <+: points) ∧
    (keywords.length = 27 ∧ ∀ points : List Int, ∀ k ∈ keywords, ∀ k' ∈ keywords,
      k.spelling <+: points → k'.spelling <+: points → k = k') ∧
    ∀ (points : List Int) (s : StateId) (pos : Nat) (l rest : List Int),
      points.drop (Token.begin points pos) = l ++ rest → identifier.Matches l →
      identifier.Stops rest →
      ∃ k, (Token.read points s pos).leaf = .token k
          ⟨pos, Token.begin points pos, Token.begin points pos + l.length⟩ false ∧
        (∀ kw ∈ keywords, k = kw ↔ l = kw.spelling ∧ Table.wants s kw = true) ∧
        (k = .identifier ↔ ∀ kw ∈ keywords, l = kw.spelling → Table.wants s kw = false) := by
  refine ⟨fun points k n => ?_, ⟨rfl, fun points k hk k' hk' => ?_⟩, ?_⟩
  · rw [Keyword.readNumbered_zero]
    exact Keyword.read_eq_some_iff
  · exact Keyword.eq_of_spelling_prefix hk hk'
  · intro points s pos l rest hd hl hstops
    obtain ⟨m, hread⟩ := Token.read_of_word hd hl hstops s
    obtain ⟨k, hleaf, hor, hiff⟩ := Token.exists_promoted hd s m pos
    refine ⟨k, by rw [hread, hleaf], hiff, ?_, fun hnot => hor.resolve_right fun hk => ?_⟩
    · rintro rfl kw hkw hspelled
      rw [Bool.eq_false_iff]
      intro hwants
      obtain rfl := (hiff kw hkw).2 ⟨hspelled, hwants⟩
      exact absurd hkw (by decide)
    · obtain ⟨hspelled, hwants⟩ := (hiff k hk).1 rfl
      rw [hnot k hk hspelled] at hwants
      cases hwants

/-- Where a scenario can begin, `use` is the keyword. -/
theorem keyword_use_start : (Token.read [117, 115, 101] Table.start 0).leaf =
    .token .kwUse ⟨0, 0, 3⟩ false := by
  obtain ⟨k, hleaf, hiff, -⟩ := keyword_of_word.2.2 [117, 115, 101] Table.start 0 [117, 115, 101] []
    rfl (matches_spelling (t := .kwUse) (by decide)) (fun c hc => by cases hc)
  obtain rfl := (hiff .kwUse (by decide)).2 ⟨by decide, by decide +kernel⟩
  exact hleaf

/-- In the same place `user` is an identifier, though it begins with the keyword. -/
example : (Token.read [117, 115, 101, 114] Table.start 0).kind? = some .identifier := by
  decide +kernel

end ScenarioSyntax
