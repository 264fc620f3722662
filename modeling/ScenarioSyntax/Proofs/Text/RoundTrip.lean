import ScenarioSyntax.Proofs.Repair.Start

/-!
Parsing undoes printing: the texts without error are the files written out, and the tree of such a
text is the file. A text that was repaired is never taken for one of them.
-/

namespace ScenarioSyntax

open Automaton Machine

variable {src : Source}

lemma parse_of_accepted {tree : Tree} (h : (runText src.points).2 = .accepted tree) :
    parse src = tree := by
  simp only [parse, h]

/-- **Where the parser gets stuck, the tree is the one that the search comes up with.** It stands
for the text as a whole. -/
theorem parse_of_stuck {m : Machine} (h : (runText src.points).2 = .stuck m) :
    ∃ t, m.ahead = some t ∧ (Search.rounds src (Search.fuelFor src.length)
      (Search.ofMachine src m t)).best = some (parse src) ∧ (parse src).Whole src.points := by
  obtain ⟨-, t, ht, -⟩ := rests_of_stuck h
  obtain ⟨u, hbest, hwhole⟩ := Search.exists_best (Search.fuelFor src.length) h ht
  have hparse : parse src = u := by
    simp only [parse, h, Search.repair, ht, hbest, Option.getD_some]
  exact ⟨t, ht, hparse ▸ hbest, hparse ▸ hwhole⟩

/-- It has an error: one without any would make the text a printing, which is accepted. -/
theorem hasError_of_stuck {m : Machine} (h : (runText src.points).2 = .stuck m) :
    (parse src).hasError = true := by
  obtain ⟨t, -, -, hwhole⟩ := parse_of_stuck h
  by_contra hclean
  obtain ⟨d, hd⟩ := hwhole.exists_isPrinting (by simpa using hclean)
  obtain ⟨tree, htree, -⟩ := accepted_of_isPrinting hd
  cases h.symm.trans htree

/-- So a text without any error was accepted. -/
lemma accepted_of_hasError (h : (parse src).hasError = false) :
    (runText src.points).2 = .accepted (parse src) := by
  rcases ho : (runText src.points).2 with m | tree | m
  · exact absurd ho (run_init_ne_running (Token.honest_read _) (Token.within_read _))
  · rw [parse_of_accepted ho]
  · rw [hasError_of_stuck ho] at h
    cases h

/-- **Round trip**: a text has a tree without error if and only if it is a printing of a file. It
is the printing of one file only, and its tree without the comments is that file. -/
theorem parse_inverts_printing (src : Source) :
    ((parse src).hasError = false ↔ ∃ d, IsPrinting src.points d) ∧
    (∀ d e, IsPrinting src.points d → IsPrinting src.points e → d = e) ∧
    ∀ d, IsPrinting src.points d → (parse src).toNode.bare (slice src.points) = [d] := by
  have unique : ∀ d e, IsPrinting src.points d → IsPrinting src.points e → d = e := by
    intro d e hd he
    obtain ⟨-, -, htok⟩ := accepted_of_isPrinting hd
    obtain ⟨-, -, htok'⟩ := accepted_of_isPrinting he
    exact eq_of_tokens_eq hd.isFile he.isFile (htok.trans htok'.symm)
  refine ⟨⟨fun h => ?_, ?_⟩, unique, fun d hd => ?_⟩
  · obtain ⟨-, d, hd, -, -⟩ := exists_isPrinting_of_accepted (accepted_of_hasError h)
    exact ⟨d, hd⟩
  · rintro ⟨d, hd⟩
    obtain ⟨tree, htree, -⟩ := accepted_of_isPrinting hd
    obtain ⟨hclean, -⟩ := exists_isPrinting_of_accepted htree
    rw [parse_of_accepted htree]
    exact hclean.hasError
  · obtain ⟨tree, htree, -⟩ := accepted_of_isPrinting hd
    obtain ⟨-, e, he, hbare, -⟩ := exists_isPrinting_of_accepted htree
    rw [parse_of_accepted htree, hbare, unique e d he hd]

theorem exists_isPrinting_smallest_file : ∃ d,
    IsPrinting (Source.ofString .utf8 "scenario a\x7btraffic\x7b\x7d\x7d//").points d :=
  (parse_inverts_printing _).1.1 (by decide +kernel)

end ScenarioSyntax
