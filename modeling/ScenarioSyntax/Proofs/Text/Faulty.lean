import ScenarioSyntax.Proofs.Text.RoundTrip

/-!
The tree of a text that is no printing of a file. The parser gets stuck on it, and the search for a
repair comes up with a tree that stands for the text as a whole and has an error. Its root is a file
only if the text has the tokens that every file opens with, for a repair never makes them up; else
the root itself is an error.
-/

namespace ScenarioSyntax

open Machine

variable {src : Source}

/-- A text that was repaired is no printing. -/
lemma not_isPrinting_of_hasError (h : (parse src).hasError = true) :
    ¬ ∃ d, IsPrinting src.points d := by
  rintro ⟨d, hd⟩
  obtain ⟨tree, htree, -⟩ := accepted_of_isPrinting hd
  have hclean := (exists_isPrinting_of_accepted htree).1.hasError
  rw [parse_of_accepted htree, hclean] at h
  cases h

/-- The parser gets stuck on a text that is no printing. -/
lemma exists_stuck (h : ¬ ∃ d, IsPrinting src.points d) :
    ∃ m, (runText src.points).2 = .stuck m := by
  rcases ho : (runText src.points).2 with m | tree | m
  · exact absurd ho (run_init_ne_running (Token.honest_read _) (Token.within_read _))
  · obtain ⟨-, d, hd, -⟩ := exists_isPrinting_of_accepted ho
    exact absurd ⟨d, hd⟩ h
  · exact ⟨m, rfl⟩

/-- **The tree of a faulty text** has an error. Its root is a file, and the text has the tokens that
a file opens with; or the root is an error. -/
theorem root_of_faulty (src : Source) (h : ¬ ∃ d, IsPrinting src.points d) :
    (parse src).toNode.data.hasError = true ∧
      ((parse src).toNode.data.kind = .symbol (.nonterminal .sourceFile) ∧
          Mentions Terminal.header src.points ∨
        (parse src).toNode.data.kind = .error) := by
  obtain ⟨m, hm⟩ := exists_stuck h
  obtain ⟨t, -, -, hwhole⟩ := parse_of_stuck hm
  exact ⟨hwhole.hasError_toNode.trans (hasError_of_stuck hm), hwhole.kind_eq⟩

/-- The empty text has an error as its root, and a file that lacks the last brace is a file. -/
theorem root_of_empty_and_cut :
    ((parse (Source.ofString .utf8 "")).toNode.data.hasError = true ∧
      (parse (Source.ofString .utf8 "")).toNode.data.kind = .error) ∧
    (parse (Source.ofString .utf8 "scenario a\x7btraffic\x7b\x7d")).toNode.data.hasError = true ∧
      (parse (Source.ofString .utf8 "scenario a\x7btraffic\x7b\x7d")).toNode.data.kind =
        .symbol (.nonterminal .sourceFile) := by
  obtain ⟨herror, hroot⟩ := root_of_faulty (Source.ofString .utf8 "")
    (not_isPrinting_of_hasError (by decide +kernel))
  obtain ⟨herror', hroot'⟩ := root_of_faulty (Source.ofString .utf8 "scenario a\x7btraffic\x7b\x7d")
    (not_isPrinting_of_hasError (by decide +kernel))
  refine ⟨⟨herror, hroot.resolve_left fun hfile => ?_⟩, herror', (hroot'.resolve_right ?_).1⟩
  · exact absurd hfile.1 (by decide +kernel)
  · decide +kernel

/-- Not every faulty text has a file as its root: the empty one has not. -/
theorem not_forall_root_eq_sourceFile : ¬ ∀ src : Source, (¬ ∃ d, IsPrinting src.points d) →
    (parse src).toNode.data.kind = .symbol (.nonterminal .sourceFile) ∧
      (parse src).toNode.data.hasError = true := by
  intro h
  have hkind := (h (Source.ofString .utf8 "") (not_isPrinting_of_hasError (by decide +kernel))).1
  revert hkind
  decide +kernel

end ScenarioSyntax
