import Mathlib.Tactic.Common
import ScenarioSyntax.Package.Build
import ScenarioSyntax.Package.Compatibility

/-!
What the package promises: which languages it loads and what it says of the others, and what it
tells the compiler.
-/

namespace ScenarioSyntax

/-! ### Loading -/

namespace LanguageHeader

variable {h h' : LanguageHeader}

lemma isSupported_iff {v : Nat} : isSupported v = true ↔ minVersion ≤ v ∧ v ≤ maxVersion := by
  simp [isSupported]

/-- A language is loaded as it is, or the first check that it fails says why not. -/
theorem load_cases (h : LanguageHeader) :
    (h.load = .ok h ∧ (minVersion ≤ h.version ∧ h.version ≤ maxVersion) ∧ 1 < h.kinds) ∨
    (h.load = .error (.unsupportedVersion h.version) ∧
      ¬ (minVersion ≤ h.version ∧ h.version ≤ maxVersion)) ∨
    (h.load = .error .empty ∧ (minVersion ≤ h.version ∧ h.version ≤ maxVersion) ∧
      h.kinds ≤ 1) := by
  rw [← isSupported_iff, load, validate, checkVersion, checkKinds]
  by_cases hv : isSupported h.version = true
  · by_cases hk : 1 < h.kinds
    · exact .inl ⟨by simp [hv, hk]; rfl, hv, hk⟩
    · exact .inr (.inr ⟨by simp [hv, hk]; rfl, hv, Nat.le_of_not_lt hk⟩)
  · exact .inr (.inl ⟨by simp [hv]; rfl, hv⟩)

/-- The parser takes every language that was loaded. -/
theorem newParser_eq_load (h : LanguageHeader) : h.newParser = h.load := by
  rw [newParser]
  rcases load_cases h with ⟨hload, hv, -⟩ | ⟨hload, -⟩ | ⟨hload, -⟩ <;> rw [hload]
  · show (assign h.version >>= fun _ => pure h) = _
    rw [assign, if_pos (isSupported_iff.2 hv)]
    rfl
  · rfl
  · rfl

example : ours.newParser = .ok ours := by decide +kernel

end LanguageHeader

namespace LoadError

lemma message_unsupportedVersion (v : Nat) : (unsupportedVersion v).message =
    "language ABI version " ++ toString v ++ " is outside the supported range " ++
      toString LanguageHeader.minVersion ++ "..=" ++ toString LanguageHeader.maxVersion := rfl

lemma message_rejected (v : Nat) : (rejected v).message =
    "parser rejected language: Incompatible language version " ++ toString v ++
      ". Expected minimum " ++ toString LanguageHeader.minVersion ++ ", maximum " ++
      toString LanguageHeader.maxVersion := rfl

/-- The beginning of the message tells which error it is. -/
lemma take_message (e : LoadError) : e.message.toList.take 10 =
    match e with
    | unsupportedVersion _ => ['l', 'a', 'n', 'g', 'u', 'a', 'g', 'e', ' ', 'A']
    | empty => ['l', 'a', 'n', 'g', 'u', 'a', 'g', 'e', ' ', 'd']
    | rejected _ => ['p', 'a', 'r', 's', 'e', 'r', ' ', 'r', 'e', 'j'] := by
  cases e with
  | empty => decide +kernel
  | unsupportedVersion v =>
    simp only [message_unsupportedVersion, String.toList_append, List.append_assoc]
    rw [List.take_append_of_le_length (by decide +kernel)]
    decide +kernel
  | rejected v =>
    simp only [message_rejected, String.toList_append, List.append_assoc]
    rw [List.take_append_of_le_length (by decide +kernel)]
    decide +kernel

/-- A message tells which error it is, and of which version. -/
theorem message_injective {e e' : LoadError} (h : e.message = e'.message) : e = e' := by
  have hhead := congrArg (fun s => s.toList.take 10) h
  simp only [take_message] at hhead
  -- the digits of a version are read back
  have hdigits : ∀ {v w : Nat}, v.repr = w.repr → v = w := fun {v w} h => by
    have hread := congrArg (fun s => Nat.ofDigitChars 10 s.toList 0) h
    simpa [Nat.repr_eq_ofList_toDigits, Nat.ofDigitChars_ten_toDigits] using hread
  cases e <;> cases e' <;> try simp at hhead
  case empty.empty => rfl
  case unsupportedVersion.unsupportedVersion v w =>
    simp only [message_unsupportedVersion, String.append_left_inj, String.append_right_inj] at h
    rw [hdigits h]
  case rejected.rejected v w =>
    simp only [message_rejected, String.append_left_inj, String.append_right_inj] at h
    rw [hdigits h]

end LoadError

/-- What is logged tells what came of loading. -/
theorem LanguageHeader.load_eq_of_log {h h' : LanguageHeader}
    (hlog : h.log.fields = h'.log.fields) : h.load = h'.load := by
  unfold log at hlog
  rcases hl : h.load with e | g <;> rcases hl' : h'.load with e' | g' <;>
    simp only [hl, hl', LoadEvent.fields] at hlog
  · obtain rfl := LoadError.message_injective (by simpa using hlog)
    rfl
  · simp at hlog
  · simp at hlog
  · cases g
    cases g'
    simpa using hlog

/-! ### Building -/

namespace Build

variable (environment : Option String) (supports : String → Bool)

/-- No argument is ever passed but these, in this order. A flag that some compilers do not know is
passed to those that do, and one compiler is told the encoding of the tables. -/
theorem plan_arguments :
    (plan environment supports).arguments.Sublist
      (["-I", sourceDir, "-w"] ++ probedFlags ++ ["-utf-8"] ++ [tables]) ∧
    (∀ a ∈ ["-I", sourceDir, "-w", tables], a ∈ (plan environment supports).arguments) ∧
    (∀ f ∈ probedFlags, f ∈ (plan environment supports).arguments ↔ supports f = true) ∧
    ("-utf-8" ∈ (plan environment supports).arguments ↔ environment = some "msvc") := by
  have hflag : (if needsUtf8Flag environment then ["-utf-8"] else []).Sublist ["-utf-8"] := by
    split
    · exact List.Sublist.refl _
    · exact List.nil_sublist _
  have hutf8 : "-utf-8" ∈ (if needsUtf8Flag environment then ["-utf-8"] else []) ↔
      environment = some "msvc" := by
    simp [needsUtf8Flag]
  refine ⟨?_, ?_, ?_, ?_⟩
  · exact (((List.Sublist.refl _).append List.filter_sublist).append hflag).append
      (List.Sublist.refl _)
  · intro a ha
    simp only [List.mem_cons, List.not_mem_nil, or_false] at ha
    rcases ha with rfl | rfl | rfl | rfl <;> simp [plan]
  · intro f hf
    have hne : f ≠ "-utf-8" ∧ f ≠ tables ∧ f ∉ ["-I", sourceDir, "-w"] := by
      revert f
      decide +kernel
    simp only [plan, List.mem_append, hne.2.2, List.mem_filter, hf, List.mem_singleton, hne.2.1,
      true_and, false_or, or_false]
    split <;> simp [hne.1]
  · have hne : "-utf-8" ∉ ["-I", sourceDir, "-w"] ∧ "-utf-8" ∉ probedFlags ∧ "-utf-8" ≠ tables := by
      decide +kernel
    simp only [plan, List.mem_append, hne.1, List.mem_filter, hne.2.1, List.mem_singleton, hne.2.2,
      false_and, false_or, or_false]
    exact hutf8

end Build

end ScenarioSyntax
