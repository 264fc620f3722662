import ScenarioSyntax.Proofs.Lexer.Reading
import ScenarioSyntax.Proofs.Machine.Halting
import ScenarioSyntax.Proofs.Machine.Recognition

/-!
The first error is found at the earliest token possible: what was taken before it begins a file,
and with the token at which the parser stops it no longer does.
-/

namespace ScenarioSyntax

open Automaton Table

/-- A file has this sequence of terminals. -/
def Derivable (w : List Terminal) : Prop := ∃ d : Ast Unit, d.IsFile ∧ d.tokens.map (·.1) = w

/-- A sequence of terminals that begins a file. -/
def Viable (w : List Terminal) : Prop := ∃ v, Derivable (w ++ v)

/-- The terminals of tokens, without comments. -/
def terminals (ts : List Lookahead) : List Terminal :=
  (ts.filterMap (·.kind?)).filter (· ≠ .comment)

lemma terminals_append (ts us : List Lookahead) :
    terminals (ts ++ us) = terminals ts ++ terminals us := by
  simp [terminals]

/-- The terminals taken in a trace, without comments. -/
def shifted (es : List Event) : List Terminal := terminals (Event.taken none es)

/-! ### The scanner of a text -/

namespace Token

variable (points : List Int)

lemma honest_read : Scanner.Honest (read points) where
  leaf_eq := by
    intro s pos k h
    by_cases hk : k = .endOfText
    · subst hk
      exact (end_of_kind? h).2.1
    · obtain ⟨n, hn⟩ := exists_isRead h hk
      simp [Lookahead.span, hn.leaf_eq, hk]
  wanted := by
    intro s pos k h hw hne
    by_cases hk : k = .endOfText
    · subst hk
      rw [(end_of_kind? h).2.2] at hw
      cases hw
    · obtain ⟨n, hn⟩ := exists_isRead h hk
      exact hn.wanted hw hne

lemma within_read : Scanner.Within (read points) points.length := by
  intro s pos k h hk
  obtain ⟨n, hn⟩ := exists_isRead h hk
  have hpos : pos ≤ begin points pos := (le_origin points pos).trans (Nat.le_add_right _ _)
  have := hn.zero_lt
  have := hn.le
  rw [hn.span_eq]
  dsimp only
  omega

end Token

/-! ### What the parser has taken -/

namespace Machine

variable {scan : Scanner} {m : Machine} {ts : List Lookahead}

lemma map_fst_kept {α : Type} (text : Nat → Nat → α) (ts : List Lookahead) :
    (kept text ts).map (·.1) = terminals ts := by
  induction ts with
  | nil => rfl
  | cons t ts ih =>
    rw [← List.singleton_append, kept_append, List.map_append, ih]
    rcases hk : t.kind? with _ | k
    · simp [kept, terminals, hk]
    · by_cases hc : k = .comment <;> simp [kept, terminals, hk, hc]

lemma map_fst_unit (ts : List (Terminal × Unit)) :
    (ts.map (·.1)).map (fun t => (t, ())) = ts := by
  rw [List.map_map]
  exact List.map_id _

lemma kept_unit (ts : List Lookahead) :
    kept (fun _ _ => ()) ts = (terminals ts).map fun t => (t, ()) := by
  rw [← map_fst_kept fun _ _ => (), map_fst_unit]

/-- What was fed before the parser stopped. -/
lemma terminals_of_chain {w : List Terminal} {q : Nat} (h : Chain (feed w) 0 ts q)
    (hk : ∀ t ∈ ts, ∃ k, t.kind? = some k ∧ k ≠ .endOfText) :
    terminals ts = (w.take q).filter (· ≠ .comment) := by
  obtain ⟨-, -, hkept⟩ := kept_of_chain h (by simp) hk
  rw [← map_fst_kept fun start _ => start, hkept, List.drop_zero, Nat.sub_zero]
  have := List.filter_map (f := fun x : Terminal × Nat => x.1) (p := fun t => decide (t ≠ .comment))
    (l := (w.take q).zipIdx)
  rw [List.zipIdx_map_fst] at this
  exact this.symm

/-- No terminal that the state did not look for when it read the token can stand there. -/
lemma not_viable_of_wants {st : List (Frame Unit)}
    (hst : ∀ inp, Steps ⟨[], kept (fun _ _ => ()) ts ++ inp⟩ ⟨st, inp⟩) {k : Terminal}
    (hk : wants (top st) k = false) : ¬ Viable (terminals ts ++ [k]) := by
  rintro ⟨v, d, hd, hw⟩
  have hnone : action? (top st) k = none := by simpa [wants] using hk
  refine ne_tokens_of_rest (hst ((k, ()) :: v.map fun t => (t, ()))) hnone hd ?_
  rw [← map_fst_unit d.tokens, hw, List.append_assoc, List.map_append, kept_unit]
  rfl

namespace Tracks

variable (h : Tracks scan (fun _ _ => ()) m ts)
include h

lemma viable_terminals : Viable (terminals ts) := by
  obtain ⟨d, w, hd, hw⟩ := h.viable
  refine ⟨w.map (·.1), d, hd, ?_⟩
  rw [hw, List.map_append, kept_unit, List.map_map]
  congr 1
  exact List.map_id _

lemma not_derivable {t : Lookahead} (ht : m.ahead = some t) (hr : m.Refuses t) {k : Terminal}
    (hk : t.kind? = some k) {v : List Terminal} (hv : v.headD .endOfText = k) :
    ¬ Derivable (terminals ts ++ v) := by
  rintro ⟨d, hd, hw⟩
  have hahead : Automaton.ahead (v.map fun t => (t, ())) = k := by
    cases v <;> exact hv
  refine h.ne_tokens ht hr hk hahead hd ?_
  rw [← map_fst_unit d.tokens, hw, List.map_append, kept_unit]

end Tracks

/-- A file was read with these events: its tokens stand one behind the other, up to the end. -/
structure ReadsFile (scan : Scanner) (es : List Event) : Prop where
  error_notMem : ∀ p, .error p ∉ es
  exists_end : ∃ s q, Chain scan 0 (Event.taken none es) q ∧ (scan s q).kind? = some .endOfText
  derivable : Derivable (shifted es)

/-- The token `t` ahead is the first that no continuation can make valid; it stands behind the
tokens taken with the events `es`. -/
structure FirstError (scan : Scanner) (es : List Event) (m : Machine) (t : Lookahead) : Prop where
  error_notMem : ∀ p, .error p ∉ es
  chain : Chain scan 0 (Event.taken none es) m.pos
  ahead : m.ahead = some t
  exists_read : ∃ s, t = scan s m.pos
  viable : Viable (shifted es)
  not_viable : ∀ k, t.kind? = some k → ¬ Viable (shifted es ++ [k])
  not_derivable : t.kind? = some .endOfText → ¬ Derivable (shifted es)

/-- Of a text more can be said: it is not the reading of the token that makes the error. -/
structure FirstErrorIn (points : List Int) (es : List Event) (m : Machine) (t : Lookahead) : Prop
    extends FirstError (Token.read points) es m t where
  /-- A word is in error as a keyword just as it is as an identifier. -/
  keyword : t.kind? = some .identifier → ∀ k ∈ Terminal.keywords,
    (points.drop t.span.start).take (t.span.stop - t.span.start) = k.spelling →
    ¬ Viable (shifted es ++ [k])
  /-- Where no token was read, none stands in the text. -/
  stray : t.kind? = none → ∀ (k : Terminal) (l : List Int), k.Lexeme l →
    ¬ l <+: points.drop t.span.start

section

variable {fuel : Nat} {es : List Event} (hs : scan.Honest)
include hs

lemma readsFile_of_accepted {tree : Tree} (h : run scan fuel init = (es, .accepted tree)) :
    ReadsFile scan es := by
  obtain ⟨m, t, d, htr, ht, hk, hd, htok, -⟩ := exists_isFile_of_accepted hs (fun _ _ => ()) h
  obtain ⟨st, rfl, -, -⟩ := htr.fresh t ht
  refine ⟨error_notMem_of_accepted h, ⟨_, m.pos, htr.chain, hk⟩, d, hd, ?_⟩
  rw [htok, map_fst_kept, shifted]

/-- A run that stops has found the first error. -/
lemma firstError_of_stuck (h : run scan fuel init = (es, .stuck m)) : ∃ es' t,
    es = es' ++ [.error m.pos] ∧ FirstError scan es' m t ∧
      Tracks scan (fun _ _ => ()) m (Event.taken none es') := by
  obtain ⟨es, t, rfl, herr, htr, ht, hr⟩ := tracks_of_stuck hs (fun _ _ => ()) h
  obtain ⟨st, hfresh, -, -⟩ := htr.fresh t ht
  refine ⟨es, t, rfl, ⟨herr, htr.chain, ht, ⟨_, hfresh⟩, htr.viable_terminals, fun k hk => ?_,
    fun hk => ?_⟩, htr⟩
  · rintro ⟨v, hv⟩
    rw [List.append_assoc] at hv
    exact htr.not_derivable ht hr hk rfl hv
  · have := htr.not_derivable ht hr (v := []) hk rfl
    rwa [List.append_nil] at this

end

/-- **The first error** is found at the earliest token possible. For every sequence of terminals
that is fed: if it is accepted, it is a file; if not, what was taken begins a file, and with the
terminal at which the parser stops it does not. For every text: a file was read from it, up to the
end, or there is one error event, the last one, at the first token that no continuation can make
valid. -/
theorem stops_at_first_error :
    (∀ (w : List Terminal) (fuel : Nat) (es : List Event),
      (∀ tree, run (feed w) fuel init = (es, .accepted tree) → ReadsFile (feed w) es) ∧
      ∀ m, run (feed w) fuel init = (es, .stuck m) →
        shifted es = (w.take m.pos).filter (· ≠ .comment) ∧ Viable (shifted es) ∧
        ¬ Viable (shifted es ++ [w.getD m.pos .endOfText]) ∧
        (w.getD m.pos .endOfText = .endOfText → ¬ Derivable (shifted es))) ∧
    ∀ points : List Int,
      (∃ es tree, runText points = (es, .accepted tree) ∧ ReadsFile (Token.read points) es) ∨
      ∃ es m t, runText points = (es ++ [.error m.pos], .stuck m) ∧ FirstErrorIn points es m t := by
  refine ⟨fun w fuel es => ⟨fun tree => readsFile_of_accepted (honest_feed w), fun m h => ?_⟩,
    fun points => ?_⟩
  · obtain ⟨es, t, rfl, herr, htr⟩ := firstError_of_stuck (honest_feed w) h
    obtain ⟨s, rfl⟩ := herr.exists_read
    rw [shifted, Event.taken_error]
    exact ⟨terminals_of_chain htr.chain htr.known, herr.viable, herr.not_viable _ kind?_feed,
      fun hend => herr.not_derivable (kind?_feed.trans (congrArg some hend))⟩
  have hs := Token.honest_read points
  rcases ho : (runText points).2 with m | tree | m
  · exact absurd ho (run_init_ne_running hs (Token.within_read points))
  · exact .inl ⟨_, tree, Prod.ext rfl ho, readsFile_of_accepted hs (Prod.ext rfl ho)⟩
  · right
    obtain ⟨es, t, hes, herr, htr⟩ := firstError_of_stuck hs (Prod.ext rfl ho)
    obtain ⟨st, hfresh, hst, -⟩ := htr.fresh t herr.ahead
    refine ⟨es, m, t, Prod.ext hes ho, herr, fun hk k hmem hspell => ?_, fun hk k l hl => ?_⟩
    · refine not_viable_of_wants hst ?_
      rw [hfresh] at hk hspell
      obtain ⟨n, hn⟩ := Token.exists_isRead hk (by decide)
      refine hn.unwanted rfl k hmem ?_
      simpa [Lookahead.span, hn.leaf_eq] using hspell
    · rw [hfresh] at hk ⊢
      rw [Token.start_read]
      exact Token.not_lexeme_of_kind? hk hl

open Terminal in
theorem not_viable_use_identifier : ¬ Viable [kwUse, identifier] := by
  have h : (match (run (feed [kwUse, identifier]) 4 init).2 with
    | .stuck m => decide (m.pos = 1)
    | _ => false) = true := by decide +kernel
  rcases hr : run (feed [kwUse, identifier]) 4 init with ⟨es, m | t | m⟩
  · rw [hr] at h
    cases h
  · rw [hr] at h
    cases h
  · rw [hr] at h
    obtain ⟨hs, -, hnot, -⟩ := (stops_at_first_error.1 _ _ _).2 _ hr
    rw [hs, show m.pos = 1 by simpa using h] at hnot
    exact hnot

end Machine

end ScenarioSyntax
