import ScenarioSyntax.Proofs.Text.FirstError
import ScenarioSyntax.Proofs.Text.Stops

/-!
The texts that the parser accepts at the first go are the files written out: what it has read of
such a text is the file, and it reads a file that is written out to its end.
-/

namespace ScenarioSyntax

open Automaton Table

/-- The text between two positions. -/
def slice (points : List Int) (start stop : Nat) : List Int :=
  (points.drop start).take (stop - start)

/-! ### From what is read to what is printed -/

namespace Token

variable {points : List Int}

lemma origin_of_pos {pos : Nat} (h : 0 < pos) : origin points pos = pos := by
  rw [origin, if_neg]
  omega

/-- The blanks in front of a position, and the text from there on. -/
lemma drop_origin (points : List Int) (pos : Nat) : ∃ b, (∀ c ∈ b, isBlank c = true) ∧
    points.drop (origin points pos) = b ++ points.drop (begin points pos) := by
  refine ⟨(points.drop (origin points pos)).takeWhile isBlank,
    fun c hc => List.mem_takeWhile_imp hc, ?_⟩
  rw [drop_begin, List.takeWhile_append_dropWhile]

/-- The text in front of a token, the token, and the text behind it. -/
lemma exists_split (points : List Int) (pos n : Nat) : ∃ b, (∀ c ∈ b, isBlank c = true) ∧
    points.drop (origin points pos) =
      b ++ (slice points (begin points pos) (begin points pos + n) ++
        points.drop (begin points pos + n)) := by
  obtain ⟨b, hb, hd⟩ := drop_origin points pos
  refine ⟨b, hb, ?_⟩
  rw [hd, slice, Nat.add_sub_cancel_left, ← List.drop_drop, List.take_append_drop]

section IsRead

variable {s : StateId} {pos n : Nat} {inp : List (Terminal × List Int)}

lemma IsRead.slice_lexeme {k : Terminal} (h : IsRead points s pos k n) :
    k.Lexeme (slice points (begin points pos) (begin points pos + n)) := by
  rw [slice, Nat.add_sub_cancel_left]
  exact h.lexeme

/-- A comment that is read belongs to a gap. -/
lemma IsRead.printed_comment (h : IsRead points s pos .comment n)
    (hp : Printed false inp (points.drop (begin points pos + n))) (w : Bool) :
    Printed w inp (points.drop (origin points pos)) := by
  obtain ⟨b, hb, hd⟩ := exists_split points pos n
  obtain ⟨v, hl, hv⟩ := Terminal.comment_lexeme_iff.1 h.slice_lexeme
  rw [hd, hl]
  refine Printed.comment hb hv (fun c hc => ?_) hp
  -- a comment also stops at code point 0, but no token begins with it
  have hline : CharClass.inLine.holds c = false := h.stops (.inr rfl) c hc
  have hhead : isBlank c = true ∨ 33 ≤ c ∧ c ≤ 126 := by
    obtain ⟨r, hr⟩ := List.head?_eq_some_iff.1 hc
    rw [hr] at hp
    exact hp.head
  rcases eq_or_ne c 0 with rfl | hzero
  · rcases hhead with h | h
    · cases h
    · omega
  · simpa [CharClass.holds, hzero, newline] using hline

/-- Any other token that is read is a token of the file. -/
lemma IsRead.printed_token {k : Terminal} (h : IsRead points s pos k n)
    (hp : Printed k.isWord inp (points.drop (begin points pos + n))) {w : Bool}
    (hw : w = true → Terminal.identifier.Stops (points.drop (origin points pos))) :
    Printed w ((k, slice points (begin points pos) (begin points pos + n)) :: inp)
      (points.drop (origin points pos)) := by
  obtain ⟨b, hb, hd⟩ := exists_split points pos n
  rw [hd] at hw ⊢
  refine .token (gap_of_blanks hb) h.slice_lexeme (fun hwt hbn c hc => ?_) hp
  refine hw hwt c ?_
  obtain ⟨e, v, hv, -⟩ := h.slice_lexeme.exists_cons
  rw [hv] at hc
  rw [hbn, hv]
  exact hc

end IsRead

/-- The tokens that were read, up to the end, are what the text prints. -/
theorem printed_of_chain {p q : Nat} {ts : List Lookahead} (h : Chain (read points) p ts q)
    (hk : ∀ t ∈ ts, ∃ k, t.kind? = some k ∧ k ≠ .endOfText) {s : StateId}
    (hend : (read points s q).kind? = some .endOfText) {w : Bool}
    (hw : w = true → Terminal.identifier.Stops (points.drop (origin points p))) :
    Printed w (kept (slice points) ts) (points.drop (origin points p)) := by
  induction h generalizing w with
  | nil p =>
    obtain ⟨b, hb, hd⟩ := drop_origin points p
    rw [hd, (end_of_kind? hend).1, List.append_nil]
    exact .last (.gap (gap_of_blanks hb))
  | @cons s' p q ts _ ih =>
    obtain ⟨k, hkind, hne⟩ := hk _ (List.mem_cons_self ..)
    obtain ⟨n, hn⟩ := exists_isRead hkind hne
    have hspan := hn.span_eq
    have hzero := hn.zero_lt
    have hpos : 0 < begin points p + n := by omega
    simp only [hspan, origin_of_pos hpos] at ih
    have ih := fun w hw => @ih (fun t ht => hk t (by simp [ht])) hend w hw
    rw [← List.singleton_append, kept_append]
    by_cases hc : k = .comment
    · subst hc
      rw [kept_comment _ hkind]
      exact hn.printed_comment (ih false (by simp)) w
    · rw [kept_token _ hkind hc, hspan]
      refine hn.printed_token (ih _ fun hword => ?_) hw
      have := hn.stops (.inl hword)
      rwa [show k.scanned = .identifier by simpa [Terminal.isWord] using hword] at this

/-- A file whose tokens were read one behind the other, from the beginning of the text to its end,
is printed by the text. -/
theorem isPrinting_of_chain {q : Nat} {ts : List Lookahead} (h : Chain (read points) 0 ts q)
    (hk : ∀ t ∈ ts, ∃ k, t.kind? = some k ∧ k ≠ .endOfText) {s : StateId}
    (hend : (read points s q).kind? = some .endOfText) {d : Ast (List Int)} (hd : d.IsFile)
    (htokens : d.tokens = kept (slice points) ts) : IsPrinting points d := by
  refine ⟨hd, ?_⟩
  have hprinted := printed_of_chain h hk hend (w := false) (by simp)
  rw [← htokens, origin] at hprinted
  split at hprinted
  · rename_i hmark
    obtain ⟨rest, rfl⟩ := List.head?_eq_some_iff.1 hmark.2
    exact .inr ⟨rest, rfl, hprinted⟩
  · exact .inl hprinted

end Token

/-! ### The run on a printed text -/

namespace Automaton

variable {α : Type} {d : Ast α} {t : Terminal} {a : α}

lemma shifted_of_mem_tokens (hd : d.IsFile) (h : (t, a) ∈ d.tokens) :
    t ≠ .comment ∧ t ≠ .endOfText := by
  obtain ⟨u, inp, h⟩ := List.append_of_mem h
  obtain ⟨s, r, hr, -⟩ := wants_of_tokens hd h
  exact ⟨ne_comment_of_action hr (by simp), ne_endOfText_of_shift hr⟩

/-- The tokens of a file stand behind each other as the text needs it. -/
lemma follows_of_tokens (hd : d.IsFile) {u inp : List (Terminal × α)}
    (h : d.tokens = u ++ (t, a) :: inp) : ∀ x ∈ inp.head?, Follows t x.1 := by
  rintro ⟨t', a'⟩ hx
  obtain ⟨inp', rfl⟩ := List.head?_eq_some_iff.1 hx
  obtain ⟨s, r, hr, hw⟩ := wants_of_tokens hd h
  exact follows_of_wants hr hw (shifted_of_mem_tokens hd (a := a') (by simp [h])).1

end Automaton

variable {points : List Int}

/-- How the token ahead goes with the tokens that are still to come. -/
inductive Meets (points : List Int) (inp : List (Terminal × List Int)) (t : Lookahead) : Prop
  | comment (kind : t.kind? = some .comment) (pos : 0 < t.span.stop)
      (rest : Printed false inp (points.drop t.span.stop))
  | token {k : Terminal} {l : List Int} {inp' : List (Terminal × List Int)}
      (input : inp = (k, l) :: inp') (kind : t.kind? = some k) (pos : 0 < t.span.stop)
      (content : slice points t.span.start t.span.stop = l)
      (rest : Printed k.isWord inp' (points.drop t.span.stop))
  | ended (input : inp = []) (kind : t.kind? = some .endOfText)

/-- In a printed text the next token is read, or a comment in front of it. -/
lemma meets_of_printed {s : StateId} {pos : Nat} (hs : s ≠ lost) {w : Bool}
    {inp : List (Terminal × List Int)}
    (h : Printed w inp (points.drop (Token.origin points pos)))
    (hwants : ∀ x ∈ inp.head?, wants s x.1 = true ∧ x.1 ≠ .comment)
    (hf : ∀ k l inp', inp = (k, l) :: inp' → ∀ x ∈ inp'.head?, Follows k x.1) :
    Meets points inp (Token.read points s pos) := by
  obtain ⟨b, r, hd, hb, hfront⟩ := h.front
  have hbegin : points.drop (Token.begin points pos) = r := by
    rw [Token.drop_begin, hd, hfront.dropWhile hb]
  cases hfront with
  | @comment v r hv hr rest =>
    have hlexeme : Terminal.comment.Lexeme (47 :: 47 :: v) :=
      Terminal.comment_lexeme_iff.2 ⟨v, rfl, hv⟩
    have hstops : Terminal.comment.scanned.Stops r := by
      intro c hc
      obtain rfl := hr c hc
      show CharClass.inLine.holds newline = false
      decide
    have hleaf := Token.read_of_lexeme hs (by simp [wants, action?]) hlexeme
      (show points.drop (Token.begin points pos) = 47 :: 47 :: v ++ r by simpa using hbegin) hstops
    refine .comment (by simp [Lookahead.kind?, hleaf]) ?_ ?_
    · simp only [Lookahead.span, hleaf, List.length_cons]
      omega
    simp only [Lookahead.span, hleaf]
    rw [← List.drop_drop, hbegin]
    simpa using rest
  | @token k l r inp' hinp lexeme rest =>
    obtain ⟨hw, hne⟩ := hwants (k, l) (by simp [hinp])
    have hstops := rest.stops hne (hf k l inp' hinp)
    have hleaf := Token.read_of_lexeme hs hw lexeme hbegin hstops
    have hlen : 0 < l.length := List.length_pos_of_ne_nil lexeme.matches.ne_nil
    refine .token hinp (by simp [Lookahead.kind?, hleaf]) ?_ ?_ ?_ <;>
      simp only [Lookahead.span, hleaf]
    · omega
    · rw [slice, hbegin, Nat.add_sub_cancel_left, List.take_left]
    · rw [← List.drop_drop, hbegin, List.drop_left]
      exact rest
  | ended hinp => exact .ended hinp (Token.kind?_of_end hbegin)

namespace Machine

variable {m m' : Machine} {ts : List Lookahead} {d : Ast (List Int)} {es : List Event}

/-- The parser has taken a part of the tokens of the file; the others are printed in the rest of
the text. -/
structure Keeps (points : List Int) (d : Ast (List Int)) (m : Machine) (ts : List Lookahead) :
    Prop where
  tracks : Tracks (Token.read points) (slice points) m ts
  exists_rest : ∃ inp, d.tokens = kept (slice points) ts ++ inp ∧
    (m.ahead = none → ∃ w, Printed w inp (points.drop (Token.origin points m.pos))) ∧
    ∀ t, m.ahead = some t → Meets points inp t

namespace Keeps

/-- What comes next is looked for. -/
lemma wants_head (hd : d.IsFile) (h : Tracks (Token.read points) (slice points) m ts)
    (ha : m.ahead = none) {inp : List (Terminal × List Int)}
    (htok : d.tokens = kept (slice points) ts ++ inp) :
    ∀ x ∈ inp.head?, wants m.state x.1 = true ∧ x.1 ≠ .comment := by
  rintro ⟨k, l⟩ hx
  obtain ⟨inp', rfl⟩ := List.head?_eq_some_iff.1 hx
  refine ⟨?_, (shifted_of_mem_tokens hd (a := l) (by simp [htok])).1⟩
  by_contra hw
  have hnone : action? (top (m.stack.frames (slice points))) k = none := by
    rw [h.top_eq]
    simpa [wants] using hw
  have hsees : m.Sees ((k, l) :: inp') := fun t k ht => by simp [ha] at ht
  exact ne_tokens_of_rest (h.steps _ hsees) hnone hd htok

lemma read (hd : d.IsFile) (h : Keeps points d m ts) (ahead : m.ahead = none) :
    Keeps points d { m with ahead := some (Token.read points m.state m.pos) } ts := by
  obtain ⟨inp, htok, hnone, -⟩ := h.exists_rest
  refine ⟨h.tracks.read ahead, inp, htok, by simp, fun t ht => ?_⟩
  obtain rfl : Token.read points m.state m.pos = t := by simpa using ht
  obtain ⟨w, hw⟩ := hnone ahead
  refine meets_of_printed h.tracks.state_ne_lost hw (wants_head hd h.tracks ahead htok) ?_
  rintro k l inp' rfl
  exact follows_of_tokens hd htok

lemma shift (h : Keeps points d m ts) {t : Lookahead} {k : Terminal} {s : StateId}
    (ahead : m.ahead = some t) (kind : t.kind? = some k)
    (action : action? m.state k = some (.shift s)) :
    Keeps points d (m.take s t false) (ts ++ [t]) := by
  have hcomment := ne_comment_of_action action (by simp)
  obtain ⟨inp, htok, -, hsome⟩ := h.exists_rest
  refine ⟨h.tracks.shift (Token.honest_read points) ahead kind action, ?_⟩
  cases hsome t ahead with
  | comment kind' _ _ =>
    rw [kind] at kind'
    exact absurd (Option.some.inj kind') hcomment
  | ended _ kind' =>
    rw [kind] at kind'
    exact absurd (Option.some.inj kind') (ne_endOfText_of_shift action)
  | @token k' l inp' input kind' pos content rest =>
    obtain rfl : k = k' := by simpa [kind] using kind'
    refine ⟨inp', ?_, fun _ => ⟨k.isWord, ?_⟩, fun t' ht' => by simp [take] at ht'⟩
    · rw [htok, input, kept_append, kept_token _ kind hcomment, content]
      simp
    · rw [take, Token.origin_of_pos pos]
      exact rest

lemma extra (hd : d.IsFile) (h : Keeps points d m ts) {t : Lookahead} (ahead : m.ahead = some t)
    (kind : t.kind? = some .comment) : Keeps points d (m.take m.state t true) (ts ++ [t]) := by
  obtain ⟨inp, htok, -, hsome⟩ := h.exists_rest
  refine ⟨h.tracks.extra (Token.honest_read points) ahead kind, ?_⟩
  cases hsome t ahead with
  | comment kind' pos rest =>
    refine ⟨inp, ?_, fun _ => ⟨false, ?_⟩, fun t' ht' => by simp [take] at ht'⟩
    · rw [htok, kept_append, kept_comment _ kind, List.append_nil]
    · rw [take, Token.origin_of_pos pos]
      exact rest
  | ended _ kind' =>
    rw [kind] at kind'
    cases kind'
  | @token k' l inp' input kind' pos content rest =>
    obtain rfl : .comment = k' := by simpa [kind] using kind'
    exact absurd rfl (shifted_of_mem_tokens hd (t := .comment) (a := l) (by simp [htok, input])).1

/-- **A step keeps to the file.** -/
theorem step (hd : d.IsFile) (h : Keeps points d m ts) {e : Event}
    (hm : m.step (Token.read points) = (e, .running m')) :
    Keeps points d m' (ts ++ e.takes m.ahead) := by
  apply preserved_of_step hm
  case read => exact h.read hd
  case shift => exact h.shift
  case extra =>
    intro t k ahead kind action
    obtain rfl := eq_comment_of_extra action
    exact h.extra hd ahead kind
  case reduce =>
    intro t k n a l ahead kind action
    exact ⟨h.tracks.reduce ahead kind action, h.exists_rest⟩
  case asIdentifier =>
    intro t k ahead kind refuses wordlike ne wants
    exact absurd wants (by
      simp [h.tracks.wants_identifier (Token.honest_read points) ahead kind refuses wordlike ne])

theorem of_reaches (hd : d.IsFile) (h : Keeps points d m ts)
    (hr : Reaches (Token.read points) m es m') :
    Keeps points d m' (ts ++ Event.taken m.ahead es) :=
  hr.preserves (fun h hm => h.step hd hm) h

/-- The file's own tokens are never refused. -/
lemma not_refuses (hd : d.IsFile) (h : Keeps points d m ts) {t : Lookahead}
    (ht : m.ahead = some t) : ¬ m.Refuses t := by
  intro hr
  obtain ⟨inp, htok, -, hsome⟩ := h.exists_rest
  cases hsome t ht with
  | comment kind _ _ =>
    have := hr _ _ kind (show action? m.state .comment = some .extra by simp [action?])
    cases this
  | ended input kind =>
    exact h.tracks.ne_tokens ht hr kind rfl hd (input ▸ htok)
  | token input kind _ _ _ =>
    exact h.tracks.ne_tokens ht hr kind rfl hd (input ▸ htok)

end Keeps

lemma keeps_init (h : IsPrinting points d) : Keeps points d init [] where
  tracks := tracks_init _ _
  exists_rest := by
    refine ⟨d.tokens, by simp, fun _ => ⟨false, ?_⟩, by simp [init]⟩
    rcases h.printed with hp | ⟨rest, rfl, hp⟩
    · have horigin : Token.origin points 0 = 0 := by
        rw [Token.origin, if_neg]
        rintro ⟨-, hh⟩
        obtain ⟨r, rfl⟩ := List.head?_eq_some_iff.1 hh
        rcases hp.head with hb | hb
        · cases hb
        · exact absurd hb.2 (by decide)
      simpa [init, horigin] using hp
    · simpa [init, Token.origin] using hp

/-- A run that accepts has read a file off the text, which its tree stands for. -/
theorem exists_isPrinting_of_accepted {tree : Tree} (h : (runText points).2 = .accepted tree) :
    tree.Clean ∧ ∃ d, IsPrinting points d ∧ tree.toNode.bare (slice points) = [d] ∧
      d.tokens = kept (slice points) (Event.taken none (runText points).1) := by
  obtain ⟨m, t, d, htr, ht, hk, hd, htok, hbare, hclean, -⟩ :=
    exists_isFile_of_accepted (Token.honest_read points) (slice points) (Prod.ext rfl h)
  obtain ⟨s, rfl, -, -⟩ := htr.fresh t ht
  exact ⟨hclean, d, Token.isPrinting_of_chain htr.chain htr.known hk hd htok, hbare, htok⟩

/-- The run on a printing accepts, and takes the tokens of the file. -/
theorem accepted_of_isPrinting (h : IsPrinting points d) :
    ∃ tree, (runText points).2 = .accepted tree ∧
      d.tokens = kept (slice points) (Event.taken none (runText points).1) := by
  have hkeeps := keeps_init h
  rcases hrun : runText points with ⟨es, o⟩
  rcases exists_of_run hrun with ⟨m, rfl, -⟩ | ⟨es, e, m, rfl, hreach, hlast, ho⟩
  · exact absurd (congrArg Prod.snd hrun)
      (run_init_ne_running (Token.honest_read points) (Token.within_read points))
  have hm := hkeeps.of_reaches h.isFile hreach
  cases turn_of_step hlast with
  | error ahead refuses => exact absurd refuses (hm.not_refuses h.isFile ahead)
  | @accept t k ahead kind action =>
    refine ⟨_, rfl, ?_⟩
    obtain ⟨inp, htok, -, hsome⟩ := hm.exists_rest
    obtain ⟨rfl, -⟩ := progress_of_accept action
    rw [Event.taken_accept, htok]
    cases hsome t ahead with
    | comment kind' _ _ =>
      rw [kind] at kind'
      cases kind'
    | ended input _ =>
      rw [input, List.append_nil]
      rfl
    | @token k l inp' input kind' _ _ _ =>
      obtain rfl : .endOfText = k := by simpa [kind] using kind'
      have := shifted_of_mem_tokens h.isFile (t := .endOfText) (a := l) (by simp [htok, input])
      exact absurd rfl this.2
  | _ => exact absurd rfl (ho _)

end Machine

end ScenarioSyntax
