import ScenarioSyntax.Proofs.Automaton.Bound
import ScenarioSyntax.Proofs.Machine.Frames
import ScenarioSyntax.Proofs.Machine.Trace
import ScenarioSyntax.Proofs.Tree.Clean

/-!
The parser keeps to the automaton. With its comments left out, the stack is the one that the
automaton builds from the tokens taken so far, whatever follows them, as long as the token ahead
comes next.
-/

namespace ScenarioSyntax

open Automaton

variable {α : Type}

/-! ### Facts about the table -/

namespace Table

variable {s r : StateId}

lemma progress_lost : progress lost = ⟨none, []⟩ := by decide +kernel

lemma ne_lost_of_next {x : Symbol} (h : next? s x = some r) : r ≠ lost := by
  rintro rfl
  obtain ⟨g, done, hp, -⟩ := progress_of_next h
  rw [progress_lost] at hp
  cases hp

lemma eq_lost_of_recover {t : Terminal} (h : action? s t = some .recover) : s = lost := by
  have hs := readsBack_of_action h (by simp)
  simp only [readsBack, Bool.and_eq_true, List.all_eq_true] at hs
  have hc := hs.1 _ (action?_eq h (by simp))
  simpa using hc

lemma eq_comment_of_extra {t : Terminal} (h : action? s t = some .extra) : t = .comment := by
  by_contra ht
  have hm : (t, Action.extra) ∈ (row s).actions := by
    rw [action?, if_neg ht] at h
    exact mem_of_lookup h
  rcases row_cases readsBack_rows s with hs | hs
  · simp only [readsBack, Bool.and_eq_true, List.all_eq_true] at hs
    have := hs.1 _ hm
    simp at this
  · simp [hs] at hm

lemma ne_comment_of_action {t : Terminal} {a : Action} (h : action? s t = some a)
    (ha : a ≠ .extra) : t ≠ .comment := by
  rintro rfl
  simp [action?] at h
  exact ha h.symm

/-- Behind a construct no state looks for an identifier. -/
lemma gotos_rows : (rows.toList.all fun r =>
    r.gotos.all fun (_, q) => !wants q .identifier) = true := by
  decide +kernel

lemma wants_identifier_of_next {n : Nonterminal} (h : next? s (.nonterminal n) = some r) :
    wants r .identifier = false := by
  have hm := mem_of_lookup h
  rcases Nat.lt_or_ge s rows.size with hs | hs
  · have hr := List.all_eq_true.1 gotos_rows rows[s] (by simp)
    have hrow : row s = rows[s] := by simp [row, hs]
    rw [hrow] at hm
    simpa using List.all_eq_true.1 hr _ hm
  · simp [row, hs] at hm

end Table

open Table

lemma Automaton.Valid.top_ne_lost {st : List (Frame α)} {u : List (Terminal × α)}
    (h : Valid st u) : top st ≠ lost := by
  cases h with
  | nil => rw [top_nil]; decide
  | push _ next _ => exact ne_lost_of_next next

/-! ### What the scanner promises -/

/-- A token has one leaf and a span; a keyword is found only for a state that can use it. -/
structure Scanner.Honest (scan : Scanner) : Prop where
  leaf_eq : ∀ s pos k, (scan s pos).kind? = some k →
    (scan s pos).leaf = .token k (scan s pos).span (decide (k = .endOfText))
  wanted : ∀ s pos k, (scan s pos).kind? = some k → (scan s pos).wordlike = true →
    k ≠ .identifier → wants s k = true

/-- A token that is taken is not empty and lies within the text. -/
def Scanner.Within (scan : Scanner) (length : Nat) : Prop :=
  ∀ s pos k, (scan s pos).kind? = some k → k ≠ .endOfText →
    pos < (scan s pos).span.stop ∧ (scan s pos).span.stop ≤ length

/-- The tokens were read one behind the other, each for some state. -/
inductive Chain (scan : Scanner) : Nat → List Lookahead → Nat → Prop
  | nil (p : Nat) : Chain scan p [] p
  | cons (s : StateId) {p q : Nat} {ts : List Lookahead}
      (tail : Chain scan (scan s p).span.stop ts q) : Chain scan p (scan s p :: ts) q

lemma Chain.concat {scan : Scanner} {p q : Nat} {ts : List Lookahead} (h : Chain scan p ts q)
    (s : StateId) : Chain scan p (ts ++ [scan s q]) (scan s q).span.stop := by
  induction h with
  | nil p => exact .cons s (.nil _)
  | cons s' _ ih => exact .cons s' ih

lemma Chain.append {scan : Scanner} {p q r : Nat} {ts us : List Lookahead}
    (hts : Chain scan p ts q) (hus : Chain scan q us r) : Chain scan p (ts ++ us) r := by
  induction hts with
  | nil p => exact hus
  | cons s _ ih => exact .cons s (ih hus)

lemma Chain.exists_of_mem {scan : Scanner} {p q : Nat} {ts : List Lookahead}
    (h : Chain scan p ts q) {t : Lookahead} (ht : t ∈ ts) : ∃ s i, t = scan s i := by
  induction h with
  | nil p => cases ht
  | @cons s p q ts _ ih =>
    rcases List.mem_cons.1 ht with rfl | ht
    · exact ⟨s, p, rfl⟩
    · exact ih ht

/-- The tokens as the automaton sees them: without comments, and with what is kept of the text. -/
def kept (text : Nat → Nat → α) (ts : List Lookahead) : List (Terminal × α) :=
  ts.filterMap fun t => t.kind?.bind fun k =>
    if k = .comment then none else some (k, text t.span.start t.span.stop)

section Kept

variable (text : Nat → Nat → α)

@[simp] lemma kept_nil : kept text [] = [] := rfl

@[simp] lemma kept_append (ts us : List Lookahead) :
    kept text (ts ++ us) = kept text ts ++ kept text us := by simp [kept]

lemma kept_comment {t : Lookahead} (h : t.kind? = some .comment) : kept text [t] = [] := by
  simp [kept, h]

lemma kept_token {t : Lookahead} {k : Terminal} (h : t.kind? = some k) (hk : k ≠ .comment) :
    kept text [t] = [(k, text t.span.start t.span.stop)] := by
  simp [kept, h, hk]

end Kept

/-! ### The invariant -/

namespace Stack

/-- The trees are without error and of the symbol in front of their state. -/
def Fits (st : Stack) : Prop :=
  ∀ e ∈ st, e.tree.Clean ∧ (e.tree.isExtra = false →
    ∀ x, (progress e.state).done.head? = some x → e.tree.symbol? = some x)

lemma Fits.push {st : Stack} (h : st.Fits) {s : StateId} {t : Tree} (ht : t.Clean)
    (hs : t.isExtra = false →
      ∀ x, (progress s).done.head? = some x → t.symbol? = some x) : Fits (st.push s t) := by
  intro e he
  rcases List.mem_cons.1 he with rfl | he
  · exact ⟨ht, hs⟩
  · exact h e he

lemma Fits.foldl_push {st : Stack} (h : st.Fits) {s : StateId} {ts : List Tree}
    (hts : ∀ t ∈ ts, t.Clean ∧ t.isExtra = true) :
    Fits (ts.foldl (fun st t => st.push s t) st) := by
  induction ts generalizing st with
  | nil => exact h
  | cons t ts ih =>
    obtain ⟨hc, he⟩ := hts t (by simp)
    exact ih (h.push hc fun hf => by simp [he] at hf) fun t ht => hts t (by simp [ht])

lemma pop_subset (n : Nat) (st : Stack) (ts : List Tree) :
    (∀ t ∈ (pop n st ts).1, t ∈ ts ∨ ∃ e ∈ st, e.tree = t) ∧ ∀ e ∈ (pop n st ts).2, e ∈ st := by
  induction st generalizing n ts with
  | nil => cases n <;> exact ⟨fun t ht => .inl ht, fun e he => he⟩
  | cons e st ih =>
    have weaken : ∀ t, (t ∈ e.tree :: ts ∨ ∃ e ∈ st, e.tree = t) →
        t ∈ ts ∨ ∃ e' ∈ e :: st, e'.tree = t := by
      rintro t (ht | ⟨e', he', rfl⟩)
      · rcases List.mem_cons.1 ht with rfl | ht
        · exact .inr ⟨e, by simp, rfl⟩
        · exact .inl ht
      · exact .inr ⟨e', by simp [he'], rfl⟩
    cases n with
    | zero => exact ⟨fun t ht => .inl ht, fun e he => he⟩
    | succ n =>
      unfold pop
      split
      · exact ⟨fun t ht => weaken t ((ih (n + 1) _).1 t ht),
          fun e he => List.mem_cons_of_mem _ ((ih (n + 1) _).2 e he)⟩
      · exact ⟨fun t ht => weaken t ((ih n _).1 t ht),
          fun e he => List.mem_cons_of_mem _ ((ih n _).2 e he)⟩

/-- A reduction builds a tree without error from trees without error. -/
lemma Fits.reduce {st : Stack} (h : st.Fits) {n : Nonterminal} {k : Nat} {l : Layout}
    (hn : ∀ x, (progress (goto (state (pop k st []).2) n)).done.head? = some x →
      x = .nonterminal n) : Fits (st.reduce n k l) := by
  obtain ⟨ts, rest, hp⟩ : ∃ ts rest, pop k st [] = (ts, rest) := ⟨_, _, rfl⟩
  rw [hp] at hn
  obtain ⟨hts, hrest⟩ := pop_subset k st []
  rw [hp] at hts hrest
  have hclean : ∀ t ∈ ts, t.Clean := by
    intro t ht
    rcases hts t ht with ht | ⟨e, he, rfl⟩
    · simp at ht
    · exact (h e he).1
  have happend := splitTrailing_append ts
  have hbody : ∀ t ∈ (Tree.splitTrailing ts).1, t ∈ ts := by
    intro t ht
    rw [← happend]
    exact List.mem_append_left _ ht
  have htrailing : ∀ t ∈ (Tree.splitTrailing ts).2, t ∈ ts := by
    intro t ht
    rw [← happend]
    exact List.mem_append_right _ ht
  have hfits : Fits rest := fun e he => h e (hrest e he)
  rw [Stack.reduce, hp]
  refine Fits.foldl_push ?_ fun t ht => ⟨hclean t (htrailing t ht), isExtra_of_mem_trailing ht⟩
  refine hfits.push (.node n l fun t ht => hclean t (hbody t ht)) fun _ x hx => ?_
  simp [Tree.symbol?, hn x hx]

end Stack

namespace Machine

/-- The input goes on with the token ahead, if there is one that counts. -/
def Sees (m : Machine) (inp : List (Terminal × α)) : Prop :=
  ∀ t k, m.ahead = some t → t.kind? = some k → k ≠ .comment → Automaton.ahead inp = k

/-- The parser has taken the tokens `ts`, and has done with them what the automaton does. -/
structure Tracks (scan : Scanner) (text : Nat → Nat → α) (m : Machine) (ts : List Lookahead) :
    Prop where
  neat : m.stack.Neat
  fits : m.stack.Fits
  chain : Chain scan 0 ts m.pos
  /-- No stray character and no end of the text is taken. -/
  known : ∀ t ∈ ts, ∃ k, t.kind? = some k ∧ k ≠ .endOfText
  steps : ∀ inp, m.Sees inp → Steps ⟨[], kept text ts ++ inp⟩ ⟨m.stack.frames text, inp⟩
  /-- The token ahead was read here, for a state that the automaton is in before it sees the
  token. -/
  fresh : ∀ t, m.ahead = some t → ∃ st : List (Frame α), t = scan (top st) m.pos ∧
    (∀ inp, Steps ⟨[], kept text ts ++ inp⟩ ⟨st, inp⟩) ∧
    (m.state = top st ∨ wants m.state .identifier = false)

variable {scan : Scanner} {text : Nat → Nat → α} {m m' : Machine} {ts : List Lookahead}

lemma tracks_init (scan : Scanner) (text : Nat → Nat → α) : Tracks scan text init [] where
  neat := trivial
  fits := by simp [init, Stack.Fits]
  chain := .nil 0
  known := by simp
  steps := fun _ _ => .refl
  fresh := by simp [init]

lemma exists_sees (text : Nat → Nat → α) (m : Machine) :
    ∃ inp : List (Terminal × α), m.Sees inp := by
  rcases h : m.ahead.bind (·.kind?) with _ | k
  · refine ⟨[], fun t k ht hk _ => ?_⟩
    simp [ht, hk] at h
  · refine ⟨[(k, text 0 0)], fun t k' ht hk _ => ?_⟩
    simpa [ht, hk, eq_comm] using h

namespace Tracks

lemma valid (h : Tracks scan text m ts) : Valid (m.stack.frames text) (kept text ts) := by
  obtain ⟨inp, hinp⟩ := exists_sees text m
  obtain ⟨u, hu, he⟩ := (h.steps inp hinp).valid .nil
  obtain rfl : u = kept text ts := by simpa using he
  exact hu

lemma top_eq (h : Tracks scan text m ts) : top (m.stack.frames text) = m.state :=
  Stack.top_frames text h.neat

lemma state_ne_lost (h : Tracks scan text m ts) : m.state ≠ lost := by
  rw [← h.top_eq]
  exact h.valid.top_ne_lost

/-- A token that is refused has no action at all. -/
lemma action?_eq_none (h : Tracks scan text m ts) {t : Lookahead} (hr : m.Refuses t)
    {k : Terminal} (hk : t.kind? = some k) : action? m.state k = none := by
  rcases ha : action? m.state k with _ | a
  · rfl
  · obtain rfl := hr k a hk ha
    exact absurd (eq_lost_of_recover ha) h.state_ne_lost

lemma known_concat (h : Tracks scan text m ts) {t : Lookahead} {k : Terminal}
    (hk : t.kind? = some k) (hne : k ≠ .endOfText) :
    ∀ t' ∈ ts ++ [t], ∃ k, t'.kind? = some k ∧ k ≠ .endOfText := by
  intro t' ht'
  rcases List.mem_append.1 ht' with ht' | ht'
  · exact h.known t' ht'
  · obtain rfl : t' = t := by simpa using ht'
    exact ⟨k, hk, hne⟩

lemma chain_concat (h : Tracks scan text m ts) {t : Lookahead} (ht : m.ahead = some t) :
    Chain scan 0 (ts ++ [t]) t.span.stop := by
  obtain ⟨st, rfl, -, -⟩ := h.fresh t ht
  exact h.chain.concat (top st)

lemma leaf_eq (hs : scan.Honest) (h : Tracks scan text m ts) {t : Lookahead} {k : Terminal}
    (ht : m.ahead = some t) (hk : t.kind? = some k) :
    t.leaf = .token k t.span (decide (k = .endOfText)) := by
  obtain ⟨st, rfl, -, -⟩ := h.fresh t ht
  exact hs.leaf_eq _ _ k hk

lemma leaf_shift (hs : scan.Honest) (h : Tracks scan text m ts) {t : Lookahead} {k : Terminal}
    (ht : m.ahead = some t) (hk : t.kind? = some k) :
    t.leaf.withExtra false = .token k t.span false := by
  rw [h.leaf_eq hs ht hk]; rfl

lemma leaf_extra (hs : scan.Honest) (h : Tracks scan text m ts) {t : Lookahead} {k : Terminal}
    (ht : m.ahead = some t) (hk : t.kind? = some k) :
    t.leaf.withExtra true = .token k t.span true := by
  rw [h.leaf_eq hs ht hk]; rfl

lemma frames_shift (hs : scan.Honest) (h : Tracks scan text m ts) {t : Lookahead} {k : Terminal}
    {s : StateId} (ht : m.ahead = some t) (hk : t.kind? = some k)
    (ha : action? m.state k = some (.shift s)) : (m.take s t false).stack.frames text =
      ⟨s, .token k (text t.span.start t.span.stop)⟩ :: m.stack.frames text := by
  rw [take, h.leaf_shift hs ht hk, Stack.frames_push text rfl,
    Tree.growth_token text (ne_endOfText_of_shift ha)]

lemma frames_extra (hs : scan.Honest) (h : Tracks scan text m ts) {t : Lookahead} {k : Terminal}
    (ht : m.ahead = some t) (hk : t.kind? = some k) (s : StateId) :
    (m.take s t true).stack.frames text = m.stack.frames text := by
  rw [take, h.leaf_extra hs ht hk, Stack.frames_push_extra text rfl]

lemma arity_le (h : Tracks scan text m ts) {k : Terminal} {n : Nonterminal} {a : Nat} {l : Layout}
    (ha : action? m.state k = some (.reduce n a l)) : a ≤ (m.stack.frames text).length := by
  obtain ⟨done, v, w, -, rfl, -, hs, -, -⟩ := h.valid.exists_of_reduce (by rwa [h.top_eq])
  have := hs.length_eq
  rw [List.length_take] at this
  omega

/-- A keyword that is refused cannot be taken as an identifier either. -/
lemma wants_identifier (hs : scan.Honest) (h : Tracks scan text m ts) {t : Lookahead}
    {k : Terminal} (ht : m.ahead = some t) (hk : t.kind? = some k) (hr : m.Refuses t)
    (hw : t.wordlike = true) (hne : k ≠ .identifier) : wants m.state .identifier = false := by
  obtain ⟨st, rfl, -, hst | hst⟩ := h.fresh t ht
  · have := hs.wanted (top st) m.pos k hk hw hne
    rw [← hst, wants, h.action?_eq_none hr hk] at this
    cases this
  · exact hst

/-! ### What a step preserves -/

lemma read (h : Tracks scan text m ts) (ahead : m.ahead = none) :
    Tracks scan text { m with ahead := some (scan m.state m.pos) } ts := by
  have hsteps := fun inp => h.steps inp fun t k ht => by simp [ahead] at ht
  refine ⟨h.neat, h.fits, h.chain, h.known, fun inp _ => hsteps inp, fun t ht => ?_⟩
  obtain rfl : scan m.state m.pos = t := by simpa using ht
  exact ⟨m.stack.frames text, by rw [h.top_eq], hsteps, .inl h.top_eq.symm⟩

lemma shift (hs : scan.Honest) (h : Tracks scan text m ts) {t : Lookahead} {k : Terminal}
    {s : StateId} (ahead : m.ahead = some t) (kind : t.kind? = some k)
    (action : action? m.state k = some (.shift s)) :
    Tracks scan text (m.take s t false) (ts ++ [t]) := by
  have hend := ne_endOfText_of_shift action
  have hcomment := ne_comment_of_action action (by simp)
  have hleaf := h.leaf_shift hs ahead kind
  have hextra : k.isExtra = false := by simp [Terminal.isExtra, hend, hcomment]
  refine ⟨?_, ?_, h.chain_concat ahead, h.known_concat kind hend, fun inp _ => ?_,
    fun t' ht' => by simp [take] at ht'⟩
  · exact ⟨fun he => by simp [hleaf, Tree.isExtra] at he, h.neat⟩
  · refine h.fits.push ?_ fun _ x hx => ?_
    · rw [hleaf, ← hextra]
      exact .token k t.span
    · have hnext : next? m.state (.terminal k) = some s := by simp [next?, action]
      obtain ⟨g, done, hp, -⟩ := progress_of_next hnext
      simpa [hleaf, Tree.symbol?, hp] using hx
  · have hsees : m.Sees ((k, text t.span.start t.span.stop) :: inp) := by
      intro t' k' ht' hk' _
      obtain rfl : t = t' := by simpa [ahead] using ht'
      simpa [kind] using hk'
    have hstep := (h.steps _ hsees).tail (.shift (by rw [h.top_eq]; exact action))
    rw [h.frames_shift hs ahead kind action, kept_append, kept_token text kind hcomment]
    simpa using hstep

lemma extra (hs : scan.Honest) (h : Tracks scan text m ts) {t : Lookahead}
    (ahead : m.ahead = some t) (kind : t.kind? = some .comment) :
    Tracks scan text (m.take m.state t true) (ts ++ [t]) := by
  have hleaf := h.leaf_extra hs ahead kind
  refine ⟨⟨fun _ => rfl, h.neat⟩, ?_, h.chain_concat ahead, h.known_concat kind (by simp),
    fun inp _ => ?_, fun t' ht' => by simp [take] at ht'⟩
  · refine h.fits.push ?_ fun hf => by simp [hleaf, Tree.isExtra] at hf
    rw [hleaf]
    exact .token .comment t.span
  · have hsees : m.Sees inp := by
      intro t' k' ht' hk' hne
      obtain rfl : t = t' := by simpa [ahead] using ht'
      rw [kind] at hk'
      exact absurd (Option.some.inj hk').symm hne
    rw [h.frames_extra hs ahead kind, kept_append, kept_comment text kind, List.append_nil]
    exact h.steps _ hsees

lemma reduce (h : Tracks scan text m ts) {t : Lookahead} {k : Terminal} {n : Nonterminal}
    {a : Nat} {l : Layout} (ahead : m.ahead = some t) (kind : t.kind? = some k)
    (action : action? m.state k = some (.reduce n a l)) :
    Tracks scan text { m with stack := m.stack.reduce n a l } ts := by
  have haction : action? (top (m.stack.frames text)) k = some (.reduce n a l) := by
    rwa [h.top_eq]
  obtain ⟨-, -, -, -, -, -, -, -, hnext⟩ := h.valid.exists_of_reduce haction
  have hle := h.arity_le action
  obtain ⟨hframes, hneat⟩ := Stack.frames_reduce text h.neat hle n l
  refine ⟨hneat, ?_, h.chain, h.known, fun inp hinp => ?_, fun t' ht' => ?_⟩
  · refine h.fits.reduce fun x hx => ?_
    rw [Stack.state_pop text h.neat hle] at hx
    obtain ⟨g, done, hp, -⟩ := progress_of_next hnext
    simpa [hp, eq_comm] using hx
  · rw [hframes]
    refine (h.steps inp hinp).tail (.reduce ?_)
    rw [hinp t k ahead kind (ne_comment_of_action action (by simp))]
    exact haction
  · obtain ⟨st, ht, hst, -⟩ := h.fresh t' ht'
    have hstate : Stack.state (m.stack.reduce n a l) =
        goto (top ((m.stack.frames text).drop a)) n := by
      rw [← Stack.top_frames text hneat, hframes, Automaton.reduce, top_cons]
    refine ⟨st, ht, hst, .inr ?_⟩
    rw [state, hstate]
    exact wants_identifier_of_next hnext

/-- **A step keeps the parser in step with the automaton.** -/
theorem step (hs : scan.Honest) (h : Tracks scan text m ts) {e : Event}
    (hm : m.step scan = (e, .running m')) : Tracks scan text m' (ts ++ e.takes m.ahead) := by
  apply preserved_of_step hm
  case read => exact h.read
  case shift => exact h.shift hs
  case extra =>
    intro t k ahead kind action
    obtain rfl := eq_comment_of_extra action
    exact h.extra hs ahead kind
  case reduce => exact h.reduce
  case asIdentifier =>
    intro t k ahead kind refuses wordlike ne wants
    exact absurd wants (by simp [h.wants_identifier hs ahead kind refuses wordlike ne])

end Tracks

end Machine

end ScenarioSyntax
