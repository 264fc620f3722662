import ScenarioSyntax.Proofs.Machine.Fringe
import ScenarioSyntax.Proofs.Machine.Tight
import ScenarioSyntax.Proofs.Text.Acceptance

/-!
A text without error, piece by piece: tokens and comments in their order, each with the blanks in
front of it, and each ending where what comes next lets it end.
-/

namespace ScenarioSyntax

open Automaton Table

/-- A token or a comment with the blanks in front of it. -/
structure Piece where
  gap : List Int
  kind : Terminal
  lexeme : List Int

/-- A token may be followed directly by a token, as far as the grammar goes, or by a comment. -/
def Adjoins (k u : Terminal) : Prop := k = .comment ∨ u = .comment ∨ Follows k u

/-- The text is made of the pieces, and of blanks behind them. -/
inductive Spelled : List Piece → List Int → Prop
  | last {b : List Int} (blank : ∀ c ∈ b, isBlank c = true) : Spelled [] b
  | cons {x : Piece} {ps : List Piece} {r : List Int} (blank : ∀ c ∈ x.gap, isBlank c = true)
      (lexeme : x.kind.Lexeme x.lexeme) (stops : x.kind.scanned.Stops r)
      (adjoins : ∀ y ∈ ps.head?, Adjoins x.kind y.kind) (rest : Spelled ps r) :
      Spelled (x :: ps) (x.gap ++ (x.lexeme ++ r))

namespace Piece

/-- What a piece holds besides the blanks in front of it. -/
def content (x : Piece) : Terminal × List Int := (x.kind, x.lexeme)

lemma map_fst_content (ps : List Piece) : (ps.map content).map (·.1) = ps.map (·.kind) := by
  rw [List.map_map]
  rfl

/-- The pieces with their places in a text that begins at `pos`; the piece before ends at `lead`. -/
def spans (lead pos : Nat) : List Piece → List (Terminal × Span)
  | [] => []
  | x :: ps =>
    let start := pos + x.gap.length
    let stop := start + x.lexeme.length
    (x.kind, ⟨lead, start, stop⟩) :: spans stop stop ps

end Piece

open Piece

/-- A text that is made of pieces begins with a blank, which may be left out, or with a printable
character. -/
lemma Spelled.front {ps : List Piece} {c : Int} {text : List Int} (h : Spelled ps (c :: text)) :
    (isBlank c = true ∧ ∃ qs, Spelled qs text ∧ qs.map content = ps.map content) ∨
      33 ≤ c ∧ c ≤ 126 := by
  generalize hx : c :: text = x at h
  cases h with
  | last blank =>
    subst hx
    have hblank := List.forall_mem_cons.1 blank
    exact .inl ⟨hblank.1, [], .last hblank.2, rfl⟩
  | @cons y ps r blank lexeme stops adjoins rest =>
    rcases hgap : y.gap with _ | ⟨d, g⟩
    · obtain ⟨d, v, hl, hd⟩ := lexeme.exists_cons
      rw [hgap, hl] at hx
      obtain ⟨rfl, -⟩ := List.cons.inj hx
      exact .inr hd
    · rw [hgap] at hx blank
      obtain ⟨rfl, rfl⟩ := List.cons.inj hx
      have hblank := List.forall_mem_cons.1 blank
      exact .inl ⟨hblank.1, ⟨g, y.kind, y.lexeme⟩ :: ps,
        .cons hblank.2 lexeme stops adjoins rest, rfl⟩

/-! ### From what is read to pieces -/

namespace Token

variable {points : List Int} {s : StateId} {p q : Nat} {ts : List Lookahead}

lemma begin_le (h : p ≤ points.length) : begin points p ≤ points.length := by
  have horigin := origin_le h
  have := (List.takeWhile_prefix isBlank (l := points.drop (origin points p))).length_le
  rw [List.length_drop] at this
  unfold begin
  omega

lemma le_length_of_chain (h : Chain (read points) p ts q)
    (hk : ∀ t ∈ ts, ∃ k, t.kind? = some k ∧ k ≠ .endOfText) (hp : p ≤ points.length) :
    q ≤ points.length := by
  induction h with
  | nil p => exact hp
  | @cons s p q ts _ ih =>
    obtain ⟨k, hkind, hne⟩ := hk _ List.mem_cons_self
    obtain ⟨n, hn⟩ := exists_isRead hkind hne
    refine ih (fun t ht => hk t (List.mem_cons_of_mem _ ht)) ?_
    rw [hn.span_eq]
    exact hn.le

lemma kept_cons {t : Lookahead} {k : Terminal} (hk : t.kind? = some k) (hc : k ≠ .comment) :
    kept (slice points) (t :: ts) =
      (k, slice points t.span.start t.span.stop) :: kept (slice points) ts := by
  rw [← List.singleton_append, kept_append, kept_token _ hk hc]
  rfl

/-- The tokens, comments left out, stand behind each other as in a file. -/
def Ordered (points : List Int) (ts : List Lookahead) : Prop :=
  ∀ u k a inp, kept (slice points) ts = u ++ (k, a) :: inp → ∀ x ∈ inp.head?, Follows k x.1

namespace Ordered

variable {t t' : Lookahead} {k k' : Terminal}

lemma tail (h : Ordered points (t :: ts)) : Ordered points ts := by
  intro u k a inp hkept
  refine h (kept (slice points) [t] ++ u) k a inp ?_
  rw [← List.singleton_append, kept_append, hkept, List.append_assoc]

lemma follows (h : Ordered points (t :: ts)) (hk : t.kind? = some k) (hc : k ≠ .comment) :
    ∀ x ∈ (kept (slice points) ts).head?, Follows k x.1 :=
  h [] k _ _ (kept_cons hk hc)

lemma adjoins (h : Ordered points (t :: t' :: ts)) (hk : t.kind? = some k)
    (hk' : t'.kind? = some k') : Adjoins k k' := by
  by_cases hc : k = .comment
  · exact .inl hc
  by_cases hc' : k' = .comment
  · exact .inr (.inl hc')
  have hfollows := h.follows hk hc
  rw [kept_cons hk' hc'] at hfollows
  exact .inr (.inr (hfollows _ rfl))

end Ordered

/-- Blanks, and the text from the first character that is none. -/
lemma drop_origin_eq (points : List Int) (p : Nat) : points.drop (origin points p) =
    (points.drop (origin points p)).takeWhile isBlank ++ points.drop (begin points p) := by
  rw [drop_begin, List.takeWhile_append_dropWhile]

lemma IsRead.length_slice {k : Terminal} {n : Nat} (h : IsRead points s p k n) :
    (slice points (begin points p) (begin points p + n)).length = n := by
  have := h.le
  rw [slice, List.length_take, List.length_drop]
  omega

lemma IsRead.origin_stop {k : Terminal} {n : Nat} (h : IsRead points s p k n) :
    origin points (begin points p + n) = begin points p + n := by
  have := h.zero_lt
  exact origin_of_pos (by omega)

/-- A token stops where the tokens behind it begin. -/
lemma IsRead.stops_of_chain {s' : StateId} {k : Terminal} {n : Nat} (h : IsRead points s' p k n)
    (hchain : Chain (read points) (begin points p + n) ts q)
    (hk : ∀ t ∈ ts, ∃ k, t.kind? = some k ∧ k ≠ .endOfText)
    (hend : (read points s q).kind? = some .endOfText)
    (hfollows : k ≠ .comment → ∀ x ∈ (kept (slice points) ts).head?, Follows k x.1) :
    k.scanned.Stops (points.drop (begin points p + n)) := by
  by_cases hc : k = .comment
  · subst hc
    exact h.stops (.inr rfl)
  · have hprinted := printed_of_chain hchain hk hend (w := k.isWord) fun hword => by
      have := h.stops (.inl hword)
      rwa [h.origin_stop,
        ← show k.scanned = .identifier by simpa [Terminal.isWord] using hword]
    rw [h.origin_stop] at hprinted
    exact hprinted.stops hc (hfollows hc)

/-- **The tokens that were read**, up to the end, are pieces of the text. -/
theorem spelled_of_chain (h : Chain (read points) p ts q)
    (hk : ∀ t ∈ ts, ∃ k, t.kind? = some k ∧ k ≠ .endOfText)
    (hend : (read points s q).kind? = some .endOfText) (ho : Ordered points ts) :
    ∃ ps, Spelled ps (points.drop (origin points p)) ∧
      Machine.fringeOf ts = spans p (origin points p) ps := by
  induction h with
  | nil p =>
    refine ⟨[], ?_, rfl⟩
    rw [drop_origin_eq, (end_of_kind? hend).1, List.append_nil]
    exact .last fun c hc => List.mem_takeWhile_imp hc
  | @cons s' p q ts tail ih =>
    obtain ⟨k, hkind, hne⟩ := hk _ List.mem_cons_self
    obtain ⟨n, hn⟩ := exists_isRead hkind hne
    have hk := fun t ht => hk t (List.mem_cons_of_mem _ ht)
    have hspan := hn.span_eq
    rw [hspan] at tail ih
    have hstops := hn.stops_of_chain tail hk hend (ho.follows hkind)
    obtain ⟨ps, hps, hfringe⟩ := ih hk hend ho.tail
    rw [hn.origin_stop] at hps hfringe
    let x : Piece := ⟨(points.drop (origin points p)).takeWhile isBlank, k,
      slice points (begin points p) (begin points p + n)⟩
    have htext : points.drop (origin points p) =
        x.gap ++ (x.lexeme ++ points.drop (begin points p + n)) := by
      conv_lhs => rw [drop_origin_eq]
      rw [← List.drop_drop]
      simp [x, slice]
    refine ⟨x :: ps, ?_, ?_⟩
    · rw [htext]
      refine .cons (fun c hc => List.mem_takeWhile_imp hc) hn.slice_lexeme hstops ?_ hps
      intro y hy
      obtain ⟨ps, rfl⟩ := List.head?_eq_some_iff.1 hy
      cases ts with
      | nil => cases hfringe
      | cons t' ts =>
        obtain ⟨k', hk', -⟩ := hk t' List.mem_cons_self
        obtain rfl : k' = y.kind := by
          rw [Machine.fringeOf_cons, Lookahead.fringe_leaf hk'] at hfringe
          exact congrArg Prod.fst (List.cons.inj hfringe).1
        exact ho.adjoins hkind hk'
    · rw [Machine.fringeOf_cons, Lookahead.fringe_leaf hkind, hspan, hfringe, spans,
        hn.length_slice]
      rfl

end Token

lemma Ast.IsFile.tokens_ne_nil {α : Type} {d : Ast α} (h : d.IsFile) : d.tokens ≠ [] := by
  obtain ⟨t, a, ts, hts, -⟩ := Grammar.tokens_of_shows (Grammar.shows_iff.2 h.wellFormed)
  rw [Ast.tokensAll_cons, Ast.tokensAll_nil, List.append_nil] at hts
  simp [hts]

namespace Machine

variable {points : List Int} {tree : Tree}

/-- **A text that is accepted** is made of pieces, and the tokens of its tree are these pieces and
the end of the text. -/
theorem exists_spelled_of_accepted (h : (runText points).2 = .accepted tree) :
    ∃ ps lead, ps ≠ [] ∧ Spelled ps (points.drop (Token.origin points 0)) ∧
      fringeOf (Event.taken none (runText points).1) = spans 0 (Token.origin points 0) ps ∧
      tree.fringe = spans 0 (Token.origin points 0) ps ++
        [(.endOfText, ⟨lead, points.length, points.length⟩)] := by
  obtain ⟨m, t, htr, ht, hk, hfringe⟩ := exists_fringe_of_accepted (Token.honest_read points)
    (slice points) (Prod.ext rfl h)
  obtain ⟨s, rfl, -, -⟩ := htr.fresh t ht
  obtain ⟨-, d, hd, -, htok⟩ := exists_isPrinting_of_accepted h
  have hordered : Token.Ordered points (Event.taken none (runText points).1) := by
    intro u k a inp hkept
    exact follows_of_tokens hd.isFile (htok.trans hkept)
  obtain ⟨ps, hps, hspans⟩ := Token.spelled_of_chain htr.chain htr.known hk hordered
  have hend := (Token.end_of_kind? hk).1
  have hbegin : Token.begin points m.pos = points.length := by
    refine le_antisymm (Token.begin_le ?_) (List.drop_eq_nil_iff.1 hend)
    exact Token.le_length_of_chain htr.chain htr.known (Nat.zero_le _)
  have hne : ps ≠ [] := by
    rintro rfl
    have hnil : Event.taken none (runText points).1 = [] := by
      have hkinds := map_kind?_eq fun t ht => (htr.known t ht).imp fun _ hk => hk.1
      rw [hspans, spans, List.map_nil] at hkinds
      exact List.map_eq_nil_iff.1 hkinds
    rw [hnil] at htok
    exact hd.isFile.tokens_ne_nil htok
  refine ⟨ps, m.pos, hne, hps, hspans, ?_⟩
  rw [hfringe, fringeOf_append, hspans, fringeOf_singleton, Token.leaf_of_end hend, hbegin]
  rfl

end Machine

/-! ### Where the pieces stand -/

namespace Spelled

variable {ps : List Piece} {text points : List Int} {lead p : Nat}

/-- The pieces come one after the other, and none of them is empty. -/
theorem pairwise_spans (h : Spelled ps text) (lead p : Nat) :
    (spans lead p ps).Pairwise (fun x y => x.2.stop ≤ y.2.start) ∧
      ∀ x ∈ spans lead p ps, p ≤ x.2.start ∧ x.2.start < x.2.stop ∧
        x.2.stop ≤ p + text.length := by
  induction h generalizing lead p with
  | last _ => simp [spans]
  | @cons x ps r blank lexeme stops adjoins rest ih =>
    obtain ⟨hpair, hall⟩ := ih (p + x.gap.length + x.lexeme.length)
      (p + x.gap.length + x.lexeme.length)
    have hpos : 0 < x.lexeme.length := List.length_pos_of_ne_nil lexeme.matches.ne_nil
    simp only [spans, List.pairwise_cons, List.forall_mem_cons, List.length_append]
    refine ⟨⟨fun y hy => (hall y hy).1, hpair⟩, ⟨by omega, by omega, by omega⟩, fun y hy => ?_⟩
    have := hall y hy
    omega

lemma getElem?_of_drop_eq {gap rest : List Int} (hd : points.drop p = gap ++ rest) {i : Nat}
    (hle : p ≤ i) (hi : i < p + gap.length) : ∃ c, points[i]? = some c ∧ c ∈ gap := by
  have hlt : i - p < gap.length := by omega
  refine ⟨gap[i - p], ?_, List.getElem_mem hlt⟩
  rw [← List.getElem?_eq_getElem hlt, ← List.getElem?_append_left hlt, ← hd, List.getElem?_drop,
    Nat.add_sub_cancel' hle]

/-- **Between the pieces** there are blanks only. -/
theorem blank_of_notMem (h : Spelled ps text) (hd : points.drop p = text) {i : Nat} (hle : p ≤ i)
    (hi : i < points.length) (hout : ∀ x ∈ spans lead p ps, ¬ (x.2.start ≤ i ∧ i < x.2.stop)) :
    ∃ c, points[i]? = some c ∧ isBlank c = true := by
  induction h generalizing lead p with
  | @last b blank =>
    have hlen := congrArg List.length hd
    rw [List.length_drop] at hlen
    obtain ⟨c, hc, hmem⟩ := getElem?_of_drop_eq (hd.trans (List.append_nil b).symm) hle (by omega)
    exact ⟨c, hc, blank c hmem⟩
  | @cons x ps r blank lexeme stops adjoins rest ih =>
    by_cases hgap : i < p + x.gap.length
    · obtain ⟨c, hc, hmem⟩ := getElem?_of_drop_eq hd hle hgap
      exact ⟨c, hc, blank c hmem⟩
    · simp only [spans, List.forall_mem_cons] at hout
      refine ih (p := p + x.gap.length + x.lexeme.length) ?_ (by omega) hout.2
      rw [← List.drop_drop, ← List.drop_drop, hd, List.drop_left, List.drop_left]

/-- All pieces show. -/
lemma shown_spans (h : Spelled ps text) (lead p : Nat) :
    Tree.shown (spans lead p ps) = spans lead p ps := by
  rw [Tree.shown, List.filter_eq_self]
  induction h generalizing lead p with
  | last _ => simp [spans]
  | @cons x ps r blank lexeme stops adjoins rest ih =>
    refine List.forall_mem_cons.2 ⟨?_, ih _ _⟩
    have hend : x.kind ≠ .endOfText := by
      intro hk
      obtain ⟨p, hp, -⟩ := lexeme.matches
      rw [hk] at hp
      cases hp
    simpa [Terminal.isVisible] using hend

end Spelled

/-! ### The leaves of the tree -/

/-- The leaves of the tree are the pieces of the text, and it goes on to the end of the text; every
node below the root wraps its leaves. -/
structure Node.IsMadeOf (points : List Int) (ps : List Piece) (ρ : Node) : Prop where
  ne : ps ≠ []
  spelled : Spelled ps (points.drop (Token.origin points 0))
  leaves_eq : ρ.leaves.map extent = (spans 0 (Token.origin points 0) ps).map extentOf
  start_eq : ∀ l ∈ ρ.leaves.head?, l.start = ρ.start
  stop_eq : ρ.stop = points.length
  wraps : ∀ ν ∈ preorderAll ρ.children, ν.Wraps

lemma Tree.toNode_eq {n : Nonterminal} (hn : n.isVisible = true) {l : Layout} {cs : List Tree}
    (hcs : ∀ c ∈ cs, c.Clean) {s : Span} (hs : hull (fringeAll cs) = some s) :
    (node (.rule n l) cs).toNode = .mk ⟨.symbol (.nonterminal n), none, .plain, false, anyError cs,
      s.start, s.stop⟩ (viewAll l 0 cs).nodes := by
  have hspan := span_viewAll (fun c hc => (hcs c hc).span_view) l 0
  simp [toNode, view, hn, View.wrap, hspan, hs]

namespace Machine

variable {points : List Int} {tree : Tree}

/-- **The tree of a text that is accepted** has the pieces of the text for its leaves. -/
theorem exists_isMadeOf_of_accepted (h : (runText points).2 = .accepted tree) :
    ∃ ps, tree.toNode.IsMadeOf points ps ∧
      fringeOf (Event.taken none (runText points).1) = spans 0 (Token.origin points 0) ps := by
  have hs := Token.honest_read points
  have hrun : runText points = (_, .accepted tree) := Prod.ext rfl h
  obtain ⟨ps, lead, hne, hps, htaken, hfringe⟩ := exists_spelled_of_accepted h
  obtain ⟨-, -, -, -, -, -, -, -, -, hclean, hsym⟩ :=
    exists_isFile_of_accepted hs (fun _ _ => ()) hrun
  have htight := tight_of_accepted hs hrun
  obtain ⟨l, cs, rfl⟩ := Tree.eq_node_of_symbol? hsym
  rw [Tree.fringe] at hfringe
  rw [Tree.children] at htight
  have hcs : ∀ c ∈ cs, c.Clean := by
    cases hclean with
    | node _ _ children => exact children
  have hleaves := Tree.leaves_viewAll_of_tight htight l 0
  rw [hfringe, Tree.shown_append, hps.shown_spans,
    show Tree.shown [(.endOfText, (⟨lead, points.length, points.length⟩ : Span))] = [] from rfl,
    List.append_nil] at hleaves
  obtain ⟨x, ps', rfl⟩ := List.exists_cons_of_ne_nil hne
  obtain ⟨s, hhull⟩ := Tree.exists_hull (show Tree.fringeAll cs ≠ [] by simp [hfringe])
  obtain ⟨a, ha, hstart⟩ := Tree.head?_eq_of_hull hhull
  obtain ⟨b, hb, hstop⟩ := Tree.getLast?_eq_of_hull hhull
  rw [hfringe] at ha hb
  have hnodes : (Tree.viewAll l 0 cs).nodes ≠ [] := by
    intro hnil
    rw [hnil] at hleaves
    cases hleaves
  rw [Tree.toNode_eq rfl hcs hhull]
  refine ⟨x :: ps', ⟨hne, hps, ?_, ?_, ?_, ?_⟩, htaken⟩
  · rw [Node.leaves_of_ne_nil _ hnodes]
    exact hleaves
  · rw [Node.leaves_of_ne_nil _ hnodes]
    intro ν hν
    have hhead := congrArg List.head? hleaves
    rw [List.head?_map, Option.mem_def.1 hν] at hhead
    have : ν.start = a.2.start := by
      obtain rfl : _ = a := Option.some.inj ha
      exact congrArg (·.2.1) (Option.some.inj hhead)
    rw [this, hstart]
    rfl
  · rw [List.getLast?_append] at hb
    obtain rfl := Option.some.inj hb
    exact hstop.symm
  · exact Tree.wraps_viewAll_of_tight htight l 0

end Machine

end ScenarioSyntax
