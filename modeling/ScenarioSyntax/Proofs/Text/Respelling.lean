import ScenarioSyntax.Proofs.Machine.Lockstep
import ScenarioSyntax.Proofs.Schema.Conformance
import ScenarioSyntax.Proofs.Text.Pieces

/-!
The shape of a text without error does not depend on the spelling of its tokens. A token gives way
to any other one of its kind: what is next to it has been told apart from its kind, and not from
its spelling.
-/

namespace ScenarioSyntax

open Piece Table

/-! ### What the neighbours see of a token -/

namespace Terminal

/-- What a word goes on with can be told from the first characters of a family of tokens. -/
lemma wordChar_iff {c : Int} :
    CharClass.wordChar.holds c = true ↔ leadOf c = 48 ∨ leadOf c = 65 := by
  simp only [CharClass.holds, CharClass.isLetter, CharClass.isDigit, leadOf, Bool.or_eq_true,
    Bool.and_eq_true, decide_eq_true_eq]
  split_ifs <;> omega

lemma inLine_of_printable {c : Int} (h : 33 ≤ c ∧ c ≤ 126) : CharClass.inLine.holds c = true := by
  have hchar : ('\n'.toNat : Int) = 10 := rfl
  simp only [CharClass.holds, hchar, Bool.and_eq_true, decide_eq_true_eq]
  omega

end Terminal

open Terminal

/-- A token that stops at one of the tokens that may follow it stops at all of that kind. -/
lemma Adjoins.stops {k u : Terminal} (h : Adjoins k u) {l l' : List Int} (hl : u.Lexeme l)
    (hl' : u.Lexeme l') {r : List Int} (hs : k.scanned.Stops (l ++ r)) (r' : List Int) :
    k.scanned.Stops (l' ++ r') := by
  obtain ⟨c, v, rfl, hc⟩ := hl.exists_cons
  have hstop := hs c rfl
  by_cases hword : k.scanned = .identifier
  · rw [hword] at hstop ⊢
    intro d hd
    have hlead : leadOf d = leadOf c := by
      obtain ⟨c', v', rfl, -⟩ := hl'.exists_cons
      obtain rfl : c' = d := by simpa using hd
      exact hl'.matches.shape.lead.trans hl.matches.shape.lead.symm
    rw [← Bool.not_eq_true, wordChar_iff] at hstop ⊢
    rwa [hlead]
  have hself := scanned_eq_self hword
  rw [hself] at hstop hword ⊢
  by_cases hcomment : k = .comment
  · subst hcomment
    rw [inLine_of_printable hc] at hstop
    cases hstop
  rcases h with rfl | rfl | hfollows
  · exact absurd rfl hcomment
  · obtain ⟨w, rfl, -⟩ := comment_lexeme_iff.1 hl'
    exact stops_of_gap hcomment fun _ _ => .inr rfl
  · cases k
    case identifier => exact absurd rfl hword
    case comment => exact absurd rfl hcomment
    case number => exact number_stops (hfollows.1 rfl) hl' r'
    case comparisonOperator =>
      obtain rfl := hfollows.2 rfl
      exact comparison_stops hl' r'
    all_goals exact fun _ _ => trivial

/-- The same behind blanks. -/
lemma Adjoins.stops_blanks {k u : Terminal} (h : Adjoins k u) {b l l' : List Int}
    (hb : ∀ c ∈ b, isBlank c = true) (hl : u.Lexeme l) (hl' : u.Lexeme l') {r : List Int}
    (hs : k.scanned.Stops (b ++ (l ++ r))) (r' : List Int) :
    k.scanned.Stops (b ++ (l' ++ r')) := by
  cases b with
  | nil => exact h.stops hl hl' hs r'
  | cons c b =>
    by_cases hcomment : k.scanned = .comment
    · rw [hcomment] at hs ⊢
      exact hs
    · refine stops_of_gap hcomment fun d hd => .inl ?_
      obtain rfl : c = d := by simpa using hd
      exact hb c List.mem_cons_self

namespace Piece

/-- The piece with another spelling. -/
def spell (x : Piece) (l : List Int) : Piece := { x with lexeme := l }

end Piece

namespace Spelled

variable {ps : List Piece} {x : Piece} {text points : List Int} {p : Nat}

/-- What stops at a list of pieces stops at it still when they are spelled in another way. -/
lemma stops_of_alike {k : Terminal} {y y' : Piece} {ps ps' : List Piece} {text text' : List Int}
    (h : Spelled (y :: ps) text) (h' : Spelled (y' :: ps') text') (gap : y'.gap = y.gap)
    (kind : y'.kind = y.kind) (adjoins : Adjoins k y.kind) (hs : k.scanned.Stops text) :
    k.scanned.Stops text' := by
  cases h with
  | cons blank lexeme _ _ _ =>
    cases h' with
    | cons _ lexeme' _ _ _ =>
      rw [gap]
      rw [kind] at lexeme'
      exact adjoins.stops_blanks blank lexeme lexeme' hs _

/-- **One piece** gives way to another spelling, in the same place of the text. -/
theorem respell (h : Spelled ps text) {i : Nat} (hx : ps[i]? = some x) :
    ∃ u r, text = u ++ (x.lexeme ++ r) ∧
      (∀ lead p, ∃ lead', (spans lead p ps)[i]? =
        some (x.kind, ⟨lead', p + u.length, p + u.length + x.lexeme.length⟩)) ∧
      ∀ l, x.kind.Lexeme l → Spelled (ps.set i (x.spell l)) (u ++ (l ++ r)) := by
  induction h generalizing i with
  | last _ => simp at hx
  | @cons y ps r blank lexeme stops adjoins rest ih =>
    cases i with
    | zero =>
      obtain rfl : y = x := by simpa using hx
      exact ⟨y.gap, r, rfl, fun lead p => ⟨lead, rfl⟩, fun l hl =>
        .cons (x := y.spell l) blank hl stops adjoins rest⟩
    | succ i =>
      obtain ⟨u, r, rfl, hspan, hspelled⟩ := ih (by simpa using hx)
      refine ⟨y.gap ++ (y.lexeme ++ u), r, by simp, fun lead p => ?_, fun l hl => ?_⟩
      · obtain ⟨lead', hlead'⟩ := hspan (p + y.gap.length + y.lexeme.length)
          (p + y.gap.length + y.lexeme.length)
        refine ⟨lead', ?_⟩
        rw [spans, List.getElem?_cons_succ, hlead']
        simp only [List.length_append, Nat.add_assoc]
      · have hnew := hspelled l hl
        obtain ⟨z, zs, rfl⟩ := List.exists_cons_of_ne_nil (l := ps) (by rintro rfl; simp at hx)
        obtain ⟨z', zs', hset, gap, kind⟩ : ∃ z' zs', (z :: zs).set i (x.spell l) = z' :: zs' ∧
            z'.gap = z.gap ∧ z'.kind = z.kind := by
          cases i with
          | zero =>
            obtain rfl : z = x := by simpa using hx
            exact ⟨_, _, rfl, rfl, rfl⟩
          | succ i => exact ⟨z, _, rfl, rfl, rfl⟩
        have hadjoins : Adjoins y.kind z.kind := adjoins z rfl
        rw [hset] at hnew
        rw [List.set_cons_succ, hset, List.append_assoc, List.append_assoc]
        refine .cons blank lexeme (stops_of_alike rest hnew gap kind hadjoins stops) ?_ hnew
        intro w hw
        obtain rfl : z' = w := by simpa using hw
        rwa [kind]

/-- The lexer gives the pieces of a text, each in every state that can use it. -/
theorem offers (h : Spelled ps text) (hd : points.drop (Token.origin points p) = text) :
    Scanner.Offers (Token.read points) p (spans p (Token.origin points p) ps) := by
  induction h generalizing p with
  | @last b blank =>
    refine .nil fun q => Token.leaf_of_end ?_ q
    rw [Token.drop_begin, hd, List.dropWhile_eq_nil_iff]
    exact blank
  | @cons x ps r blank lexeme stops adjoins rest ih =>
    obtain ⟨c, v, hl, hc⟩ := lexeme.exists_cons
    have hblank : isBlank c = false := (printable hc).1
    have hbegin : Token.begin points p = Token.origin points p + x.gap.length := by
      rw [Token.begin, hd, List.takeWhile_append_of_pos blank, hl, List.cons_append,
        List.takeWhile_cons_of_neg (by simp [hblank]), List.append_nil]
    have hdrop : points.drop (Token.begin points p) = x.lexeme ++ r := by
      rw [hbegin, ← List.drop_drop, hd, List.drop_left]
    rw [spans, ← hbegin]
    refine .cons (fun q hq hw => Token.read_of_lexeme hq hw lexeme hdrop stops) ?_
    have horigin : Token.origin points (Token.begin points p + x.lexeme.length) =
        Token.begin points p + x.lexeme.length := by
      refine Token.origin_of_pos ?_
      rw [hl, List.length_cons]
      omega
    have htail := ih (p := Token.begin points p + x.lexeme.length) (by
      rw [horigin, ← List.drop_drop, hdrop, List.drop_left])
    rwa [horigin] at htail

/-- Each piece is what stands in its place. -/
lemma map_slice (h : Spelled ps text) (hd : points.drop p = text) (lead : Nat) :
    (spans lead p ps).map (fun x => slice points x.2.start x.2.stop) = ps.map (·.lexeme) := by
  induction h generalizing lead p with
  | last _ => rfl
  | @cons x ps r blank lexeme stops adjoins rest ih =>
    have hdrop : points.drop (p + x.gap.length) = x.lexeme ++ r := by
      rw [← List.drop_drop, hd, List.drop_left]
    rw [spans, List.map_cons, List.map_cons, slice, hdrop, Nat.add_sub_cancel_left, List.take_left,
      ih (by rw [← List.drop_drop, hdrop, List.drop_left])]

end Spelled

lemma Piece.map_fst_spans (lead p : Nat) (ps : List Piece) :
    (spans lead p ps).map (·.1) = ps.map (·.kind) := by
  induction ps generalizing lead p with
  | nil => rfl
  | cons x ps ih => rw [spans, List.map_cons, List.map_cons, ih]

lemma Piece.map_kind_set {ps : List Piece} {i : Nat} {x : Piece} (hx : ps[i]? = some x)
    (l : List Int) : (ps.set i (x.spell l)).map (·.kind) = ps.map (·.kind) := by
  obtain ⟨hlt, rfl⟩ := List.getElem?_eq_some_iff.1 hx
  have hlt' : i < (ps.map (·.kind)).length := by rwa [List.length_map]
  have hkind : (ps[i].spell l).kind = (ps.map (·.kind))[i] := by rw [List.getElem_map]; rfl
  rw [List.map_set, hkind, List.set_getElem_self]

/-- Each piece stands in its place. -/
lemma Spelled.map_content {ps : List Piece} {text points : List Int} {p : Nat}
    (h : Spelled ps text) (hd : points.drop p = text) (lead : Nat) :
    (spans lead p ps).map (fun x => (x.1, slice points x.2.start x.2.stop)) =
      ps.map content := by
  have hcontent : ps.map content = (ps.map (·.kind)).zip (ps.map (·.lexeme)) :=
    (List.zip_map' ..).symm
  rw [hcontent, ← h.map_slice hd lead, ← map_fst_spans lead p, List.zip_map']

/-! ### The whole text -/

namespace Source

/-- The text with another spelling in the place of a node. -/
def respell (src : Source) (ν : Node) (l : List Int) : Source :=
  .ofPoints src.encoding (src.points.take ν.start ++ (l ++ src.points.drop ν.stop))

/-- What stands in the place of a node. -/
def textOf (src : Source) (ν : Node) : List Int := slice src.points ν.start ν.stop

end Source

/-- A byte order mark at the beginning stays there, and nothing becomes one. -/
lemma Token.origin_respell {points u v l : List Int} {k : Terminal} (hl : k.Lexeme l)
    (hd : points.drop (origin points 0) = u ++ v) (r : List Int) :
    origin (points.take (origin points 0) ++ (u ++ (l ++ r))) 0 = origin points 0 := by
  by_cases hmark : points.head? = some byteOrderMark
  · have horigin : origin points 0 = 1 := if_pos ⟨rfl, hmark⟩
    obtain ⟨rest, rfl⟩ := List.head?_eq_some_iff.1 hmark
    rw [horigin]
    exact if_pos ⟨rfl, rfl⟩
  · have horigin : origin points 0 = 0 := if_neg fun h => hmark h.2
    rw [horigin] at hd ⊢
    refine if_neg fun h => ?_
    rw [List.drop_zero] at hd
    subst hd
    cases u with
    | nil =>
      obtain ⟨c, v, rfl, hc⟩ := hl.exists_cons
      exact (printable hc).2.2 (by simpa using h.2)
    | cons c u => exact hmark h.2

/-- Behind a byte order mark, nothing but the node has changed. -/
lemma Source.drop_respell {src : Source} {ν : Node} {u v l : List Int} {k : Terminal}
    (hl : k.Lexeme l) (hd : src.points.drop (Token.origin src.points 0) = u ++ v)
    (ht : src.points.take ν.start = src.points.take (Token.origin src.points 0) ++ u) :
    (src.respell ν l).points.drop (Token.origin (src.respell ν l).points 0) =
      u ++ (l ++ src.points.drop ν.stop) := by
  have hpoints : (src.respell ν l).points =
      src.points.take (Token.origin src.points 0) ++ (u ++ (l ++ src.points.drop ν.stop)) := by
    rw [respell, ofPoints, ht, List.append_assoc]
  rw [hpoints, Token.origin_respell hl hd]
  exact List.drop_left' (List.length_take_of_le (Token.origin_le (Nat.zero_le _)))

namespace Machine

/-- **Pieces of the same kinds.** A text that is made of pieces of the same kinds as one that is
accepted is accepted too. The trees differ in places only. -/
theorem exists_accepted_of_kinds {points points' : List Int} {tree : Tree} {ps ps' : List Piece}
    (h : (runText points).2 = .accepted tree)
    (htaken : fringeOf (Event.taken none (runText points).1) = spans 0 (Token.origin points 0) ps)
    (hps' : Spelled ps' (points'.drop (Token.origin points' 0)))
    (hkinds : ps'.map (·.kind) = ps.map (·.kind)) :
    ∃ tree', (runText points').2 = .accepted tree' ∧ tree'.unplaced = tree.unplaced ∧
      fringeOf (Event.taken none (runText points').1) = spans 0 (Token.origin points' 0) ps' := by
  have hs := Token.honest_read points
  have hrun : runText points = (_, .accepted tree) := Prod.ext rfl h
  obtain ⟨m, t, htr, -⟩ := exists_fringe_of_accepted hs (slice points) hrun
  have hexp : Expects (Token.read points') 0 none none (Event.taken none (runText points).1)
      (spans 0 (Token.origin points' 0) ps') := by
    refine .unread (hps'.offers rfl) ?_
    rw [map_kind?_eq fun t ht => (htr.known t ht).imp fun _ hk => hk.1, htaken,
      ← Function.comp_def some, ← List.map_map, ← List.map_map, map_fst_spans, map_fst_spans,
      hkinds]
  have hin : InStep (Token.read points') init init (Event.taken none (runText points).1)
      (spans 0 (Token.origin points' 0) ps') := ⟨rfl, hexp⟩
  obtain ⟨es', tree', hacc, htree, hfringe⟩ :=
    (accepts_of_run hrun).lockstep hs (tracks_init _ (slice points)) hin
  have hrun' : runText points' = (es', .accepted tree') := hacc.run_eq _ fun m' =>
    run_init_ne_running (Token.honest_read points') (Token.within_read points')
  rw [hrun']
  exact ⟨tree', rfl, htree, hfringe⟩

end Machine

namespace Node.IsMadeOf

variable {points : List Int} {ps : List Piece} {ρ : Node}

lemma map_slice (h : ρ.IsMadeOf points ps) :
    ρ.leaves.map (fun ν => slice points ν.start ν.stop) = ps.map (·.lexeme) := by
  rw [← h.spelled.map_slice rfl 0]
  have := congrArg (List.map fun e : Kind × Nat × Nat => slice points e.2.1 e.2.2) h.leaves_eq
  rwa [List.map_map, List.map_map] at this

/-- The leaves, by what they are and what stands in their places. -/
lemma map_content {src : Source} (h : ρ.IsMadeOf src.points ps) :
    ρ.leaves.map (fun ν => (ν.data.kind, src.textOf ν)) =
      (ps.map content).map fun t => (.symbol (.terminal t.1), t.2) := by
  rw [← h.spelled.map_content rfl 0, List.map_map]
  have := congrArg (List.map fun e : Kind × Nat × Nat => (e.1, slice src.points e.2.1 e.2.2))
    h.leaves_eq
  rwa [List.map_map, List.map_map] at this

/-- A leaf is a piece of the text, in the place where it can be spelled in another way. -/
lemma respell (h : ρ.IsMadeOf points ps) {i : Nat} {ν : Node} {k : Terminal}
    (hν : ρ.leaves[i]? = some ν) (hk : ν.data.kind = .symbol (.terminal k)) :
    ∃ x u r, ps[i]? = some x ∧ x.kind = k ∧
      points.drop (Token.origin points 0) = u ++ (x.lexeme ++ r) ∧
      points.take ν.start = points.take (Token.origin points 0) ++ u ∧
      points.drop ν.stop = r ∧
      ∀ l, x.kind.Lexeme l → Spelled (ps.set i (x.spell l)) (u ++ (l ++ r)) := by
  have hlength : ρ.leaves.length = ps.length := by
    simpa using congrArg List.length h.map_slice
  have hlt : i < ps.length := by
    rw [← hlength]
    exact (List.getElem?_eq_some_iff.1 hν).1
  have hx : ps[i]? = some ps[i] := List.getElem?_eq_getElem hlt
  obtain ⟨u, r, hdrop, hspan, hspelled⟩ := h.spelled.respell hx
  obtain ⟨lead, hlead⟩ := hspan 0 (Token.origin points 0)
  have hextent := congrArg (·[i]?) h.leaves_eq
  simp only [List.getElem?_map, hν, hlead, Option.map_some, Option.some.injEq, extent, extentOf,
    Prod.mk.injEq, hk, Kind.symbol.injEq, Symbol.terminal.injEq] at hextent
  obtain ⟨hkind, hstart, hstop⟩ := hextent
  refine ⟨ps[i], u, r, hx, hkind.symm, hdrop, ?_, ?_, hspelled⟩
  · rw [hstart, List.take_add, hdrop, List.take_left]
  · rw [hstop, ← List.drop_drop, ← List.drop_drop, hdrop, List.drop_left, List.drop_left]

end Node.IsMadeOf

/-- A text without error has none if its pieces give way to others of the same kinds. -/
lemma Source.parse_of_kinds {src src' : Source} {ps qs : List Piece}
    (h : (parse src).hasError = false)
    (htaken : Machine.fringeOf (Event.taken none (Machine.runText src.points).1) =
      spans 0 (Token.origin src.points 0) ps)
    (hqs : Spelled qs (src'.points.drop (Token.origin src'.points 0)))
    (hkinds : qs.map (·.kind) = ps.map (·.kind)) :
    (parse src').hasError = false ∧ (parse src').unplaced = (parse src).unplaced ∧
      ∃ rs, (parse src').toNode.IsMadeOf src'.points rs ∧
        rs.map content = qs.map content := by
  obtain ⟨tree, haccepted, htree, htaken'⟩ :=
    Machine.exists_accepted_of_kinds (accepted_of_hasError h) htaken hqs hkinds
  obtain ⟨rs, hrs, hspans⟩ := Machine.exists_isMadeOf_of_accepted haccepted
  obtain rfl := parse_of_accepted haccepted
  refine ⟨?_, htree, rs, hrs, ?_⟩
  · rw [← Tree.hasError_unplaced, htree, Tree.hasError_unplaced, h]
  · rw [← hrs.spelled.map_content rfl 0, ← hspans, htaken', hqs.map_content rfl 0]

/-- **The spelling of a token** has no part in the tree. In a text without error, any leaf gives way
to any other spelling of its kind: an identifier to every word, were it a keyword elsewhere, and a
comment to every comment on one line. There is still no error, the tree has the same nodes and is
written in the same way, and the other leaves stay as they are. -/
theorem respelling_of_hasError (src : Source) (h : (parse src).hasError = false) {i : Nat}
    {ν : Node} {k : Terminal} {l : List Int} (hν : (parse src).toNode.leaves[i]? = some ν)
    (hk : ν.data.kind = .symbol (.terminal k)) (hl : k.Lexeme l) :
    (parse (src.respell ν l)).hasError = false ∧
    (parse (src.respell ν l)).toNode.sexp = (parse src).toNode.sexp ∧
    (parse (src.respell ν l)).toNode.outline = (parse src).toNode.outline ∧
    (parse (src.respell ν l)).toNode.leaves.map (src.respell ν l).textOf =
      ((parse src).toNode.leaves.map src.textOf).set i l := by
  have haccepted := accepted_of_hasError h
  obtain ⟨ps, hps, htaken⟩ := Machine.exists_isMadeOf_of_accepted haccepted
  obtain ⟨x, u, r, hx, rfl, hdrop, htake, rfl, hspelled⟩ := hps.respell hν hk
  have hps' := hspelled l hl
  rw [← Source.drop_respell hl hdrop htake] at hps'
  obtain ⟨tree, haccepted', htree, htaken'⟩ :=
    Machine.exists_accepted_of_kinds haccepted htaken hps' (map_kind_set hx l)
  rw [← parse_of_accepted haccepted'] at htree
  have h' : (parse (src.respell ν l)).hasError = false := by
    rw [← Tree.hasError_unplaced, htree, Tree.hasError_unplaced, h]
  refine ⟨h', Tree.sexp_eq_of_unplaced htree (exists_isFile_of_hasError h').1
    (exists_isFile_of_hasError h).1, Tree.outline_eq_of_unplaced htree, ?_⟩
  obtain ⟨qs, hqs, hspans⟩ := Machine.exists_isMadeOf_of_accepted (accepted_of_hasError h')
  calc (parse (src.respell ν l)).toNode.leaves.map (src.respell ν l).textOf
      = qs.map (·.lexeme) := hqs.map_slice
    _ = (ps.set i (x.spell l)).map (·.lexeme) := by
      rw [← hqs.spelled.map_slice rfl 0, ← hps'.map_slice rfl 0, ← hspans, htaken']
    _ = (ps.map (·.lexeme)).set i l := List.map_set
    _ = ((parse src).toNode.leaves.map src.textOf).set i l :=
      congrArg (·.set i l) hps.map_slice.symm

/-- A scenario may have the name of any keyword. -/
theorem respelling_scenario_name : ∃ (src : Source) (ν : Node),
    (parse src).hasError = false ∧ (parse src).toNode.leaves[1]? = some ν ∧
    ν.data.kind = .symbol (.terminal .identifier) ∧ ∀ t ∈ Terminal.keywords,
      (parse (src.respell ν t.spelling)).hasError = false ∧
      (parse (src.respell ν t.spelling)).toNode.outline = (parse src).toNode.outline ∧
      (parse (src.respell ν t.spelling)).toNode.leaves[1]?.map (src.respell ν t.spelling).textOf =
        some t.spelling := by
  let src := Source.ofString .utf8 "scenario a\x7btraffic\x7b\x7d\x7d"
  have h : (parse src).hasError = false := by decide +kernel
  have hname : ((parse src).toNode.leaves[1]?.map fun ν => ν.data.kind) =
      some (.symbol (.terminal .identifier)) := by
    decide +kernel
  obtain ⟨ν, hν, hk⟩ := Option.map_eq_some_iff.1 hname
  refine ⟨src, ν, h, hν, hk, fun t ht => ?_⟩
  have hl : identifier.Lexeme t.spelling := matches_spelling ht
  obtain ⟨hne, -, houtline, htexts⟩ := respelling_of_hasError src h hν hk hl
  refine ⟨hne, houtline, ?_⟩
  rw [← List.getElem?_map, htexts, List.getElem?_set_self]
  rw [List.length_map]
  exact (List.getElem?_eq_some_iff.1 hν).1

end ScenarioSyntax
