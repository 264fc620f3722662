import ScenarioSyntax.Proofs.Repair.Forks
import ScenarioSyntax.Repair.Reduction

/-!
Reductions on branches. What has been read of a construct is taken off the stack in every way, and
the construct is put in its place: the new branches stand where the old one did, in states that do
not look for an identifier.
-/

namespace ScenarioSyntax

open Grammar Table

/-- Where a construct may end, the symbols of an alternative have been read. -/
lemma Table.hasRead_of_reduce {s : StateId} {t : Terminal} {n : Nonterminal} {arity : Nat}
    {l : Layout} (h : action? s t = some (.reduce n arity l)) :
    ∃ done, hasRead s ⟨some n, done⟩ = true ∧ done.length = arity ∧
      l.label 0 done.reverse ∈ productions n := by
  obtain ⟨done, hp, hlength, hmem⟩ := progress_of_reduce h
  refine ⟨done, ?_, hlength, hmem⟩
  rw [hasRead, if_neg]
  · exact decide_eq_true hp
  · rintro rfl
    exact ne_nil_of_mem_productions hmem rfl

namespace Search

variable {points : List Int} {src : Source} {r r' r'' : Search} {i j k : Nat}
  {a : StateId × Nat} {s u : StateId} {p q : Nat} {n : Nonterminal} {l : Layout}

lemma drops_of_mergeAmong? {skip : Option Nat} {lo hi : Nat} (h : r.Sound src.points)
    (hm : r.mergeAmong? src j skip lo hi = some r') : Drops src.points j r r' := by
  obtain ⟨i, -, hmerge⟩ := List.exists_of_findSome?_eq_some hm
  exact h.merge hmerge

lemma lt_of_mergeAmong? {skip : Option Nat} {lo hi : Nat}
    (hm : r.mergeAmong? src j skip lo hi = some r') : lo < hi := by
  by_contra hle
  have hnil : (List.range hi).drop lo = [] :=
    List.drop_eq_nil_of_le (by rw [List.length_range]; omega)
  rw [mergeAmong?, hnil] at hm
  cases hm

/-- The branch stands at the position, and its state does not look for an identifier. -/
def Settled (q : Nat) (r : Search) (k : Nat) : Prop :=
  ∃ s, r.Stands k (s, q) ∧ wants s .identifier = false

/-- The branches from `before` on are new, and stand at the position. -/
structure Reduces (points : List Int) (q before : Nat) (r r' : Search) : Prop where
  keeps : Keeps points (· < before) r r'
  le_count : before ≤ r'.count
  settled : ∀ k, before ≤ k → k < r'.count → Settled q r' k

/-- The construct takes the place of what has been read of it. -/
lemma Stands.construct (hi : r.Stands i (u, p)) (h : r.Sound src.points)
    (hopens : opens u (some n) = true) {ys : List Symbol} (hmem : l.label 0 ys ∈ productions n)
    {ts : List Tree} (hts : Tree.LiesAll src.points ts p q)
    (hshapes : Tree.shapes ts = ys.map some) :
    Moves src.points i (goto u n, q) r (r.pushAll src i
      (.node (.rule n l) (Tree.splitTrailing ts).1 :: (Tree.splitTrailing ts).2) (goto u n)) := by
  obtain ⟨m, hlies, htrailing⟩ := hts.exists_node hshapes hmem
  have hmoves : (Tree.node (.rule n l) (Tree.splitTrailing ts).1).Moves u (goto u n) :=
    .read rfl rfl (next?_of_opens hopens)
  have hnode := hi.take h hmoves hlies
  exact hnode.trans (hnode.stands.pushAll hnode.keeps.sound
    (fun t ht => Stack.isExtra_of_mem_trailing ht) htrailing)

lemma foldl_chooseChildren_mem (src : Source) (n : Nonterminal) (l : Layout)
    (way : List Tree × List Tree) (others : List (List Tree × List Tree)) :
    others.foldl (chooseChildren src n l) way ∈ way :: others := by
  induction others generalizing way with
  | nil => exact List.mem_singleton_self _
  | cons other others ih =>
    rw [List.foldl_cons]
    rcases List.mem_cons.1 (ih (chooseChildren src n l way other)) with heq | hmem
    · rw [heq, chooseChildren]
      split
      · exact List.mem_cons_of_mem _ List.mem_cons_self
      · exact List.mem_cons_self
    · exact List.mem_cons_of_mem _ (List.mem_cons_of_mem _ hmem)

/-- While the new branches take the construct: those from `b` on are still where the trees were
taken off, and those before it stand at the position. -/
structure Fills (points : List Int) (q before : Nat) (E : StateId → List Tree → Prop) (r : Search)
    (b removed : Nat) (groups : List (Nat × List (List Tree))) : Prop where
  before_le : before ≤ b
  count_eq : r.count = b + groups.length
  held : Lined (Held points q E r) b removed groups
  settled : ∀ k, before ≤ k → k < b → Settled q r k

namespace Fills

variable {before b removed : Nat} {E : StateId → List Tree → Prop} {g : Nat × List (List Tree)}
  {groups : List (Nat × List (List Tree))}

/-- A branch goes, and the ones behind it move up. -/
lemma drop (hf : Fills points q before E r b removed (g :: groups)) (h : r.Sound points)
    (hk : Keeps points (· ≠ b) r r') (hcount : r'.count = r.count) (hd : Drops points b r' r'') :
    Fills points q before E r'' b (removed + 1) groups ∧ Keeps points (· < before) r r'' := by
  obtain ⟨hb, hlength, ⟨-, -, hrest⟩, hsettled⟩ := hf
  rw [List.length_cons] at hlength
  refine ⟨⟨hb, by rw [hd.count_eq, hcount, hlength]; rfl, hrest.shift fun k hkb ways hheld => ?_,
    fun k hkb hlt => ?_⟩, ?_⟩
  · exact hheld.of_stands
      (hd.stands_above hk.sound hkb (hk.stands h (by omega) hheld.stands))
  · obtain ⟨s, hs, hw⟩ := hsettled k hkb hlt
    exact ⟨s, hd.stands hk.sound hlt (hk.stands h (Nat.ne_of_lt hlt) hs), hw⟩
  · exact (hk.imp fun k hlt => by omega).trans (hd.keeps.imp fun k hlt => by omega)

/-- A branch comes to stand at the position. -/
lemma settle (hf : Fills points q before E r b removed (g :: groups)) (h : r.Sound points)
    (hmoves : Moves points b (s, q) r r') (hw : wants s .identifier = false) :
    Fills points q before E r' (b + 1) removed groups ∧ Keeps points (· < before) r r' := by
  obtain ⟨hb, hlength, ⟨-, -, hrest⟩, hsettled⟩ := hf
  rw [List.length_cons] at hlength
  refine ⟨⟨by omega, by rw [hmoves.count_eq, hlength]; omega, hrest.imp fun k hkb ways hheld => ?_,
    fun k hkb hlt => ?_⟩, hmoves.keeps.imp fun k hlt => by omega⟩
  · exact hheld.of_stands (hmoves.keeps.stands h (by omega) hheld.stands)
  · by_cases hkb' : k = b
    · exact ⟨s, hkb' ▸ hmoves.stands, hw⟩
    · obtain ⟨u, hu, hw'⟩ := hsettled k hkb (by omega)
      exact ⟨u, hmoves.keeps.stands h hkb' hu, hw'⟩

end Fills

lemma Reduces.of_keeps {before : Nat} (hk : Keeps points (· < before) r r')
    (h : Reduces points q before r' r'') : Reduces points q before r r'' :=
  ⟨hk.trans h.keeps, h.le_count, h.settled⟩

/-- The new branches take the construct, one after the other; some of them are given up or merged
into earlier ones. -/
theorem Fills.reduceOnto {ys : List Symbol} (hmem : l.label 0 ys ∈ productions n)
    {before b removed : Nat} {groups : List (Nat × List (List Tree))} (h : r.Sound src.points)
    (hf : Fills src.points q before (fun s ts => opens s (some n) = true ∧
      Tree.shapes ts = ys.map some) r b removed groups) :
    Reduces src.points q before r (reduceOnto src i n l r removed groups) := by
  induction groups generalizing r b removed with
  | nil =>
    rw [Search.reduceOnto]
    exact ⟨.refl h, hf.before_le.trans_eq hf.count_eq.symm,
      fun k hk hlt => hf.settled k hk (hlt.trans_eq hf.count_eq)⟩
  | cons g groups ih =>
    obtain ⟨j, ways⟩ := g
    obtain ⟨rfl, hways, -⟩ := hf.held
    have hlt : b < r.count := by
      rw [hf.count_eq, List.length_cons]
      omega
    simp only [Search.reduceOnto, Nat.add_sub_cancel]
    split
    · obtain ⟨hf', hk⟩ := hf.drop h (.refl h) rfl (h.drops hlt)
      exact .of_keeps hk (ih hk.sound hf')
    split
    · rename_i hnil
      exact absurd (List.map_eq_nil_iff.1 hnil) hways.ne
    rename_i way others hcons
    have hchosen := foldl_chooseChildren_mem src n l way others
    rw [← hcons] at hchosen
    obtain ⟨ts, hts, heq⟩ := List.mem_map.1 hchosen
    obtain ⟨hlies, hopens, hshapes⟩ := hways.lies ts hts
    have hmoves := hways.stands.construct h hopens hmem hlies hshapes
    rw [← heq]
    split
    · rename_i r₂ hm
      obtain ⟨hf', hk⟩ := hf.drop h hmoves.keeps hmoves.count_eq
        (drops_of_mergeAmong? hmoves.keeps.sound hm)
      exact .of_keeps hk (ih hk.sound hf')
    · obtain ⟨hf', hk⟩ := hf.settle h hmoves (wants_identifier_of_next (next?_of_opens hopens))
      exact .of_keeps hk (ih hk.sound hf')

/-- **A reduction** leaves the branch as it is. The new branches, if there are any, stand at the
same position. -/
theorem Sound.reduce (h : r.Sound src.points) (hi : r.Stands i (s, q)) {t : Terminal} {arity : Nat}
    (ha : action? s t = some (.reduce n arity l)) :
    Reduces src.points q r.count r (r.reduce src i n arity l).1 ∧
      ∀ j, (r.reduce src i n arity l).2 = some j →
        j = r.count ∧ r.count < (r.reduce src i n arity l).1.count := by
  obtain ⟨done, hread, rfl, hmem⟩ := hasRead_of_reduce ha
  have hforks := h.pop_construct hi hread
  have hfills : Reduces src.points q r.count (r.pop i done.length).1
      (r.reduce src i n done.length l).1 :=
    Fills.reduceOnto hmem hforks.keeps.sound
      ⟨le_rfl, hforks.count_eq, hforks.held, fun k hk hlt => by omega⟩
  refine ⟨.of_keeps hforks.keeps hfills, fun j hj => ?_⟩
  rw [Search.reduce] at hj ⊢
  dsimp only at hj ⊢
  split at hj
  · rename_i hlt
    exact ⟨(Option.some.inj hj).symm, hlt⟩
  · cases hj

/-! ### All reductions -/

lemma Reduces.refl (h : r.Sound points) : Reduces points q r.count r r :=
  ⟨.refl h, le_rfl, fun k hk hlt => by omega⟩

lemma Reduces.trans {before : Nat} (h : Reduces points q before r r')
    (h' : Reduces points q r'.count r' r'') : Reduces points q before r r'' where
  keeps := h.keeps.trans (h'.keeps.imp fun k hk => hk.trans_le h.le_count)
  le_count := h.le_count.trans h'.le_count
  settled k hk hlt := by
    by_cases hk' : k < r'.count
    · obtain ⟨s, hs, hw⟩ := h.settled k hk hk'
      exact ⟨s, h'.keeps.stands h.keeps.sound hk' hs, hw⟩
    · exact h'.settled k (Nat.le_of_not_lt hk') hlt

lemma exists_of_mem_reductions (s : StateId) (ts : List Terminal) :
    ∀ e ∈ reductions s ts, ∃ t, action? s t = some (.reduce e.1 e.2.1 e.2.2) := by
  rw [reductions]
  refine List.foldlRecOn ts _ (motive := fun out : List (Nonterminal × Nat × Layout) =>
    ∀ e ∈ out, ∃ t, action? s t = some (.reduce e.1 e.2.1 e.2.2)) (List.forall_mem_nil _) ?_
  intro out hout t _
  split
  · rename_i n arity l ha
    split
    · exact hout
    · exact List.forall_mem_append.2 ⟨hout, List.forall_mem_singleton.2 ⟨t, ha⟩⟩
  · exact hout

/-- Several reductions of the same branch. -/
lemma Sound.reduceEach (h : r.Sound src.points) (hi : r.Stands i (s, q))
    {es : List (Nonterminal × Nat × Layout)}
    (hes : ∀ e ∈ es, ∃ t, action? s t = some (.reduce e.1 e.2.1 e.2.2)) {last : Option Nat}
    (heq : es.foldl (fun (r, _) (n, k, l) => r.reduce src i n k l) (r, none) = (r', last)) :
    Reduces src.points q r.count r r' ∧ ∀ j, last = some j → r.count ≤ j ∧ j < r'.count := by
  suffices hall : ∀ x : Search × Option Nat,
      es.foldl (fun (r, _) (n, k, l) => r.reduce src i n k l) (r, none) = x →
      Reduces src.points q r.count r x.1 ∧ ∀ j, x.2 = some j → r.count ≤ j ∧ j < x.1.count from
    hall _ heq
  rintro x rfl
  refine List.foldlRecOn es _ (motive := fun x : Search × Option Nat =>
    Reduces src.points q r.count r x.1 ∧ ∀ j, x.2 = some j → r.count ≤ j ∧ j < x.1.count)
    ⟨.refl h, fun j hj => by cases hj⟩ ?_
  rintro ⟨r₁, _⟩ ⟨hx, -⟩ ⟨n, k, l⟩ he
  obtain ⟨t, ht⟩ := hes _ he
  obtain ⟨hstep, hlast⟩ := hx.keeps.sound.reduce
    (hx.keeps.stands h (lt_count_of_isActive hi.active) hi) ht
  refine ⟨hx.trans hstep, fun j hj => ?_⟩
  obtain ⟨rfl, hlt⟩ := hlast j hj
  exact ⟨hx.le_count, hlt⟩

/-- The branch `start`, and the branches from `before` on, stand at the position. The other ones are
where they were. The branch `start` itself is given up only if there is a definite terminal. -/
structure Spreads (points : List Int) (t : Option Terminal) (start before q : Nat)
    (r r' : Search) : Prop where
  keeps : Keeps points (fun k => k < before ∧ k ≠ start) r r'
  start_le : start ≤ r'.count
  lt_count : isDefinite t = false → start < r'.count
  le_count : start < r'.count → before ≤ r'.count
  stands : ∀ k, k = start ∨ before ≤ k → k < r'.count → ∃ s, r'.Stands k (s, q)

namespace Spreads

variable {t : Option Terminal} {start before : Nat}

lemma reduces (h : Spreads points t start before q r r') (hcount : before ≤ r'.count)
    (hr : Reduces points q r'.count r' r'') : Spreads points t start before q r r'' where
  keeps := h.keeps.trans (hr.keeps.imp fun k hk => hk.1.trans_le hcount)
  start_le := h.start_le.trans hr.le_count
  lt_count ht := (h.lt_count ht).trans_le hr.le_count
  le_count _ := hcount.trans hr.le_count
  stands k hk hlt := by
    by_cases hk' : k < r'.count
    · obtain ⟨s, hs⟩ := h.stands k hk hk'
      exact ⟨s, hr.keeps.stands h.keeps.sound hk' hs⟩
    · obtain ⟨s, hs, -⟩ := hr.settled k (Nat.le_of_not_lt hk') hlt
      exact ⟨s, hs⟩

/-- One of the branches goes. The branch `start` itself may go if it is the last one before the new
ones. -/
lemma drops (h : Spreads points t start before q r r') (hstart : start < before)
    (hi : before ≤ i ∨ i = start ∧ start + 1 = before ∧ isDefinite t = true) (hlt : i < r'.count)
    (hd : Drops points i r' r'') : Spreads points t start before q r r'' where
  keeps := h.keeps.trans (hd.keeps.imp fun k hk => by omega)
  start_le := by
    have := hd.count_eq
    omega
  lt_count ht := by
    have := hd.count_eq
    rcases hi with hi | ⟨-, -, ht'⟩
    · omega
    · rw [ht] at ht'
      cases ht'
  le_count hs := by
    have := hd.count_eq
    omega
  stands k hk hlt' := by
    rw [hd.count_eq] at hlt'
    by_cases hki : k < i
    · obtain ⟨s, hs⟩ := h.stands k hk (by omega)
      exact ⟨s, hd.stands h.keeps.sound hki hs⟩
    · obtain ⟨s, hs⟩ := h.stands (k + 1) (by omega) (by omega)
      exact ⟨s, hd.stands_above h.keeps.sound (Nat.le_of_not_lt hki) hs⟩

/-- One of the branches gives way to a later one. -/
lemma replace (h : Spreads points t start before q r r') (hstart : start < before)
    (hi : i = start ∨ before ≤ i) (hij : i < j) (hj : before ≤ j) (hlt : j < r'.count) :
    Spreads points t start before q r (r'.replace j i) := by
  obtain ⟨hsound, hgraph, hcount, hcore⟩ := h.keeps.sound.replace hij hlt
  have hgrows : r'.graph.Extends (r'.replace j i).graph := hgraph ▸ .refl _
  refine ⟨h.keeps.trans ⟨hsound, hgrows, fun k hk => ?_⟩, by omega, fun _ => by omega,
    fun _ => by omega, fun k hk hlt' => ?_⟩
  · rw [hcore, if_neg (by omega), if_pos (by omega)]
  · rw [hcount] at hlt'
    obtain ⟨s, hs⟩ := h.stands (if k = i then j else if k < j then k else k + 1)
      (by split <;> [exact .inr hj; split <;> omega])
      (by split <;> [exact hlt; split <;> omega])
    exact ⟨s, hs.of_core h.keeps.sound hgrows (hcore k)⟩

end Spreads

/-- One reduction after the other, from the branch `j` on. -/
theorem Spreads.reduceAllFrom {t : Option Terminal} {start before : Nat} (fuel round : Nat)
    (found : Bool) (hs : Spreads src.points t start before q r r') (hstart : start < before)
    (ht : isDefinite t = true → start + 1 = before) (hj : j = start ∨ before ≤ j) :
    Spreads src.points t start before q r
      (Search.reduceAllFrom src start before t fuel round r' j found).2 := by
  induction fuel generalizing round r' j found with
  | zero => exact hs
  | succ fuel ih =>
    rw [Search.reduceAllFrom]
    dsimp only
    split
    · exact hs
    rename_i hlt
    have hlt := Nat.lt_of_not_le hlt
    have hcount : before ≤ r'.count := by
      rcases hj with rfl | hj
      · exact hs.le_count hlt
      · exact hj.trans hlt.le
    split
    · rename_i r'' hm
      have hle := lt_of_mergeAmong? hm
      exact ih _ _ (hs.drops hstart (.inl hle.le) hlt
        (drops_of_mergeAmong? hs.keeps.sound hm)) (.inr hle.le)
    obtain ⟨u, hu⟩ := hs.stands j hj hlt
    obtain ⟨r₁, last, hfold⟩ : ∃ r₁ last, (reductions (r'.state j) (candidates t)).foldl
        (fun (r, _) (n, k, l) => r.reduce src j n k l) (r', none) = (r₁, last) := ⟨_, _, rfl⟩
    obtain ⟨hreduces, hlast⟩ := hs.keeps.sound.reduceEach hu
      (hu.state_eq ▸ exists_of_mem_reductions _ _) hfold
    rw [hfold]
    have hs₁ := hs.reduces hcount hreduces
    have hnext : (if j = start then r'.count else j + 1) = start ∨
        before ≤ (if j = start then r'.count else j + 1) := by
      split <;> omega
    -- a branch that takes no terminal goes, if the terminal is given
    have hgone : Spreads src.points t start before q r
        (if isDefinite t then r₁.remove j else r₁) := by
      split
      · rename_i hdefinite
        have hlt₁ := hlt.trans_le hreduces.le_count
        exact hs₁.drops hstart (hj.symm.imp_right fun hj => ⟨hj, ht hdefinite, hdefinite⟩) hlt₁
          (hs₁.keeps.sound.drops hlt₁)
      · exact hs₁
    dsimp only
    split
    · exact ih _ _ hs₁ hnext
    split
    · rename_i k
      obtain ⟨hk, hlt₁⟩ := hlast k rfl
      split
      · exact ih _ _ (hs₁.replace hstart hj (hlt.trans_le hk) (hcount.trans hk) hlt₁) hj
      · exact ih _ _ hgone hnext
    · exact ih _ _ hgone hnext

/-- **All reductions** that are possible from a branch on lead to branches at the same position. If
a branch may be given up, it must be the last one. -/
theorem Sound.reduceAll (h : r.Sound src.points) (hi : r.Stands i (s, q)) (t : Option Terminal)
    (ht : isDefinite t = true → i + 1 = r.count) :
    Spreads src.points t i r.count q r (r.reduceAll src i t).2 := by
  have hlt := lt_count_of_isActive hi.active
  have hinit : Spreads src.points t i r.count q r r := by
    refine ⟨.refl h, hlt.le, fun _ => hlt, fun _ => le_rfl, fun k hk hk' => ?_⟩
    rcases hk with rfl | hk
    · exact ⟨s, hi⟩
    · omega
  exact hinit.reduceAllFrom _ _ _ hlt ht (.inl rfl)

end Search

end ScenarioSyntax
