import Mathlib.Data.List.Forall2
import ScenarioSyntax.Proofs.Text.Places
import ScenarioSyntax.Text.Utf8

/-!
Decoding UTF-8 cuts the bytes of a text into units, one for each code point.
-/

namespace ScenarioSyntax

namespace Utf8

/-! ### Characters -/

/-- The bytes of a character. -/
inductive IsCharacter : Nat → List UInt8 → Prop
  | one {a : UInt8} (ha : a < 0x80) : IsCharacter a.toNat [a]
  | two {a b : UInt8} (ha : 0xc2 ≤ a ∧ a ≤ 0xdf) (hb : isTail b = true) :
      IsCharacter (bits a 5 * 64 + bits b 6) [a, b]
  | three {a b c : UInt8} (ha : 0xe0 ≤ a ∧ a ≤ 0xef) (hb : secondFits a b = true)
      (hc : isTail c = true) : IsCharacter ((bits a 4 * 64 + bits b 6) * 64 + bits c 6) [a, b, c]
  | four {a b c d : UInt8} (ha : 0xf0 ≤ a ∧ a ≤ 0xf4) (hb : secondFits a b = true)
      (hc : isTail c = true) (hd : isTail d = true) :
      IsCharacter (((bits a 3 * 64 + bits b 6) * 64 + bits c 6) * 64 + bits d 6) [a, b, c, d]

lemma isTail_iff {b : UInt8} : isTail b = true ↔ 0x80 ≤ b.toNat ∧ b.toNat ≤ 0xbf := by
  simp [isTail, UInt8.le_iff_toNat_le]

lemma secondFits_iff {a b : UInt8} : secondFits a b = true ↔
    (0x80 ≤ b.toNat ∧ b.toNat ≤ 0xbf) ∧ (a.toNat = 0xe0 → 0xa0 ≤ b.toNat) ∧
      (a.toNat = 0xed → b.toNat ≤ 0x9f) ∧ (a.toNat = 0xf0 → 0x90 ≤ b.toNat) ∧
      (a.toNat = 0xf4 → b.toNat ≤ 0x8f) := by
  unfold secondFits
  simp only [← UInt8.toNat_inj]
  split_ifs <;> simp_all [isTail, UInt8.le_iff_toNat_le] <;> omega

lemma bits_eq (b : UInt8) : bits b 6 = b.toNat % 64 ∧ bits b 5 = b.toNat % 32 ∧
    bits b 4 = b.toNat % 16 ∧ bits b 3 = b.toNat % 8 := ⟨rfl, rfl, rfl, rfl⟩

lemma piece_append {c : Nat} {u : List UInt8} (h : IsCharacter c u) (r : List UInt8) :
    piece (u ++ r) = (some c, u.length) := by
  cases h with
  | one ha => simp [piece, ha]
  | @two a b ha hb =>
    have h1 : ¬ a < 0x80 := by
      simp only [UInt8.lt_iff_toNat_lt, UInt8.le_iff_toNat_le, UInt8.reduceToNat] at ha ⊢
      omega
    simp [piece, ha, hb, h1]
  | @three a b c ha hb hc =>
    have h1 : ¬ a < 0x80 ∧ ¬ a ≤ 0xdf := by
      simp only [UInt8.lt_iff_toNat_lt, UInt8.le_iff_toNat_le, UInt8.reduceToNat] at ha ⊢
      omega
    simp [piece, ha, hb, hc, h1]
  | @four a b c d ha hb hc hd =>
    have h1 : ¬ a < 0x80 ∧ ¬ a ≤ 0xdf ∧ ¬ a ≤ 0xef := by
      simp only [UInt8.lt_iff_toNat_lt, UInt8.le_iff_toNat_le, UInt8.reduceToNat] at ha ⊢
      omega
    simp [piece, ha, hb, hc, hd, h1]

/-- The bytes begin with a character, or with a byte that belongs to none. -/
lemma piece_cases (bs : List UInt8) : (piece bs).1 = none ∨
    ∃ c u r, bs = u ++ r ∧ IsCharacter c u ∧ piece bs = (some c, u.length) := by
  unfold piece
  split
  · exact .inl rfl
  rename_i a rest
  split_ifs with h1 h2 h3 h4
  · exact .inr ⟨_, [a], rest, rfl, .one h1, rfl⟩
  · rcases rest with _ | ⟨b, rest⟩
    · exact .inl rfl
    by_cases hb : isTail b
    · refine .inr ⟨_, [a, b], rest, rfl, .two (by simpa using h2) hb, by simp [hb]⟩
    · exact .inl (by simp [hb])
  · rcases rest with _ | ⟨b, _ | ⟨c, rest⟩⟩
    · exact .inl rfl
    · exact .inl (by dsimp only; split_ifs <;> rfl)
    by_cases hb : secondFits a b
    · by_cases hc : isTail c
      · exact .inr ⟨_, [a, b, c], rest, rfl, .three (by simpa using h3) hb hc, by simp [hb, hc]⟩
      · exact .inl (by simp [hb, hc])
    · exact .inl (by simp [hb])
  · rcases rest with _ | ⟨b, _ | ⟨c, _ | ⟨d, rest⟩⟩⟩
    · exact .inl rfl
    · exact .inl (by dsimp only; split_ifs <;> rfl)
    · exact .inl (by dsimp only; split_ifs <;> rfl)
    by_cases hb : secondFits a b
    · by_cases hc : isTail c
      · by_cases hd : isTail d
        · exact .inr ⟨_, [a, b, c, d], rest, rfl, .four (by simpa using h4) hb hc hd,
            by simp [hb, hc, hd]⟩
        · exact .inl (by simp [hb, hc, hd])
      · exact .inl (by simp [hb, hc])
    · exact .inl (by simp [hb])
  · exact .inl rfl

namespace IsCharacter

variable {c : Nat} {u : List UInt8}

/-- The number of bytes goes with the size of the code point. -/
lemma length_cases (h : IsCharacter c u) :
    u.length = 1 ∧ c < 0x80 ∨ u.length = 2 ∧ 0x80 ≤ c ∧ c < 0x800 ∨
      u.length = 3 ∧ 0x800 ≤ c ∧ c < 0x10000 ∨ u.length = 4 ∧ 0x10000 ≤ c := by
  cases h with
  | one ha =>
    simp only [UInt8.lt_iff_toNat_lt, UInt8.reduceToNat] at ha
    exact .inl ⟨rfl, ha⟩
  | @two a b ha hb =>
    simp only [UInt8.le_iff_toNat_le, UInt8.reduceToNat] at ha
    refine .inr (.inl ⟨rfl, ?_⟩)
    rw [(bits_eq a).2.1, (bits_eq b).1]
    omega
  | @three a b c ha hb hc =>
    simp only [UInt8.le_iff_toNat_le, UInt8.reduceToNat] at ha
    have hb := secondFits_iff.1 hb
    refine .inr (.inr (.inl ⟨rfl, ?_⟩))
    rw [(bits_eq a).2.2.1, (bits_eq b).1, (bits_eq c).1]
    omega
  | @four a b c d ha hb hc hd =>
    simp only [UInt8.le_iff_toNat_le, UInt8.reduceToNat] at ha
    have hb := secondFits_iff.1 hb
    refine .inr (.inr (.inr ⟨rfl, ?_⟩))
    rw [(bits_eq a).2.2.2, (bits_eq b).1, (bits_eq c).1, (bits_eq d).1]
    omega

lemma length_eq (h : IsCharacter c u) : u.length = Encoding.utf8.width c := by
  unfold Encoding.width
  rcases h.length_cases with h | h | h | h <;> dsimp only <;> split_ifs <;> omega

/-- All bytes of a longer character are large. -/
lemma le_of_mem (h : IsCharacter c u) (hle : 0x80 ≤ c) : ∀ a ∈ u, 0x80 ≤ a.toNat := by
  cases h with
  | one ha =>
    simp only [UInt8.lt_iff_toNat_lt, UInt8.reduceToNat] at ha
    omega
  | two ha hb =>
    simp only [UInt8.le_iff_toNat_le, UInt8.reduceToNat] at ha
    rw [isTail_iff] at hb
    simp
    omega
  | three ha hb hc =>
    simp only [UInt8.le_iff_toNat_le, UInt8.reduceToNat] at ha
    rw [secondFits_iff] at hb
    rw [isTail_iff] at hc
    simp
    omega
  | four ha hb hc hd =>
    simp only [UInt8.le_iff_toNat_le, UInt8.reduceToNat] at ha
    rw [secondFits_iff] at hb
    rw [isTail_iff] at hc hd
    simp
    omega

lemma eq_singleton (h : IsCharacter c u) (hc : c < 0x80) : ∃ a, u = [a] ∧ a.toNat = c := by
  have hlen := h.length_cases
  cases h with
  | @one a ha => exact ⟨a, rfl, rfl⟩
  | two ha hb => simp at hlen; omega
  | three ha hb _ => simp at hlen; omega
  | four ha hb _ _ => simp at hlen; omega

end IsCharacter

/-! ### Units -/

/-- The bytes that are read as one code point. -/
structure IsUnit (c : Int) (u : List UInt8) : Prop where
  decode : decode u = [c]
  length : u.length = Encoding.utf8.width c
  /-- A newline is one byte, which is part of no other code point. -/
  newline : if c = newline then u = [10] else 10 ∉ u

lemma decodeFrom_eq (n : Nat) (bs : List UInt8) : decodeFrom n bs = decode (bs.drop n) := by
  induction bs generalizing n with
  | nil => simp [decode, decodeFrom]
  | cons a bs ih =>
    cases n with
    | zero => rfl
    | succ n => rw [decodeFrom, ih, List.drop_succ_cons]

lemma decode_character {c : Nat} {u : List UInt8} (h : IsCharacter c u) (r : List UInt8) :
    decode (u ++ r) = (c : Int) :: decode r := by
  have hp := piece_append h r
  have hne : u ≠ [] := by
    rintro rfl
    cases h
  obtain ⟨a, u, rfl⟩ := List.exists_cons_of_ne_nil hne
  rw [List.cons_append] at hp ⊢
  rw [decode, decodeFrom, hp]
  dsimp only
  rw [decodeFrom_eq]
  simp

lemma decode_unreadable {a : UInt8} {r : List UInt8} (h : (piece (a :: r)).1 = none) :
    decode (a :: r) = unreadable :: decode r := by
  rcases hp : piece (a :: r) with ⟨_ | c, n⟩
  · rw [decode, decodeFrom, hp]
    dsimp only
    rw [decodeFrom_eq, List.drop_zero]
  · rw [hp] at h
    cases h

lemma IsCharacter.isUnit {c : Nat} {u : List UInt8} (h : IsCharacter c u) : IsUnit c u where
  decode := by simpa [Utf8.decode, decodeFrom] using decode_character h []
  length := h.length_eq
  newline := by
    split
    · rename_i hc
      obtain ⟨a, rfl, ha⟩ := h.eq_singleton (by unfold newline at hc; omega)
      rw [show a = 10 from UInt8.toNat_inj.1 (by rw [ha]; exact Int.ofNat_inj.1 hc)]
    · rename_i hc
      intro hmem
      rcases Nat.lt_or_ge c 0x80 with hlt | hle
      · obtain ⟨a, rfl, ha⟩ := h.eq_singleton hlt
        obtain rfl := List.mem_singleton.1 hmem
        exact hc (by rw [← ha]; rfl)
      · have := h.le_of_mem hle 10 hmem
        simp at this

lemma isUnit_unreadable {a : UInt8} {r : List UInt8} (h : (piece (a :: r)).1 = none) :
    IsUnit unreadable [a] where
  decode := by
    refine decode_unreadable (r := []) ((piece_cases [a]).resolve_right ?_)
    rintro ⟨c, u, r', heq, hu, -⟩
    have hlen := hu.length_cases
    obtain ⟨b, u, rfl⟩ := List.exists_cons_of_length_pos (l := u) (by omega)
    obtain ⟨rfl, hnil⟩ := List.cons.inj heq
    obtain ⟨rfl, -⟩ := List.append_eq_nil_iff.1 hnil.symm
    have := piece_append hu r
    rw [List.singleton_append] at this
    rw [this] at h
    cases h
  length := rfl
  newline := by
    rw [if_neg (by decide), List.mem_singleton]
    rintro rfl
    simp [piece] at h

/-- **Every text** of bytes is a sequence of units, one for each code point. -/
theorem exists_units (bs : List UInt8) :
    ∃ us : List (List UInt8), us.flatten = bs ∧ List.Forall₂ IsUnit (decode bs) us := by
  induction hn : bs.length using Nat.strongRecOn generalizing bs with
  | ind n ih =>
    subst hn
    rcases piece_cases bs with hnone | ⟨c, u, r, rfl, hu, -⟩
    · cases bs with
      | nil => exact ⟨[], rfl, .nil⟩
      | cons a r =>
        obtain ⟨us, rfl, hus⟩ := ih r.length (by simp) r rfl
        rw [decode_unreadable hnone]
        exact ⟨[a] :: us, rfl, .cons (isUnit_unreadable hnone) hus⟩
    · have hlen := hu.length_cases
      obtain ⟨us, rfl, hus⟩ := ih r.length (by rw [List.length_append]; omega) r rfl
      rw [decode_character hu]
      exact ⟨u :: us, rfl, .cons hu.isUnit hus⟩

/-! ### Encoding -/

lemma toNat_ofNat {n : Nat} (h : n < 256) : (UInt8.ofNat n).toNat = n := UInt8.toNat_ofNat_of_lt' h

/-- The bytes that a character is encoded as are those of a character. -/
lemma isCharacter_encode (c : Char) : IsCharacter c.toNat (String.utf8EncodeChar c) := by
  have hvalid : c.toNat < 0xd800 ∨ 0xdfff < c.toNat ∧ c.toNat < 0x110000 := c.valid
  unfold String.utf8EncodeChar
  simp only [show c.val.toNat = c.toNat from rfl]
  generalize c.toNat = v at hvalid
  split_ifs with h1 h2 h3
  · have ha := toNat_ofNat (n := v) (by omega)
    have h := IsCharacter.one (a := UInt8.ofNat v) (by
      simp only [UInt8.lt_iff_toNat_lt, UInt8.reduceToNat]; omega)
    rwa [ha] at h
  · have ha := toNat_ofNat (n := v / 64 % 32 + 192) (by omega)
    have hb := toNat_ofNat (n := v % 64 + 128) (by omega)
    have h := IsCharacter.two (a := UInt8.ofNat (v / 64 % 32 + 192))
      (b := UInt8.ofNat (v % 64 + 128))
      (by simp only [UInt8.le_iff_toNat_le, UInt8.reduceToNat]; omega)
      (by rw [isTail_iff]; omega)
    rw [(bits_eq _).2.1, (bits_eq _).1, ha, hb] at h
    rwa [show (v / 64 % 32 + 192) % 32 * 64 + (v % 64 + 128) % 64 = v by omega] at h
  · have ha := toNat_ofNat (n := v / 4096 % 16 + 224) (by omega)
    have hb := toNat_ofNat (n := v / 64 % 64 + 128) (by omega)
    have hc := toNat_ofNat (n := v % 64 + 128) (by omega)
    have h := IsCharacter.three (a := UInt8.ofNat (v / 4096 % 16 + 224))
      (b := UInt8.ofNat (v / 64 % 64 + 128)) (c := UInt8.ofNat (v % 64 + 128))
      (by simp only [UInt8.le_iff_toNat_le, UInt8.reduceToNat]; omega)
      (by rw [secondFits_iff]; omega) (by rw [isTail_iff]; omega)
    rw [(bits_eq _).2.2.1, (bits_eq _).1, (bits_eq _).1, ha, hb, hc] at h
    rwa [show ((v / 4096 % 16 + 224) % 16 * 64 + (v / 64 % 64 + 128) % 64) * 64 +
      (v % 64 + 128) % 64 = v by omega] at h
  · have ha := toNat_ofNat (n := v / 262144 % 8 + 240) (by omega)
    have hb := toNat_ofNat (n := v / 4096 % 64 + 128) (by omega)
    have hc := toNat_ofNat (n := v / 64 % 64 + 128) (by omega)
    have hd := toNat_ofNat (n := v % 64 + 128) (by omega)
    have h := IsCharacter.four (a := UInt8.ofNat (v / 262144 % 8 + 240))
      (b := UInt8.ofNat (v / 4096 % 64 + 128)) (c := UInt8.ofNat (v / 64 % 64 + 128))
      (d := UInt8.ofNat (v % 64 + 128))
      (by simp only [UInt8.le_iff_toNat_le, UInt8.reduceToNat]; omega)
      (by rw [secondFits_iff]; omega) (by rw [isTail_iff]; omega) (by rw [isTail_iff]; omega)
    rw [(bits_eq _).2.2.2, (bits_eq _).1, (bits_eq _).1, (bits_eq _).1, ha, hb, hc, hd] at h
    rwa [show (((v / 262144 % 8 + 240) % 8 * 64 + (v / 4096 % 64 + 128) % 64) * 64 +
      (v / 64 % 64 + 128) % 64) * 64 + (v % 64 + 128) % 64 = v by omega] at h

/-- **Decoding** gives back the characters that were encoded. -/
theorem decode_encode (cs : List Char) :
    decode (cs.flatMap String.utf8EncodeChar) = cs.map fun c => (c.toNat : Int) := by
  induction cs with
  | nil => rfl
  | cons c cs ih =>
    rw [List.flatMap_cons, decode_character (isCharacter_encode c), ih, List.map_cons]

/-! ### Places -/

section Units

variable {points : List Int} {us : List (List UInt8)}

lemma length_flatten (h : List.Forall₂ IsUnit points us) :
    us.flatten.length = Encoding.utf8.size points := by
  induction h with
  | nil => rfl
  | cons hu _ ih => rw [List.flatten_cons, List.length_append, ih, hu.length, Encoding.size_cons]

lemma count_flatten (h : List.Forall₂ IsUnit points us) :
    us.flatten.count 10 = points.count newline := by
  induction h with
  | nil => rfl
  | @cons c u points us hu _ ih =>
    have hnewline := hu.newline
    rw [List.flatten_cons, List.count_append, ih]
    by_cases hc : c = newline
    · rw [if_pos hc] at hnewline
      subst hc hnewline
      simp [Nat.add_comm]
    · rw [if_neg hc] at hnewline
      simp [hc, List.count_eq_zero.2 hnewline]

lemma length_rtakeWhile_flatten (h : List.Forall₂ IsUnit points us) :
    (us.flatten.rtakeWhile fun b => b ≠ 10).length = Encoding.utf8.size (lastLine points) := by
  induction us using List.reverseRecOn generalizing points with
  | nil =>
    cases h
    rfl
  | append_singleton us u ih =>
    have htake := List.forall₂_take_append points us [u] h
    have hdrop := List.forall₂_drop_append points us [u] h
    rw [← List.take_append_drop us.length points]
    generalize points.take us.length = front at htake
    generalize points.drop us.length = last at hdrop
    cases hdrop with
    | @cons c _ _ _ hu hnil =>
      cases hnil
      have hnewline := hu.newline
      rw [List.flatten_append, List.flatten_singleton]
      by_cases hc : c = newline
      · rw [if_pos hc] at hnewline
        subst hc hnewline
        rw [lastLine_newline, List.rtakeWhile_concat_neg _ _ _ (by simp)]
        rfl
      · rw [if_neg hc] at hnewline
        rw [lastLine_concat _ hc, Encoding.size_append, ← ih htake, Encoding.size_cons, ← hu.length,
          List.rtakeWhile, List.reverse_append, List.takeWhile_append_of_pos]
        · simp [List.rtakeWhile, Nat.add_comm]
        · intro b hb
          have : b ≠ 10 := by
            rintro rfl
            exact hnewline (List.mem_reverse.1 hb)
          simpa using this

/-- The units of the first code points are the first bytes. -/
lemma split_flatten (h : List.Forall₂ IsUnit points us) (i : Nat) :
    us.flatten.take (Encoding.utf8.size (points.take i)) = (us.take i).flatten ∧
      us.flatten.drop (Encoding.utf8.size (points.take i)) = (us.drop i).flatten := by
  have hsplit : us.flatten = (us.take i).flatten ++ (us.drop i).flatten := by
    rw [← List.flatten_append, List.take_append_drop]
  rw [hsplit, ← length_flatten (List.forall₂_take i h), List.take_left, List.drop_left]
  exact ⟨rfl, rfl⟩

end Units

end Utf8

/-- The places in the text are places among the bytes: each code point is read from the bytes that
it takes up, rows count newlines, and columns the bytes since the last of them. -/
structure Source.Spells (src : Source) (bytes : List UInt8) : Prop where
  byte_length : src.byte src.length = bytes.length
  decode : ∀ i c, src.points[i]? = some c →
    Utf8.decode ((bytes.drop (src.byte i)).take (src.encoding.width c)) = [c]
  row : ∀ i ≤ src.length, src.row i = (bytes.take (src.byte i)).count 10
  column : ∀ i ≤ src.length,
    src.column i = ((bytes.take (src.byte i)).rtakeWhile fun b => b ≠ 10).length

/-- **Bytes** that are decoded keep their places. -/
theorem Source.spells_decode (bytes : List UInt8) :
    (Source.ofPoints .utf8 (Utf8.decode bytes)).Spells bytes := by
  obtain ⟨us, rfl, hus⟩ := Utf8.exists_units bytes
  generalize Utf8.decode us.flatten = points at hus
  have hbyte : ∀ i ≤ points.length,
      us.flatten.take ((Source.ofPoints .utf8 points).byte i) = (us.take i).flatten ∧
        us.flatten.drop ((Source.ofPoints .utf8 points).byte i) = (us.drop i).flatten := by
    intro i hi
    rw [Source.byte_eq _ (show i ≤ (Source.ofPoints .utf8 points).length from hi)]
    exact Utf8.split_flatten hus i
  have hplace : ∀ i ≤ points.length, (Source.ofPoints .utf8 points).place i =
      ⟨(us.take i).flatten.length, (us.take i).flatten.count 10,
        ((us.take i).flatten.rtakeWhile fun b => b ≠ 10).length⟩ := by
    intro i hi
    have htake := List.forall₂_take i hus
    rw [Source.place_eq _ (show i ≤ (Source.ofPoints .utf8 points).length from hi),
      Utf8.length_flatten htake, Utf8.count_flatten htake, Utf8.length_rtakeWhile_flatten htake]
    rfl
  refine ⟨?_, fun i c hc => ?_, fun i hi => ?_, fun i hi => ?_⟩
  · rw [Source.byte, show (Source.ofPoints .utf8 points).length = points.length from rfl,
      hplace _ le_rfl, hus.length_eq, List.take_length]
  · obtain ⟨hlt, -⟩ := List.getElem?_eq_some_iff.1 hc
    have hlt : i < points.length := hlt
    have hdrop := List.forall₂_drop i hus
    obtain rfl : points[i] = c := by
      simpa [Source.ofPoints, List.getElem?_eq_getElem hlt] using hc
    rw [List.drop_eq_getElem_cons hlt] at hdrop
    rw [(hbyte i hlt.le).2]
    generalize us.drop i = vs at hdrop
    cases hdrop with
    | cons hu _ =>
      rw [List.flatten_cons, show (Source.ofPoints .utf8 points).encoding = .utf8 from rfl,
        ← hu.length, List.take_left]
      exact hu.decode
  · rw [Source.row, hplace i hi, (hbyte i hi).1]
  · rw [Source.column, hplace i hi, (hbyte i hi).1]

end ScenarioSyntax
