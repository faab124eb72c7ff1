import IavlStore.Changeset.Format

/-! What reading a record takes from an arbitrary stream. The number of bytes that is reported
comes from the header, and the pairs are counted by the size they would be written with, so it
is the number of bytes taken only if the lengths are spelled with as few bytes as possible and
the size in the header is not negative. -/

namespace IavlStore.Changeset

open IavlStore.Base.Encoding IavlStore.Base.Parsers

/-- A payload whose lengths take as few bytes as possible. Any deletion flag but 1 means false. -/
inductive ShortestPayload : ChangeSet → Bytes → Prop where
  | nil : ShortestPayload [] []
  | cons {pair : KVPair} {pairs : ChangeSet} {flag : UInt8} {bs : Bytes} (hflag : flag = 1 ↔ pair.delete = true)
    (rest : ShortestPayload pairs bs) : ShortestPayload (pair :: pairs) (flag :: layout pair ++ bs)

/-- The size of the payload in the header of a record. -/
def payloadSize (record : Bytes) : ℕ := readLE ((record.take 16).drop 8)

def encodedSize (cs : ChangeSet) : ℕ := (cs.map encodedSizeOfKVPair).sum

/-! ### The bytes taken -/

theorem ShortestPayload.length_eq {cs : ChangeSet} {w : Bytes} (h : ShortestPayload cs w)
    (hslices : ∀ p ∈ cs, SliceLengths p) : w.length = encodedSize cs := by
  induction h with
  | nil => rfl
  | @cons pair pairs flag bs hflag rest ih =>
    have hp := length_layout (hslices pair List.mem_cons_self)
    have hrest := ih fun p hp => hslices p (List.mem_cons_of_mem pair hp)
    simp only [List.length_append, List.length_cons, encodedSize, List.map_cons, List.sum_cons] at hrest ⊢
    omega

theorem accepts_readSlice (n : ℕ) : Accepts (readSlice n) fun bs w => w = bs ∧ bs.length = n ∧ n < 2 ^ 63 := by
  unfold readSlice
  split_ifs with hn
  · exact .throw _
  · intro l a r h
    obtain ⟨w, hw, heq, hlen⟩ := (accepts_readFull n).lift l a r h
    exact ⟨w, hw, heq, hlen, not_le.mp hn⟩

theorem accepts_readKVPair : Accepts readKVPair fun pair w => SliceLengths pair ∧
    encodedSizeOfKVPair pair ≤ w.length ∧
    (w.length = encodedSizeOfKVPair pair → ∃ flag, (flag = 1 ↔ pair.delete = true) ∧ w = flag :: layout pair) := by
  refine accepts_readByte.lift.bind fun flag u hu => accepts_readUvarint.lift.bind fun keyLen uk hk =>
    (accepts_readSlice keyLen).bind fun key key' hkey => ?_
  obtain rfl := hu
  obtain ⟨rfl, rfl, hlen⟩ := hkey
  obtain ⟨hkle, hkeq⟩ := hk
  split_ifs with hflag
  · have hslice : SliceLengths ⟨true, key', none⟩ := ⟨hlen, Nat.two_pow_pos 63⟩
    have hsize := length_layout hslice
    refine .pure ⟨hslice, ?_⟩
    simp only [layout, if_true, List.length_append, List.length_singleton, List.length_nil] at hsize ⊢
    refine ⟨by omega, fun heq => ⟨flag, by simp [hflag], ?_⟩⟩
    rw [hkeq (by omega)]
    simp
  · refine accepts_readUvarint.lift.bind fun valueLen' uv hv => (accepts_readSlice valueLen').bind fun value value' hvalue => ?_
    obtain ⟨rfl, rfl, hlen'⟩ := hvalue
    obtain ⟨hvle, hveq⟩ := hv
    have hslice : SliceLengths ⟨false, key', some value'⟩ := ⟨hlen, hlen'⟩
    have hsize := length_layout hslice
    refine .pure ⟨hslice, ?_⟩
    simp only [layout, Bool.false_eq_true, if_false, List.length_append, List.length_singleton, List.length_nil, valueLen,
      Option.getD_some] at hsize ⊢
    refine ⟨by omega, fun heq => ⟨flag, by simp [hflag], ?_⟩⟩
    rw [hkeq (by omega), hveq (by omega)]
    simp

theorem accepts_readPairs (size : ℤ) (rounds : ℕ) (offset : ℤ) :
    Accepts (readPairs size rounds offset) fun r w => (∀ p ∈ r.1, SliceLengths p) ∧
      r.2 = offset + encodedSize r.1 ∧ encodedSize r.1 ≤ w.length ∧
      (w.length = encodedSize r.1 → ShortestPayload r.1 w) := by
  induction rounds generalizing offset with
  | zero => exact .pure ⟨by simp, by simp [encodedSize], by simp [encodedSize], fun _ => .nil⟩
  | succ rounds ih =>
    rw [readPairs]
    split_ifs with hlt
    · refine accepts_readKVPair.bind fun pair u ⟨hslice, hle, heq⟩ => (ih _).bind fun r w ⟨hslices, hlast, hle', heq'⟩ => ?_
      obtain ⟨pairs, last⟩ := r
      refine .pure ⟨List.forall_mem_cons.mpr ⟨hslice, hslices⟩, ?_⟩
      simp only [encodedSize, List.map_cons, List.sum_cons, List.length_append, List.append_nil, Nat.cast_add] at *
      refine ⟨by omega, by omega, fun h => ?_⟩
      obtain ⟨flag, hflag, rfl⟩ := heq (by omega)
      exact .cons hflag (heq' (by omega))
    · exact .pure ⟨by simp, by simp [encodedSize], by simp [encodedSize], fun _ => .nil⟩

theorem accepts_discard (n : ℤ) : Accepts (discard n) fun _ w => w.length = n.toNat := by
  intro l a r h
  unfold discard at h
  split_ifs at h with hlt
  obtain ⟨-, rfl⟩ := Prod.mk.inj (Except.ok.inj h)
  exact ⟨l.take n.toNat, (List.take_append_drop _ l).symm, List.length_take_of_le (by omega)⟩

/-- What is reported and taken for a record. -/
structure Taken (parseChangeset : Bool) (n : ℤ) (cs : ChangeSet) (header w : Bytes) : Prop where
  length_header : header.length = 16
  reported : n = addInt64 (int64 (readLE (header.drop 8))) 16
  parsed : parseChangeset = true → int64 (readLE (header.drop 8)) = encodedSize cs ∧ encodedSize cs ≤ w.length ∧
    (∀ p ∈ cs, SliceLengths p) ∧ (w.length = encodedSize cs → ShortestPayload cs w)
  skipped : parseChangeset = false → w.length = (int64 (readLE (header.drop 8))).toNat

theorem accepts_readChangeSet (parseChangeset : Bool) : Accepts (readChangeSet parseChangeset) fun r used =>
    ∃ header w, used = header ++ w ∧ Taken parseChangeset r.2.1 r.2.2 header w := by
  refine (accepts_readFull 16).lift.bind fun header u ⟨hu, hlen⟩ => ?_
  obtain rfl := hu
  dsimp only
  split_ifs with hzero hparse
  · refine .pure ⟨u, [], rfl, hlen, ?_, fun _ => ?_, fun _ => ?_⟩
    · rw [hzero]
      rfl
    · rw [hzero]
      exact ⟨rfl, le_rfl, by simp, fun _ => .nil⟩
    · rw [hzero]
      rfl
  · refine (accepts_readPairs _ _ _).bind fun r w ⟨hslices, hlast, hle, heq⟩ => ?_
    obtain ⟨pairs, last⟩ := r
    dsimp only
    split_ifs with hne
    · exact .throw _
    · refine .pure ⟨u, w, congrArg (u ++ ·) (List.append_nil w), hlen, ?_, fun _ => ⟨?_, hle, hslices, heq⟩, fun h => ?_⟩
      · dsimp only
      · exact (not_not.mp hne).symm.trans (hlast.trans (Int.zero_add _))
      · rw [hparse] at h
        cases h
  · refine (accepts_discard _).bind fun _ w hw => .pure ?_
    refine ⟨u, w, congrArg (u ++ ·) (List.append_nil w), hlen, ?_, fun h => absurd h hparse, fun _ => hw⟩
    dsimp only

theorem addInt64_range (a b : ℤ) : -2 ^ 63 ≤ addInt64 a b ∧ addInt64 a b < 2 ^ 63 := int64_range _

/-- The size is read as it is written only below the largest signed number. -/
theorem int64_nonneg_iff {n : ℕ} (hn : n < 2 ^ 64) : 0 ≤ int64 n ↔ n < 2 ^ 63 := by
  constructor
  · intro h
    have hlt := (int64_range n).2
    have hsame : int64 (int64 n).toNat = int64 n := by
      rw [int64_of_lt (by omega), Int.toNat_of_nonneg h]
    have heq := int64_inj (by omega) hn hsame
    omega
  · intro h
    rw [int64_of_lt h]
    exact Int.natCast_nonneg n


variable {parseChangeset : Bool} {n : ℤ} {cs : ChangeSet} {header w : Bytes}

theorem Taken.payloadSize_eq (h : Taken parseChangeset n cs header w) :
    payloadSize (header ++ w) = readLE (header.drop 8) ∧ readLE (header.drop 8) < 2 ^ 64 := by
  have hlt := readLE_lt (header.drop 8)
  rw [List.length_drop, h.length_header] at hlt
  exact ⟨by rw [payloadSize, List.take_left' h.length_header], hlt⟩

/-- The number reported is the number of bytes taken for a small size and a payload with the
shortest lengths only; the pairs that were skipped may have any. -/
theorem Taken.reported_iff (h : Taken parseChangeset n cs header w) : n = (header ++ w).length ↔
    payloadSize (header ++ w) < 2 ^ 63 - 16 ∧ (parseChangeset = true → ShortestPayload cs w) := by
  obtain ⟨hsize, hm⟩ := h.payloadSize_eq
  obtain ⟨hlen, hn, hparsed, hskipped⟩ := h
  have hrange := addInt64_range (int64 (readLE (header.drop 8))) 16
  have hsum : readLE (header.drop 8) < 2 ^ 63 - 16 → n = readLE (header.drop 8) + 16 := fun hlt => by
    rw [hn, int64_of_lt (by omega)]
    exact_mod_cast addInt64_of_lt (b := 16) (by omega)
  rw [← hn] at hrange
  rw [hsize, List.length_append, hlen]
  by_cases hneg : readLE (header.drop 8) < 2 ^ 63
  · rw [int64_of_lt hneg] at hparsed hskipped
    cases parseChangeset with
    | true =>
      obtain ⟨hsame, hle, hslices, hshort⟩ := hparsed rfl
      refine ⟨fun heq => ⟨by omega, fun _ => hshort ?_⟩, fun ⟨hlt, hs⟩ => ?_⟩
      · have := hsum (by omega)
        omega
      · have := hsum hlt
        have := (hs rfl).length_eq hslices
        omega
    | false =>
      have hw := hskipped rfl
      refine ⟨fun heq => ⟨by omega, nofun⟩, fun ⟨hlt, _⟩ => ?_⟩
      have := hsum hlt
      omega
  · -- a negative size: no pairs were read, and nothing was taken for the payload
    have hlt : int64 (readLE (header.drop 8)) < 0 := not_le.mp (mt (int64_nonneg_iff hm).mp hneg)
    refine iff_of_false (fun heq => ?_) (by omega)
    cases parseChangeset with
    | true =>
      have := (hparsed rfl).1
      omega
    | false =>
      have hw := hskipped rfl
      have hge := (int64_range (readLE (header.drop 8))).1
      rw [addInt64, int64_uint64 (by omega)] at hn
      omega

/-- A record is reported with the number of bytes taken exactly if the size in its header is
below the largest signed number by 16 at least and, where the pairs are read, their lengths are
spelled with as few bytes as possible. Where both ways of reading accept, they leave the same
rest exactly if the lengths are. -/
theorem readChangeSet_reports_taken_iff (bs : Bytes) :
    (∀ parseChangeset version n cs rest, readChangeSet parseChangeset bs = .ok ((version, n, cs), rest) →
      ∃ used, bs = used ++ rest ∧ (n = used.length ↔
        payloadSize used < 2 ^ 63 - 16 ∧ (parseChangeset = true → ShortestPayload cs (used.drop 16)))) ∧
    ∀ version n cs rest version' n' cs' rest', readChangeSet true bs = .ok ((version, n, cs), rest) →
      readChangeSet false bs = .ok ((version', n', cs'), rest') →
      ∃ used, bs = used ++ rest ∧ (rest = rest' ↔ ShortestPayload cs (used.drop 16)) := by
  constructor
  · intro parseChangeset version n cs rest h
    obtain ⟨used, hbs, header, w, rfl, htaken⟩ := accepts_readChangeSet parseChangeset bs _ _ h
    refine ⟨header ++ w, hbs, ?_⟩
    rw [List.drop_left' htaken.length_header]
    exact htaken.reported_iff
  · intro version n cs rest version' n' cs' rest' h h'
    obtain ⟨used, rfl, header, w, rfl, htaken⟩ := accepts_readChangeSet true bs _ _ h
    obtain ⟨used', hbs, header', w', rfl, htaken'⟩ := accepts_readChangeSet false _ _ _ h'
    refine ⟨header ++ w, rfl, ?_⟩
    rw [List.drop_left' htaken.length_header]
    rw [List.append_assoc, List.append_assoc] at hbs
    obtain ⟨rfl, htail⟩ := List.append_inj hbs (htaken.length_header.trans htaken'.length_header.symm)
    obtain ⟨hsame, hle, hslices, hshort⟩ := htaken.parsed rfl
    have hw' := htaken'.skipped rfl
    rw [hsame, Int.toNat_natCast] at hw'
    have hlen := congrArg List.length htail
    simp only [List.length_append] at hlen
    refine ⟨fun hrest => hshort ?_, fun hs => ?_⟩
    · rw [hrest] at hlen
      omega
    · have hw := hs.length_eq hslices
      exact (List.append_inj htail (hw.trans hw'.symm)).2

theorem readChangeSet_reports_taken_skipped :
    ∃ used, ([1, 0, 0, 0, 0, 0, 0, 0, 1, 0, 0, 0, 0, 0, 0, 0, 7, 8] : Bytes) = used ++ [8] ∧
      (17 = (used.length : ℤ) ↔ payloadSize used < 2 ^ 63 - 16 ∧ (false = true → ShortestPayload [] (used.drop 16))) :=
  (readChangeSet_reports_taken_iff _).1 false 1 17 [] [8] (by decide +kernel)

/-- A key length spelled with two bytes: 21 bytes are taken and 20 reported. -/
theorem readChangeSet_misreports :
    let bs : Bytes := [1, 0, 0, 0, 0, 0, 0, 0, 4, 0, 0, 0, 0, 0, 0, 0] ++ [0, 129, 0, 5, 0]
    bs.length = 21 ∧ readChangeSet true bs = .ok ((1, 20, [⟨false, [5], some []⟩]), []) ∧
      readChangeSet false bs = .ok ((1, 20, []), [0]) := by
  decide +kernel

end IavlStore.Changeset
