import IavlStore.Changeset.Format

/-! Change-set files are read back as they were written. Every parser is exact for what its
writer writes, so a file that ends inside of a record gives the records before it. -/

namespace IavlStore.Changeset

open IavlStore.Base.Encoding IavlStore.Base.Parsers

/-- A pair as it is read: a deletion has no value, and any other value is not nil. -/
def readBack (pair : KVPair) : KVPair :=
  ⟨pair.delete, pair.key, if pair.delete then none else some (pair.value.getD [])⟩

/-- The pairs of a change set, each with its deletion flag. -/
def payload (cs : ChangeSet) : Bytes := cs.flatMap fun pair => (if pair.delete then 1 else 0) :: layout pair

def recordBytes (version : ℤ) (cs : ChangeSet) : Bytes :=
  putLE 8 (uint64 version) ++ putLE 8 (uint64 (payload cs).length) ++ payload cs

variable {pair : KVPair} {cs : ChangeSet} {version : ℤ}

/-! ### What is written -/

theorem mapM_eq_some_map {A B : Type} {f : A → Option B} {g : A → B} {l : List A} (h : ∀ a ∈ l, f a = some (g a)) :
    l.mapM f = some (l.map g) := by
  induction l with
  | nil => rfl
  | cons a l ih =>
    rw [List.mapM_cons, h a List.mem_cons_self, ih fun b hb => h b (List.mem_cons_of_mem a hb)]
    rfl

theorem writeChangeSet_eq (h : ∀ p ∈ cs, SliceLengths p) : writeChangeSet version cs = some (recordBytes version cs) := by
  rw [writeChangeSet, mapM_eq_some_map fun p hp => encodeKVPair_eq (h p hp)]
  have hsum : ((cs.map fun p : KVPair => (if p.delete then 1 else 0) :: layout p).map List.length).sum =
      (payload cs).length := List.length_flatten.symm
  simp only [Option.bind_eq_bind, Option.bind_some, hsum]
  rfl

theorem writeChangeSets_eq {records : List (ℤ × ChangeSet)} (h : ∀ r ∈ records, ∀ p ∈ r.2, SliceLengths p) :
    writeChangeSets records = some (records.flatMap fun r => recordBytes r.1 r.2) := by
  rw [writeChangeSets, mapM_eq_some_map fun r hr => writeChangeSet_eq (h r hr)]
  rfl

/-! ### Reading it back -/

theorem exact_readSlice {bs : Bytes} (h : bs.length < 2 ^ 63) : Exact (readSlice bs.length) bs bs := by
  rw [readSlice, if_neg (not_le.mpr h)]
  exact (exact_readFull bs).lift

theorem exact_readKVPair (h : SliceLengths pair) :
    Exact readKVPair (readBack pair) ((if pair.delete then 1 else 0) :: layout pair) := by
  have hkeyLen := exact_readUvarint (h.1.trans (by decide))
  have hvalueLen := exact_readUvarint (h.2.trans (by decide))
  rw [layout, List.append_assoc, ← List.singleton_append, readBack, readKVPair]
  refine (exact_readByte _).lift.bind (hkeyLen.lift.bind ((exact_readSlice h.1).bind ?_))
  cases hd : pair.delete with
  | true => exact Exact.pure _
  | false =>
    exact hvalueLen.lift.bind ((exact_readSlice h.2).bind_pure rfl)

theorem encodedSizeOfKVPair_readBack (h : SliceLengths pair) :
    encodedSizeOfKVPair (readBack pair) = (layout pair).length + 1 := by
  rw [length_layout h]
  unfold encodedSizeOfKVPair readBack valueLen
  cases pair.delete <;> rfl

theorem exact_readPairs {size offset : ℤ} {rounds : ℕ} (h : ∀ p ∈ cs, SliceLengths p)
    (hsize : offset + (payload cs).length = size) (hrounds : (payload cs).length ≤ rounds) :
    Exact (readPairs size rounds offset) (cs.map readBack, size) (payload cs) := by
  induction cs generalizing rounds offset with
  | nil =>
    have hdone : ¬ offset < size := by simp [payload] at hsize; omega
    obtain rfl : offset = size := by simpa [payload] using hsize
    cases rounds with
    | zero => exact Exact.pure _
    | succ rounds =>
      rw [readPairs, if_neg hdone]
      exact Exact.pure _
  | cons p cs ih =>
    have hp := h p List.mem_cons_self
    have hlen : (payload (p :: cs)).length = ((layout p).length + 1) + (payload cs).length := by
      simp only [payload, List.flatMap_cons, List.length_append, List.length_cons]
    obtain ⟨rounds, rfl⟩ : ∃ r, rounds = r + 1 := ⟨rounds - 1, by omega⟩
    have hrest : offset + encodedSizeOfKVPair (readBack p) + (payload cs).length = size := by
      rw [encodedSizeOfKVPair_readBack hp]
      omega
    have htail : Exact (readPairs size rounds _) _ (payload cs) :=
      ih (fun q hq => h q (List.mem_cons_of_mem p hq)) hrest (by omega)
    rw [readPairs, if_pos (by omega)]
    exact (exact_readKVPair hp).bind (htail.bind_pure rfl)

/-- What the header of a record says. -/
theorem readLE_header (hv : -2 ^ 63 ≤ version ∧ version < 2 ^ 63) {n : ℕ} (hn : n < 2 ^ 63) :
    let header := putLE 8 (uint64 version) ++ putLE 8 (uint64 n)
    int64 (readLE (header.take 8)) = version ∧ int64 (readLE (header.drop 8)) = n := by
  intro header
  rw [List.take_left' (length_putLE 8 _), List.drop_left' (length_putLE 8 _), readLE_putLE_uint64, readLE_putLE_uint64]
  exact ⟨int64_uint64 hv, int64_uint64 (by omega)⟩

theorem exact_discard (bs : Bytes) : Exact (discard bs.length) () bs where
  reads rest := by simp [discard]
  cut {pre suf} h hs := by
    have hpos := List.length_pos_iff.mpr hs
    have hlen := congrArg List.length h
    rw [List.length_append] at hlen
    exact ⟨_, if_pos (by omega)⟩

/-- Both ways of reading a record take exactly its bytes, and report so many. -/
theorem exact_readChangeSet (hv : -2 ^ 63 ≤ version ∧ version < 2 ^ 63) (h : ∀ p ∈ cs, SliceLengths p)
    (hlen : (recordBytes version cs).length < 2 ^ 63) (parseChangeset : Bool) :
    Exact (readChangeSet parseChangeset)
      (version, (recordBytes version cs).length, if parseChangeset then cs.map readBack else [])
      (recordBytes version cs) := by
  have hlength : (recordBytes version cs).length = (payload cs).length + 16 := by
    simp only [recordBytes, List.length_append, length_putLE]
    omega
  rw [hlength] at hlen ⊢
  have hheader := exact_readFull (putLE 8 (uint64 version) ++ putLE 8 (uint64 (payload cs).length))
  rw [List.length_append, length_putLE, length_putLE] at hheader
  refine hheader.lift.bind ?_
  obtain ⟨hversion, hsize⟩ := readLE_header hv (show (payload cs).length < 2 ^ 63 by omega)
  have hsum : addInt64 (payload cs).length 16 = ((payload cs).length + 16 : ℕ) := addInt64_of_lt hlen
  simp only [hversion, hsize]
  by_cases hempty : cs = []
  · subst hempty
    cases parseChangeset <;> exact Exact.pure _
  · have hne : ((payload cs).length : ℤ) ≠ 0 := by
      obtain ⟨p, cs, rfl⟩ := List.exists_cons_of_ne_nil hempty
      exact Int.natCast_ne_zero.mpr (Nat.succ_ne_zero _)
    rw [if_neg hne]
    cases parseChangeset with
    | true =>
      refine (exact_readPairs h (Int.zero_add _) (by simp)).bind_pure ?_
      simp [hsum]
    | false =>
      refine (exact_discard (payload cs)).bind_pure ?_
      simp [hsum]

/-! ### Iterating -/

variable {S E : Type} {fn : ℤ → ChangeSet → S → S × Except (IterateError E) Bool} {parseChangeset : Bool}
  {rounds : ℕ} {offset : ℤ} {s s' : S} {bs rest : Bytes} {n : ℤ}

theorem iterate_continue (hread : readChangeSet parseChangeset bs = .ok ((version, n, cs), rest))
    (hfn : fn version cs s = (s', .ok true)) :
    iterate parseChangeset fn (rounds + 1) bs offset s =
      iterate parseChangeset fn rounds rest (addInt64 offset n) s' := by
  rw [iterate, hread]
  simp only [hfn]

theorem iterate_stop (hread : readChangeSet parseChangeset bs = .ok ((version, n, cs), rest))
    (hfn : fn version cs s = (s', .ok false)) :
    iterate parseChangeset fn (rounds + 1) bs offset s = ⟨addInt64 offset n, s', none⟩ := by
  rw [iterate, hread]
  simp only [hfn]

theorem iterate_fail {e : IterateError E} (hread : readChangeSet parseChangeset bs = .ok ((version, n, cs), rest))
    (hfn : fn version cs s = (s', .error e)) :
    iterate parseChangeset fn (rounds + 1) bs offset s = ⟨offset, s', withoutEOF e⟩ := by
  rw [iterate, hread]
  simp only [hfn]

/-- Without another complete record nothing is delivered. -/
theorem iterate_cut (hread : ∃ e, readChangeSet parseChangeset bs = .error e) :
    (iterate parseChangeset fn rounds bs offset s).lastCompleteOffset = offset ∧
      (iterate parseChangeset fn rounds bs offset s).state = s := by
  obtain ⟨e, he⟩ := hread
  cases rounds with
  | zero => exact ⟨rfl, rfl⟩
  | succ rounds =>
    rw [iterate, he]
    exact ⟨rfl, rfl⟩

/-- The records as they are read. -/
def recordsRead (parseChangeset : Bool) (records : List (ℤ × ChangeSet)) : List (ℤ × ChangeSet) :=
  records.map fun r => (r.1, if parseChangeset then r.2.map readBack else [])

/-- A version in the range of its type, and slices with lengths in the range of theirs. -/
def RecordRanges (r : ℤ × ChangeSet) : Prop := (-2 ^ 63 ≤ r.1 ∧ r.1 < 2 ^ 63) ∧ ∀ p ∈ r.2, SliceLengths p

theorem iterate_eq {records : List (ℤ × ChangeSet)} (step : ℤ → ChangeSet → S → S)
    (hranges : ∀ r ∈ records, RecordRanges r) (hrest : ∃ e, readChangeSet parseChangeset rest = .error e) (done : ℕ)
    (hlen : done + (records.flatMap fun r => recordBytes r.1 r.2).length < 2 ^ 63)
    (hrounds : records.length ≤ rounds) (s : S) :
    let r := iterate (E := E) parseChangeset (fun v cs s => (step v cs s, .ok true)) rounds
      ((records.flatMap fun r => recordBytes r.1 r.2) ++ rest) done s
    r.lastCompleteOffset = (done + (records.flatMap fun r => recordBytes r.1 r.2).length : ℕ) ∧
      r.state = (recordsRead parseChangeset records).foldl (fun s r => step r.1 r.2 s) s := by
  induction records generalizing rounds done s with
  | nil => exact iterate_cut hrest
  | cons r records ih =>
    obtain ⟨rounds, rfl⟩ : ∃ k, rounds = k + 1 := ⟨rounds - 1, by rw [List.length_cons] at hrounds; omega⟩
    rw [List.flatMap_cons, List.length_append] at hlen
    obtain ⟨hv, hslices⟩ := hranges r List.mem_cons_self
    have hread := (exact_readChangeSet hv hslices (by omega) parseChangeset).reads
      ((records.flatMap fun r => recordBytes r.1 r.2) ++ rest)
    simp only [List.flatMap_cons, List.append_assoc]
    rw [iterate_continue hread rfl, addInt64_of_lt (by omega), List.length_append, ← Nat.add_assoc]
    exact ih (fun q hq => hranges q (List.mem_cons_of_mem r hq)) _ (by omega)
      (by rw [List.length_cons] at hrounds; omega) _

theorem length_le_recordBytes (records : List (ℤ × ChangeSet)) :
    records.length ≤ (records.flatMap fun r => recordBytes r.1 r.2).length := by
  have hone : ∀ n ∈ records.map (fun r => (recordBytes r.1 r.2).length), 1 ≤ n := by
    intro n hn
    obtain ⟨r, -, rfl⟩ := List.mem_map.mp hn
    simp only [recordBytes, List.length_append, length_putLE]
    omega
  have hle := List.length_le_sum_of_one_le _ hone
  rwa [List.length_map, ← List.length_flatMap] at hle

/-- A file of complete records and a part of one more is written, and delivers the complete
records, whatever is done with them. The buffer for a pair has room for the pair and no more. -/
theorem iterateChangeSets_round_trip (records : List (ℤ × ChangeSet)) (last : ℤ × ChangeSet)
    (hranges : ∀ r ∈ last :: records, RecordRanges r) :
    (∃ file lastRecord, writeChangeSets records = some file ∧ writeChangeSet last.1 last.2 = some lastRecord ∧
      (file.length + lastRecord.length < 2 ^ 63 → ∀ tail more, lastRecord = tail ++ more → more ≠ [] →
        ∀ (S E : Type) (s : S),
          (∀ step : ℤ → ChangeSet → S → S,
            let r := iterateChangeSets (E := E) (fun v cs s => (step v cs s, .ok true)) (file ++ tail) s
            r.lastCompleteOffset = file.length ∧
              r.state = (records.map fun r => (r.1, r.2.map readBack)).foldl (fun s r => step r.1 r.2 s) s) ∧
          ∀ step : ℤ → S → S,
            let r := iterateVersions (E := E) (fun v s => (step v s, .ok true)) (file ++ tail) s
            r.lastCompleteOffset = file.length ∧ r.state = (records.map Prod.fst).foldl (fun s v => step v s) s)) ∧
      ∀ pair, SliceLengths pair → ∃ buf, encodeKVPair pair = some buf ∧ buf.length = encodedSizeOfKVPair pair ∧
        buf = (if pair.delete then 1 else 0) :: layout pair := by
  refine ⟨?_, fun pair h => ⟨_, encodeKVPair_eq h, by rw [← length_layout h]; rfl, rfl⟩⟩
  have hrecords : ∀ r ∈ records, RecordRanges r := fun r hr => hranges r (List.mem_cons_of_mem last hr)
  obtain ⟨hv, hslices⟩ := hranges last List.mem_cons_self
  refine ⟨_, _, writeChangeSets_eq fun r hr => (hrecords r hr).2, writeChangeSet_eq hslices, ?_⟩
  intro hlen tail more hlast hmore S E s
  have hcut (parseChangeset : Bool) : ∃ e, readChangeSet parseChangeset tail = .error e :=
    (exact_readChangeSet hv hslices (by omega) parseChangeset).cut hlast hmore
  have hrounds := (length_le_recordBytes records).trans (List.length_append ▸ Nat.le_add_right _ tail.length)
  refine ⟨fun step => ?_, fun step => ?_⟩
  · have h := iterate_eq (E := E) step hrecords (hcut true) 0 (by omega) hrounds s
    rwa [Nat.zero_add] at h
  · have h := iterate_eq (E := E) (fun v _ s => step v s) hrecords (hcut false) 0 (by omega) hrounds s
    rw [Nat.zero_add] at h
    refine ⟨h.1, h.2.trans ?_⟩
    rw [recordsRead, List.foldl_map, List.foldl_map]

/-- A record with a deletion that carries a value and an insertion of nil, then part of another. -/
theorem iterateChangeSets_partial :
    let records : List (ℤ × ChangeSet) := [(-1, [⟨true, [1], some [2]⟩, ⟨false, [], none⟩])]
    ∃ file, writeChangeSets records = some file ∧
      let r := iterateChangeSets (E := Empty) (fun v cs s => ((v, cs) :: s, .ok true)) (file ++ [5, 0]) []
      r.lastCompleteOffset = file.length ∧ r.state = [(-1, [⟨true, [1], none⟩, ⟨false, [], some []⟩])] := by
  intro records
  have hranges : ∀ r ∈ [(5, []), (-1, [⟨true, [1], some [2]⟩, ⟨false, [], none⟩])], RecordRanges r := by
    simp [RecordRanges, SliceLengths, valueLen]
  obtain ⟨⟨file, lastRecord, hfile, hlast, hread⟩, -⟩ := iterateChangeSets_round_trip records (5, []) hranges
  have hfile' : writeChangeSets records =
      some (List.replicate 8 255 ++ 6 :: List.replicate 7 0 ++ [1, 1, 1, 0, 0, 0]) := by decide
  have hlast' : writeChangeSet 5 [] = some ([5, 0] ++ List.replicate 14 0) := by decide
  obtain rfl := Option.some.inj (hfile.symm.trans hfile')
  obtain rfl := Option.some.inj (hlast.symm.trans hlast')
  refine ⟨_, hfile, ?_⟩
  exact (hread (by decide) [5, 0] _ rfl (by decide) (List (ℤ × ChangeSet)) Empty []).1 fun v cs s => (v, cs) :: s

end IavlStore.Changeset
