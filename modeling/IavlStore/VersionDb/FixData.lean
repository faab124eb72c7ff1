import IavlStore.VersionDb.Iterator
import IavlStore.VersionDb.Latest
import IavlStore.VersionDb.Repair

/-! Fixing entries that were written at version zero with their timestamp at the end of the key. For every
store the entries at version zero are listed, the timestamp is cut off their keys, and those that are not
found at their timestamp are written there in one batch. A key that is too short stops the run. Seen
from what the database holds, a run is a pass of repairs for every store. -/

namespace IavlStore.VersionDb

open IavlStore.Base.Encoding IavlStore.Base.Cursors IavlStore.Base.Ranges IavlStore.Base.SortedPairs
open IavlStore.Base.Timestamps

structure KVPairWithTS where
  key : Bytes
  value : Bytes
  timestamp : Bytes

inductive FixError where
  | iterator (e : Error)
  | invalidKeyLength (key storeName : Bytes)

variable {R : RocksDB}

/-- The timestamp of the entry, or a panic. -/
def RocksDBIterator.timestamp (it : RocksDBIterator R) : Option ℕ :=
  match it.valid with
  | (false, _) => none
  | (true, it) => (R.cursors.entry it.source).map (·.2.2)

/-- The timestamp is cut off the key. -/
def splitPair (storeName : Bytes) (p : Bytes × Bytes) : Except FixError KVPairWithTS :=
  if p.1.length < timestampSize then .error (.invalidKeyLength p.1 storeName)
  else .ok ⟨p.1.take (p.1.length - timestampSize), p.2, p.1.drop (p.1.length - timestampSize)⟩

/-- The loop over the entries at version zero, within a number of steps. Other timestamps are passed over. -/
def loadWrongDataLoop (storeName : Bytes) :
    ℕ → RocksDBIterator R → Option (Except FixError (List KVPairWithTS))
  | 0, _ => none
  | n + 1, it =>
    if it.valid.1 then do
      let ts ← it.timestamp
      if ts ≠ 0 then loadWrongDataLoop storeName n (← it.next n)
      else
        match splitPair storeName (← it.pair) with
        | .error e => some (.error e)
        | .ok pair =>
          let pairs ← loadWrongDataLoop storeName n (← it.next n)
          some (pairs.map (pair :: ·))
    else some (.ok [])

namespace Store

def loadWrongData (n : ℕ) (storeName : Bytes) (s : Store R) : Option (Except FixError (List KVPairWithTS)) :=
  match s.iteratorAtVersion n storeName none none (some 0) false with
  | .error e => some (.error (.iterator e))
  | .ok none => none
  | .ok (some it) => loadWrongDataLoop storeName n it

/-- What is not found with its value at its timestamp is written again. -/
def fixBatch (storeName : Bytes) (pairs : List KVPairWithTS) (s : Store R) : List BatchOp :=
  pairs.filterMap fun pair =>
    let realKey := prependStoreKey storeName pair.key
    let ts := readLE pair.timestamp
    if R.getCFWithTS ts realKey s.db = some (pair.value, ts) then none
    else some (.putCFWithTS realKey ts pair.value)

def writeFixes (storeName : Bytes) (s : Store R) (pairs : List KVPairWithTS) : Store R :=
  { s with db := R.write (s.fixBatch storeName pairs) s.db }

def fixDataStore (n : ℕ) (storeName : Bytes) (s : Store R) : Option (Except FixError (Store R)) :=
  (s.loadWrongData n storeName).map fun pairs => pairs.map (s.writeFixes storeName)

/-- The run that writes, store by store, until one fails. -/
def fixData (n : ℕ) : (storeNames : List Bytes) → Store R → Option (Except FixError (Store R))
  | [], s => some (.ok s)
  | storeName :: storeNames, s =>
    match s.fixDataStore n storeName with
    | none => none
    | some (.error e) => some (.error e)
    | some (.ok s) => s.fixData n storeNames

end Store

/-! ### The loop -/

theorem loadWrongDataLoop_of_shows {it : RocksDBIterator R} {n : ℕ} (storeName : Bytes)
    {l : List (Bytes × (Bytes × ℕ))} (hl : ∀ e ∈ l, it.keyPrefix.length ≤ e.1.length) (hz : ∀ e ∈ l, e.2.2 = 0)
    (h : it.Shows n l) (hn : 0 < n) :
    loadWrongDataLoop storeName n it =
      some ((l.map fun e => (e.1.drop it.keyPrefix.length, e.2.1)).mapM (splitPair storeName)) := by
  induction l generalizing it n with
  | nil =>
    obtain ⟨n, rfl⟩ := Nat.exists_eq_succ_of_ne_zero hn.ne'
    have hv : it.valid.1 = false := h
    rw [loadWrongDataLoop, hv]
    rfl
  | cons e l ih =>
    obtain ⟨n, rfl⟩ := Nat.exists_eq_succ_of_ne_zero hn.ne'
    obtain ⟨hi, he, hb, ahead, hmove, hlen, hshown⟩ := h
    have hv := RocksDBIterator.valid_of_entry hi he hb
    have hpair : it.pair = some (e.1.drop it.keyPrefix.length, e.2.1) := by
      simp [RocksDBIterator.pair, hv, he, hl e List.mem_cons_self]
    have hts : it.timestamp = some 0 := by
      simp [RocksDBIterator.timestamp, hv, he, hz e List.mem_cons_self]
    obtain ⟨it', hskip, hname, hshows⟩ := RocksDBIterator.shows_trySkipZeroVersion
      (show it.move.isInvalid = false from hi) hmove (show ahead.length < n by omega)
    have hnext : it.next n = some it' := by rw [RocksDBIterator.next, hv]; exact hskip
    have hname' : it'.keyPrefix = it.keyPrefix := hname
    have hrest := ih (fun e he => hname' ▸ hl e (List.mem_cons_of_mem _ he))
      (fun e he => hz e (List.mem_cons_of_mem _ he)) (hshown ▸ hshows) (by omega)
    rw [hname'] at hrest
    rw [loadWrongDataLoop, hv, hts, List.map_cons, List.mapM_cons]
    simp only [↓reduceIte, Option.bind_eq_bind, Option.bind_some, ne_eq, not_true_eq_false, hpair, hnext, hrest]
    rcases splitPair storeName (e.1.drop it.keyPrefix.length, e.2.1) with error | pair
    · rfl
    · rcases (l.map fun e => (e.1.drop it.keyPrefix.length, e.2.1)).mapM (splitPair storeName) with error | pairs <;>
        rfl

/-! ### A run without the cursor -/

namespace Store

/-- The entries of a store at version zero. -/
def wrongPairs (s : Store R) (storeName : Bytes) : List (Bytes × Bytes) := shownPairs s storeName none none (some 0)

theorem loadWrongData_eq (storeName : Bytes) (s : Store R) :
    ∃ fuel, ∀ n, fuel ≤ n →
      s.loadWrongData n storeName = some ((s.wrongPairs storeName).mapM (splitPair storeName)) := by
  have hnone : (none : Option Bytes) ≠ some [] := by simp
  obtain ⟨fuel, hshows⟩ := iteratorAtVersion_shows s storeName (some 0) false hnone hnone
  refine ⟨fuel, fun n hn => ?_⟩
  obtain ⟨hpos, it, hit, hname, hshows⟩ := hshows n hn
  have hzero : ∀ e ∈ shownEntries s storeName none none (some 0), e.2.2 = 0 := by
    intro e he
    have hvisible := (List.mem_filter.mp (List.mem_of_mem_filter he)).1
    exact Nat.le_zero.mp (read_eq_some (mem_visible.mp hvisible)).1
  rw [loadWrongData, hit]
  exact (loadWrongDataLoop_of_shows storeName (fun e he => hname ▸ storePrefix_le_of_mem_shownEntries he) hzero
    hshows hpos).trans (by rw [hname]; rfl)

def fixStore (storeName : Bytes) (s : Store R) : Except FixError (Store R) :=
  ((s.wrongPairs storeName).mapM (splitPair storeName)).map (s.writeFixes storeName)

def fixAll : List Bytes → Store R → Except FixError (Store R)
  | [], s => .ok s
  | storeName :: storeNames, s => (s.fixStore storeName).bind (fixAll storeNames)

theorem fixData_eq (storeNames : List Bytes) (s : Store R) :
    ∃ fuel, ∀ n, fuel ≤ n → s.fixData n storeNames = some (s.fixAll storeNames) := by
  induction storeNames generalizing s with
  | nil => exact ⟨0, fun _ _ => rfl⟩
  | cons storeName storeNames ih =>
    obtain ⟨fuel, hload⟩ := loadWrongData_eq storeName s
    have hstore : ∀ n, fuel ≤ n → s.fixDataStore n storeName = some (s.fixStore storeName) := fun n hn => by
      rw [fixDataStore, hload n hn]
      rfl
    rcases hfix : s.fixStore storeName with e | s'
    · refine ⟨fuel, fun n hn => ?_⟩
      simp only [fixData, hstore n hn, fixAll, hfix]
      rfl
    · obtain ⟨fuel', hrest⟩ := ih s'
      refine ⟨max fuel fuel', fun n hn => ?_⟩
      simp only [fixData, hstore n (le_of_max_le_left hn), fixAll, hfix]
      exact hrest n (le_of_max_le_right hn)

/-- What the database holds. -/
def contents (s : Store R) : Contents := fun key t => entryAt key t (R.records s.db)

theorem mem_wrongPairs {s : Store R} (hs : s.skipVersionZero = false) {storeName q value : Bytes} :
    (q, value) ∈ s.wrongPairs storeName ↔ s.contents.Wrong (storePrefix storeName ++ q) value := by
  rw [wrongPairs, mem_shownPairs, getAtVersionSlice_eq_some, Contents.Wrong, contents, ← read_exact_iff]
  constructor
  · rintro ⟨-, t, hread, -⟩
    obtain rfl : t = 0 := Nat.le_zero.mp (read_eq_some hread).1
    exact hread
  · intro hread
    exact ⟨⟨by simp, by simp⟩, 0, hread, by simp [hs]⟩

end Store

/-- The key of a pair without its timestamp. -/
def cut (p : Bytes × Bytes) : KVPairWithTS :=
  ⟨p.1.take (p.1.length - timestampSize), p.2, p.1.drop (p.1.length - timestampSize)⟩

theorem mapM_splitPair (storeName : Bytes) {l : List (Bytes × Bytes)} (h : ∀ p ∈ l, 8 ≤ p.1.length) :
    l.mapM (splitPair storeName) = .ok (l.map cut) := by
  induction l with
  | nil => rfl
  | cons p l ih =>
    have hp : ¬p.1.length < timestampSize := Nat.not_lt.mpr (h p (by simp))
    rw [List.mapM_cons, ih fun q hq => h q (by simp [hq]), splitPair, if_neg hp]
    rfl

theorem length_le_of_mapM_splitPair {storeName : Bytes} {l : List (Bytes × Bytes)} {pairs : List KVPairWithTS}
    (h : l.mapM (splitPair storeName) = .ok pairs) : ∀ p ∈ l, 8 ≤ p.1.length := by
  induction l generalizing pairs with
  | nil => simp
  | cons p l ih =>
    rw [List.mapM_cons] at h
    by_cases hlen : p.1.length < timestampSize
    · rw [splitPair, if_pos hlen] at h
      cases h
    · rcases hl : l.mapM (splitPair storeName) with e | rest
      · rw [splitPair, if_neg hlen, hl] at h
        cases h
      · exact List.forall_mem_cons.mpr ⟨Nat.not_lt.mp hlen, ih hl⟩

namespace Store

variable {s s' : Store R} {storeName : Bytes}

/-- What is written: the values that are not held at their timestamps. -/
theorem mem_fixBatch {l : List (Bytes × Bytes)} {r : Record Bytes Bytes} :
    r ∈ (s.fixBatch storeName (l.map cut)).filterMap BatchOp.record ↔
      ∃ p ∈ l, s.contents (storePrefix storeName ++ (cut p).key) (readLE (cut p).timestamp) ≠ some (some p.2) ∧
        r = ⟨storePrefix storeName ++ (cut p).key, readLE (cut p).timestamp, some p.2⟩ := by
  have hclean (p : Bytes × Bytes) :
      R.getCFWithTS (readLE (cut p).timestamp) (prependStoreKey storeName (cut p).key) s.db =
        some ((cut p).value, readLE (cut p).timestamp) ↔
      s.contents (storePrefix storeName ++ (cut p).key) (readLE (cut p).timestamp) = some (some p.2) := by
    rw [R.getCFWithTS_eq, read_exact_iff]
    rfl
  simp only [fixBatch, List.mem_filterMap, List.mem_map]
  constructor
  · rintro ⟨op, ⟨pair, ⟨p, hp, rfl⟩, hop⟩, hr⟩
    split_ifs at hop with hheld
    cases hop
    exact ⟨p, hp, mt (hclean p).mpr hheld, (Option.some.inj hr).symm⟩
  · rintro ⟨p, hp, hnot, rfl⟩
    exact ⟨_, ⟨cut p, ⟨p, hp, rfl⟩, if_neg (mt (hclean p).mp hnot)⟩, rfl⟩

theorem contents_writeFixes_eq (pairs : List KVPairWithTS) (key : Bytes) (t : ℕ) :
    (s.writeFixes storeName pairs).contents key t =
      (entryAt key t ((s.fixBatch storeName pairs).filterMap BatchOp.record)).or (s.contents key t) := by
  rw [contents, writeFixes, R.records_write, entryAt_append]
  rfl

/-- Writing what is not held is a pass of repairs. -/
theorem contents_writeFixes (hs : s.skipVersionZero = false)
    (hlen : ∀ p ∈ s.wrongPairs storeName, 8 ≤ p.1.length) :
    (s.writeFixes storeName ((s.wrongPairs storeName).map cut)).contents =
      repair (storePrefix storeName) s.contents := by
  funext key t
  rw [contents_writeFixes_eq]
  rcases hwritten : entryAt key t ((s.fixBatch storeName ((s.wrongPairs storeName).map cut)).filterMap
    BatchOp.record) with _ | held
  · rw [Option.none_or]
    by_cases hc : storePrefix storeName <+: key ∧ t < 2 ^ 64 ∧ ∃ value, s.contents.Wrong (key ++ putLE 8 t) value
    · -- the value is held already, since it is not written
      obtain ⟨⟨k, rfl⟩, ht, value, hw⟩ := hc
      rw [repair_of_wrong (List.prefix_append _ _) ht hw]
      by_contra hnot
      have hcut : cut (k ++ putLE 8 t, value) = ⟨k, value, putLE 8 t⟩ := by
        simp [cut, timestampSize]
      have hread : readLE (putLE 8 t) = t := readLE_putLE_of_lt (by norm_num; exact ht)
      rw [List.append_assoc] at hw
      have hmem : ⟨storePrefix storeName ++ k, t, some value⟩ ∈
          (s.fixBatch storeName ((s.wrongPairs storeName).map cut)).filterMap BatchOp.record := by
        refine mem_fixBatch.mpr ⟨_, (mem_wrongPairs hs).mpr hw, ?_⟩
        rw [hcut, hread]
        exact ⟨hnot, rfl⟩
      exact entryAt_ne_none hmem hwritten
    · by_cases hp : storePrefix storeName <+: key
      · by_cases ht : t < 2 ^ 64
        · exact (repair_of_not_wrong fun value hw => hc ⟨hp, ht, value, hw⟩).symm
        · rw [repair, if_neg fun h => ht h.2]
      · exact (repair_of_not_covered hp).symm
  · obtain ⟨⟨q, value⟩, hmem, -, heq⟩ := mem_fixBatch.mp (mem_of_entryAt hwritten)
    obtain ⟨hq, ht⟩ := split_eq (hlen _ hmem)
    cases heq
    refine (repair_of_wrong (List.prefix_append _ _) ht ?_).symm
    rw [List.append_assoc]
    exact hq.symm ▸ (mem_wrongPairs hs).mp hmem

theorem fixStore_ok (hs : s.skipVersionZero = false) (h : s.fixStore storeName = .ok s') :
    Splits (storePrefix storeName) s.contents ∧ s'.contents = repair (storePrefix storeName) s.contents ∧
      s'.skipVersionZero = false := by
  rcases hpairs : (s.wrongPairs storeName).mapM (splitPair storeName) with e | pairs
  · rw [fixStore, hpairs] at h
    cases h
  · have hlen := length_le_of_mapM_splitPair hpairs
    rw [fixStore, mapM_splitPair storeName hlen] at h
    cases h
    exact ⟨fun q value hw => hlen _ ((mem_wrongPairs hs).mpr hw), contents_writeFixes hs hlen, hs⟩

theorem exists_fixStore (hs : s.skipVersionZero = false) (h : Splits (storePrefix storeName) s.contents) :
    ∃ s', s.fixStore storeName = .ok s' := by
  rw [fixStore, mapM_splitPair storeName fun p hp => h _ _ ((mem_wrongPairs hs).mp hp)]
  exact ⟨_, rfl⟩

theorem fixAll_ok {storeNames : List Bytes} (hs : s.skipVersionZero = false) (h : s.fixAll storeNames = .ok s') :
    SplitsAll (storeNames.map storePrefix) s.contents ∧
      s'.contents = repairAll (storeNames.map storePrefix) s.contents ∧ s'.skipVersionZero = false := by
  induction storeNames generalizing s with
  | nil =>
    cases h
    exact ⟨trivial, rfl, hs⟩
  | cons storeName storeNames ih =>
    rcases hfix : s.fixStore storeName with e | s₁
    · rw [fixAll, hfix] at h
      cases h
    · rw [fixAll, hfix] at h
      obtain ⟨hsplits, hcontents, hs₁⟩ := fixStore_ok hs hfix
      obtain ⟨hrest, hend, hs'⟩ := ih hs₁ h
      rw [hcontents] at hrest hend
      exact ⟨⟨hsplits, hrest⟩, hend, hs'⟩

theorem exists_fixAll {storeNames : List Bytes} (hs : s.skipVersionZero = false)
    (h : SplitsAll (storeNames.map storePrefix) s.contents) : ∃ s', s.fixAll storeNames = .ok s' := by
  induction storeNames generalizing s with
  | nil => exact ⟨s, rfl⟩
  | cons storeName storeNames ih =>
    obtain ⟨hsplits, hrest⟩ := h
    obtain ⟨s₁, hfix⟩ := exists_fixStore hs hsplits
    obtain ⟨-, hcontents, hs₁⟩ := fixStore_ok hs hfix
    rw [fixAll, hfix]
    exact ih hs₁ (hcontents ▸ hrest)

/-! ### Two runs -/

/-- The run ends, and succeeds with the second store. -/
def Fixes (storeNames : List Bytes) (s s' : Store R) : Prop :=
  ∃ fuel, ∀ n, fuel ≤ n → s.fixData n storeNames = some (.ok s')

theorem fixes_iff {storeNames : List Bytes} : Fixes storeNames s s' ↔ s.fixAll storeNames = .ok s' := by
  obtain ⟨fuel, heq⟩ := fixData_eq storeNames s
  constructor
  · rintro ⟨fuel', h⟩
    have hrun := h (max fuel fuel') (le_max_right _ _)
    rw [heq _ (le_max_left _ _)] at hrun
    exact Option.some.inj hrun
  · intro h
    exact ⟨fuel, fun n hn => by rw [heq n hn, h]⟩

theorem bounded_contents (s : Store R) : ∃ n, Bounded n s.contents := by
  refine ⟨((R.records s.db).map (·.key.length)).sum, fun key value hw => ?_⟩
  exact List.le_sum_of_mem (List.mem_map.mpr ⟨_, mem_of_entryAt hw, rfl⟩)

theorem timestamp_int64 {t : ℕ} (h : t < 2 ^ 64) : timestamp (int64 t) = t := by
  have hmod : int64 t % 2 ^ 64 = t :=
    Int.bmod_emod.trans (Int.emod_eq_of_lt (Int.natCast_nonneg t) (Int.ofNat_lt.mpr h))
  rw [timestamp, hmod, Int.toNat_natCast]

/-- A value that is held at a timestamp is read there. -/
theorem getAtVersion_of_contents {k value : Bytes} {t : ℕ} (hs : s.skipVersionZero = false) (ht : t < 2 ^ 64)
    (h : s.contents (storePrefix storeName ++ k) t = some (some value)) :
    s.getAtVersion storeName k (some (int64 t)) = some value := by
  refine getAtVersionSlice_eq_some.mpr ⟨t, ?_, by simp [hs]⟩
  rw [readTimestamp, timestamp_int64 ht]
  exact read_exact_iff.mpr h

/-- Every value at version zero of a listed store is read under its key without the timestamp, at the
timestamp. -/
def ReadBack (storeNames : List Bytes) (c : Contents) (s : Store R) : Prop :=
  ∀ storeName ∈ storeNames, ∀ k t value, t < 2 ^ 64 → c.Wrong (prependStoreKey storeName (k ++ putLE 8 t)) value →
    s.getAtVersion storeName k (some (int64 t)) = some value

end Store

end IavlStore.VersionDb
