import IavlStore.VersionDb.Latest

/-! Importing a state-sync snapshot into the database. A reader takes the items of the stream one by one and
sends an entry for every node; the import puts the entries at the height of the snapshot, in batches, and
records the height as the latest version. The reader tells the import of an error by nothing but the end
of the entries. -/

namespace IavlStore.VersionDb

open IavlStore.Base.Encoding IavlStore.Base.SortedPairs IavlStore.Base.Timestamps

inductive SnapshotItem where
  | store (name : Bytes)
  | iavl (key value : Bytes) (height version : ℤ)
  | extension

inductive SnapshotError where
  | invalidMessage
  | heightExceeds (height : ℤ)
  deriving DecidableEq

/-- An entry of the import. -/
structure ImportEntry where
  storeKey : Bytes
  key : Bytes
  value : Bytes

/-- Why the reader stops. A node without a store wraps no error, so it ends the stream like its end. -/
inductive Stop where
  | finished
  | storeNameEmpty
  | failed (e : SnapshotError)
  deriving DecidableEq

def Stop.err : Stop → Option SnapshotError
  | .failed e => some e
  | _ => none

/-- The entries sent before the reader stops. A message that cannot be read is an error of the stream. -/
def readSnapshotEntries : (storeKey : Bytes) → List (Except Unit SnapshotItem) → List ImportEntry × Stop
  | _, [] => ([], .finished)
  | _, .error _ :: _ => ([], .failed .invalidMessage)
  | _, .ok (.store name) :: stream => readSnapshotEntries name stream
  | storeKey, .ok (.iavl key value height _) :: stream =>
    if storeKey = [] then ([], .storeNameEmpty)
    else if 127 < height then ([], .failed (.heightExceeds height))
    else
      let (entries, stop) := readSnapshotEntries storeKey stream
      (⟨storeKey, key, value⟩ :: entries, stop)
  | _, .ok .extension :: _ => ([], .finished)

def importCommitBatchSize : ℕ := 10000

variable {R : PlainRocksDB}

namespace Store

def importBatchOp (ts : ℕ) (entry : ImportEntry) : BatchOp :=
  .putCFWithTS (prependStoreKey entry.storeKey entry.key) ts entry.value

/-- A batch is written with every ten thousandth entry, and what is left at the end. -/
def importLoop (ts : ℕ) : List ImportEntry → (counter : ℕ) → (batch : List BatchOp) → R.DB → R.DB
  | [], _, batch, db => if 0 < batch.length then R.write batch db else db
  | entry :: entries, counter, batch, db =>
    let batch := batch ++ [importBatchOp ts entry]
    let counter := counter + 1
    if counter % importCommitBatchSize = 0 then importLoop ts entries counter [] (R.write batch db)
    else importLoop ts entries counter batch db

def importEntries (version : ℤ) (entries : List ImportEntry) (s : Store R.toRocksDB) : Store R.toRocksDB :=
  setLatestVersion version { s with db := importLoop (timestamp version) entries 0 [] s.db }

end Store

/-- What is left by the command: the database, the error returned and what was logged. -/
structure Restoration (R : PlainRocksDB) where
  store : Store R.toRocksDB
  err : Option SnapshotError
  logged : List SnapshotError

/-- The import returns no error of its own, and that of the reader is logged. -/
def restoreVersionDBCmd (height : ℤ) (stream : List (Except Unit SnapshotItem)) (s : Store R.toRocksDB) :
    Restoration R :=
  let (entries, stop) := readSnapshotEntries [] stream
  ⟨s.importEntries height entries, none, stop.err.toList⟩

/-! ### What the import writes -/

def entryRecord (ts : ℕ) (entry : ImportEntry) : Record Bytes Bytes :=
  ⟨prependStoreKey entry.storeKey entry.key, ts, some entry.value⟩

theorem Store.records_importLoop (ts : ℕ) (entries : List ImportEntry) (counter : ℕ) (batch : List BatchOp)
    (db : R.DB) :
    R.records (importLoop ts entries counter batch db) =
      R.records db ++ batch.filterMap BatchOp.record ++ entries.map (entryRecord ts) := by
  induction entries generalizing counter batch db with
  | nil =>
    unfold importLoop
    split_ifs with hbatch
    · rw [R.records_write, List.map_nil, List.append_nil]
    · obtain rfl : batch = [] := List.eq_nil_of_length_eq_zero (by omega)
      simp
  | cons entry entries ih =>
    unfold importLoop
    dsimp only
    split_ifs
    · simp [ih, R.records_write, importBatchOp, BatchOp.record, entryRecord]
    · simp [ih, importBatchOp, BatchOp.record, entryRecord]

/-- The batches do not matter. -/
theorem Store.records_importEntries (version : ℤ) (entries : List ImportEntry) (s : Store R.toRocksDB) :
    R.records (s.importEntries version entries).db =
      R.records s.db ++ entries.map (entryRecord (timestamp version)) := by
  simp [importEntries, setLatestVersion, R.records_write, records_importLoop, BatchOp.record]

/-! ### Streams that stop early -/

/-- A restore that stops early returns an error and does not record its height. -/
def Reported (height : ℤ) (stream : List (Except Unit SnapshotItem)) (s : Store R.toRocksDB) : Prop :=
  (readSnapshotEntries [] stream).2 ≠ .finished →
    (restoreVersionDBCmd height stream s).err ≠ none ∧
    (restoreVersionDBCmd height stream s).store.getLatestVersion ≠ some height

/-- On every stream the command puts what was sent, records the height and returns no error. So a restore is
reported exactly if it does not stop early. -/
theorem restore_reported_iff {height : ℤ} (hh : 0 ≤ height ∧ height < 2 ^ 63)
    (stream : List (Except Unit SnapshotItem)) (s : Store R.toRocksDB) :
    (Reported height stream s ↔ (readSnapshotEntries [] stream).2 = .finished) ∧
    (restoreVersionDBCmd height stream s).err = none ∧
    (restoreVersionDBCmd height stream s).store.getLatestVersion = some height ∧
    R.records (restoreVersionDBCmd height stream s).store.db =
      R.records s.db ++ (readSnapshotEntries [] stream).1.map (entryRecord (timestamp height)) := by
  refine ⟨⟨fun h => ?_, fun hfinished hstop => absurd hfinished hstop⟩, rfl, ?_, ?_⟩
  · by_contra hstop
    exact (h hstop).1 rfl
  · exact Store.getLatestVersion_setLatestVersion (by omega) _
  · exact Store.records_importEntries height _ s

/-- A leaf, and a message that cannot be read: the leaf is there, the height is recorded, and no error is
returned. -/
theorem restore_of_broken_stream :
    let r := restoreVersionDBCmd 7 [.ok (.store [97]), .ok (.iavl [1] [10] 0 7), .error ()]
      (.newStore listPlainRocksDB.new)
    (readSnapshotEntries [] [.ok (.store [97]), .ok (.iavl [1] [10] 0 7), .error ()]).2 =
        .failed .invalidMessage ∧
      r.err = none ∧ r.store.getLatestVersion = some 7 ∧ r.store.getAtVersion [97] [1] none = some [10] := by
  decide +kernel

/-- A whole stream of two stores. -/
theorem restore_reported_two_stores :
    let stream : List (Except Unit SnapshotItem) :=
      [.ok (.store [97]), .ok (.iavl [1] [10] 0 7), .ok (.store [98]), .ok (.iavl [2] [20] 0 7), .ok .extension]
    let s : Store listPlainRocksDB.toRocksDB := .newStore listPlainRocksDB.new
    (Reported 7 stream s ↔ (readSnapshotEntries [] stream).2 = .finished) ∧
    (restoreVersionDBCmd 7 stream s).err = none ∧
    (restoreVersionDBCmd 7 stream s).store.getLatestVersion = some 7 ∧
    listPlainRocksDB.records (restoreVersionDBCmd 7 stream s).store.db =
      listPlainRocksDB.records s.db ++ (readSnapshotEntries [] stream).1.map (entryRecord (timestamp 7)) :=
  restore_reported_iff (by decide) _ _

/-! ### Reads after an import -/

def entryPair (entry : ImportEntry) : Bytes × Bytes := (prependStoreKey entry.storeKey entry.key, entry.value)

theorem timestamp_le_readTimestamp {height : ℤ} (h₀ : 0 ≤ height) {version : Option ℤ}
    (hv : ∀ v ∈ version, height ≤ v ∧ v < 2 ^ 63) (hh : height < 2 ^ 63) :
    timestamp height ≤ readTimestamp version := by
  have ht := timestamp_of_nonneg h₀ hh
  cases version with
  | none =>
    simp only [readTimestamp]
    omega
  | some v =>
    obtain ⟨hle, hlt⟩ := hv v rfl
    have hv' := timestamp_of_nonneg (h₀.trans hle) hlt
    simp only [readTimestamp]
    omega

/-- From the height on, a read finds the last entry of its key. -/
theorem getAtVersion_importEntries {height : ℤ} (hh : 0 ≤ height ∧ height < 2 ^ 63) (entries : List ImportEntry)
    (storeKey key : Bytes) {version : Option ℤ} (hv : ∀ v ∈ version, height ≤ v ∧ v < 2 ^ 63) :
    ((Store.newStore R.new).importEntries height entries : Store R.toRocksDB).getAtVersion storeKey key
        version =
      lookupPair (prependStoreKey storeKey key) (entries.map entryPair).reverse := by
  have hle := timestamp_le_readTimestamp hh.1 hv hh.2
  have hrecords : R.records ((Store.newStore R.new).importEntries height entries : Store R.toRocksDB).db =
      (entries.map entryPair).map fun p => ⟨p.1, timestamp height, some p.2⟩ := by
    rw [Store.records_importEntries, Store.newStore, R.records_new, List.nil_append, List.map_map]
    rfl
  rw [Store.getAtVersion, Store.getAtVersionSlice, R.getCFWithTS_eq, hrecords, read_same_timestamp hle]
  cases lookupPair (prependStoreKey storeKey key) (entries.map entryPair).reverse <;> rfl

end IavlStore.VersionDb
