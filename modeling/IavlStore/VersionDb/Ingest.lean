import IavlStore.Tree.Values
import IavlStore.VersionDb.Store

/-! Filling the versioned database from change sets, by batches of writes or with files that are added as
they are. The keys in a file have their timestamps at the end, and must be in the order of the database:
ascending, and for one key the newest first. -/

namespace IavlStore.VersionDb

open IavlStore.Base.Encoding IavlStore.Base.Timestamps

/-! ### The order of the database -/

namespace Comparator

/-- `bytes.Compare`. -/
def bytesCompare (a b : Bytes) : ℤ := if a < b then -1 else if b < a then 1 else 0

def compareTS (bz1 bz2 : Bytes) : ℤ :=
  let ts1 := readLE bz1
  let ts2 := readLE bz2
  if ts1 < ts2 then -1 else if ts2 < ts1 then 1 else 0

/-- A key without its timestamp. No key is shorter than that, where the source would panic. -/
def userKey (key : Bytes) : Bytes := key.take (key.length - timestampSize)

def keyTimestamp (key : Bytes) : Bytes := key.drop (key.length - timestampSize)

def compareWithoutTS (a : Bytes) (aHasTS : Bool) (b : Bytes) (bHasTS : Bool) : ℤ :=
  bytesCompare (if aHasTS then userKey a else a) (if bHasTS then userKey b else b)

def compare (a b : Bytes) : ℤ :=
  let ret := compareWithoutTS a true b true
  if ret ≠ 0 then ret else -compareTS (keyTimestamp a) (keyTimestamp b)

theorem bytesCompare_swap (a b : Bytes) : bytesCompare b a = -bytesCompare a b := by
  unfold bytesCompare
  rcases lt_trichotomy a b with h | rfl | h
  · simp [h, h.not_gt]
  · simp
  · simp [h, h.not_gt]

theorem compareTS_swap (a b : Bytes) : compareTS b a = -compareTS a b := by
  unfold compareTS
  dsimp only
  rcases lt_trichotomy (readLE a) (readLE b) with h | h | h
  · simp [h, h.not_gt]
  · simp [h]
  · simp [h, h.not_gt]

theorem compare_swap (a b : Bytes) : compare b a = -compare a b := by
  have hkeys := bytesCompare_swap (userKey a) (userKey b)
  have hts := compareTS_swap (keyTimestamp a) (keyTimestamp b)
  simp only [compare, compareWithoutTS, if_true]
  split_ifs <;> omega

theorem compare_neg_iff {a b : Bytes} :
    compare a b < 0 ↔ userKey a < userKey b ∨
      userKey a = userKey b ∧ readLE (keyTimestamp b) < readLE (keyTimestamp a) := by
  simp only [compare, compareWithoutTS, if_true, bytesCompare, compareTS]
  rcases lt_trichotomy (userKey a) (userKey b) with h | h | h
  · simp [h]
  · rw [h]
    rcases lt_trichotomy (readLE (keyTimestamp a)) (readLE (keyTimestamp b)) with ht | ht | ht
    · simp [ht, ht.not_gt]
    · simp [ht]
    · simp [ht, ht.not_gt]
  · simp [h, h.not_gt, h.ne']

variable (key : Bytes) (ts : Bytes) (h : ts.length = timestampSize)
include h

theorem userKey_append : userKey (key ++ ts) = key := by
  rw [userKey, List.length_append, h, Nat.add_sub_cancel, List.take_left]

theorem keyTimestamp_append : keyTimestamp (key ++ ts) = ts := by
  rw [keyTimestamp, List.length_append, h, Nat.add_sub_cancel, List.drop_left]

end Comparator

/-! ### Files -/

/-- An entry of a file: a value, or a deletion. -/
structure SSTEntry where
  key : Bytes
  value : Option Bytes

def SSTEntry.compare (a b : SSTEntry) : ℤ := Comparator.compare a.key b.key

def SSTEntry.record (e : SSTEntry) : Record Bytes Bytes :=
  ⟨Comparator.userKey e.key, readLE (Comparator.keyTimestamp e.key), e.value⟩

inductive SSTError where
  /-- Keys must be added in strict ascending order. -/
  | notAscending
  /-- There is no file without entries. -/
  | noEntries
  deriving DecidableEq

/-- The writer knows the size of the file so far. -/
structure SSTFileWriter (E : Type) where
  fileSize : List E → ℕ
  fileSize_nil : fileSize [] = 0

namespace SSTFileWriter

variable {E : Type}

/-- Another entry of the file, after those it has. -/
def add (compare : E → E → ℤ) (e : E) (file : List E) : Except SSTError (List E) :=
  match file.getLast? with
  | none => .ok [e]
  | some last => if compare e last ≤ 0 then .error .notAscending else .ok (file ++ [e])

def finish (file : List E) : Except SSTError (List E) :=
  if file.isEmpty then .error .noEntries else .ok file

theorem add_eq {compare : E → E → ℤ} {e : E} {file : List E} (h : ∀ last ∈ file.getLast?, 0 < compare e last) :
    add compare e file = .ok (file ++ [e]) := by
  unfold add
  rcases hlast : file.getLast? with _ | last
  · rw [List.getLast?_eq_none_iff.mp hlast]
    rfl
  · dsimp only
    rw [if_neg (not_le.mpr (h last hlast))]

theorem finish_eq {file : List E} (h : file ≠ []) : finish file = .ok file := by
  rw [finish, if_neg (by simpa using h)]

end SSTFileWriter

/-- Ingestion adds the records of the files. -/
structure IngestingRocksDB extends RocksDB where
  ingestExternalFileCF : List (List SSTEntry) → DB → DB
  records_ingest : ∀ files db,
    records (ingestExternalFileCF files db) = records db ++ files.flatten.map SSTEntry.record

/-- Files added to a list of records. -/
def listIngestingRocksDB : IngestingRocksDB where
  toRocksDB := listRocksDB
  ingestExternalFileCF files (db : List (Record Bytes Bytes)) := db ++ files.flatten.map SSTEntry.record
  records_ingest _ _ := rfl

/-! ### Batches -/

variable {R : RocksDB}

/-- A pair of a change set as it is written. -/
def changeRecord (storeKey : Bytes) (ts : ℕ) (pair : KVPair) : Record Bytes Bytes :=
  ⟨prependStoreKey storeKey pair.key, ts, if pair.delete then none else some (pair.value.getD [])⟩

namespace Store

def feedChangeSet (version : ℤ) (storeKey : Bytes) (changeSet : ChangeSet) (s : Store R) : Store R :=
  let ts := timestamp version
  { s with
    db := R.write (changeSet.map fun pair =>
      batchOp pair.delete (prependStoreKey storeKey pair.key) ts (pair.value.getD [])) s.db }

theorem records_feedChangeSet (version : ℤ) (storeKey : Bytes) (changeSet : ChangeSet) (s : Store R) :
    R.records (s.feedChangeSet version storeKey changeSet).db =
      R.records s.db ++ changeSet.map (changeRecord storeKey (timestamp version)) := by
  rw [feedChangeSet, R.records_write, List.filterMap_map, ← List.filterMap_eq_map]
  congr 2
  funext pair
  exact record_batchOp _ _ _ _

end Store

end IavlStore.VersionDb
