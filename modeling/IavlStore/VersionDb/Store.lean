import IavlStore.Base.ByteOrder
import IavlStore.Base.Cursors
import IavlStore.Base.Ranges
import IavlStore.Base.Timestamps

/-! The versioned key-value database. Every write has its version as a timestamp, and a read
at a version sees the last write up to it. The keys of a store begin with its name. Entries
at version zero may be ignored.

The database beneath is given by what it does: it keeps timestamped records, reads see the
newest record, and a cursor goes over the keys that a read would find. It reports no
errors. -/

namespace IavlStore.VersionDb

open IavlStore.Base.Encoding IavlStore.Base.ByteOrder IavlStore.Base.Cursors IavlStore.Base.Ranges
open IavlStore.Base.Timestamps

/-! ### The database beneath -/

/-- A part of a write batch, to the column family without timestamps or to the other one. -/
inductive BatchOp where
  | put (key value : Bytes)
  | putCFWithTS (key : Bytes) (ts : ℕ) (value : Bytes)
  | deleteCFWithTS (key : Bytes) (ts : ℕ)

def BatchOp.record : BatchOp → Option (Record Bytes Bytes)
  | .put _ _ => none
  | .putCFWithTS key ts value => some ⟨key, ts, some value⟩
  | .deleteCFWithTS key ts => some ⟨key, ts, none⟩

structure RocksDB where
  DB : Type
  new : DB
  write : List BatchOp → DB → DB
  getCFWithTS : (ts : ℕ) → (key : Bytes) → DB → Option (Bytes × ℕ)
  cursors : SortedCursor Bytes (Bytes × ℕ)
  newIteratorCF : (ts : ℕ) → DB → cursors.Cursor
  /-- The timestamped records in the order of the writes. -/
  records : DB → List (Record Bytes Bytes)
  records_new : records new = []
  records_write : ∀ batch db, records (write batch db) = records db ++ batch.filterMap BatchOp.record
  getCFWithTS_eq : ∀ ts key db, getCFWithTS ts key db = read ts key (records db)
  view_newIteratorCF : ∀ ts db, cursors.view (newIteratorCF ts db) = visible ts (records db)

/-- A database kept as a list of records. -/
def listRocksDB : RocksDB where
  DB := List (Record Bytes Bytes)
  new := []
  write batch db := db ++ batch.filterMap BatchOp.record
  getCFWithTS ts key db := read ts key db
  cursors := listCursor Bytes (Bytes × ℕ)
  newIteratorCF ts db := (⟨visible ts db, sorted_visible ts db⟩, none)
  records := id
  records_new := rfl
  records_write _ _ := rfl
  getCFWithTS_eq _ _ _ := rfl
  view_newIteratorCF _ _ := rfl

/-! ### Keys -/

/-- The text `s/k:`, the name of the store and a slash. -/
def storePrefix (storeKey : Bytes) : Bytes := [115, 47, 107, 58] ++ storeKey ++ [47]

def prependStoreKey (storeKey key : Bytes) : Bytes := storePrefix storeKey ++ key

/-- The text `s/latest`. -/
def latestVersionKey : Bytes := [115, 47, 108, 97, 116, 101, 115, 116]

def timestampSize : ℕ := 8

/-- A version as an unsigned number. -/
def timestamp (version : ℤ) : ℕ := (version % 2 ^ 64).toNat

/-- A read without a version sees everything. -/
def readTimestamp : Option ℤ → ℕ
  | none => 2 ^ 64 - 1
  | some version => timestamp version

/-- Increment from the last byte on, `none` when every byte overflows. -/
def incrBytes : Bytes → Option Bytes
  | [] => none
  | b :: bs => if b < 255 then some ((b + 1) :: bs) else (incrBytes bs).map (0 :: ·)

def cpIncr (bz : Bytes) : Option Bytes := (incrBytes bz.reverse).map List.reverse

/-- The range of the keys of a store. -/
def iterateWithPrefix (keyPrefix : Bytes) (start stop : Option Bytes) : Option Bytes × Option Bytes :=
  if keyPrefix = [] then (start, stop)
  else
    (some (keyPrefix ++ start.getD []),
      match stop with
      | none => cpIncr keyPrefix
      | some stop => some (keyPrefix ++ stop))

/-! ### Writes and reads -/

structure StoreKVPair where
  storeKey : Bytes
  delete : Bool
  key : Bytes
  value : Bytes

structure Store (R : RocksDB) where
  db : R.DB
  skipVersionZero : Bool

variable {R : RocksDB}

/-- The write of a pair at a timestamp. -/
def batchOp (delete : Bool) (key : Bytes) (ts : ℕ) (value : Bytes) : BatchOp :=
  if delete then .deleteCFWithTS key ts else .putCFWithTS key ts value

@[simp] theorem record_batchOp (delete : Bool) (key : Bytes) (ts : ℕ) (value : Bytes) :
    (batchOp delete key ts value).record = some ⟨key, ts, if delete then none else some value⟩ := by
  cases delete <;> rfl

namespace Store

def putAtVersion (version : ℤ) (changeSet : List StoreKVPair) (s : Store R) : Store R :=
  let ts := timestamp version
  { s with
    db := R.write (.put latestVersionKey (putLE 8 ts) :: changeSet.map fun pair =>
      batchOp pair.delete (prependStoreKey pair.storeKey pair.key) ts pair.value) s.db }

def getAtVersionSlice (storeKey key : Bytes) (version : Option ℤ) (s : Store R) : Option Bytes :=
  match R.getCFWithTS (readTimestamp version) (prependStoreKey storeKey key) s.db with
  | none => none
  | some (value, ts) => if s.skipVersionZero ∧ ts = 0 then none else some value

def getAtVersion (storeKey key : Bytes) (version : Option ℤ) (s : Store R) : Option Bytes :=
  s.getAtVersionSlice storeKey key version

def hasAtVersion (storeKey key : Bytes) (version : Option ℤ) (s : Store R) : Bool :=
  (s.getAtVersionSlice storeKey key version).isSome

/-- A history of writes, by version. -/
def putAll (history : List (ℤ × List StoreKVPair)) (s : Store R) : Store R :=
  history.foldl (fun s call => s.putAtVersion call.1 call.2) s

/-! ### The records of a history -/

def pairRecord (version : ℤ) (pair : StoreKVPair) : Record Bytes Bytes :=
  ⟨prependStoreKey pair.storeKey pair.key, timestamp version, if pair.delete then none else some pair.value⟩

@[simp] theorem skipVersionZero_putAtVersion (version : ℤ) (changeSet : List StoreKVPair) (s : Store R) :
    (s.putAtVersion version changeSet).skipVersionZero = s.skipVersionZero := rfl

theorem records_putAtVersion (version : ℤ) (changeSet : List StoreKVPair) (s : Store R) :
    R.records (s.putAtVersion version changeSet).db =
      R.records s.db ++ changeSet.map (pairRecord version) := by
  rw [putAtVersion, R.records_write, List.filterMap_cons_none rfl, List.filterMap_map]
  simp [pairRecord]

theorem records_putAll (history : List (ℤ × List StoreKVPair)) (s : Store R) :
    R.records (s.putAll history).db =
      R.records s.db ++ history.flatMap fun call => call.2.map (pairRecord call.1) := by
  induction history generalizing s with
  | nil => simp [putAll]
  | cons call history ih =>
    rw [List.flatMap_cons, ← List.append_assoc, ← records_putAtVersion]
    exact ih _

theorem skipVersionZero_putAll (history : List (ℤ × List StoreKVPair)) (s : Store R) :
    (s.putAll history).skipVersionZero = s.skipVersionZero := by
  induction history generalizing s with
  | nil => rfl
  | cons call history ih => exact ih _

end Store

/-! ### Names without a slash -/

/-- The byte of the slash does not occur. -/
def PlainName (storeKey : Bytes) : Prop := 47 ∉ storeKey

instance (storeKey : Bytes) : Decidable (PlainName storeKey) := inferInstanceAs (Decidable (47 ∉ storeKey))

theorem append_slash_inj {a b x y : Bytes} (ha : 47 ∉ a) (hb : 47 ∉ b) (h : a ++ 47 :: x = b ++ 47 :: y) :
    a = b ∧ x = y := by
  induction a generalizing b with
  | nil =>
    cases b with
    | nil => exact ⟨rfl, (List.cons.inj h).2⟩
    | cons c b => exact absurd (List.cons.inj h).1 (by rintro rfl; simp at hb)
  | cons c a ih =>
    cases b with
    | nil => exact absurd (List.cons.inj h).1 (by rintro rfl; simp at ha)
    | cons d b =>
      obtain ⟨rfl, htail⟩ := List.cons.inj h
      obtain ⟨rfl, rfl⟩ := ih (fun hm => ha (List.mem_cons_of_mem _ hm)) (fun hm => hb (List.mem_cons_of_mem _ hm))
        htail
      exact ⟨rfl, rfl⟩

/-- The first slash after the name ends it. -/
theorem prependStoreKey_inj {s s' k k' : Bytes} (hs : PlainName s) (hs' : PlainName s')
    (h : prependStoreKey s k = prependStoreKey s' k') : s = s' ∧ k = k' := by
  simp only [prependStoreKey, storePrefix, List.append_assoc, List.append_cancel_left_eq] at h
  exact append_slash_inj hs hs' h

/-! ### The range of a store -/

theorem storePrefix_ne_nil (storeKey : Bytes) : storePrefix storeKey ≠ [] := by
  simp [storePrefix]

theorem cpIncr_storePrefix (storeKey : Bytes) :
    cpIncr (storePrefix storeKey) = some ([115, 47, 107, 58] ++ storeKey ++ [48]) := by
  simp [cpIncr, storePrefix, incrBytes]

/-- The keys up to the incremented text are those that begin with it. -/
theorem lt_incr_storePrefix {storeKey key : Bytes} (h : storePrefix storeKey ≤ key) :
    key < [115, 47, 107, 58] ++ storeKey ++ [48] ↔ ∃ k, key = prependStoreKey storeKey k := by
  constructor
  · intro hlt
    obtain ⟨k, rfl⟩ := exists_append_of_between (p := [115, 47, 107, 58] ++ storeKey) (a := [47]) h hlt
    rw [storePrefix, bytes_append_le_append] at h
    rw [bytes_append_lt_append] at hlt
    rcases k with _ | ⟨d, k⟩
    · exact absurd h (not_le.mpr (by simp))
    · have hd : d = 47 := by
        rcases bytes_cons_lt_cons.mp hlt with hd | ⟨-, hnil⟩
        · have hle : ¬ d < 47 := fun hd => absurd h (not_le.mpr (bytes_cons_lt_cons.mpr (.inl hd)))
          have h1 := UInt8.lt_iff_toNat_lt.mp hd
          have h2 := mt UInt8.lt_iff_toNat_lt.mpr hle
          refine UInt8.toNat_inj.mp ?_
          change d.toNat < 48 at h1
          change ¬ d.toNat < 47 at h2
          change d.toNat = 47
          omega
        · simp at hnil
      exact ⟨k, by simp [prependStoreKey, storePrefix, hd]⟩
  · rintro ⟨k, rfl⟩
    rw [prependStoreKey, storePrefix, List.append_assoc, bytes_append_lt_append, List.singleton_append,
      bytes_cons_lt_cons]
    exact .inl (by decide)

/-- The range that is iterated holds the keys of the store in the range that was asked for. -/
theorem inRange_iterateWithPrefix (storeKey : Bytes) (start stop : Option Bytes) (key : Bytes) :
    InRange (iterateWithPrefix (storePrefix storeKey) start stop).1
        (iterateWithPrefix (storePrefix storeKey) start stop).2 key ↔
      ∃ k, key = prependStoreKey storeKey k ∧ InRange start stop k := by
  have hstart : ∀ k, storePrefix storeKey ++ start.getD [] ≤ prependStoreKey storeKey k ↔ ∀ s ∈ start, s ≤ k := by
    intro k
    rw [prependStoreKey, bytes_append_le_append]
    rcases start with _ | s
    · simp [bytes_nil_le]
    · simp
  have hlow : storePrefix storeKey ≤ storePrefix storeKey ++ start.getD [] := by
    conv_lhs => rw [← List.append_nil (storePrefix storeKey)]
    exact (bytes_append_le_append _).mpr (bytes_nil_le _)
  rcases stop with _ | stop
  · simp only [iterateWithPrefix, storePrefix_ne_nil, if_false, InRange, cpIncr_storePrefix, Option.mem_some_iff, forall_eq']
    constructor
    · rintro ⟨hle, hlt⟩
      obtain ⟨k, rfl⟩ := (lt_incr_storePrefix (hlow.trans hle)).mp hlt
      exact ⟨k, rfl, (hstart k).mp hle, by simp⟩
    · rintro ⟨k, rfl, hle, -⟩
      have hle' := (hstart k).mpr hle
      exact ⟨hle', (lt_incr_storePrefix (hlow.trans hle')).mpr ⟨k, rfl⟩⟩
  · simp only [iterateWithPrefix, storePrefix_ne_nil, if_false, InRange, Option.mem_some_iff, forall_eq']
    constructor
    · rintro ⟨hle, hlt⟩
      obtain ⟨k, rfl⟩ := exists_append_of_between hle hlt
      exact ⟨k, rfl, (hstart k).mp hle, (bytes_append_lt_append _).mp hlt⟩
    · rintro ⟨k, rfl, hle, hlt⟩
      exact ⟨(hstart k).mpr hle, (bytes_append_lt_append _).mpr hlt⟩

end IavlStore.VersionDb
