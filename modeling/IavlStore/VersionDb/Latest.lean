import IavlStore.Base.Runs
import IavlStore.Changeset.Format
import IavlStore.VersionDb.Store

/-! The latest version of the database. It is kept under a key of its own in the column family without
timestamps, where every write of a change set puts it. When the node starts with a commit store behind the
database, the database is opened with its history trimmed to the version of the commit store. This takes
the later records away and leaves the latest version as it was, so every further start trims again until
a version is written. -/

namespace IavlStore.VersionDb

open IavlStore.Base.Encoding IavlStore.Base.Cursors IavlStore.Base.Runs IavlStore.Base.Timestamps
open IavlStore.Changeset

/-- The part of a batch for the column family without timestamps. -/
def BatchOp.plain : BatchOp → Option (Bytes × Bytes)
  | .put key value => some (key, value)
  | _ => none

/-- The database with reads of the plain column family, and opening with a trimmed history. -/
structure PlainRocksDB extends RocksDB where
  getBytes : (key : Bytes) → DB → Option Bytes
  openAndTrimHistory : (ts : ℕ) → DB → DB
  getBytes_new : ∀ key, getBytes key new = none
  /-- The last put of a batch counts. -/
  getBytes_write : ∀ key batch db,
    getBytes key (write batch db) = ((batch.filterMap BatchOp.plain).reverse.lookup key).or (getBytes key db)
  records_openAndTrimHistory : ∀ ts db,
    records (openAndTrimHistory ts db) = (records db).filter (·.timestamp ≤ ts)
  getBytes_openAndTrimHistory : ∀ key ts db, getBytes key (openAndTrimHistory ts db) = getBytes key db

/-- Both column families as lists, the plain one with the last put first. -/
def listPlainRocksDB : PlainRocksDB where
  DB := List (Bytes × Bytes) × List (Record Bytes Bytes)
  new := ([], [])
  write batch db :=
    ((batch.filterMap BatchOp.plain).reverse ++ db.1, db.2 ++ batch.filterMap BatchOp.record)
  getCFWithTS ts key db := read ts key db.2
  cursors := listCursor Bytes (Bytes × ℕ)
  newIteratorCF ts db := (⟨visible ts db.2, sorted_visible ts db.2⟩, none)
  records db := db.2
  records_new := rfl
  records_write _ _ := rfl
  getCFWithTS_eq _ _ _ := rfl
  view_newIteratorCF _ _ := rfl
  getBytes key db := db.1.lookup key
  openAndTrimHistory ts db := (db.1, db.2.filter (·.timestamp ≤ ts))
  getBytes_new _ := rfl
  getBytes_write _ _ _ := List.lookup_append
  records_openAndTrimHistory _ _ := rfl
  getBytes_openAndTrimHistory _ _ _ := rfl

variable {R : PlainRocksDB}

namespace Store

def newStore (db : R.DB) : Store R.toRocksDB := ⟨db, false⟩

/-- The history is trimmed to a version. -/
def newStoreAtVersion (version : ℤ) (db : R.DB) : Store R.toRocksDB :=
  newStore (R.openAndTrimHistory (timestamp version) db)

def setLatestVersion (version : ℤ) (s : Store R.toRocksDB) : Store R.toRocksDB :=
  { s with db := R.write [.put latestVersionKey (putLE 8 (timestamp version))] s.db }

/-- A missing or empty value is version zero, and fewer than eight bytes are an access out of range. -/
def getLatestVersion (s : Store R.toRocksDB) : Option ℤ :=
  match R.getBytes latestVersionKey s.db with
  | none => some 0
  | some bz =>
    if bz.length = 0 then some 0
    else if bz.length < 8 then none
    else some (int64 (readLE (bz.take 8)))

/-- The value last written under the key of the latest version gives it back. -/
theorem getLatestVersion_of_lookup {s : Store R.toRocksDB} {version : ℤ} (hv : -2 ^ 63 ≤ version ∧ version < 2 ^ 63)
    (h : R.getBytes latestVersionKey s.db = some (putLE 8 (timestamp version))) :
    s.getLatestVersion = some version := by
  have hlen : (putLE 8 (timestamp version)).length = 8 := length_putLE 8 _
  have hread : readLE (putLE 8 (timestamp version)) = timestamp version := readLE_putLE_uint64 version
  have hint : int64 (timestamp version) = version := int64_uint64 hv
  simp only [getLatestVersion, h, hlen, List.take_of_length_le hlen.le, hread, hint]
  norm_num

theorem getLatestVersion_setLatestVersion {version : ℤ} (hv : -2 ^ 63 ≤ version ∧ version < 2 ^ 63)
    (s : Store R.toRocksDB) : (s.setLatestVersion version).getLatestVersion = some version := by
  refine getLatestVersion_of_lookup hv ?_
  rw [setLatestVersion, R.getBytes_write]
  rfl

theorem getLatestVersion_range {s : Store R.toRocksDB} {version : ℤ} (h : s.getLatestVersion = some version) :
    -2 ^ 63 ≤ version ∧ version < 2 ^ 63 := by
  unfold getLatestVersion at h
  split at h
  · cases h
    norm_num
  · split_ifs at h
    · cases h
      norm_num
    · rw [← Option.some.inj h]
      exact int64_range _

theorem getLatestVersion_putAtVersion {version : ℤ} (hv : -2 ^ 63 ≤ version ∧ version < 2 ^ 63)
    (changeSet : List StoreKVPair) (s : Store R.toRocksDB) :
    (s.putAtVersion version changeSet).getLatestVersion = some version := by
  have hplain : ∀ pair : StoreKVPair, (batchOp pair.delete (prependStoreKey pair.storeKey pair.key)
      (timestamp version) pair.value).plain = none := by
    intro pair
    cases hd : pair.delete <;> rfl
  refine getLatestVersion_of_lookup hv ?_
  rw [putAtVersion, R.getBytes_write, List.filterMap_cons, List.filterMap_map]
  simp only [Function.comp_def, hplain, List.filterMap_none]
  rfl

end Store

theorem timestamp_of_nonneg {version : ℤ} (h₀ : 0 ≤ version) (h : version < 2 ^ 63) : timestamp version = version := by
  rw [timestamp, Int.emod_eq_of_lt h₀ (by omega), Int.toNat_of_nonneg h₀]

/-! ### Starts of the node -/

/-- The database, with the versions whose change sets are in it. -/
structure History (R : PlainRocksDB) where
  store : Store R.toRocksDB
  present : List ℤ

inductive HistoryEvent where
  | putAtVersion (version : ℤ) (changeSet : List StoreKVPair)
  | setupVersionDB (cmsVersion : ℤ)

namespace History

def new : History R := ⟨.newStore R.new, []⟩

/-- The database is opened, and opened again with a trimmed history if it is ahead of the commit store. -/
def setupVersionDB (cmsVersion : ℤ) (s : History R) : Option (History R) := do
  let qmsVersion ← (Store.newStore s.store.db).getLatestVersion
  if 0 < cmsVersion ∧ cmsVersion < qmsVersion then
    some ⟨.newStoreAtVersion cmsVersion s.store.db, s.present.filter (timestamp · ≤ timestamp cmsVersion)⟩
  else some ⟨.newStore s.store.db, s.present⟩

/-- Change sets are put with increasing versions. -/
def step (s : History R) : HistoryEvent → Option (History R × Unit)
  | .putAtVersion version changeSet =>
    if (-2 ^ 63 ≤ version ∧ version < 2 ^ 63) ∧ ∀ v ∈ s.present, v < version then
      some (⟨s.store.putAtVersion version changeSet, s.present ++ [version]⟩, ())
    else none
  | .setupVersionDB cmsVersion => (s.setupVersionDB cmsVersion).map (·, ())

/-- The latest version is the greatest one present, or zero. -/
def Exact (s : History R) : Prop := s.store.getLatestVersion = some (s.present.max?.getD 0)

/-- The start finds a commit store that is behind. -/
def Resets (s : History R) : HistoryEvent → Prop
  | .setupVersionDB cmsVersion => 0 < cmsVersion ∧ ∃ latest ∈ s.store.getLatestVersion, cmsVersion < latest
  | _ => False

variable {s s' : History R}

theorem exact_new : (new : History R).Exact := by
  simp [Exact, new, Store.newStore, Store.getLatestVersion, R.getBytes_new]

theorem max?_append_of_lt {l : List ℤ} {v : ℤ} (h : ∀ w ∈ l, w < v) : (l ++ [v]).max? = some v := by
  rw [List.max?_eq_some_iff]
  refine ⟨by simp, fun w hw => ?_⟩
  rcases List.mem_append.mp hw with hw | hw
  · exact (h w hw).le
  · exact (List.mem_singleton.mp hw).le

theorem exact_putAtVersion {version : ℤ} {changeSet : List StoreKVPair}
    (hs : s.step (.putAtVersion version changeSet) = some (s', ())) : s'.Exact := by
  simp only [step, Option.ite_none_right_eq_some, Option.some.injEq, Prod.mk.injEq, and_true] at hs
  obtain ⟨⟨hv, hlt⟩, rfl⟩ := hs
  rw [Exact, max?_append_of_lt hlt]
  exact Store.getLatestVersion_putAtVersion hv changeSet s.store

/-- What is read of the latest version does not depend on how the database was opened. -/
theorem setupVersionDB_eq (cmsVersion : ℤ) {latest : ℤ} (hl : s.store.getLatestVersion = some latest) :
    s.setupVersionDB cmsVersion = some (if 0 < cmsVersion ∧ cmsVersion < latest
      then ⟨.newStoreAtVersion cmsVersion s.store.db, s.present.filter (timestamp · ≤ timestamp cmsVersion)⟩
      else ⟨.newStore s.store.db, s.present⟩) := by
  have hopen : (Store.newStore s.store.db).getLatestVersion = some latest := hl
  simp only [setupVersionDB, hopen, Option.bind_eq_bind, Option.bind_some]
  split_ifs <;> rfl

theorem getLatestVersion_newStoreAtVersion (version : ℤ) (s : Store R.toRocksDB) :
    (Store.newStoreAtVersion version s.db : Store R.toRocksDB).getLatestVersion = s.getLatestVersion := by
  simp only [Store.getLatestVersion, Store.newStoreAtVersion, Store.newStore, R.getBytes_openAndTrimHistory]

/-- A trimmed history has no version above that of the commit store, and the latest one stays. -/
theorem not_exact_reset {cmsVersion : ℤ} (h : s.Resets (.setupVersionDB cmsVersion))
    (hs : s.step (.setupVersionDB cmsVersion) = some (s', ())) : ¬s'.Exact := by
  obtain ⟨hpos, latest, hl, hlt⟩ := h
  rw [step, setupVersionDB_eq cmsVersion hl, if_pos ⟨hpos, hlt⟩] at hs
  cases hs
  obtain ⟨-, hrange⟩ := Store.getLatestVersion_range hl
  intro hexact
  rw [Exact, getLatestVersion_newStoreAtVersion, hl] at hexact
  have hmax := Option.some.inj hexact
  cases hm : (s.present.filter (timestamp · ≤ timestamp cmsVersion)).max? with
  | none =>
    simp only [hm, Option.getD_none] at hmax
    omega
  | some v =>
    simp only [hm, Option.getD_some] at hmax
    subst hmax
    have hle := List.of_mem_filter (List.max?_mem hm)
    have h₁ := timestamp_of_nonneg hpos.le (by omega)
    have h₂ := timestamp_of_nonneg (by omega : 0 ≤ latest) hrange
    simp only [decide_eq_true_eq] at hle
    omega

theorem exact_setupVersionDB {cmsVersion : ℤ} (h : s.Exact) (hr : ¬s.Resets (.setupVersionDB cmsVersion))
    (hs : s.step (.setupVersionDB cmsVersion) = some (s', ())) : s'.Exact := by
  rw [step, setupVersionDB_eq cmsVersion h, if_neg fun hc => hr ⟨hc.1, _, h, hc.2⟩] at hs
  cases hs
  exact h

/-- In a run of writes and starts, the latest version is the greatest one present in every state if and only
if no start finds a commit store that is behind. -/
theorem latestVersion_exact_iff (R : PlainRocksDB) (es : List HistoryEvent) :
    Along step (fun s e => ∀ r ∈ step s e, r.1.Exact) (new : History R) es ↔
      Along step (fun s e => ¬s.Resets e) (new : History R) es := by
  constructor
  · refine Along.of_invariant (fun s e hs he => ⟨fun hr => ?_, he⟩) exact_new
    cases e with
    | putAtVersion version changeSet => exact hr
    | setupVersionDB cmsVersion =>
      have hstep := congrArg (Option.map (·, ())) (setupVersionDB_eq cmsVersion hs)
      exact not_exact_reset hr hstep (he _ hstep)
  · refine Along.of_invariant (fun s e hs hr => ?_) exact_new
    have hexact : ∀ r ∈ step s e, r.1.Exact := by
      rintro ⟨s', _⟩ hstep
      cases e with
      | putAtVersion version changeSet => exact exact_putAtVersion hstep
      | setupVersionDB cmsVersion => exact exact_setupVersionDB hs hr hstep
    exact ⟨hexact, hexact⟩

/-- Three versions and a start with the commit store at the second: the latest version is still the third, of
which nothing is left, and the next start trims again. -/
theorem latestVersion_after_reset :
    ∃ (s : History listPlainRocksDB) (os : List Unit),
      exec step new [.putAtVersion 1 [⟨[97], false, [1], [10]⟩], .putAtVersion 2 [⟨[97], false, [1], [20]⟩],
        .putAtVersion 3 [⟨[97], false, [1], [30]⟩], .setupVersionDB 2] = some (s, os) ∧
      s.store.getLatestVersion = some 3 ∧ s.present = [1, 2] ∧
      s.store.getAtVersion [97] [1] none = some [20] ∧ s.Resets (.setupVersionDB 2) := by
  refine ⟨_, _, rfl, by decide +kernel, by decide +kernel, by decide +kernel, by decide, 3, by decide +kernel,
    by decide⟩

end History

end IavlStore.VersionDb
