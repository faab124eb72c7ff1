import IavlStore.Db.Numbers
import IavlStore.Db.Rollback
import IavlStore.Rootmulti.Backfill

/-! The root multistore with its query cache. Versions are added to the cache after a load,
after a commit, after a rollback and by background tasks. An entry can serve proofs when
its commit info is that of its trees. The invariant numbers the versions of the log, of the
snapshots and of the background tasks, so that what a task opens has the version it is
cached at. -/

namespace IavlStore.Rootmulti

open IavlStore.Base.Encoding IavlStore.Base.SortedPairs IavlStore.Base.Runs IavlStore.Multi IavlStore.Db
open QueryDBCache

variable {N : Type} [LinearOrder N] {R : RollbackLog (WALEntry N)}

/-! ### The machine -/

inductive StoreEvent (N : Type) where
  | loadVersionAndUpgrade (target : ℕ) (mounts : List N) (upgrades : StoreUpgrades N)
  | rollbackToVersion (target : ℕ)
  | event (e : Event N)
  | backfill (i : ℕ)
  | backfillFail (i : ℕ)

/-- The events of an open database. Loads and upgrades are calls of their own. -/
def isServed : Event N → Bool
  | .load _ | .setInitialVersion _ | .applyUpgrades _ | .kill _ => false
  | _ => true

/-- A commit that returns adds its version, and closing empties the cache. -/
def publish (opts : CacheOptions) (world : World N R.toWalLog) (c : QueryDBCache (MultiTree N)) :
    Event N → Reply N → QueryDBCache (MultiTree N)
  | .close, _ => newQueryDBCache
  | _, .returned _ =>
    match world.db with
    | none => c
    | some db => c.addHistoricalVersion opts db.working.mtree db.working.mtree.version
  | _, _ => c

/-- Close the database if it is open. -/
def closed (sha256 : Bytes → Bytes) (opts : Options) (world : World N R.toWalLog) :
    Option (World N R.toWalLog) :=
  if world.db.isSome then (Db.step sha256 opts world .close).map Prod.fst else some world

/-- Close the database and load the target for overwriting with a new cache. -/
def rollbackToVersion (sha256 : Bytes → Bytes) (opts : Options) (cacheOpts : CacheOptions) (target : ℕ)
    (s : CachedStore N R.toWalLog) : Option (CachedStore N R.toWalLog) :=
  if target = 0 then none
  else do
    let world ← closed sha256 opts s.world
    let world ← loadForOverwriting sha256 target [] world.disk
    let db ← world.db
    some ⟨world, newQueryDBCache.addHistoricalVersion cacheOpts db.working.mtree db.working.mtree.version,
      s.backfills⟩

/-- A commit that returns an error panics. A background task may fail at any time. -/
def storeStep (sha256 : Bytes → Bytes) (opts : Options) (cacheOpts : CacheOptions)
    (s : CachedStore N R.toWalLog) : StoreEvent N → Option (CachedStore N R.toWalLog × Unit)
  | .loadVersionAndUpgrade target mounts upgrades =>
    if s.world.db.isSome then none
    else (loadVersionAndUpgrade sha256 cacheOpts target mounts upgrades s.world.disk s.backfills).map (·, ())
  | .rollbackToVersion target => (rollbackToVersion sha256 opts cacheOpts target s).map (·, ())
  | .event e =>
    if isServed e then
      match Db.step sha256 opts s.world e with
      | none => none
      | some (_, .returned false) => none
      | some (world, o) => some (⟨world, publish cacheOpts world s.cache e o, s.backfills⟩, ())
    else none
  | .backfill i =>
    match s.backfills[i]? with
    | none => none
    | some b =>
      match backfillStep sha256 cacheOpts s.world.disk s.cache b with
      | (c, none) => some (⟨s.world, c, s.backfills.eraseIdx i⟩, ())
      | (c, some b) => some (⟨s.world, c, s.backfills.set i b⟩, ())
  | .backfillFail i =>
    if i < s.backfills.length then some ({ s with backfills := s.backfills.eraseIdx i }, ()) else none

/-- A task that has opened the directory. -/
def Backfill.isRunning {W : WalLog (WALEntry N)} : Backfill N W → Bool
  | .started _ _ => false
  | .running _ _ _ _ => true

/-- Upgrades are loaded only before the first version, a rollback waits for the background tasks
to open the directory, and version numbers do not overflow. -/
def Undisturbed (s : CachedStore N R.toWalLog) : StoreEvent N → Prop
  | .loadVersionAndUpgrade _ _ upgrades => treeUpgrades upgrades = [] ∨
    R.lastIndex s.world.disk.wal = 0 ∧ ∀ p ∈ s.world.disk.snapshots, p.2.commitInfo.version = 0
  | .rollbackToVersion _ => ∀ b ∈ s.backfills, b.isRunning = true
  | .event .commit => ∀ db ∈ s.world.db,
    nextVersion db.working.mtree.version db.working.mtree.initialVersion ≤ maxInt64
  | _ => True

instance (s : CachedStore N R.toWalLog) : (e : StoreEvent N) → Decidable (Undisturbed s e)
  | .loadVersionAndUpgrade _ _ _ =>
    inferInstanceAs (Decidable (_ = [] ∨ _ = 0 ∧ ∀ p ∈ s.world.disk.snapshots, _ = 0))
  | .rollbackToVersion _ => inferInstanceAs (Decidable (∀ b ∈ s.backfills, _ = true))
  | .event .commit => inferInstanceAs (Decidable (∀ db ∈ s.world.db, _ ≤ _))
  | .event (.load _) | .event (.setInitialVersion _) | .event (.applyUpgrades _) | .event (.applyChangeSets _)
  | .event .finish | .event .await | .event .switch | .event (.receive _) | .event .write | .event .rewrite
  | .event .rewriteFail | .event (.prune _) | .event .close | .event (.kill _) | .backfill _
  | .backfillFail _ => .isTrue trivial

/-! ### Provable entries -/

/-- The commit info of the entry is that of its trees, so the proof of a tree can be continued to
the hash of the commit info. -/
structure Provable (sha256 : Bytes → Bytes) (v : ℤ) (t : MultiTree N) : Prop where
  version : (t.version : ℤ) = v
  names : t.lastCommitInfo.storeInfos.map StoreInfo.name = t.names
  hashes : t.lastCommitInfo.storeInfos.map StoreInfo.hash = t.trees.map fun e => e.tree.rootHash sha256
  proofOp : ∀ name tree, t.treeByName name = some tree →
    ∃ info ∈ t.lastCommitInfo.storeInfos, info.name = name ∧ info.hash = tree.rootHash sha256

variable {sha256 : Bytes → Bytes} {opts : Options} {cacheOpts : CacheOptions} {t : MultiTree N}

theorem Provable.of_sealed (h : Sealed True sha256 t) (hpos : 0 < t.version) : Provable sha256 t.version t := by
  have hrec : t.lastCommitInfo = t.buildCommitInfo sha256 t.version := h.recorded trivial hpos
  have hinfos : t.lastCommitInfo.storeInfos =
      t.trees.map fun e => ⟨e.name, e.tree.version, e.tree.rootHash sha256⟩ := congrArg CommitInfo.storeInfos hrec
  refine ⟨rfl, ?_, ?_, fun name tree ht => ?_⟩
  · rw [hinfos, List.map_map]
    rfl
  · rw [hinfos, List.map_map]
    rfl
  · rw [hinfos]
    exact ⟨_, List.mem_map_of_mem (h.loadable.coherent.treeByName_mem ht), rfl, rfl⟩

/-- Every cached multitree was committed or loaded and has the version it is cached at. -/
def Entries (sha256 : Bytes → Bytes) (c : QueryDBCache (MultiTree N)) : Prop :=
  ∀ v t, lookupPair v c.entries = some t → 0 < t.version ∧ v = t.version ∧ Sealed True sha256 t

theorem entries_new : Entries (N := N) sha256 newQueryDBCache := by
  intro v t h
  simp [newQueryDBCache] at h

theorem Entries.add {c : QueryDBCache (MultiTree N)} (h : Entries sha256 c) (ht : Sealed True sha256 t) :
    Entries sha256 (c.addHistoricalVersion cacheOpts t t.version) := by
  intro v t' h'
  rcases lookup_addHistoricalVersion h' with h' | ⟨hpos, rfl, rfl⟩
  · exact h v t' h'
  · exact ⟨by exact_mod_cast hpos, rfl, ht⟩

/-! ### The invariant -/

section Invariant
variable (v₀ iv n : ℕ)

/-- A task that has not opened the directory has a latest version that is still in the log. An
open one is at the version before the next, and its own log reaches to the latest. -/
def Backfill.Numbered {W : WalLog (WALEntry N)} (sha256 : Bytes → Bytes) (wal : W.Log) : Backfill N W → Prop
  | .started initialVersion latest => initialVersion = iv ∧ 0 < latest ∧
    ∃ m ≤ W.lastIndex wal, latest = versionAt v₀ iv m
  | .running wal mtree next latest => Sealed True sha256 mtree ∧ InRange v₀ iv (W.lastIndex wal) ∧
    latest ≤ versionAt v₀ iv (W.lastIndex wal) ∧
    ∃ k, AtVersion v₀ iv k mtree ∧ 0 < mtree.version ∧ next = mtree.version + 1

structure HistoryInv (opts : Options) (sha256 : Bytes → Bytes) (s : CachedStore N R.toWalLog) : Prop where
  numbers : Numbers v₀ iv n False opts s.world
  keyed : ∀ p ∈ s.world.disk.snapshots, p.1 = p.2.commitInfo.version ∧ p.2.initialVersion = iv
  saved : WorldSaved True sha256 s.world
  cache : Entries sha256 s.cache
  backfills : ∀ b ∈ s.backfills, b.Numbered v₀ iv sha256 s.world.disk.wal

end Invariant

variable {v₀ iv n : ℕ} {s s' : CachedStore N R.toWalLog} {disk : Disk N R.toWalLog}

/-- The versions of the log are in range for every event of an open database. -/
theorem steady_of_numbers {W : WalLog (WALEntry N)} {world : World N W} {e : Event N}
    (h : Numbers v₀ iv n False opts world) (he : isServed e = true)
    (hc : e = .commit → ∀ db ∈ world.db,
      nextVersion db.working.mtree.version db.working.mtree.initialVersion ≤ maxInt64) : Steady world e := by
  have hle : ∀ db ∈ world.db, ∀ t : MultiTree N, UpTo v₀ iv n t →
      t.initialVersion - 1 + W.lastIndex world.disk.wal ≤ maxInt64 := by
    rintro db hdb t ⟨i, -, hat⟩
    obtain ⟨k, hnum⟩ := h.db db hdb
    rw [hat.2]
    exact h.range.index_le hnum.le.1
  cases e with
  | commit => exact hc rfl
  | rewrite =>
    intro db hdb t ht
    obtain ⟨r, hr, ht⟩ := Option.bind_eq_some_iff.mp ht
    obtain ⟨k, hnum⟩ := h.db db hdb
    have hall := hnum.rewrite r hr
    cases r <;> simp only [Rewrite.loadedTree, reduceCtorEq] at ht
    cases ht
    exact hle db hdb t hall
  | switch =>
    intro db hdb t ht
    rcases hp : db.phase with _ | v | ⟨v, t', sv⟩ <;> rw [hp] at ht <;> cases ht
    obtain ⟨k, hnum⟩ := h.db db hdb
    exact hle db hdb t (hnum.phase.2 v t sv hp)
  | load stores => cases he
  | setInitialVersion v => cases he
  | applyUpgrades us => cases he
  | kill n => cases he
  | applyChangeSets | finish | await | receive | write | rewriteFail | prune | close => trivial

/-! ### Opening versions -/

theorem HistoryInv.lastIndex_le (h : HistoryInv v₀ iv n opts sha256 s) :
    R.lastIndex s.world.disk.wal ≤ n := by
  rcases hdb : s.world.db with _ | db
  · exact (h.numbers.closed hdb).le
  · obtain ⟨k, hnum⟩ := h.numbers.db db hdb
    exact hnum.le.1

/-- What a load of a target starts from. -/
theorem HistoryInv.seek (h : HistoryInv v₀ iv n opts sha256 s) {target : ℕ} (hpos : 0 < target)
    {dir : SnapshotDir N} (ho : openVersion sha256 target s.world.disk = some (dir, t)) :
    ∃ i t₀, i ≤ n ∧ AtVersion v₀ iv i t₀ ∧ Sealed True sha256 t₀ ∧ versionAt v₀ iv i ≤ target ∧
      replayTo sha256 target s.world.disk.wal t₀ = some t := by
  obtain ⟨v, t₀, hseek, hdir, ht₀, hrep⟩ := openVersion_eq_some ho
  have hmem := pair_mem_of_lookupPair hdir
  obtain ⟨-, hle, -⟩ := seekSnapshot_eq_some (hseek hpos)
  obtain ⟨i, hi, hat⟩ := h.numbers.dirs _ hmem t₀ ht₀
  have hkey : v = dir.commitInfo.version := (h.keyed _ hmem).1
  rw [hkey, ← (loadMultiTree_fields ht₀).1, hat.1] at hle
  exact ⟨i, t₀, hi, hat, h.saved.dirs _ hmem t₀ ht₀, hle, hrep⟩

theorem sealed_replayTo {W : WalLog (WALEntry N)} {w : W.Log} {t t' : MultiTree N} {target : ℕ}
    (ht : Sealed True sha256 t) (hle : t.initialVersion - 1 + W.lastIndex w ≤ maxInt64)
    (hc : replayTo sha256 target w t = some t') : Sealed True sha256 t' := by
  unfold replayTo at hc
  split_ifs at hc
  · exact ht.catchupWAL hle hc
  · exact Option.some.inj hc ▸ ht

/-- A version that is in the log is opened as such. -/
theorem HistoryInv.openVersion (h : HistoryInv v₀ iv n opts sha256 s) {j : ℕ}
    (hj : j ≤ R.lastIndex s.world.disk.wal) (hpos : 0 < versionAt v₀ iv j) {dir : SnapshotDir N}
    (ho : Db.openVersion sha256 (versionAt v₀ iv j) s.world.disk = some (dir, t)) :
    AtVersion v₀ iv j t ∧ Sealed True sha256 t := by
  obtain ⟨i, t₀, hi, hat, hsealed, hle, hrep⟩ := h.seek hpos ho
  refine ⟨hat.replayTo h.numbers.range hi h.lastIndex_le hj hpos hle hrep, sealed_replayTo hsealed ?_ hrep⟩
  rw [hat.2]
  exact h.numbers.range.index_le h.lastIndex_le

/-- A version up to the latest one is in the log, or it is the one before the first. -/
theorem exists_versionAt {start m : ℕ} (hbase : v₀ = 0 ∨ v₀ + 1 = iv) (hiv : iv ≤ start + 1) (hpos : 0 < start)
    (hle : start ≤ versionAt v₀ iv m) : (∃ j ≤ m, versionAt v₀ iv j = start) ∨ v₀ = 0 ∧ start + 1 = iv := by
  by_cases hfirst : v₀ = 0 ∧ start + 1 = iv
  · exact .inr hfirst
  · have heq : versionAt v₀ iv (start - (iv - 1)) = start := by
      unfold versionAt
      split_ifs <;> omega
    exact .inl ⟨start - (iv - 1), le_of_versionAt_le hbase (heq.le.trans hle), heq⟩

/-- The version before the first one cannot be opened. -/
theorem HistoryInv.openVersion_first (h : HistoryInv v₀ iv n opts sha256 s) (hv : v₀ = 0) {start : ℕ}
    (hiv : start + 1 = iv) (hpos : 0 < start) (hlast : 0 < R.lastIndex s.world.disk.wal) {dir : SnapshotDir N} :
    Db.openVersion sha256 start s.world.disk ≠ some (dir, t) := by
  intro ho
  obtain ⟨i, t₀, hi, hat, -, hle, hrep⟩ := h.seek hpos ho
  have hi0 : i = 0 := by
    unfold versionAt at hle
    split_ifs at hle <;> omega
  subst hi0 hv
  have hver : t₀.version = 0 := hat.1
  have hmax : start ≤ maxInt64 := by have := h.numbers.range.iv_le; omega
  rw [replayTo, hver, if_pos (.inr hpos)] at hrep
  rcases hat.catchupWAL h.numbers.range hi h.lastIndex_le hrep with ⟨h0, -⟩ | ⟨hlt, -⟩
  · omega
  · rw [endIndex, if_neg (by omega), walIndex_eq (by omega) hmax hpos] at hlt
    omega

/-- A background task opens the version it starts from. -/
theorem HistoryInv.backfillStart (h : HistoryInv v₀ iv n opts sha256 s) {latest : ℕ} (hlatest : 0 < latest)
    (hm : ∃ m ≤ R.lastIndex s.world.disk.wal, latest = versionAt v₀ iv m)
    (ho : openReadOnly sha256 (startVersion (cacheLimit cacheOpts) iv latest) s.world.disk = some t) :
    UpTo v₀ iv n t ∧ Sealed True sha256 t ∧ 0 < t.version ∧
      t.version = startVersion (cacheLimit cacheOpts) iv latest := by
  obtain ⟨m, hm, rfl⟩ := hm
  have hbase := h.numbers.range.base
  obtain ⟨hpos, hle, hiv, -, -⟩ := startVersion_spec (one_lt_cacheLimit cacheOpts) hbase hlatest
  generalize startVersion (cacheLimit cacheOpts) iv (versionAt v₀ iv m) = start at *
  unfold openReadOnly at ho
  split_ifs at ho
  obtain ⟨⟨dir, t'⟩, hopen, rfl⟩ := Option.map_eq_some_iff.mp ho
  rcases exists_versionAt hbase hiv hpos hle with ⟨j, hj, rfl⟩ | ⟨hv, hfirst⟩
  · obtain ⟨hat, hsealed⟩ := h.openVersion (hj.trans hm) hpos hopen
    exact ⟨⟨j, (hj.trans hm).trans h.lastIndex_le, hat⟩, hsealed, hat.1 ▸ hpos, hat.1⟩
  · have hmpos : 0 < m := by
      rcases Nat.eq_zero_or_pos m with rfl | hmpos
      · simp only [versionAt, if_true] at hlatest
        omega
      · exact hmpos
    exact absurd hopen (h.openVersion_first hv hfirst hpos (hmpos.trans_le hm))

end IavlStore.Rootmulti
