import IavlStore.Rootmulti.History

/-! Cached history along runs of the root multistore. Every cached version can serve proofs
as long as upgrades are loaded only before the first version, and no rollback overtakes a
background task that has not opened the directory yet. -/

namespace IavlStore.Rootmulti

open IavlStore.Base.Encoding IavlStore.Base.SortedPairs IavlStore.Base.Runs IavlStore.Multi IavlStore.Db
open QueryDBCache

variable {N : Type} [LinearOrder N] {R : RollbackLog (WALEntry N)} {sha256 : Bytes → Bytes} {opts : Options}
  {cacheOpts : CacheOptions} {v₀ iv n : ℕ} {s s' : CachedStore N R.toWalLog}

/-! ### Steps -/

/-- The tasks are not affected as long as no entry is taken off the log. -/
theorem Backfill.Numbered.mono {W : WalLog (WALEntry N)} {w w' : W.Log} {b : Backfill N W}
    (h : b.Numbered v₀ iv sha256 w) (hle : W.lastIndex w ≤ W.lastIndex w') : b.Numbered v₀ iv sha256 w' := by
  cases b with
  | started initialVersion latest =>
    obtain ⟨hiv, hpos, m, hm, heq⟩ := h
    exact ⟨hiv, hpos, m, hm.trans hle, heq⟩
  | running wal mtree next latest => exact h

/-- A running task has its own log. -/
theorem Backfill.Numbered.of_running {W : WalLog (WALEntry N)} {w w' : W.Log} {b : Backfill N W}
    (h : b.Numbered v₀ iv sha256 w) (hrun : b.isRunning = true) : b.Numbered v₀ iv sha256 w' := by
  cases b with
  | started initialVersion latest => cases hrun
  | running wal mtree next latest => exact h

theorem HistoryInv.load (h : HistoryInv v₀ iv n opts sha256 s) (hclosed : s.world.db = none) {target : ℕ}
    {mounts : List N} {upgrades : StoreUpgrades N}
    (hu : Undisturbed s (.loadVersionAndUpgrade target mounts upgrades))
    (hl : loadVersionAndUpgrade sha256 cacheOpts target mounts upgrades s.world.disk s.backfills = some s') :
    HistoryInv v₀ iv n opts sha256 s' := by
  obtain ⟨⟨disk, _⟩, c, bs⟩ := s
  obtain rfl : _ = none := hclosed
  obtain ⟨world, c', bs'⟩ := s'
  obtain ⟨dir, t, d, working, metadata, -, ho, hinit, hw, hmeta, hworld, hcache, hback⟩ :=
    loadVersionAndUpgrade_eq_some hl
  obtain ⟨v, t₀, -, hdir, ht₀, ht⟩ := openVersion_eq_some ho
  obtain rfl : world = _ := hworld
  have hr := h.numbers.range
  have hlast : R.lastIndex disk.wal = n := h.numbers.closed rfl
  have hmem := pair_mem_of_lookupPair hdir
  have hup := h.numbers.dirs _ hmem t₀ ht₀
  obtain ⟨k, hk, hat⟩ := hup.replayTo hr hlast.le ht
  obtain ⟨i, hi, hat₀⟩ := hup
  have hsealed : Sealed True sha256 t := by
    refine sealed_replayTo (h.saved.dirs _ hmem t₀ ht₀) ?_ ht
    rw [hat₀.2]
    exact hr.index_le hlast.le
  have hbuild : Building working.mtree := by
    have hok := building_applyUpgrades (building_initialWorking hsealed.toSaved hinit)
      (congrArg Prod.snd hw)
    rwa [hw] at hok
  have hatw : AtVersion v₀ iv k working.mtree := by
    have hatd := atVersion_initialWorking hat (sortNames mounts)
    rw [hinit] at hatd
    have := atVersion_applyUpgrades hatd (treeUpgrades upgrades)
    rwa [hw] at this
  have hentry : 0 < working.mtree.version → Sealed True sha256 working.mtree := by
    intro hpos
    rcases hu with hnil | ⟨h0, hzero⟩
    · have htpos : 0 < t.version := by rwa [hat.1, ← hatw.1]
      rw [initialWorking_of_pos htpos] at hinit
      obtain ⟨rfl, -⟩ := Prod.mk.inj hinit
      rw [hnil] at hw
      exact mtree_applyUpgrades_nil hw ▸ hsealed
    · have hv : versionAt v₀ iv i = 0 := by
        rw [← hat₀.1, (loadMultiTree_fields ht₀).1]
        exact hzero _ hmem
      have h0 : R.lastIndex disk.wal = 0 := h0
      rw [hatw.1, show k = i by omega] at hpos
      omega
  refine ⟨⟨hr, h.numbers.dirs, fun db hdb => ?_, fun hn => by cases hn⟩, h.keyed, ⟨h.saved.dirs, fun db hdb => ?_⟩,
    ?_, ?_⟩
  · obtain rfl := Option.some.inj hdb
    refine ⟨k, .newDB hatw hk (fun h0 => ?_) hlast False.elim⟩
    have h0 : R.lastIndex disk.wal = 0 := h0
    obtain rfl : i = 0 := by omega
    exact (loadMultiTree_fields ht₀).1.symm.trans hat₀.1
  · obtain rfl := Option.some.inj hdb
    exact .newDB hbuild
  · obtain rfl : c' = _ := hcache
    intro v t' hv
    rcases lookup_addHistoricalVersion hv with hv | ⟨hpos, rfl, rfl⟩
    · exact entries_new v t' hv
    · have hpos : 0 < working.mtree.version := by exact_mod_cast hpos
      exact ⟨hpos, rfl, hentry hpos⟩
  · obtain rfl : bs' = _ := hback
    intro b hb
    split_ifs at hb with hpos
    · rcases List.mem_cons.mp hb with rfl | hb
      · exact ⟨(h.keyed _ (pair_mem_of_lookupPair hmeta)).2, hpos, k, hk.trans hlast.ge, hatw.1⟩
      · exact h.backfills b hb
    · exact h.backfills b hb

/-- An event of the open database, with what a commit adds. -/
theorem HistoryInv.event (cacheOpts : CacheOptions) (h : HistoryInv v₀ iv n opts sha256 s) {e : Event N}
    (he : isServed e = true) (hu : Undisturbed s (.event e)) {world : World N R.toWalLog} {o : Reply N}
    (hs : Db.step sha256 opts s.world e = some (world, o)) :
    ∃ n', HistoryInv v₀ iv n' opts sha256 ⟨world, publish cacheOpts world s.cache e o, s.backfills⟩ := by
  have hcommit : e = .commit → ∀ db ∈ s.world.db,
      nextVersion db.working.mtree.version db.working.mtree.initialVersion ≤ maxInt64 := by
    rintro rfl
    exact hu
  have hbound : Bounded s.world (.event e) := by
    cases e with
    | commit => exact hu
    | setInitialVersion v => cases he
    | kill n => cases he
    | load | applyUpgrades | applyChangeSets | finish | await | switch | receive | write | rewrite | rewriteFail
    | prune | close => trivial
  obtain ⟨n', hnum⟩ := h.numbers.step (e := .event e) hs hbound False.elim
  obtain ⟨hsaved, hreply⟩ := h.saved.step hs (steady_of_numbers h.numbers he hcommit)
  refine ⟨n', hnum, fun p hp => ?_, hsaved, ?_, fun b hb => (h.backfills b hb).mono (lastIndex_le_of_step hs)⟩
  · rcases snapshots_of_step hs p hp with hp | ⟨db, t, hdb, hr, rfl⟩ | ⟨v, rfl, -⟩
    · exact h.keyed p hp
    · obtain ⟨k, hk⟩ := h.numbers.db db hdb
      obtain ⟨i, -, hat⟩ : UpTo v₀ iv n t := hk.rewrite _ hr
      exact ⟨rfl, hat.2⟩
    · cases he
  · unfold publish
    split
    · exact entries_new
    · split
      · exact h.cache
      · rename_i db hdb
        exact h.cache.add (hreply db hdb)
    · exact h.cache

/-- A step of a background task adds an entry with its own version. -/
theorem HistoryInv.backfillStep (h : HistoryInv v₀ iv n opts sha256 s) {b : Backfill N R.toWalLog}
    (hb : b ∈ s.backfills) {c : QueryDBCache (MultiTree N)} {b' : Option (Backfill N R.toWalLog)}
    (hs : backfillStep sha256 cacheOpts s.world.disk s.cache b = (c, b')) :
    Entries sha256 c ∧ ∀ b ∈ b', b.Numbered v₀ iv sha256 s.world.disk.wal := by
  have hstop : (s.cache, (none : Option (Backfill N R.toWalLog))) = (c, b') →
      Entries sha256 c ∧ ∀ b ∈ b', b.Numbered v₀ iv sha256 s.world.disk.wal := by
    intro heq
    cases heq
    exact ⟨h.cache, by simp⟩
  have hnum := h.backfills b hb
  cases b with
  | started initialVersion latest =>
    obtain ⟨rfl, hpos, hm⟩ := hnum
    simp only [Rootmulti.backfillStep] at hs
    split_ifs at hs
    · exact hstop hs
    rcases ho : openReadOnly sha256 (startVersion (cacheLimit cacheOpts) initialVersion latest) s.world.disk with
      _ | t <;> simp only [ho] at hs
    · exact hstop hs
    · obtain ⟨⟨k, -, hat⟩, hsealed, htpos, hver⟩ := h.backfillStart hpos hm ho
      obtain ⟨m, hm, hlatest⟩ := hm
      rw [← hver] at hs
      cases hs
      have hr := h.numbers.range
      refine ⟨h.cache.add hsealed, fun b hb => ?_⟩
      obtain rfl := Option.some.inj hb
      refine ⟨hsealed, ⟨hr.base, hr.iv_le, ?_⟩, ?_, k, hat, htpos, rfl⟩
      · exact (versionAt_mono hr.base h.lastIndex_le).trans hr.version_le
      · exact hlatest.le.trans (versionAt_mono hr.base hm)
  | running wal mtree next latest =>
    obtain ⟨hsealed, hr, hlatest, k, hat, hpos, rfl⟩ := hnum
    simp only [Rootmulti.backfillStep] at hs
    split_ifs at hs with hlt
    · rcases hcat : mtree.catchupWAL sha256 R.toWalLog wal (mtree.version + 1) with _ | t <;> simp only [hcat] at hs
      · exact hstop hs
      · -- the log of the task reaches beyond the next version
        have hnext : versionAt v₀ iv (k + 1) = mtree.version + 1 := by
          rw [hat.1] at hpos ⊢
          exact versionAt_next hr.base hpos
        have hk : k + 1 < R.lastIndex wal := lt_of_versionAt_lt hr.base (by omega)
        have hend : endIndex R.toWalLog wal (mtree.version + 1) iv = k + 1 := by
          rw [endIndex, if_neg (by omega), ← hnext, hr.walIndex (by omega)]
        have hat' : AtVersion v₀ iv (k + 1) t := by
          rcases hat.catchupWAL hr (by omega) le_rfl hcat with ⟨hle, -⟩ | ⟨-, h'⟩
          · omega
          · rwa [hend, min_eq_left hk.le] at h'
        have hsealed' := hsealed.catchupWAL (by rw [hat.2]; exact hr.index_le le_rfl) hcat
        rw [← hnext, ← hat'.1] at hs
        cases hs
        refine ⟨h.cache.add hsealed', fun b hb => ?_⟩
        obtain rfl := Option.some.inj hb
        exact ⟨hsealed', hr, hlatest, k + 1, hat', by rw [hat'.1]; omega, rfl⟩
    · exact hstop hs

/-- A rollback to a version that is in the log. -/
theorem HistoryInv.loadForOverwriting (h : HistoryInv v₀ iv n opts sha256 s) (hclosed : s.world.db = none)
    {target : ℕ} (hpos : 0 < target) {world : World N R.toWalLog} {db : DB N}
    (hl : loadForOverwriting sha256 target [] s.world.disk = some world) (hdb : world.db = some db)
    (hrun : ∀ b ∈ s.backfills, b.isRunning = true) :
    ∃ n', HistoryInv v₀ iv n' opts sha256
      ⟨world, newQueryDBCache.addHistoricalVersion cacheOpts db.working.mtree db.working.mtree.version,
        s.backfills⟩ := by
  obtain ⟨⟨disk, _⟩, c, bs⟩ := s
  obtain rfl : _ = none := hclosed
  have hr := h.numbers.range
  have hlast : R.lastIndex disk.wal = n := h.numbers.closed rfl
  obtain ⟨hmax, dir, t, v, wal, working, ho, hseek, hwal, hw, rfl⟩ := loadForOverwriting_eq_some hpos hl
  obtain rfl := Option.some.inj hdb
  obtain ⟨i, t₀, hi, hat₀, -, -, hrep⟩ := h.seek hpos ho
  obtain ⟨m, -, hatm⟩ := UpTo.replayTo hr ⟨i, hi, hat₀⟩ hlast.le hrep
  rw [hatm.2] at hwal
  obtain ⟨hdr, hj, hlast'⟩ := RollbackLog.lastIndex_truncateBack hwal
  have hver := hr.versionAt_walIndex hmax (by omega) (hj.trans hlast.le)
  generalize walIndex target iv = j at *
  subst hver
  obtain ⟨hat, hsealed⟩ := h.openVersion hj hpos ho
  rw [initialWorking_of_pos (hat.1 ▸ hpos)] at hw
  obtain ⟨rfl, -⟩ := Prod.mk.inj hw
  have hj : j ≤ n := hj.trans hlast.le
  refine ⟨j, ⟨⟨hr.base, hr.iv_le, (versionAt_mono hr.base hj).trans hr.version_le⟩, fun p hp t' ht' => ?_,
    fun d hd => ?_, fun hd => by cases hd⟩, fun p hp => h.keyed p (List.mem_of_mem_filter hp),
    ⟨fun p hp => h.saved.dirs p (List.mem_of_mem_filter hp), fun d hd => ?_⟩, entries_new.add hsealed,
    fun b hb => (h.backfills b hb).of_running (hrun b hb)⟩
  · obtain ⟨hp, hle⟩ := List.mem_filter.mp hp
    obtain ⟨k, hk, hat'⟩ := h.numbers.dirs p hp t' ht'
    have hkey : p.1 = versionAt v₀ iv k := by
      rw [(h.keyed p hp).1, ← (loadMultiTree_fields ht').1, hat'.1]
    rw [hkey] at hle
    exact ⟨k, le_of_versionAt_le hr.base (by simpa using hle), hat'⟩
  · obtain rfl := Option.some.inj hd
    refine ⟨j, .newDB hat le_rfl (fun h0 => ?_) hlast' False.elim⟩
    have h0 : R.lastIndex wal = 0 := h0
    omega
  · obtain rfl := Option.some.inj hd
    exact .newDB hsealed.building

theorem HistoryInv.rollback (h : HistoryInv v₀ iv n opts sha256 s) {target : ℕ}
    (hrun : ∀ b ∈ s.backfills, b.isRunning = true)
    (hr : rollbackToVersion sha256 opts cacheOpts target s = some s') :
    ∃ n', HistoryInv v₀ iv n' opts sha256 s' := by
  unfold rollbackToVersion at hr
  split_ifs at hr with h0
  have hpos : 0 < target := Nat.pos_of_ne_zero h0
  simp only [Option.bind_eq_bind, Option.bind_eq_some_iff] at hr
  obtain ⟨world₀, hclose, world, hl, db, hdb, hs'⟩ := hr
  obtain rfl := Option.some.inj hs'
  unfold closed at hclose
  split_ifs at hclose with hopen
  · obtain ⟨⟨world₁, o⟩, hstep, rfl⟩ := Option.map_eq_some_iff.mp hclose
    obtain ⟨n', h'⟩ := h.event (e := .close) cacheOpts rfl trivial hstep
    exact h'.loadForOverwriting (db_of_close hstep) hpos hl hdb hrun
  · obtain rfl := Option.some.inj hclose
    exact h.loadForOverwriting (by simpa using hopen) hpos hl hdb hrun

/-- Every undisturbed step keeps the invariant. -/
theorem HistoryInv.step (h : HistoryInv v₀ iv n opts sha256 s) {e : StoreEvent N} {o : Unit}
    (hu : Undisturbed s e) (hs : storeStep sha256 opts cacheOpts s e = some (s', o)) :
    ∃ n', HistoryInv v₀ iv n' opts sha256 s' := by
  cases e with
  | loadVersionAndUpgrade target mounts upgrades =>
    simp only [storeStep] at hs
    split_ifs at hs with hdb
    obtain ⟨s₁, hl, heq⟩ := Option.map_eq_some_iff.mp hs
    cases heq
    exact ⟨n, h.load (by simpa using hdb) hu hl⟩
  | rollbackToVersion target =>
    obtain ⟨s₁, hr, heq⟩ := Option.map_eq_some_iff.mp hs
    cases heq
    exact h.rollback hu hr
  | event e =>
    simp only [storeStep] at hs
    split_ifs at hs with he
    rcases hstep : Db.step sha256 opts s.world e with _ | ⟨world, reply⟩
    · rw [hstep] at hs
      cases hs
    · have hs' : ⟨world, publish cacheOpts world s.cache e reply, s.backfills⟩ = s' := by
        rw [hstep] at hs
        rcases reply with _ | t | (_ | _) <;> cases hs <;> rfl
      exact hs' ▸ h.event cacheOpts he hu hstep
  | backfill i =>
    simp only [storeStep] at hs
    rcases hb : s.backfills[i]? with _ | b <;> simp only [hb, reduceCtorEq] at hs
    rcases hstep : Rootmulti.backfillStep sha256 cacheOpts s.world.disk s.cache b with ⟨c, _ | b'⟩ <;>
      simp only [hstep] at hs <;> cases hs
    · obtain ⟨hc, -⟩ := h.backfillStep (List.mem_of_getElem? hb) hstep
      exact ⟨n, h.numbers, h.keyed, h.saved, hc, fun b hb => h.backfills b (List.mem_of_mem_eraseIdx hb)⟩
    · obtain ⟨hc, hb'⟩ := h.backfillStep (List.mem_of_getElem? hb) hstep
      refine ⟨n, h.numbers, h.keyed, h.saved, hc, fun b hb => ?_⟩
      rcases List.mem_or_eq_of_mem_set hb with hb | rfl
      · exact h.backfills b hb
      · exact hb' b rfl
  | backfillFail i =>
    simp only [storeStep] at hs
    split_ifs at hs
    cases hs
    exact ⟨n, h.numbers, h.keyed, h.saved, h.cache, fun b hb => h.backfills b (List.mem_of_mem_eraseIdx hb)⟩

/-! ### Runs -/

/-- A store that was never loaded, over a fresh or restored directory. -/
def newStore (R : RollbackLog (WALEntry N)) (base : MultiTree N) : CachedStore N R.toWalLog :=
  ⟨⟨freshDisk R.toWalLog base, none⟩, newQueryDBCache, []⟩

theorem HistoryInv.new {base : MultiTree N} (hb : Origin base)
    (hrec : 0 < base.version → base.Recorded sha256) :
    HistoryInv base.version base.initialVersion 0 opts sha256 (newStore R base) := by
  refine ⟨hb.numbers, fun p hp => ?_, ⟨fun p hp t ht => ?_, fun db hdb => by cases hdb⟩, entries_new,
    fun b hb => by cases hb⟩
  · obtain rfl := List.mem_singleton.mp hp
    exact ⟨rfl, rfl⟩
  · obtain rfl := List.mem_singleton.mp hp
    rw [hb.loadable.loadMultiTree_writeSnapshot] at ht
    obtain rfl := Option.some.inj ht
    exact ⟨⟨hb.loadable, hb.level⟩, fun _ => hrec⟩

/-- Blocks without changes after a load. -/
def loadAndCommit (mounts : List ℕ) (upgrades : StoreUpgrades ℕ) (blocks : ℕ) : List (StoreEvent ℕ) :=
  .loadVersionAndUpgrade 0 mounts upgrades ::
    (List.replicate blocks [.event .commit, .event .finish]).flatten ++ [.event .close]

end IavlStore.Rootmulti
