import IavlStore.Rootmulti.EveryTree

/-! Snapshots for state sync. An export opens a version of the directory and, when it has streamed
all items, leaves its multitree to the query cache until the snapshot is pruned. Exports run beside
the commits, so the version that is opened depends on how far the log has been written: a version
beyond the end of the log is exported as the last one that is there. -/

namespace IavlStore.Rootmulti

open IavlStore.Base.Encoding IavlStore.Base.SortedPairs IavlStore.Base.Runs IavlStore.Multi IavlStore.Db
open QueryDBCache

variable {N : Type} [LinearOrder N]

/-! ### The machine -/

/-- The multitree to export. Versions without a snapshot are opened by replaying the log, if that
is supported. -/
def newMultiTreeExporter {W : WalLog (WALEntry N)} (sha256 : Bytes → Bytes) (supportNonSnapshot : Bool)
    (version : ℕ) (disk : Disk N W) : Option (MultiTree N) :=
  if maxInt64 < version then none
  else if supportNonSnapshot then openReadOnly sha256 version disk
  else if disk.current < version then none
  else (lookupPair version disk.snapshots).bind loadMultiTree

/-- The store with the exports that are being streamed. -/
structure Service (N : Type) (W : WalLog (WALEntry N)) where
  store : CachedStore N W
  exports : List (ℕ × MultiTree N)

inductive ServiceEvent (N : Type) where
  | store (e : StoreEvent N)
  | openExport (version : ℕ)
  | endExport (i : ℕ)
  | failExport (i : ℕ)
  | pruneSnapshotHeight (height : ℤ)

variable {R : RollbackLog (WALEntry N)}

/-- An export that cannot be opened leaves everything as it is. -/
def serviceStep (sha256 : Bytes → Bytes) (opts : Options) (cacheOpts : CacheOptions) (supportNonSnapshot : Bool)
    (s : Service N R.toWalLog) : ServiceEvent N → Option (Service N R.toWalLog × Unit)
  | .store e => (storeStep sha256 opts cacheOpts s.store e).map fun r => ({ s with store := r.1 }, ())
  | .openExport version =>
    match newMultiTreeExporter sha256 supportNonSnapshot version s.store.world.disk with
    | none => some (s, ())
    | some mtree => some ({ s with exports := (version, mtree) :: s.exports }, ())
  | .endExport i =>
    match s.exports[i]? with
    | none => none
    | some (version, mtree) =>
      let cache := s.store.cache.setSnapshotExporter version (some mtree)
      some (⟨{ s.store with cache := cache }, s.exports.eraseIdx i⟩, ())
  | .failExport i => some ({ s with exports := s.exports.eraseIdx i }, ())
  | .pruneSnapshotHeight height =>
    some ({ s with store := { s.store with cache := s.store.cache.purgeSnapshotExporter height } }, ())

/-- The store is undisturbed, and nothing is exported before the first commit. -/
def ServiceUndisturbed (sha256 : Bytes → Bytes) (supportNonSnapshot : Bool) (s : Service N R.toWalLog) :
    ServiceEvent N → Prop
  | .store e => Undisturbed s.store e
  | .openExport version =>
    ∀ t ∈ newMultiTreeExporter sha256 supportNonSnapshot version s.store.world.disk, 0 < t.version
  | _ => True

instance (sha256 : Bytes → Bytes) (b : Bool) (s : Service N R.toWalLog) :
    (e : ServiceEvent N) → Decidable (ServiceUndisturbed sha256 b s e)
  | .store e => inferInstanceAs (Decidable (Undisturbed s.store e))
  | .openExport version =>
    inferInstanceAs (Decidable (∀ t ∈ newMultiTreeExporter sha256 b version s.store.world.disk, 0 < t.version))
  | .endExport _ | .failExport _ | .pruneSnapshotHeight _ => .isTrue trivial

/-! ### What an export opens -/

variable {sha256 : Bytes → Bytes} {opts : Options} {cacheOpts : CacheOptions} {b : Bool} {v₀ iv n : ℕ}
  {t : MultiTree N}

section Opening
variable {s : CachedStore N R.toWalLog}

theorem HistoryInv.sealed_openVersion (h : HistoryInv v₀ iv n opts sha256 s) {target : ℕ} {dir : SnapshotDir N}
    (ho : Db.openVersion sha256 target s.world.disk = some (dir, t)) : Sealed True sha256 t := by
  obtain ⟨v, t₀, -, hdir, ht₀, hrep⟩ := openVersion_eq_some ho
  have hmem := pair_mem_of_lookupPair hdir
  obtain ⟨i, hi, hat⟩ := h.numbers.dirs _ hmem t₀ ht₀
  refine sealed_replayTo (h.saved.dirs _ hmem t₀ ht₀) ?_ hrep
  rw [hat.2]
  exact h.numbers.range.index_le h.lastIndex_le

/-- The newest version up to the target that the directory has. -/
theorem HistoryInv.version_openVersion (h : HistoryInv v₀ iv n opts sha256 s) {target : ℕ} (hpos : 0 < target)
    (hmax : target ≤ maxInt64) (hiv : iv ≤ target + 1) {dir : SnapshotDir N}
    (ho : Db.openVersion sha256 target s.world.disk = some (dir, t)) :
    t.version = target ∨ t.version < target ∧ versionAt v₀ iv (R.lastIndex s.world.disk.wal) ≤ t.version := by
  obtain ⟨i, t₀, hi, hat, -, hle, hrep⟩ := h.seek hpos ho
  have hr := h.numbers.range
  rw [replayTo, hat.1] at hrep
  split_ifs at hrep with hcase
  · rcases hat.catchupWAL hr hi h.lastIndex_le hrep with ⟨hlast, rfl⟩ | ⟨hlt, hat'⟩
    · -- the snapshot is not behind the log
      rw [hat.1]
      exact .inr ⟨hcase.resolve_left (by omega), versionAt_mono hr.base hlast⟩
    · have hidx : walIndex target iv = target - (iv - 1) := walIndex_eq hiv hmax hpos
      have hend : endIndex R.toWalLog s.world.disk.wal target iv = walIndex target iv := if_neg (by omega)
      rw [hend] at hlt hat'
      rcases le_total (walIndex target iv) (R.lastIndex s.world.disk.wal) with hin | hout
      · rw [min_eq_left hin] at hlt hat'
        exact .inl (hat'.1.trans (hr.versionAt_walIndex hmax (by omega) (hin.trans h.lastIndex_le)))
      · rw [min_eq_right hout] at hlt hat'
        rw [hat'.1]
        have hbase := hr.base
        have hup : versionAt v₀ iv (R.lastIndex s.world.disk.wal) ≤ target := by
          unfold versionAt
          split_ifs <;> omega
        rcases hup.eq_or_lt with heq | hlt'
        · exact .inl heq
        · exact .inr ⟨hlt', le_rfl⟩
  · obtain rfl := Option.some.inj hrep
    rw [not_or, not_lt] at hcase
    exact .inl (hat.1.trans (le_antisymm hle hcase.2))

theorem HistoryInv.sealed_export (h : HistoryInv v₀ iv n opts sha256 s) {version : ℕ}
    (ho : newMultiTreeExporter sha256 b version s.world.disk = some t) : Sealed True sha256 t := by
  unfold newMultiTreeExporter openReadOnly at ho
  split_ifs at ho
  · obtain ⟨⟨dir, t'⟩, hopen, rfl⟩ := Option.map_eq_some_iff.mp ho
    exact h.sealed_openVersion hopen
  · obtain ⟨dir, hdir, ht⟩ := Option.bind_eq_some_iff.mp ho
    exact h.saved.dirs _ (pair_mem_of_lookupPair hdir) t ht

theorem HistoryInv.version_export (h : HistoryInv v₀ iv n opts sha256 s) {version : ℕ} (hpos : 0 < version)
    (hiv : iv ≤ version + 1) (ho : newMultiTreeExporter sha256 b version s.world.disk = some t) :
    t.version = version ∨
      b = true ∧ t.version < version ∧ versionAt v₀ iv (R.lastIndex s.world.disk.wal) ≤ t.version := by
  unfold newMultiTreeExporter openReadOnly at ho
  split_ifs at ho with hmax hb
  · obtain ⟨⟨dir, t'⟩, hopen, rfl⟩ := Option.map_eq_some_iff.mp ho
    exact (h.version_openVersion hpos (not_lt.mp hmax) hiv hopen).imp_right fun hlt => ⟨hb, hlt⟩
  · obtain ⟨dir, hdir, ht⟩ := Option.bind_eq_some_iff.mp ho
    have hkey : version = dir.commitInfo.version := (h.keyed _ (pair_mem_of_lookupPair hdir)).1
    exact .inl ((loadMultiTree_fields ht).1.trans hkey.symm)

theorem EveryStore.exported {P : Tree → Prop} (hP : Hereditary P) (h : EveryStore P s) {version : ℕ}
    (ho : newMultiTreeExporter sha256 b version s.world.disk = some t) : t.Every P := by
  unfold newMultiTreeExporter openReadOnly at ho
  split_ifs at ho
  · obtain ⟨⟨dir, t'⟩, hopen, rfl⟩ := Option.map_eq_some_iff.mp ho
    exact every_openVersion hP h.world.dirs hopen
  · obtain ⟨dir, hdir, ht⟩ := Option.bind_eq_some_iff.mp ho
    exact (h.world.dirs _ (pair_mem_of_lookupPair hdir)).loadMultiTree hP ht

end Opening

/-! ### The invariant -/

/-- A multitree that was committed, with its commit info and well-formed trees. -/
structure Committed (sha256 : Bytes → Bytes) (t : MultiTree N) : Prop where
  saved : Sealed True sha256 t
  every : t.Every Tree.Inv
  pos : 0 < t.version

section Invariant
variable (v₀ iv n : ℕ)

structure ServiceInv (opts : Options) (sha256 : Bytes → Bytes) (s : Service N R.toWalLog) : Prop where
  history : HistoryInv v₀ iv n opts sha256 s.store
  every : EveryStore Tree.Inv s.store
  exports : ∀ p ∈ s.exports, Committed sha256 p.2
  exporter : ∀ p ∈ s.store.cache.exporter, Committed sha256 p.2

end Invariant

theorem exporter_addHistoricalVersion {M : Type} (c : QueryDBCache M) (mtree : M) (version : ℤ) :
    (c.addHistoricalVersion cacheOpts mtree version).exporter = c.exporter := by
  unfold QueryDBCache.addHistoricalVersion
  split_ifs
  · rfl
  · simp only [pruneHistoricalTrees]
    split_ifs <;> rfl

/-- A step of the store keeps the exporter or removes it. -/
theorem exporter_of_storeStep {s s' : CachedStore N R.toWalLog} {e : StoreEvent N} {o : Unit}
    (hs : storeStep sha256 opts cacheOpts s e = some (s', o)) :
    s'.cache.exporter = s.cache.exporter ∨ s'.cache.exporter = none := by
  cases e with
  | loadVersionAndUpgrade target mounts upgrades =>
    simp only [storeStep] at hs
    split_ifs at hs
    obtain ⟨s₁, hl, heq⟩ := Option.map_eq_some_iff.mp hs
    cases heq
    obtain ⟨world, c, bs⟩ := s'
    obtain ⟨dir, t, d, working, metadata, -, -, -, -, -, -, hcache, -⟩ := loadVersionAndUpgrade_eq_some hl
    obtain rfl : c = _ := hcache
    exact .inr (exporter_addHistoricalVersion ..)
  | rollbackToVersion target =>
    obtain ⟨s₁, hr, heq⟩ := Option.map_eq_some_iff.mp hs
    cases heq
    unfold rollbackToVersion at hr
    split_ifs at hr
    simp only [Option.bind_eq_bind, Option.bind_eq_some_iff] at hr
    obtain ⟨world₀, -, world, -, db, -, hs'⟩ := hr
    obtain rfl := Option.some.inj hs'
    exact .inr (exporter_addHistoricalVersion ..)
  | event e =>
    simp only [storeStep] at hs
    split_ifs at hs
    rcases hstep : Db.step sha256 opts s.world e with _ | ⟨world, reply⟩
    · rw [hstep] at hs
      cases hs
    · have hs' : ⟨world, publish cacheOpts world s.cache e reply, s.backfills⟩ = s' := by
        rw [hstep] at hs
        rcases reply with _ | t | (_ | _) <;> cases hs <;> rfl
      rw [← hs']
      dsimp only
      unfold publish
      split
      · exact .inr rfl
      · split
        · exact .inl rfl
        · exact .inl (exporter_addHistoricalVersion ..)
      · exact .inl rfl
  | backfill i =>
    simp only [storeStep] at hs
    rcases hb : s.backfills[i]? with _ | b <;> simp only [hb, reduceCtorEq] at hs
    have hkeep : (backfillStep sha256 cacheOpts s.world.disk s.cache b).1.exporter = s.cache.exporter := by
      unfold backfillStep
      split
      · dsimp only
        split_ifs
        · rfl
        · split
          · rfl
          · exact exporter_addHistoricalVersion ..
      · split_ifs
        · split
          · rfl
          · exact exporter_addHistoricalVersion ..
        · rfl
    rcases hstep : backfillStep sha256 cacheOpts s.world.disk s.cache b with ⟨c, _ | b'⟩ <;>
      simp only [hstep] at hs hkeep <;> cases hs <;> exact .inl hkeep
  | backfillFail i =>
    simp only [storeStep] at hs
    split_ifs at hs
    cases hs
    exact .inl rfl

variable {s s' : Service N R.toWalLog}

/-- The exporter can be exchanged. -/
theorem ServiceInv.exchange (h : ServiceInv v₀ iv n opts sha256 s) {c : QueryDBCache (MultiTree N)}
    (hc : c.entries = s.store.cache.entries) (hx : ∀ p ∈ c.exporter, Committed sha256 p.2)
    {exports : List (ℕ × MultiTree N)} (hsub : ∀ p ∈ exports, p ∈ s.exports) :
    ServiceInv v₀ iv n opts sha256 ⟨{ s.store with cache := c }, exports⟩ := by
  obtain ⟨hnum, hkeyed, hsaved, hcache, hback⟩ := h.history
  obtain ⟨hworld, hecache, heback⟩ := h.every
  refine ⟨⟨hnum, hkeyed, hsaved, fun v t ht => hcache v t ?_, hback⟩, ⟨hworld, fun v t ht => hecache v t ?_, heback⟩,
    fun p hp => h.exports p (hsub p hp), hx⟩
  · rwa [← hc]
  · rwa [← hc]

theorem ServiceInv.step (h : ServiceInv v₀ iv n opts sha256 s) {e : ServiceEvent N} {o : Unit}
    (hu : ServiceUndisturbed sha256 b s e) (hs : serviceStep sha256 opts cacheOpts b s e = some (s', o)) :
    ∃ n', ServiceInv v₀ iv n' opts sha256 s' := by
  cases e with
  | store e =>
    obtain ⟨⟨store, o⟩, hstep, heq⟩ := Option.map_eq_some_iff.mp hs
    cases heq
    obtain ⟨n', h'⟩ := h.history.step hu hstep
    refine ⟨n', h', h.every.step hereditary_inv hstep, h.exports, fun p hp => ?_⟩
    rcases exporter_of_storeStep hstep with heq | heq <;> rw [heq] at hp
    · exact h.exporter p hp
    · cases hp
  | openExport version =>
    simp only [serviceStep] at hs
    rcases ho : newMultiTreeExporter sha256 b version s.store.world.disk with _ | t <;> simp only [ho] at hs <;>
      cases hs
    · exact ⟨n, h⟩
    · refine ⟨n, h.history, h.every, fun p hp => ?_, h.exporter⟩
      rcases List.mem_cons.mp hp with rfl | hp
      · exact ⟨h.history.sealed_export ho, h.every.exported hereditary_inv ho, hu t ho⟩
      · exact h.exports p hp
  | endExport i =>
    simp only [serviceStep] at hs
    rcases hi : s.exports[i]? with _ | ⟨version, mtree⟩ <;> simp only [hi, reduceCtorEq] at hs
    cases hs
    have hsub : ∀ p ∈ s.exports.eraseIdx i, p ∈ s.exports := fun p hp => List.mem_of_mem_eraseIdx hp
    refine ⟨n, h.exchange ?_ ?_ hsub⟩ <;> unfold setSnapshotExporter <;> split
    · split_ifs <;> rfl
    · rfl
    · rename_i t hx ht
      obtain rfl := Option.some.inj hx
      split_ifs
      · exact h.exporter
      · intro p hp
        obtain rfl := Option.some.inj hp
        exact h.exports _ (List.mem_of_getElem? hi)
    · exact h.exporter
  | failExport i =>
    cases hs
    exact ⟨n, h.history, h.every, fun p hp => h.exports p (List.mem_of_mem_eraseIdx hp), h.exporter⟩
  | pruneSnapshotHeight height =>
    cases hs
    refine ⟨n, h.exchange ?_ ?_ fun p hp => hp⟩ <;> unfold purgeSnapshotExporter <;> split_ifs
    · rfl
    · rfl
    · exact fun p hp => absurd hp (by simp)
    · exact h.exporter

/-! ### Runs -/

def newService (R : RollbackLog (WALEntry N)) (base : MultiTree N) : Service N R.toWalLog := ⟨newStore R base, []⟩

/-- Where a store starts from: fresh or restored, with well-formed trees and their commit info. -/
structure Start (sha256 : Bytes → Bytes) (base : MultiTree N) : Prop where
  origin : Origin base
  recorded : 0 < base.version → base.Recorded sha256
  every : base.Every Tree.Inv

theorem ServiceInv.run {base : MultiTree N} (hb : Start sha256 base) {es : List (ServiceEvent N)} {os : List Unit}
    (ha : Along (serviceStep sha256 opts cacheOpts b) (ServiceUndisturbed sha256 b) (newService R base) es)
    (he : exec (serviceStep sha256 opts cacheOpts b) (newService R base) es = some (s, os)) :
    ∃ n, ServiceInv base.version base.initialVersion n opts sha256 s :=
  exec_invariant (P := fun s _ => ∃ n, ServiceInv base.version base.initialVersion n opts sha256 s)
    (fun _ _ _ _ _ ⟨_, h⟩ hu hs => h.step hu hs)
    ⟨0, .new hb.origin hb.recorded, everyStore_new hb.every, fun p hp => absurd hp (by simp [newService]),
      fun p hp => absurd hp (by simp [newService, newStore, newQueryDBCache])⟩ ha he

end IavlStore.Rootmulti
