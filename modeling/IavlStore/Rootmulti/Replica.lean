import IavlStore.Db.Crash
import IavlStore.Db.Versions
import IavlStore.Multi.Upgrades
import IavlStore.Rootmulti.Store

/-! The root multistore follows its replica. While the store is open, the multitree in use
and the collected writes are those of the replica; once it is closed, the last committed
state is the multitree of the replica. The steps of the other threads, switches included,
leave both as they are. -/

namespace IavlStore.Rootmulti

open IavlStore.Base.Encoding IavlStore.Base.SortedPairs IavlStore.Base.Journal IavlStore.Base.Runs
open IavlStore.Multi IavlStore.Db

variable {N : Type} [LinearOrder N] {W : WalLog (WALEntry N)} {sha256 : Bytes → Bytes} {opts : Options}

/-! ### The invariant -/

section Invariant
variable (v₀ iv : ℕ) (h : History (MultiTree N) (WALEntry N)) (c : ℕ) (opts : Options) (sha256 : Bytes → Bytes)

/-- The database and its snapshots belong to one history, and before the first commit nothing
runs in the background. -/
structure Kept (world : World N W) : Prop where
  inv : Inv v₀ iv h c opts True False sha256 world
  snapshots : HistorySnapshots v₀ iv h world.disk
  fresh : h.log = [] → ∀ db ∈ world.db, db.rewrite = none ∧ db.pruning = none

/-- The mounted stores of an idle database. -/
structure Mounted (stores : List (N × ChangeSet)) (db : DB N) : Prop where
  idle : db.phase = .idle
  nodup : (stores.map Prod.fst).Nodup
  names : ∀ name ∈ stores.map Prod.fst, name ∈ db.working.mtree.names
  pending : (db.working.pendingLog.changesets.map NamedChangeSet.name).Nodup

/-- A store and the replica that has taken the same calls. -/
def Tracks (r : Replica N) (s : Store N W) : Prop :=
  ∃ v₀ iv h c, Kept v₀ iv h c opts sha256 s.world ∧ (s.world.db = none → r.mtree = h.last) ∧
    ∀ db ∈ s.world.db, Mounted s.stores db ∧ r = ⟨db.working.mtree, s.stores⟩

end Invariant

variable {v₀ iv c : ℕ} {h : History (MultiTree N) (WALEntry N)} {disk : Disk N W} {db db' : DB N}
  {world world' : World N W} {stores : List (N × ChangeSet)}

theorem Origin.kept {base : MultiTree N} (hb : Origin base) :
    Kept base.version base.initialVersion ⟨[], fun _ => base⟩ 0 opts sha256
      ⟨freshDisk W base, none⟩ :=
  ⟨hb.inv, fun _ hp => ⟨0, le_rfl, List.mem_singleton.mp hp⟩, fun _ _ hdb => absurd hdb (by simp)⟩

/-! ### The other threads -/

/-- A background step keeps the block, and starts nothing while the database is idle. -/
def Beside (db db' : DB N) : Prop :=
  db'.working = db.working ∧ (db.phase = .idle → db'.phase = .idle ∧ (db.rewrite = none → db'.rewrite = none) ∧
    (db.pruning = none → db'.pruning = none))

theorem inv_background (hi : Inv v₀ iv h c opts True False sha256 ⟨disk, some db⟩) {e : Event N} {o : Reply N}
    (hb : isBackground e = true) (hs : Db.step sha256 opts ⟨disk, some db⟩ e = some (world', o)) :
    ∃ c' db', world'.db = some db' ∧ Inv v₀ iv h c' opts True False sha256 world' ∧ Beside db db' := by
  cases fires_of_step hs with
  | receive hf =>
    have hi' := hi.receive hf
    obtain ⟨-, rfl⟩ := receive_eq_some hf
    exact ⟨c, _, rfl, hi', rfl, fun hp => ⟨hp, id, id⟩⟩
  | write hf =>
    have hi' := hi.write hf
    rcases write_eq_some hf with ⟨wal, -, rfl⟩ | ⟨-, rfl⟩ <;> exact ⟨c, _, rfl, hi', rfl, fun hp => ⟨hp, id, id⟩⟩
  | rewrite hr hf =>
    obtain ⟨c', hi'⟩ := hi.rewrite hr hf fun hb => hb.elim
    exact ⟨c', _, rfl, hi', rfl, fun hp => ⟨hp, fun h0 => absurd h0 (by simp [hr]), id⟩⟩
  | rewriteFail hr hcan =>
    have hdb := hi.db_inv
    exact ⟨c, _, rfl, hi.of_db (hdb.set_rewrite rfl (hdb.not_waiting hr) trivial hdb.pruning), rfl,
      fun hp => ⟨hp, fun h0 => absurd h0 (by simp [hr]), id⟩⟩
  | prune hp hf => exact ⟨c, _, rfl, hi.prune hp hf, rfl, fun hi => ⟨hi, id, fun h0 => absurd h0 (by simp [hp])⟩⟩
  | finish hf =>
    obtain ⟨v, hp, -⟩ := finish_eq_some hf
    exact ⟨c, _, rfl, (hi.finish hf).1, (hi.finish hf).2, fun h0 => absurd h0 (by simp [hp])⟩
  | await hf =>
    obtain ⟨v, t, sv, hp, -⟩ := await_eq_some hf
    exact ⟨c, _, rfl, (hi.await hf).1, (hi.await hf).2, fun h0 => absurd h0 (by simp [hp])⟩
  | switch hf =>
    obtain ⟨v, t, sv, hp, -⟩ := switch_eq_some hf
    exact ⟨c, _, rfl, (hi.switch hf).1, (hi.switch hf).2, fun h0 => absurd h0 (by simp [hp])⟩
  | kill | setInitialVersion | applyUpgrades | applyChangeSets | commit | close => cases hb

theorem orderly_background {e : Event N} (hb : isBackground e = true) : Orderly world e := by
  cases e with
  | setInitialVersion | applyUpgrades | applyChangeSets | commit => cases hb
  | load | finish | await | switch | receive | write | rewrite | rewriteFail | prune | close | kill => trivial

/-- Before the first commit no commit is under way. -/
theorem idle_of_nil (hdb : DBInv v₀ iv h c opts True disk db) (hnil : h.log = []) : db.phase = .idle := by
  have hphase := hdb.phase
  unfold PhaseInv at hphase
  rcases hp : db.phase with _ | v | ⟨v, t, sv⟩
  · rfl
  · rw [hp] at hphase
    exact absurd hnil hphase.1
  · rw [hp] at hphase
    exact absurd hnil hphase.1

/-- Whatever the other threads do, the block stays as it is. -/
theorem Kept.background (hk : Kept v₀ iv h c opts sha256 world) (hdb : world.db = some db)
    {es : List (Event N)} (hb : background sha256 opts world es = some world') :
    ∃ c' db', world'.db = some db' ∧ Kept v₀ iv h c' opts sha256 world' ∧ db'.working = db.working ∧
      (db.phase = .idle → db'.phase = .idle) := by
  induction es generalizing world c db with
  | nil =>
    cases hb
    exact ⟨c, db, hdb, hk, rfl, id⟩
  | cons e es ih =>
    rw [Rootmulti.background] at hb
    split_ifs at hb with he
    rcases hs : Db.step sha256 opts world e with _ | ⟨world₁, o⟩
    · simp only [hs, reduceCtorEq] at hb
    have hb₁ : Rootmulti.background sha256 opts world₁ es = some world' := by
      rcases o with _ | t | _ | _ <;> simp only [hs, reduceCtorEq] at hb <;> exact hb
    obtain ⟨disk, _⟩ := world
    obtain rfl : _ = some db := hdb
    obtain ⟨c₁, db₁, hdb₁, hi₁, hw₁, hidle₁⟩ := inv_background hk.inv he hs
    have hk₁ : Kept v₀ iv h c₁ opts sha256 world₁ := by
      refine ⟨hi₁, hk.snapshots.step hk.inv hs (orderly_background he), fun hnil d hd => ?_⟩
      obtain rfl := Option.some.inj (hdb₁.symm.trans hd)
      obtain ⟨-, hrew, hprune⟩ := hidle₁ (idle_of_nil hk.inv.db_inv hnil)
      exact (hk.fresh hnil db rfl).imp hrew hprune
    obtain ⟨c', db', hdb', hk', hw', hidle'⟩ := ih hk₁ hdb₁ hb₁
    exact ⟨c', db', hdb', hk', hw'.trans hw₁, fun hp => hidle' (hidle₁ hp).1⟩

/-! ### Flushes -/

theorem popChangeSets_ne_nil (stores : List (N × ChangeSet)) :
    ∀ cs ∈ popChangeSets stores, cs.changeset ≠ [] := by
  intro cs hcs
  have hmem := (List.mem_insertionSort _).mp hcs
  simp only [List.mem_map, List.mem_filter, decide_eq_true_eq] at hmem
  obtain ⟨s, ⟨-, hne⟩, rfl⟩ := hmem
  exact hne

theorem nodup_popChangeSets (hnd : (stores.map Prod.fst).Nodup) :
    ((popChangeSets stores).map NamedChangeSet.name).Nodup := by
  refine (((List.perm_insertionSort _ _).map NamedChangeSet.name).nodup_iff).mpr ?_
  rw [List.map_map]
  exact (List.filter_sublist.map Prod.fst).nodup hnd

omit [LinearOrder N] in
@[simp] theorem map_fst_clearStores (stores : List (N × ChangeSet)) :
    (clearStores stores).map Prod.fst = stores.map Prod.fst := by
  simp [clearStores]

@[simp] theorem map_fst_addPair (name : N) (p : KVPair) (stores : List (N × ChangeSet)) :
    (addPair name p stores).map Prod.fst = stores.map Prod.fst := by
  unfold addPair
  rw [List.map_map]
  refine List.map_congr_left fun s _ => ?_
  simp only [Function.comp_apply]
  split_ifs <;> rfl

theorem names_applyChangeSets {t : MultiTree N} (ht : t.Coherent) (cs : List (NamedChangeSet N)) :
    (t.applyChangeSets cs).1.names = t.names := by
  obtain ⟨f, -, hf⟩ := ht.applyChangeSets_fst cs
  rw [hf, MultiTree.names_applyAll]

/-- A flush does to the block what it does to the replica. -/
theorem Kept.flush (hk : Kept v₀ iv h c opts sha256 ⟨disk, some db⟩) (hm : Mounted stores db)
    (hf : flush db stores = some db') :
    Kept v₀ iv h c opts sha256 ⟨disk, some db'⟩ ∧ Mounted (clearStores stores) db' ∧
      (⟨db'.working.mtree, clearStores stores⟩ : Replica N) = Replica.flush ⟨db.working.mtree, stores⟩ ∧
      db'.working.mtree.version = db.working.mtree.version ∧
      db'.working.mtree.initialVersion = db.working.mtree.initialVersion := by
  have hmtree := Working.mtree_applyChangeSets (popChangeSets_ne_nil stores) db.working
  have hnd := nodup_popChangeSets hm.nodup
  have hcoh := (hk.inv.db_inv.working.fields hk.inv.numbered).1
  unfold Rootmulti.flush at hf
  rcases ha : db.working.applyChangeSets (popChangeSets stores) with ⟨working, _ | err⟩ <;>
    simp only [ha, reduceCtorEq] at hf
  obtain rfl := Option.some.inj hf
  rw [ha] at hmtree
  have hfst : working.mtree = (db.working.mtree.applyChangeSets (popChangeSets stores)).1 :=
    congrArg Prod.fst hmtree
  have hmerge : MergesInOrder (popChangeSets stores) db.working :=
    .inr fun cs _ => List.nodup_iff_count_le_one.mp hm.pending cs.name
  have hi := hk.inv.applyChangeSets hm.idle hmerge fun _ => congrArg Prod.snd ha
  have hpending := nodup_applyChangeSets hnd hm.pending
  rw [ha] at hi hpending
  obtain ⟨hci, hiv⟩ := MultiTree.applyChangeSets_fields (popChangeSets stores) db.working.mtree
  refine ⟨⟨hi, hk.snapshots, fun hnil d hd => ?_⟩, ⟨hm.idle, ?_, ?_, hpending⟩, ?_, ?_, ?_⟩
  · obtain rfl := Option.some.inj hd
    exact hk.fresh hnil db rfl
  · rw [map_fst_clearStores]
    exact hm.nodup
  · rw [map_fst_clearStores, hfst, names_applyChangeSets hcoh]
    exact hm.names
  · rw [hfst]
    rfl
  · rw [hfst]
    exact congrArg CommitInfo.version hci
  · rw [hfst]
    exact hiv

/-! ### Commits -/

omit [LinearOrder N] in
theorem names_saveVersion {t t' : MultiTree N} (hs : t.saveVersion sha256 true = .ok t') : t'.names = t.names := by
  obtain ⟨trees, htrees, rfl⟩ := MultiTree.saveVersion_eq_ok hs
  exact MultiTree.map_name_saveTrees htrees

/-- A commit up to the check of the background tasks. -/
theorem Kept.commit (hk : Kept v₀ iv h c opts sha256 ⟨disk, some db⟩) {t : MultiTree N}
    (hc : Db.commit sha256 opts disk db = some (world', t))
    (hmax : nextVersion db.working.mtree.version db.working.mtree.initialVersion ≤ maxInt64) :
    db.working.mtree.saveVersion sha256 true = .ok t ∧ t.names = db.working.mtree.names ∧
      Kept v₀ iv (h.push db.working.pendingLog t) c opts sha256 world' ∧
      ∃ db', world'.db = some db' ∧ db'.working = ⟨t, emptyEntry⟩ := by
  obtain ⟨hs, hw, hi⟩ := hk.inv.commit hc hmax
  have hsnap : HistorySnapshots v₀ iv h world'.disk := by
    obtain ⟨-, ⟨-, rfl⟩ | ⟨-, wal, -, rfl⟩⟩ := commit_eq_some hc <;> exact hk.snapshots
  obtain ⟨db', hdb', hw'⟩ := Option.map_eq_some_iff.mp hw
  refine ⟨hs, names_saveVersion hs, ⟨hi, hsnap.mono (h.extends_push _ t), fun hnil => ?_⟩, db', hdb', hw'⟩
  simp at hnil

/-! ### Loads -/

/-- Upgrades in two calls, where the first one leaves the trees in order. -/
theorem applyUpgrades_twice {d d' : Working N} {us vs : List (TreeNameUpgrade N)} {t : MultiTree N}
    (h₁ : (⟨t, emptyEntry⟩ : Working N).applyUpgrades us = (d, none))
    (hs : MultiTree.sortTrees (MultiTree.upgradeLoop (nextVersion t.version t.initialVersion) us t.trees).1 =
      (MultiTree.upgradeLoop (nextVersion t.version t.initialVersion) us t.trees).1)
    (h₂ : d.applyUpgrades vs = (d', none)) :
    (⟨t, emptyEntry⟩ : Working N).applyUpgrades (us ++ vs) = (d', none) := by
  unfold Working.applyUpgrades at h₁ h₂ ⊢
  rcases ht₁ : t.applyUpgrades us with ⟨t₁, _ | err⟩ <;> simp only [ht₁, Prod.mk.injEq, reduceCtorEq, and_false] at h₁
  obtain ⟨rfl, -⟩ := h₁
  rcases ht₂ : t₁.applyUpgrades vs with ⟨t₂, _ | err⟩ <;> simp only [ht₂, Prod.mk.injEq, reduceCtorEq, and_false] at h₂
  obtain ⟨rfl, -⟩ := h₂
  simp only [MultiTree.applyUpgrades_append ht₁ hs ht₂, List.append_assoc]

theorem sortTrees_initial (v : ℕ) (names : List N) :
    MultiTree.sortTrees (MultiTree.upgradeLoop v ((sortNames names).map fun name => ⟨name, none, false⟩) []).1 =
      (MultiTree.upgradeLoop v ((sortNames names).map fun name => ⟨name, none, false⟩) []).1 := by
  rw [upgradeLoop_add, List.nil_append]
  refine List.Pairwise.insertionSort_eq (List.pairwise_map.mpr ?_)
  exact List.pairwise_insertionSort (· ≤ ·) names

/-- The upgrades of a load join those that add the mounted stores to an empty database. -/
theorem workingInv_loaded (hn : Numbered v₀ iv h) {mounts : List N} {d d' : Working N}
    {us : List (TreeNameUpgrade N)} (hd : initialWorking (sortNames mounts) h.last = (d, none))
    (hu : d.applyUpgrades us = (d', none)) : WorkingInv h True d' := by
  unfold initialWorking at hd
  split_ifs at hd with h0
  · refine WorkingInv.applyUpgrades (applyUpgrades_twice hd ?_ hu)
    rw [(hn.last_of_version_zero h0.1).2]
    exact sortTrees_initial _ mounts
  · obtain ⟨rfl, -⟩ := Prod.mk.inj hd
    exact WorkingInv.applyUpgrades hu

theorem pending_applyUpgrades {d d' : Working N} {us : List (TreeNameUpgrade N)}
    (hu : d.applyUpgrades us = (d', none)) :
    d'.mtree = (d.mtree.applyUpgrades us).1 ∧ d'.pendingLog.changesets = d.pendingLog.changesets := by
  unfold Working.applyUpgrades at hu
  rcases ht : d.mtree.applyUpgrades us with ⟨t, _ | err⟩ <;> simp only [ht, Prod.mk.injEq, reduceCtorEq, and_false] at hu
  obtain ⟨rfl, -⟩ := hu
  exact ⟨rfl, rfl⟩

theorem pending_initialWorking {names : List N} {t : MultiTree N} {d : Working N}
    (hd : initialWorking names t = (d, none)) : d.pendingLog.changesets = [] := by
  unfold initialWorking at hd
  split_ifs at hd
  · exact (pending_applyUpgrades hd).2
  · obtain ⟨rfl, -⟩ := Prod.mk.inj hd
    rfl

/-- A load of the latest version opens the multitree of the replica with its upgrades. -/
theorem Kept.load (hk : Kept v₀ iv h c opts sha256 ⟨disk, none⟩) {target : ℕ} {mounts : List N}
    {upgrades : StoreUpgrades N} {s : Store N W}
    (hlatest : target = 0 ∨ h.log = [] ∨ versionAt v₀ iv h.log.length ≤ target)
    (hl : load sha256 target mounts upgrades disk = some s) :
    ∃ db, s.world.db = some db ∧ Kept v₀ iv h c opts sha256 s.world ∧ Mounted s.stores db ∧
      (⟨db.working.mtree, s.stores⟩ : Replica N) =
        (Replica.step sha256 ⟨h.last, []⟩ (.load mounts upgrades)).1 := by
  obtain ⟨disk', db₀, working, hnd, hload, hu, hnames, rfl⟩ := load_eq_some hl
  obtain ⟨hi, hw⟩ := hk.inv.loadVersion hk.snapshots hlatest hload
  obtain ⟨-, dir, t, d, -, hd, heq⟩ := loadVersion_eq_some hload
  obtain ⟨rfl, hdb₀⟩ := World.mk.inj heq
  obtain rfl := Option.some.inj hdb₀
  obtain hw : d = (initialWorking (sortNames mounts) h.last).1 := Option.some.inj hw
  have hnone : (initialWorking (sortNames mounts) h.last).2 = none :=
    hk.inv.numbered.initialWorking ((List.perm_insertionSort _ _).nodup_iff.mpr hnd)
  have hlast : initialWorking (sortNames mounts) h.last = (d, none) := Prod.ext hw.symm hnone
  obtain ⟨hmtree, hpending⟩ := pending_applyUpgrades hu
  have hfst : (mounts.map fun name => (name, ([] : ChangeSet))).map Prod.fst = mounts := by
    simp [Function.comp_def]
  refine ⟨_, rfl, ⟨hi.of_db (hi.db_inv.set_working rfl (workingInv_loaded hk.inv.numbered hlast hu)),
    hk.snapshots, fun _ d' hd' => ?_⟩, ⟨rfl, ?_, ?_, ?_⟩, ?_⟩
  · obtain rfl := Option.some.inj hd'
    exact ⟨rfl, rfl⟩
  · rwa [hfst]
  · rwa [hfst]
  · have hempty : working.pendingLog.changesets = [] := hpending.trans (pending_initialWorking hlast)
    simp [hempty]
  · simp only [Replica.step, hlast, hmtree]
    rfl

/-! ### Setting the initial version -/

/-- Before the first commit, setting the initial version is starting over with it. -/
theorem Kept.setInitialVersion (hk : Kept v₀ iv h c opts sha256 ⟨disk, some db⟩) (hm : Mounted stores db) {v : ℕ}
    (hiv : db.working.mtree.trees = [] ∨ db.working.mtree.initialVersion ≤ 1 ∨
      v = db.working.mtree.initialVersion)
    (hs : Db.setInitialVersion v disk db = some world') :
    ∃ db', world'.db = some db' ∧ Kept 0 v ⟨[], fun _ => MultiTree.newEmptyMultiTree v⟩ 0 opts sha256 world' ∧
      Mounted stores db' ∧ db'.working.mtree = db.working.mtree.assignInitialVersion v := by
  have hi := hk.inv
  have hdb := hi.db_inv
  have hn := hi.numbered
  obtain ⟨t, hset, rfl⟩ := setInitialVersion_eq_some hs
  obtain ⟨hv, h0, hempty, rfl⟩ := MultiTree.setInitialVersion_eq_ok hset
  obtain ⟨-, -, hver, -⟩ := hdb.working.fields hn
  have hlast0 : h.last.version = 0 := (hn.version _ le_rfl).trans (hver.symm.trans h0)
  obtain ⟨hnil, hlast⟩ := hn.last_of_version_zero hlast0
  have hv₀ : v₀ = 0 := by
    rw [h0, hnil] at hver
    exact hver.symm
  subst hv₀
  have hc : c = 0 := Nat.le_zero.mp (by simpa [hnil] using hi.disk.le)
  have hkeys : ∀ p ∈ disk.snapshots, p.1 = 0 := by
    intro p hp
    obtain ⟨i, hile, rfl⟩ := hk.snapshots p hp
    rw [hnil] at hile
    obtain rfl := Nat.le_zero.mp hile
    rfl
  have hbase : Inv 0 v ⟨[], fun _ => MultiTree.newEmptyMultiTree v⟩ 0 opts True False sha256
      ⟨freshDisk W (MultiTree.newEmptyMultiTree v : MultiTree N), none⟩ := (Origin.empty hv).inv
  have hholds := hi.disk.holds
  have hqueue := hdb.queue
  unfold Queued at hqueue
  rw [hnil] at hholds hqueue
  have hworking : WorkingInv ⟨[], fun _ => MultiTree.newEmptyMultiTree v⟩ True
      { db.working with mtree := db.working.mtree.assignInitialVersion v } := by
    rcases hdb.working with ⟨up, hclean⟩ | ⟨hf, -⟩
    · have hup := hclean.upgrades
      rw [hlast] at hup
      have hm := hclean.mtree
      rw [hm] at hempty hiv
      rw [MultiTree.initialVersion_applyAll, (MultiTree.applyUpgrades_fields hup).2] at hiv
      obtain ⟨up', hup', heq⟩ := assignInitialVersion_applyAll hiv hup hempty
      refine .inl ⟨up', hup', fun cs hcs => ?_, by rw [← heq, hm]⟩
      have hnames := congrArg MultiTree.names heq
      rw [MultiTree.names_assignInitialVersion, MultiTree.names_applyAll, MultiTree.names_applyAll] at hnames
      exact hnames ▸ hclean.known cs hcs
    · exact absurd trivial hf
  refine ⟨_, rfl, ⟨⟨hbase.numbered, hbase.sound, hbase.complete, ⟨hholds, le_rfl, rfl, ?_, ?_, ?_⟩, False.elim,
    fun d hd => ?_, fun hd => ?_⟩, ?_, fun _ d hd => ?_⟩, ⟨hm.idle, hm.nodup, ?_, hm.pending⟩, rfl⟩
  · simp [lookupPair_cons, emptyDir]
  · exact hc ▸ hi.disk.dropped
  · intro k hkmem
    obtain ⟨p, hp, rfl⟩ := List.mem_map.mp hkmem
    refine ⟨0, ?_⟩
    rcases List.mem_cons.mp hp with rfl | hp
    · rfl
    · exact hkeys p (List.mem_of_mem_filter hp)
  · obtain rfl := Option.some.inj hd
    refine ⟨hworking, hdb.snapshotVersion, hqueue, hdb.sync, hdb.writer, ?_, ?_, ?_⟩
    · simp only [PhaseInv, hm.idle]
    · simp [(hk.fresh hnil db rfl).1]
    · simp [(hk.fresh hnil db rfl).2]
  · cases hd
  · intro p hp
    refine ⟨0, le_rfl, ?_⟩
    rcases List.mem_cons.mp hp with rfl | hp
    · rfl
    · obtain ⟨hmem, hne⟩ := List.mem_filter.mp hp
      exact absurd (hkeys p hmem) (by simpa using hne)
  · obtain rfl := Option.some.inj hd
    exact hk.fresh hnil db rfl
  · intro name hname
    rw [MultiTree.names_assignInitialVersion]
    exact hm.names name hname

end IavlStore.Rootmulti
