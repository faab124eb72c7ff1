import IavlStore.Multi.EveryTree
import IavlStore.Rootmulti.Provable

/-! Every tree anywhere in the root multistore: in the snapshot directories, in the database that is
open, in a rewrite or a switch in progress, in the query cache and in the background tasks. All of
them are well formed in every run, whatever is loaded, upgraded, committed and rolled back, and
wherever a task fails. -/

namespace IavlStore.Rootmulti

open IavlStore.Base.Encoding IavlStore.Base.SortedPairs IavlStore.Base.Runs IavlStore.Multi IavlStore.Db
open IavlStore.Multi.MultiTree (Every EveryDir)
open QueryDBCache

variable {N : Type} [LinearOrder N] {P : Tree → Prop} {sha256 : Bytes → Bytes} {opts : Options}

/-! ### The database -/

structure EveryDB (P : Tree → Prop) (db : DB N) : Prop where
  working : db.working.mtree.Every P
  waiting : ∀ t ∈ db.phase.waitingTree, t.Every P
  rewrite : ∀ r ∈ db.rewrite, r.All (Every P)

structure EveryWorld {W : WalLog (WALEntry N)} (P : Tree → Prop) (s : World N W) : Prop where
  dirs : ∀ p ∈ s.disk.snapshots, EveryDir P p.2
  db : ∀ db ∈ s.db, EveryDB P db

section World
variable {W : WalLog (WALEntry N)} {disk disk' : Disk N W} {db db' : DB N} {s s' : World N W} {t : MultiTree N}

omit [LinearOrder N] in
theorem EveryWorld.of_db (h : EveryWorld P ⟨disk, some db⟩) (hd : ∀ p ∈ disk'.snapshots, p ∈ disk.snapshots)
    (hdb : EveryDB P db') : EveryWorld P ⟨disk', some db'⟩ := by
  refine ⟨fun p hp => h.dirs p (hd p hp), fun d hd' => ?_⟩
  obtain rfl := Option.some.inj hd'
  exact hdb

omit [LinearOrder N] in
theorem everyDB_newDB {d : Working N} (h : d.mtree.Every P) (sv : ℕ) : EveryDB P (newDB d sv) :=
  ⟨h, fun t ht => absurd ht (by simp [newDB, Phase.waitingTree]), fun r hr => absurd hr (by simp [newDB])⟩

omit [LinearOrder N] in
theorem EveryDB.endCommit (h : EveryDB P db) (height : ℕ) : EveryDB P (endCommit opts height db).1 := by
  have hidle : ∀ t ∈ (Phase.idle : Phase N).waitingTree, t.Every P :=
    fun t ht => absurd ht (by simp [Phase.waitingTree])
  unfold Db.endCommit rewriteIfApplicable
  split_ifs
  · exact ⟨h.working, hidle, h.rewrite⟩
  · refine ⟨h.working, hidle, fun r hr => ?_⟩
    obtain rfl := Option.some.inj hr
    exact h.working
  · exact ⟨h.working, hidle, h.rewrite⟩

variable (hP : Hereditary P)
include hP

theorem every_applyUpgrades {d : Working N} (h : d.mtree.Every P) (us : List (TreeNameUpgrade N)) :
    (d.applyUpgrades us).1.mtree.Every P := by
  have hu := h.applyUpgrades hP us
  unfold Working.applyUpgrades
  rcases ht : d.mtree.applyUpgrades us with ⟨t', _ | e⟩ <;> rwa [ht] at hu

theorem every_initialWorking (h : t.Every P) (stores : List N) : (initialWorking stores t).1.mtree.Every P := by
  unfold Db.initialWorking
  split_ifs
  · exact every_applyUpgrades hP h _
  · exact h

/-- What is opened from a directory. -/
theorem every_openVersion (h : ∀ p ∈ disk.snapshots, EveryDir P p.2) {target : ℕ} {dir : SnapshotDir N}
    (ho : openVersion sha256 target disk = some (dir, t)) : t.Every P := by
  obtain ⟨v, t₀, -, hdir, ht₀, hrep⟩ := openVersion_eq_some ho
  have h₀ := (h _ (pair_mem_of_lookupPair hdir)).loadMultiTree hP ht₀
  unfold replayTo at hrep
  split_ifs at hrep
  · exact h₀.catchupWAL hP hrep
  · exact Option.some.inj hrep ▸ h₀

theorem EveryWorld.step {e : Event N} {o : Reply N} (h : EveryWorld P s) (hs : Db.step sha256 opts s e = some (s', o)) :
    EveryWorld P s' := by
  cases fires_of_step hs with
  | load hl =>
    obtain ⟨dir, t₀, t, working, hdir, ht₀, hcat, hw, rfl⟩ := Db.load_eq_some hl
    have ht := ((h.dirs _ (pair_mem_of_lookupPair hdir)).loadMultiTree hP ht₀).catchupWAL hP hcat
    have hworking := every_initialWorking hP ht ‹_›
    rw [hw] at hworking
    refine ⟨h.dirs, fun db hdb => ?_⟩
    obtain rfl := Option.some.inj hdb
    exact everyDB_newDB hworking _
  | kill n => exact ⟨h.dirs, fun db hdb => absurd hdb (by simp)⟩
  | @receive disk db db' n hf =>
    have hdb := h.db db rfl
    obtain ⟨-, rfl⟩ := receive_eq_some hf
    exact h.of_db (fun _ hp => hp) ⟨hdb.working, hdb.waiting, hdb.rewrite⟩
  | @write disk db s' hf =>
    have hdb := h.db db rfl
    rcases write_eq_some hf with ⟨wal, -, rfl⟩ | ⟨-, rfl⟩ <;>
      exact h.of_db (fun _ hp => hp) ⟨hdb.working, hdb.waiting, hdb.rewrite⟩
  | @rewrite disk db r disk' r' hr hf =>
    have hdb := h.db db rfl
    have hall := hdb.rewrite r hr
    refine ⟨fun p hp => ?_, fun d hd => ?_⟩
    · rcases (disk_rewriteStep hf).2 p hp with hp | ⟨t, rfl, rfl⟩
      · exact h.dirs p hp
      · exact Every.writeSnapshot hall
    · obtain rfl := Option.some.inj hd
      refine ⟨hdb.working, hdb.waiting, fun r₁ hr₁ => ?_⟩
      obtain rfl := Option.some.inj hr₁
      exact hall.step (fun p hp t ht => (h.dirs p hp).loadMultiTree hP ht)
        (fun t sv t' _ ht hcat => ht.catchupWAL hP hcat) hf
  | @rewriteFail disk db r hr hc =>
    have hdb := h.db db rfl
    refine h.of_db (fun _ hp => hp) ⟨hdb.working, hdb.waiting, fun r₁ hr₁ => ?_⟩
    obtain rfl := Option.some.inj hr₁
    trivial
  | @prune disk db p disk' p' removed hp hf =>
    have hdb := h.db db rfl
    exact h.of_db (disk_pruneStep hf).2 ⟨hdb.working, hdb.waiting, hdb.rewrite⟩
  | @finish disk db db' ok hf =>
    have hdb := h.db db rfl
    have hnone : EveryDB P { db with rewrite := none } := ⟨hdb.working, hdb.waiting, fun r hr => absurd hr (by simp)⟩
    obtain ⟨v, -, rfl | rfl | rfl⟩ := finish_eq_some hf
    · exact h.of_db (fun _ hp => hp)
        ⟨hdb.working, fun t ht => absurd ht (by simp [Phase.waitingTree]), hnone.rewrite⟩
    · exact h.of_db (fun _ hp => hp) (hnone.endCommit v)
    · exact h.of_db (fun _ hp => hp) (hdb.endCommit v)
  | @await disk db db' hf =>
    have hdb := h.db db rfl
    obtain ⟨v, t, sv, -, hr, rfl⟩ := await_eq_some hf
    refine h.of_db (fun _ hp => hp) ⟨hdb.working, fun t' ht' => ?_, fun r hr => absurd hr (by simp)⟩
    obtain rfl := Option.some.inj ht'
    exact hdb.rewrite _ hr
  | @switch disk db db' ok hf =>
    have hdb := h.db db rfl
    obtain ⟨v, t, sv, hp, -, ⟨rfl, -⟩ | ⟨t₁, t₂, hcat, happ, hend⟩⟩ := switch_eq_some hf
    · exact h.of_db (fun _ hp => hp)
        ⟨hdb.working, fun t ht => absurd ht (by simp [Phase.waitingTree]), hdb.rewrite⟩
    · have ht : t.Every P := hdb.waiting t (by rw [hp]; rfl)
      obtain rfl := congrArg Prod.fst hend
      have hnew : EveryDB P { db with
          working := { db.working with mtree := t₂ }
          snapshotVersion := sv
          pruning := some .started } :=
        ⟨(ht.catchupWAL hP hcat).applyWALEntry hP happ, hdb.waiting, hdb.rewrite⟩
      exact h.of_db (fun _ hp => hp) (hnew.endCommit v)
  | @setInitialVersion disk db s' v hp hf =>
    have hdb := h.db db rfl
    obtain ⟨t, hset, rfl⟩ := setInitialVersion_eq_some hf
    refine ⟨fun p hp => ?_, fun d hd => ?_⟩
    · rcases List.mem_cons.mp hp with rfl | hp
      · exact Every.writeSnapshot (MultiTree.every_newEmptyMultiTree P v)
      · exact h.dirs p (List.mem_of_mem_filter hp)
    · obtain rfl := Option.some.inj hd
      exact ⟨hdb.working.setInitialVersion hP hset, hdb.waiting, hdb.rewrite⟩
  | @applyUpgrades disk db us hp =>
    have hdb := h.db db rfl
    exact h.of_db (fun _ hp => hp) ⟨every_applyUpgrades hP hdb.working us, hdb.waiting, hdb.rewrite⟩
  | @applyChangeSets disk db cs hp =>
    have hdb := h.db db rfl
    exact h.of_db (fun _ hp => hp) ⟨Working.applyChangeSets_keeps (fun _ cs ht => ht.applyChangeSets hP cs)
      hdb.working cs, hdb.waiting, hdb.rewrite⟩
  | @commit disk db s' t hp hf =>
    have hdb := h.db db rfl
    obtain ⟨hsave, hcases⟩ := commit_eq_some hf
    have hworking := hdb.working.saveVersion hP hsave
    have hchecking : ∀ t' ∈ (Phase.checking t.version : Phase N).waitingTree, t'.Every P :=
      fun t' ht' => absurd ht' (by simp [Phase.waitingTree])
    rcases hcases with ⟨-, rfl⟩ | ⟨-, wal, -, rfl⟩ <;>
      exact h.of_db (fun _ hp => hp) ⟨hworking, hchecking, hdb.rewrite⟩
  | close => exact ⟨h.dirs, fun db hdb => absurd hdb (by simp)⟩

end World

/-! ### The cache and the tasks -/

def EveryCache (P : Tree → Prop) (c : QueryDBCache (MultiTree N)) : Prop :=
  ∀ v t, lookupPair v c.entries = some t → t.Every P

/-- A task that has opened the directory. -/
def Backfill.Every {W : WalLog (WALEntry N)} (P : Tree → Prop) : Backfill N W → Prop
  | .started _ _ => True
  | .running _ mtree _ _ => mtree.Every P

structure EveryStore {W : WalLog (WALEntry N)} (P : Tree → Prop) (s : CachedStore N W) : Prop where
  world : EveryWorld P s.world
  cache : EveryCache P s.cache
  backfills : ∀ b ∈ s.backfills, b.Every P

omit [LinearOrder N] in
theorem everyCache_new (P : Tree → Prop) : EveryCache (N := N) P newQueryDBCache :=
  fun v t h => absurd h (by simp [newQueryDBCache])

omit [LinearOrder N] in
theorem EveryCache.add {c : QueryDBCache (MultiTree N)} {cacheOpts : CacheOptions} {t : MultiTree N} {v : ℤ}
    (h : EveryCache P c) (ht : t.Every P) : EveryCache P (c.addHistoricalVersion cacheOpts t v) := by
  intro v' t' h'
  rcases lookup_addHistoricalVersion h' with h' | ⟨-, -, rfl⟩
  · exact h v' t' h'
  · exact ht

variable {R : RollbackLog (WALEntry N)} {cacheOpts : CacheOptions} {s s' : CachedStore N R.toWalLog}

section Steps
variable (hP : Hereditary P)
include hP

theorem EveryStore.load (h : EveryStore P s) {target : ℕ} {mounts : List N} {upgrades : StoreUpgrades N}
    (hl : loadVersionAndUpgrade sha256 cacheOpts target mounts upgrades s.world.disk s.backfills = some s') :
    EveryStore P s' := by
  obtain ⟨world, c, bs⟩ := s'
  obtain ⟨dir, t, d, working, metadata, -, ho, hinit, hw, -, hworld, hcache, hback⟩ := loadVersionAndUpgrade_eq_some hl
  have hworking : working.mtree.Every P := by
    have hd := every_initialWorking hP (every_openVersion hP h.world.dirs ho) (sortNames mounts)
    rw [hinit] at hd
    have hu := every_applyUpgrades hP hd (treeUpgrades upgrades)
    rwa [hw] at hu
  obtain rfl : world = _ := hworld
  obtain rfl : c = _ := hcache
  obtain rfl : bs = _ := hback
  refine ⟨⟨h.world.dirs, fun db hdb => ?_⟩, (everyCache_new P).add hworking, fun b hb => ?_⟩
  · obtain rfl := Option.some.inj hdb
    exact everyDB_newDB hworking _
  · simp only at hb
    split_ifs at hb
    · rcases List.mem_cons.mp hb with rfl | hb
      · trivial
      · exact h.backfills b hb
    · exact h.backfills b hb

theorem EveryStore.backfillStep (h : EveryStore P s) {b : Backfill N R.toWalLog} (hb : b.Every P)
    {c : QueryDBCache (MultiTree N)} {b' : Option (Backfill N R.toWalLog)}
    (hs : backfillStep sha256 cacheOpts s.world.disk s.cache b = (c, b')) :
    EveryCache P c ∧ ∀ b ∈ b', b.Every P := by
  have hstop : (s.cache, (none : Option (Backfill N R.toWalLog))) = (c, b') →
      EveryCache P c ∧ ∀ b ∈ b', b.Every P := by
    intro heq
    cases heq
    exact ⟨h.cache, by simp⟩
  have hadd : ∀ {t : MultiTree N} {wal : R.Log} {v next latest : ℕ}, t.Every P →
      (s.cache.addHistoricalVersion cacheOpts t v, some (Backfill.running wal t next latest)) = (c, b') →
      EveryCache P c ∧ ∀ b ∈ b', b.Every P := by
    intro t wal v next latest ht heq
    cases heq
    refine ⟨h.cache.add ht, fun b hb => ?_⟩
    obtain rfl := Option.some.inj hb
    exact ht
  cases b with
  | started initialVersion latest =>
    simp only [Rootmulti.backfillStep] at hs
    split_ifs at hs
    · exact hstop hs
    rcases ho : openReadOnly sha256 (startVersion (cacheLimit cacheOpts) initialVersion latest) s.world.disk with
      _ | t <;> simp only [ho] at hs
    · exact hstop hs
    · unfold openReadOnly at ho
      split_ifs at ho
      obtain ⟨⟨dir, t'⟩, hopen, rfl⟩ := Option.map_eq_some_iff.mp ho
      exact hadd (every_openVersion hP h.world.dirs hopen) hs
  | running wal mtree next latest =>
    simp only [Rootmulti.backfillStep] at hs
    split_ifs at hs
    · rcases hcat : mtree.catchupWAL sha256 R.toWalLog wal next with _ | t <;> simp only [hcat] at hs
      · exact hstop hs
      · exact hadd (MultiTree.Every.catchupWAL hP hb hcat) hs
    · exact hstop hs

theorem EveryStore.rollback (h : EveryStore P s) {target : ℕ}
    (hr : rollbackToVersion sha256 opts cacheOpts target s = some s') : EveryStore P s' := by
  unfold rollbackToVersion at hr
  split_ifs at hr with h0
  simp only [Option.bind_eq_bind, Option.bind_eq_some_iff] at hr
  obtain ⟨world₀, hclose, world, hl, db, hdb, hs'⟩ := hr
  obtain rfl := Option.some.inj hs'
  have hworld₀ : EveryWorld P world₀ := by
    unfold closed at hclose
    split_ifs at hclose
    · obtain ⟨⟨world₁, o⟩, hstep, rfl⟩ := Option.map_eq_some_iff.mp hclose
      exact h.world.step hP hstep
    · exact Option.some.inj hclose ▸ h.world
  obtain ⟨-, dir, t, v, wal, working, ho, -, -, hw, rfl⟩ := loadForOverwriting_eq_some (Nat.pos_of_ne_zero h0) hl
  have hworking := every_initialWorking hP (every_openVersion hP hworld₀.dirs ho) []
  rw [hw] at hworking
  obtain rfl := Option.some.inj hdb
  refine ⟨⟨fun p hp => hworld₀.dirs p (List.mem_of_mem_filter hp), fun d hd => ?_⟩,
    (everyCache_new P).add hworking, h.backfills⟩
  obtain rfl := Option.some.inj hd
  exact everyDB_newDB hworking _

theorem EveryStore.step (h : EveryStore P s) {e : StoreEvent N} {o : Unit}
    (hs : storeStep sha256 opts cacheOpts s e = some (s', o)) : EveryStore P s' := by
  cases e with
  | loadVersionAndUpgrade target mounts upgrades =>
    simp only [storeStep] at hs
    split_ifs at hs
    obtain ⟨s₁, hl, heq⟩ := Option.map_eq_some_iff.mp hs
    cases heq
    exact h.load hP hl
  | rollbackToVersion target =>
    obtain ⟨s₁, hr, heq⟩ := Option.map_eq_some_iff.mp hs
    cases heq
    exact h.rollback hP hr
  | event e =>
    simp only [storeStep] at hs
    split_ifs at hs
    rcases hstep : Db.step sha256 opts s.world e with _ | ⟨world, reply⟩
    · rw [hstep] at hs
      cases hs
    · have hs' : ⟨world, publish cacheOpts world s.cache e reply, s.backfills⟩ = s' := by
        rw [hstep] at hs
        rcases reply with _ | t | (_ | _) <;> cases hs <;> rfl
      have hworld := h.world.step hP hstep
      subst hs'
      refine ⟨hworld, ?_, h.backfills⟩
      unfold publish
      split
      · exact everyCache_new P
      · split
        · exact h.cache
        · rename_i db hdb
          exact h.cache.add (hworld.db db hdb).working
      · exact h.cache
  | backfill i =>
    simp only [storeStep] at hs
    rcases hb : s.backfills[i]? with _ | b <;> simp only [hb, reduceCtorEq] at hs
    have hbe := h.backfills b (List.mem_of_getElem? hb)
    rcases hstep : Rootmulti.backfillStep sha256 cacheOpts s.world.disk s.cache b with ⟨c, _ | b'⟩ <;>
      simp only [hstep] at hs <;> cases hs <;> obtain ⟨hc, hb'⟩ := h.backfillStep hP hbe hstep
    · exact ⟨h.world, hc, fun b hb => h.backfills b (List.mem_of_mem_eraseIdx hb)⟩
    · refine ⟨h.world, hc, fun b hb => ?_⟩
      rcases List.mem_or_eq_of_mem_set hb with hb | rfl
      · exact h.backfills b hb
      · exact hb' b rfl
  | backfillFail i =>
    simp only [storeStep] at hs
    split_ifs at hs
    cases hs
    exact ⟨h.world, h.cache, fun b hb => h.backfills b (List.mem_of_mem_eraseIdx hb)⟩

theorem EveryStore.run (h : EveryStore P s) {es : List (StoreEvent N)} {os : List Unit}
    (he : exec (storeStep sha256 opts cacheOpts) s es = some (s', os)) : EveryStore P s' := by
  induction es generalizing s os with
  | nil =>
    cases he
    exact h
  | cons e es ih =>
    obtain ⟨s₁, o, os', hs, hes, -⟩ := exec_cons he
    exact ih (h.step hP hs) hes

end Steps

omit [LinearOrder N] in
theorem everyStore_new {base : MultiTree N} (hb : base.Every P) : EveryStore P (newStore R base) := by
  refine ⟨⟨fun p hp => ?_, fun db hdb => absurd hdb (by simp [newStore])⟩, everyCache_new P,
    fun b hb => absurd hb (by simp [newStore])⟩
  obtain rfl := List.mem_singleton.mp hp
  exact hb.writeSnapshot

/-- In every run from a well-formed multitree, every tree anywhere is a balanced search tree with the right
sizes and heights, and no node of it is newer than the tree. -/
theorem every_tree_inv {base : MultiTree N} (hb : base.Every Tree.Inv) {es : List (StoreEvent N)} {os : List Unit}
    (he : exec (storeStep sha256 opts cacheOpts) (newStore R base) es = some (s, os)) : EveryStore Tree.Inv s :=
  (everyStore_new hb).run hereditary_inv he

/-- A store is loaded, changed, committed, rolled back and loaded again with an upgrade. -/
theorem every_tree_inv_rollback :
    ∃ s os, exec (storeStep (fun _ => []) ⟨100, 0, false⟩ ⟨2, 100⟩)
        (newStore (listRollbackLog (WALEntry ℕ)) (MultiTree.newEmptyMultiTree 0))
        [.loadVersionAndUpgrade 0 [0] .none, .event (.applyChangeSets [⟨0, [⟨false, [1], some [2]⟩]⟩]), .event .commit,
          .event .finish, .event .commit, .event .finish, .rollbackToVersion 1, .event .close,
          .loadVersionAndUpgrade 0 [0, 1] ⟨[], [1], []⟩] = some (s, os) ∧ EveryStore Tree.Inv s := by
  obtain ⟨s, os, he⟩ : ∃ s os, exec (storeStep (fun _ => []) ⟨100, 0, false⟩ ⟨2, 100⟩)
      (newStore (listRollbackLog (WALEntry ℕ)) (MultiTree.newEmptyMultiTree 0))
      [.loadVersionAndUpgrade 0 [0] .none, .event (.applyChangeSets [⟨0, [⟨false, [1], some [2]⟩]⟩]), .event .commit,
        .event .finish, .event .commit, .event .finish, .rollbackToVersion 1, .event .close,
        .loadVersionAndUpgrade 0 [0, 1] ⟨[], [1], []⟩] = some (s, os) := ⟨_, _, rfl⟩
  exact ⟨s, os, he, every_tree_inv (MultiTree.every_newEmptyMultiTree Tree.Inv 0) he⟩

end IavlStore.Rootmulti
