import IavlStore.Db.Runs
import IavlStore.Multi.Coherence

/-! Coherence along runs. Whatever calls are made, and whichever change sets fail, every
commit saves trees in the order of their names, all at the version of the multitree. This
needs neither a faithful log nor an orderly run. It does need that the initial version is
not changed once trees have one. -/

namespace IavlStore.Db

open IavlStore.Base.Encoding IavlStore.Base.SortedPairs IavlStore.Base.Runs IavlStore.Multi

variable {N : Type} [LinearOrder N] {W : WalLog (WALEntry N)} {sha256 : Bytes → Bytes} {opts : Options}
  {t t' : MultiTree N}

/-! ### Changes of a block -/

theorem building_applyChangeSets {d : Working N} (h : Building d.mtree) (cs : List (NamedChangeSet N)) :
    Building (d.applyChangeSets cs).1.mtree :=
  Working.applyChangeSets_keeps (fun _ cs h => h.applyChangeSets cs) h cs

theorem building_applyUpgrades {d : Working N} (h : Building d.mtree) {us : List (TreeNameUpgrade N)}
    (hok : (d.applyUpgrades us).2 = none) : Building (d.applyUpgrades us).1.mtree := by
  unfold Working.applyUpgrades at hok ⊢
  rcases hu : d.mtree.applyUpgrades us with ⟨t, _ | e⟩
  · exact h.applyUpgrades hu
  · rw [hu] at hok
    exact nomatch hok

/-! ### The machine -/

section Saved
variable (recorded : Prop) (sha256 : Bytes → Bytes)

/-- During a commit the multitree is the one that was saved, and nothing is pending. -/
def PhaseSaved (db : DB N) : Prop :=
  match db.phase with
  | .idle => True
  | .checking _ => Sealed recorded sha256 db.working.mtree ∧ db.working.pendingLog = emptyEntry
  | .waiting _ t _ => Sealed recorded sha256 db.working.mtree ∧ db.working.pendingLog = emptyEntry ∧
    Sealed recorded sha256 t

/-- The multitrees in memory, that of a rewrite included, were committed or loaded. -/
structure DBSaved (db : DB N) : Prop where
  working : Building db.working.mtree
  phase : PhaseSaved recorded sha256 db
  rewrite : ∀ r ∈ db.rewrite, r.All (Sealed recorded sha256)

/-- Every snapshot is loaded as such a multitree, and so is what is in memory. -/
structure WorldSaved (s : World N W) : Prop where
  dirs : ∀ p ∈ s.disk.snapshots, ∀ t, loadMultiTree p.2 = some t → Sealed recorded sha256 t
  db : ∀ db ∈ s.db, DBSaved recorded sha256 db

/-- A commit has saved such a multitree, and has one in memory when it returns. -/
def ReplySaved (s : World N W) : Reply N → Prop
  | .nothing => True
  | .saved t => Sealed recorded sha256 t ∧ 0 < t.version
  | .returned _ => ∀ db ∈ s.db, Sealed recorded sha256 db.working.mtree

end Saved

/-- The multitree that a rewrite has loaded and that catches up next. -/
def Rewrite.loadedTree : Rewrite N → Option (MultiTree N)
  | .loaded t _ => some t
  | _ => none

/-- The multitree that waits to be switched in. -/
def Phase.waitingTree : Phase N → Option (MultiTree N)
  | .waiting _ t _ => some t
  | _ => none

/-- The event changes no initial version that trees already have, upgrades succeed, and no
version overflows. -/
def Steady (s : World N W) : Event N → Prop
  | .load _ => ∀ dir ∈ lookupPair s.disk.current s.disk.snapshots,
    dir.initialVersion - 1 + W.lastIndex s.disk.wal ≤ maxInt64
  | .setInitialVersion v => ∀ db ∈ s.db, db.working.mtree.trees = [] ∨
    db.working.mtree.initialVersion ≤ 1 ∨ v = db.working.mtree.initialVersion
  | .applyUpgrades us => ∀ db ∈ s.db, (db.working.applyUpgrades us).2 = none
  | .commit => ∀ db ∈ s.db,
    nextVersion db.working.mtree.version db.working.mtree.initialVersion ≤ maxInt64
  | .rewrite => ∀ db ∈ s.db, ∀ t ∈ db.rewrite.bind Rewrite.loadedTree,
    t.initialVersion - 1 + W.lastIndex s.disk.wal ≤ maxInt64
  | .switch => ∀ db ∈ s.db, ∀ t ∈ db.phase.waitingTree,
    t.initialVersion - 1 + W.lastIndex s.disk.wal ≤ maxInt64
  | _ => True

instance (s : World N W) : (e : Event N) → Decidable (Steady s e)
  | .load _ => inferInstanceAs (Decidable (∀ dir ∈ lookupPair s.disk.current s.disk.snapshots, _ ≤ _))
  | .setInitialVersion _ => inferInstanceAs (Decidable (∀ db ∈ s.db, _ ∨ _ ∨ _))
  | .applyUpgrades _ => inferInstanceAs (Decidable (∀ db ∈ s.db, _ = _))
  | .commit => inferInstanceAs (Decidable (∀ db ∈ s.db, _ ≤ _))
  | .rewrite => inferInstanceAs (Decidable (∀ db ∈ s.db, ∀ t ∈ db.rewrite.bind Rewrite.loadedTree, _ ≤ _))
  | .switch => inferInstanceAs (Decidable (∀ db ∈ s.db, ∀ t ∈ db.phase.waitingTree, _ ≤ _))
  | .applyChangeSets _ | .finish | .await | .receive _ | .write | .rewriteFail | .prune _ | .close
  | .kill _ => .isTrue trivial

/-! ### Steps -/

variable {recorded : Prop} {s s' : World N W} {e : Event N} {o : Reply N} {disk disk' : Disk N W}
  {db db' : DB N}

theorem WorldSaved.of_db (h : WorldSaved recorded sha256 ⟨disk, some db⟩)
    (hd : disk'.snapshots = disk.snapshots) (hdb : DBSaved recorded sha256 db') : WorldSaved recorded sha256 ⟨disk', some db'⟩ := by
  refine ⟨fun p hp => h.dirs p (hd ▸ hp), fun d hd' => ?_⟩
  obtain rfl := Option.some.inj hd'
  exact hdb

theorem building_initialWorking (h : Saved t) {stores : List N} {d : Working N}
    (hi : initialWorking stores t = (d, none)) : Building d.mtree := by
  unfold Db.initialWorking at hi
  split_ifs at hi
  · have hb := building_applyUpgrades (d := ⟨t, emptyEntry⟩) h.building (congrArg Prod.snd hi)
    rwa [hi] at hb
  · obtain ⟨rfl, -⟩ := Prod.mk.inj hi
    exact h.building

theorem DBSaved.newDB {d : Working N} {sv : ℕ} (h : Building d.mtree) : DBSaved recorded sha256 (newDB d sv) :=
  ⟨h, trivial, fun _ hr => nomatch hr⟩

theorem WorldSaved.load (h : WorldSaved recorded sha256 (W := W) ⟨disk, none⟩) {stores : List N}
    (hst : Steady ⟨disk, none⟩ (.load stores)) (hl : load sha256 stores disk = some s') :
    WorldSaved recorded sha256 s' := by
  obtain ⟨dir, t, t', d, hdir, ht, hcat, hw, rfl⟩ := load_eq_some hl
  have hsaved : Sealed recorded sha256 t := h.dirs (_, dir) (pair_mem_of_lookupPair hdir) t ht
  have hle : t.initialVersion - 1 + W.lastIndex disk.wal ≤ maxInt64 := by
    rw [(loadMultiTree_fields ht).2]
    exact hst dir hdir
  refine ⟨h.dirs, fun db hdb => ?_⟩
  obtain rfl := Option.some.inj hdb
  exact .newDB (building_initialWorking (hsaved.catchupWAL hle hcat).toSaved hw)

theorem saved_emptyDir {v : ℕ} (hv : v ≤ maxInt64) :
    ∀ t, loadMultiTree (emptyDir v : SnapshotDir N) = some t → Sealed recorded sha256 t := by
  intro t ht
  have horigin : Origin (MultiTree.newEmptyMultiTree v : MultiTree N) := Origin.empty hv
  rw [emptyDir, horigin.loadable.loadMultiTree_writeSnapshot] at ht
  obtain rfl := Option.some.inj ht
  exact ⟨⟨horigin.loadable, horigin.level⟩, fun _ hpos => absurd hpos (lt_irrefl 0)⟩

theorem WorldSaved.setInitialVersion (h : WorldSaved recorded sha256 ⟨disk, some db⟩) {v : ℕ}
    (hst : Steady (W := W) ⟨disk, some db⟩ (.setInitialVersion v)) (hs : setInitialVersion v disk db = some s')
    (hp : db.phase = .idle) : WorldSaved recorded sha256 s' := by
  have hdb := h.db db rfl
  obtain ⟨t, hset, rfl⟩ := setInitialVersion_eq_some hs
  obtain ⟨hb, hv⟩ := hdb.working.setInitialVersion hset (hst db rfl)
  refine ⟨fun p hpm => ?_, fun d hd => ?_⟩
  · rcases List.mem_cons.mp hpm with rfl | hpm
    · exact saved_emptyDir hv
    · exact h.dirs p (List.mem_of_mem_filter hpm)
  · obtain rfl := Option.some.inj hd
    refine ⟨hb, ?_, hdb.rewrite⟩
    unfold PhaseSaved
    simp [hp]

theorem WorldSaved.commit (h : WorldSaved recorded sha256 ⟨disk, some db⟩)
    (hst : Steady (W := W) ⟨disk, some db⟩ .commit) (hc : commit sha256 opts disk db = some (s', t)) :
    WorldSaved recorded sha256 s' ∧ Sealed recorded sha256 t ∧ 0 < t.version := by
  have hdb := h.db db rfl
  obtain ⟨hs, hcases⟩ := commit_eq_some hc
  obtain ⟨hsaved, hver⟩ := hdb.working.seal recorded hs (hst db rfl)
  have hpos : 0 < t.version := by
    rw [hver]
    exact MultiTree.one_le_nextVersion _ hdb.working.version_le
  rcases hcases with ⟨-, rfl⟩ | ⟨-, wal, -, rfl⟩ <;>
    exact ⟨h.of_db rfl ⟨hsaved.building, ⟨hsaved, rfl⟩, hdb.rewrite⟩, hsaved, hpos⟩

theorem DBSaved.endCommit (h : DBSaved recorded sha256 db) (hs : Sealed recorded sha256 db.working.mtree)
    (height : ℕ) : DBSaved recorded sha256 (endCommit opts height db).1 := by
  unfold Db.endCommit rewriteIfApplicable
  split_ifs
  · exact ⟨h.working, trivial, h.rewrite⟩
  · refine ⟨h.working, trivial, fun r hr => ?_⟩
    obtain rfl := Option.some.inj hr
    exact hs
  · exact ⟨h.working, trivial, h.rewrite⟩

theorem DBSaved.finish (h : DBSaved recorded sha256 db) {ok : Bool} (hf : finish opts db = some (db', ok)) :
    DBSaved recorded sha256 db' ∧ Sealed recorded sha256 db'.working.mtree := by
  have hphase := h.phase
  obtain ⟨v, hp, hcases⟩ := finish_eq_some hf
  simp only [PhaseSaved, hp] at hphase
  have hnone : DBSaved recorded sha256 { db with rewrite := none } :=
    ⟨h.working, h.phase, fun r hr => nomatch hr⟩
  rcases hcases with rfl | rfl | rfl
  · exact ⟨⟨h.working, trivial, fun r hr => nomatch hr⟩, hphase.1⟩
  · exact ⟨hnone.endCommit hphase.1 v, by rw [working_endCommit]; exact hphase.1⟩
  · exact ⟨h.endCommit hphase.1 v, by rw [working_endCommit]; exact hphase.1⟩

theorem DBSaved.await (h : DBSaved recorded sha256 db) (hf : await db = some db') :
    DBSaved recorded sha256 db' := by
  have hphase := h.phase
  obtain ⟨v, t, sv, hp, hr, rfl⟩ := await_eq_some hf
  simp only [PhaseSaved, hp] at hphase
  exact ⟨h.working, ⟨hphase.1, hphase.2, h.rewrite _ hr⟩, fun r hr => nomatch hr⟩

theorem DBSaved.switch (h : DBSaved recorded sha256 db) (hst : Steady (W := W) ⟨disk, some db⟩ .switch)
    {ok : Bool} (hf : switch sha256 opts disk db = some (db', ok)) :
    DBSaved recorded sha256 db' ∧ Sealed recorded sha256 db'.working.mtree := by
  have hphase := h.phase
  obtain ⟨v, t, sv, hp, -, ⟨rfl, -⟩ | ⟨t₁, t₂, hcat, happ, hend⟩⟩ := switch_eq_some hf
  · simp only [PhaseSaved, hp] at hphase
    exact ⟨⟨h.working, trivial, h.rewrite⟩, hphase.1⟩
  · simp only [PhaseSaved, hp] at hphase
    have hsaved := hphase.2.2.catchupWAL (hst db rfl t (by rw [hp]; rfl)) hcat
    -- nothing is pending, so the replayed multitree is taken as it is
    rw [hphase.2.1] at happ
    obtain rfl : t₁ = t₂ := Except.ok.inj happ
    obtain rfl := congrArg Prod.fst hend
    have hnew : DBSaved recorded sha256 { db with
        working := { db.working with mtree := t₁ }
        snapshotVersion := sv
        pruning := some .started } := by
      refine ⟨hsaved.building, ?_, h.rewrite⟩
      simp only [PhaseSaved, hp]
      exact ⟨hsaved, hphase.2⟩
    exact ⟨hnew.endCommit hsaved v, by rw [working_endCommit]; exact hsaved⟩

theorem WorldSaved.rewrite (h : WorldSaved recorded sha256 ⟨disk, some db⟩)
    (hst : Steady (W := W) ⟨disk, some db⟩ .rewrite) {r r' : Rewrite N} (hr : db.rewrite = some r)
    (hf : rewriteStep sha256 disk r = some (disk', r')) :
    WorldSaved recorded sha256 ⟨disk', some { db with rewrite := some r' }⟩ := by
  have hdb := h.db db rfl
  have hsaved := hdb.rewrite r hr
  refine ⟨fun p hp t ht => ?_, fun d hd => ?_⟩
  · rcases (disk_rewriteStep hf).2 p hp with hp | ⟨u, rfl, rfl⟩
    · exact h.dirs p hp t ht
    · have hu : Sealed recorded sha256 u := hsaved
      rw [hu.loadable.loadMultiTree_writeSnapshot] at ht
      obtain rfl := Option.some.inj ht
      exact hu
  · obtain rfl := Option.some.inj hd
    refine ⟨hdb.working, hdb.phase, fun r₁ hr₁ => ?_⟩
    obtain rfl := Option.some.inj hr₁
    refine hsaved.step h.dirs (fun t sv t' heq ht hcat => ?_) hf
    subst heq
    exact ht.catchupWAL (hst db rfl t (by rw [hr]; rfl)) hcat

/-- Where the snapshots on disk come from. -/
theorem snapshots_of_step (hs : step sha256 opts s e = some (s', o)) :
    ∀ p ∈ s'.disk.snapshots, p ∈ s.disk.snapshots ∨
      (∃ db t, s.db = some db ∧ db.rewrite = some (.written t) ∧ p = (t.version, t.writeSnapshot)) ∨
      ∃ v, e = .setInitialVersion v ∧ p = (0, emptyDir v) := by
  intro p hp
  cases fires_of_step hs with
  | load hl =>
    obtain ⟨dir, t, t', d, -, -, -, -, rfl⟩ := load_eq_some hl
    exact .inl hp
  | write hf => rcases write_eq_some hf with ⟨wal, -, rfl⟩ | ⟨-, rfl⟩ <;> exact .inl hp
  | rewrite hr hf =>
    rcases (disk_rewriteStep hf).2 p hp with hp | ⟨t, rfl, rfl⟩
    · exact .inl hp
    · exact .inr (.inl ⟨_, t, rfl, hr, rfl⟩)
  | prune hp' hf => exact .inl ((disk_pruneStep hf).2 p hp)
  | setInitialVersion hp' hf =>
    obtain ⟨t, -, rfl⟩ := setInitialVersion_eq_some hf
    rcases List.mem_cons.mp hp with rfl | hp
    · exact .inr (.inr ⟨_, rfl, rfl⟩)
    · exact .inl (List.mem_of_mem_filter hp)
  | commit hp' hf =>
    obtain ⟨-, ⟨-, rfl⟩ | ⟨-, wal, -, rfl⟩⟩ := commit_eq_some hf <;> exact .inl hp
  | kill | receive | rewriteFail | finish | await | switch | applyUpgrades | applyChangeSets | close =>
    exact .inl hp

/-- Every step keeps coherence, and a commit saves a coherent multitree at one version. -/
theorem WorldSaved.step (h : WorldSaved recorded sha256 s) (hs : step sha256 opts s e = some (s', o))
    (hst : Steady s e) : WorldSaved recorded sha256 s' ∧ ReplySaved recorded sha256 s' o := by
  have hret : ∀ {disk : Disk N W} {db : DB N} {ok : Bool}, Sealed recorded sha256 db.working.mtree →
      ReplySaved recorded sha256 ⟨disk, some db⟩ (.returned ok) := by
    intro disk db ok hsealed d hd
    obtain rfl := Option.some.inj hd
    exact hsealed
  cases fires_of_step hs with
  | load hld => exact ⟨h.load hst hld, trivial⟩
  | kill n => exact ⟨⟨h.dirs, fun d hd => nomatch hd⟩, trivial⟩
  | receive hf =>
    have hdb := h.db _ rfl
    obtain ⟨-, rfl⟩ := receive_eq_some hf
    exact ⟨h.of_db rfl ⟨hdb.working, hdb.phase, hdb.rewrite⟩, trivial⟩
  | write hf =>
    have hdb := h.db _ rfl
    rcases write_eq_some hf with ⟨wal, -, rfl⟩ | ⟨-, rfl⟩ <;>
      exact ⟨h.of_db rfl ⟨hdb.working, hdb.phase, hdb.rewrite⟩, trivial⟩
  | rewrite hr hf => exact ⟨h.rewrite hst hr hf, trivial⟩
  | rewriteFail hr hcan =>
    have hdb := h.db _ rfl
    refine ⟨h.of_db rfl ⟨hdb.working, hdb.phase, fun r hr' => ?_⟩, trivial⟩
    obtain rfl := Option.some.inj hr'
    trivial
  | prune hp hf =>
    have hdb := h.db _ rfl
    refine ⟨⟨fun p hpm => h.dirs p ((disk_pruneStep hf).2 p hpm), fun d hd => ?_⟩, trivial⟩
    obtain rfl := Option.some.inj hd
    exact ⟨hdb.working, hdb.phase, hdb.rewrite⟩
  | finish hf =>
    obtain ⟨hdb', hsealed⟩ := (h.db _ rfl).finish hf
    exact ⟨h.of_db rfl hdb', hret hsealed⟩
  | await hf => exact ⟨h.of_db rfl ((h.db _ rfl).await hf), trivial⟩
  | switch hf =>
    obtain ⟨hdb', hsealed⟩ := (h.db _ rfl).switch hst hf
    exact ⟨h.of_db rfl hdb', hret hsealed⟩
  | setInitialVersion hp hf => exact ⟨h.setInitialVersion hst hf hp, trivial⟩
  | applyUpgrades hp =>
    have hdb := h.db _ rfl
    refine ⟨h.of_db rfl ⟨building_applyUpgrades hdb.working (hst _ rfl), ?_, hdb.rewrite⟩, trivial⟩
    unfold PhaseSaved
    simp only [hp]
  | applyChangeSets hp =>
    have hdb := h.db _ rfl
    refine ⟨h.of_db rfl ⟨building_applyChangeSets hdb.working _, ?_, hdb.rewrite⟩, trivial⟩
    unfold PhaseSaved
    simp only [hp]
  | commit hp hf =>
    obtain ⟨h', hsaved, hpos⟩ := h.commit hst hf
    exact ⟨h', hsaved, hpos⟩
  | close hp hchan hbatch hdone => exact ⟨⟨h.dirs, fun d hd => nomatch hd⟩, trivial⟩

/-! ### Runs -/

/-- In a steady run every commit saves trees in the strict order of their names, with their
positions in the index, and all at the version of the multitree. -/
theorem commit_coherent {base : MultiTree N} (hb : Origin base) {es : List (Event N)} {os : List (Reply N)}
    (ha : Along (step sha256 opts) Steady ⟨freshDisk W base, none⟩ es)
    (he : exec (step sha256 opts) ⟨freshDisk W base, none⟩ es = some (s, os)) :
    ∀ t, .saved t ∈ os → t.names.Pairwise (· < ·) ∧ t.treesByName = positions t.trees ∧
      ∀ e ∈ t.trees, e.tree.version = t.version := by
  have hinit : WorldSaved False sha256 (W := W) ⟨freshDisk W base, none⟩ := by
    refine ⟨fun p hp t ht => ?_, fun d hd => nomatch hd⟩
    obtain rfl := List.mem_singleton.mp hp
    rw [hb.loadable.loadMultiTree_writeSnapshot] at ht
    obtain rfl := Option.some.inj ht
    exact ⟨⟨hb.loadable, hb.level⟩, False.elim⟩
  have hrun : WorldSaved False sha256 s ∧ ∀ t, .saved t ∈ os → Saved t ∧ 0 < t.version := by
    refine exec_invariant
      (P := fun s os => WorldSaved False sha256 s ∧ ∀ t, .saved t ∈ os → Saved t ∧ 0 < t.version) ?_
      ⟨hinit, fun t ht => nomatch ht⟩ ha he
    intro s os e s' o h hst hs
    obtain ⟨h', hsaved⟩ := h.1.step hs hst
    refine ⟨h', fun t ht => ?_⟩
    rcases List.mem_append.mp ht with ht | ht
    · exact h.2 t ht
    · obtain rfl := List.mem_singleton.mp ht
      exact ⟨hsaved.1.toSaved, hsaved.2⟩
  intro t ht
  obtain ⟨hsaved, hpos⟩ := hrun.2 t ht
  exact ⟨hsaved.loadable.coherent.sorted, hsaved.loadable.coherent.index, hsaved.version_eq hpos⟩

/-- The initial version is set once, and a block is committed. -/
theorem commit_coherent_initial_version :
    ∃ s t, exec (step (fun _ => []) ⟨1, 0, true⟩)
        ⟨freshDisk (listLog (WALEntry ℕ)) (MultiTree.newEmptyMultiTree 0), none⟩
        [.load [0], .setInitialVersion 100, .applyChangeSets [setKey 1], .commit] =
        some (s, [.nothing, .nothing, .nothing, .saved t]) ∧
      t.version = 100 ∧ t.names.Pairwise (· < ·) ∧ t.treesByName = positions t.trees ∧
      ∀ e ∈ t.trees, e.tree.version = t.version := by
  have ha : Along (step (fun _ => []) ⟨1, 0, true⟩) Steady
    ⟨freshDisk (listLog (WALEntry ℕ)) (MultiTree.newEmptyMultiTree 0), none⟩
    [.load [0], .setInitialVersion 100, .applyChangeSets [setKey 1], .commit] := by decide
  exact ⟨_, _, rfl, rfl, commit_coherent (Origin.empty (Nat.zero_le _)) ha rfl _ (by simp)⟩

/-- The initial version is set twice. The tree is at the first one, the multitree at the other. -/
theorem second_initial_version_incoherent :
    ∃ s t, exec (step (fun _ => []) ⟨1, 0, true⟩)
        ⟨freshDisk (listLog (WALEntry ℕ)) (MultiTree.newEmptyMultiTree 0), none⟩
        [.load [0], .setInitialVersion 100, .setInitialVersion 5, .commit] =
        some (s, [.nothing, .nothing, .nothing, .saved t]) ∧
      t.version = 5 ∧ t.trees.map (fun e => e.tree.version) = [100] :=
  ⟨_, _, rfl, rfl, rfl⟩

end IavlStore.Db
