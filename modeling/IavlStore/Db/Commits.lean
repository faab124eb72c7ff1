import IavlStore.Db.Prune

/-! The main thread keeps the invariant: commits with their checks and switches, and
loading, closing and killing. A commit extends the history. A switch that succeeds leaves
the trees as they were. When the process is killed, the history is cut to what the log
holds. -/

namespace IavlStore.Db

open IavlStore.Base.Encoding IavlStore.Base.SortedPairs IavlStore.Base.Journal IavlStore.Multi

variable {N : Type} [LinearOrder N] {W : WalLog (WALEntry N)} {sha256 : Bytes → Bytes} {opts : Options}
  {replayable behind : Prop} {v₀ iv c : ℕ} {h : History (MultiTree N) (WALEntry N)}
  {disk : Disk N W} {db db' : DB N} {s s' : World N W}

/-! ### The end of a commit -/

omit [LinearOrder N] in
theorem working_endCommit (opts : Options) (height : ℕ) (db : DB N) :
    (endCommit opts height db).1.working = db.working := by
  unfold Db.endCommit rewriteIfApplicable
  split_ifs <;> rfl

/-- A commit ends with the last state in use, and a rewrite may start from it. -/
theorem DBInv.endCommit (hdb : DBInv v₀ iv h c opts replayable disk db) (hle : c ≤ h.log.length)
    (hw : db.working = ⟨h.last, emptyEntry⟩) (height : ℕ) :
    DBInv v₀ iv h c opts replayable disk (endCommit opts height db).1 := by
  have hidle : DBInv v₀ iv h c opts replayable disk { db with phase := .idle } :=
    ⟨hdb.working, hdb.snapshotVersion, hdb.queue, hdb.sync, hdb.writer, trivial, hdb.rewrite, hdb.pruning⟩
  unfold Db.endCommit
  split_ifs
  · exact hidle
  · unfold rewriteIfApplicable
    split_ifs
    · exact hidle.set_rewrite rfl (by simp) ⟨_, hle, le_rfl, by rw [hw]; rfl⟩ hidle.pruning
    · exact hidle

/-- Without a rewrite nothing is to be known of one. -/
theorem DBInv.no_rewrite (hdb : DBInv v₀ iv h c opts replayable disk db) {phase : Phase N}
    (hp : PhaseInv h c { db with phase := phase, rewrite := none }) :
    DBInv v₀ iv h c opts replayable disk { db with phase := phase, rewrite := none } :=
  ⟨hdb.working, hdb.snapshotVersion, hdb.queue, hdb.sync, hdb.writer, hp, (fun _ hr => nomatch hr),
    hdb.pruning⟩

theorem Inv.finish (hi : Inv v₀ iv h c opts replayable behind sha256 ⟨disk, some db⟩)
    {ok : Bool} (hf : finish opts db = some (db', ok)) :
    Inv v₀ iv h c opts replayable behind sha256 ⟨disk, some db'⟩ ∧ db'.working = db.working := by
  have hdb := hi.db_inv
  have hphase := hdb.phase
  obtain ⟨v, hp, hcases⟩ := finish_eq_some hf
  simp only [PhaseInv, hp] at hphase
  rcases hcases with rfl | rfl | rfl
  · exact ⟨hi.of_db (hdb.no_rewrite trivial), rfl⟩
  · have hnone : DBInv v₀ iv h c opts replayable disk { db with phase := db.phase, rewrite := none } := by
      refine hdb.no_rewrite ?_
      simpa only [PhaseInv, hp] using hphase
    exact ⟨hi.of_db (hnone.endCommit hi.disk.le hphase.2 v), working_endCommit opts _ _⟩
  · exact ⟨hi.of_db (hdb.endCommit hi.disk.le hphase.2 v), working_endCommit opts _ _⟩

theorem Inv.await (hi : Inv v₀ iv h c opts replayable behind sha256 ⟨disk, some db⟩)
    (hf : await db = some db') :
    Inv v₀ iv h c opts replayable behind sha256 ⟨disk, some db'⟩ ∧ db'.working = db.working := by
  have hdb := hi.db_inv
  have hphase := hdb.phase
  obtain ⟨v, t, sv, hp, hr, rfl⟩ := await_eq_some hf
  simp only [PhaseInv, hp] at hphase
  exact ⟨hi.of_db (hdb.no_rewrite ⟨hphase.1, hphase.2, rfl, hdb.rewrite _ hr⟩), rfl⟩

/-! ### Switching -/

/-- When a switch goes ahead, the log holds all of the history. -/
theorem DBInv.lastIndex_of_committed (hn : Numbered v₀ iv h) (hd : DiskInv v₀ iv h c disk)
    (hdb : DBInv v₀ iv h c opts replayable disk db) (hne : h.log ≠ [])
    (hv : db.working.mtree.version = committedVersion disk db) : W.lastIndex disk.wal = h.log.length := by
  obtain ⟨-, -, hver, hiv⟩ := hdb.working.fields hn
  have hle := hd.holds.le
  have hpos := List.length_pos_iff.mpr hne
  unfold committedVersion at hv
  rw [hver, hiv] at hv
  have hlast : versionAt v₀ iv h.log.length = versionAt v₀ iv (W.lastIndex disk.wal) := by
    split_ifs at hv with h0
    · rw [hv, hdb.snapshotVersion h0, h0]
      rfl
    · rcases hk : W.lastIndex disk.wal with _ | k
      · exact absurd hk h0
      · rw [hv, hk, walVersion_eq (hn.versionAt_le (by omega))]
  exact le_antisymm hle (le_of_versionAt_le hn.base hlast.le)

/-- A switch leaves the trees and the pending changes as they are. -/
theorem Inv.switch (hi : Inv v₀ iv h c opts replayable behind sha256 ⟨disk, some db⟩)
    {ok : Bool} (hf : switch sha256 opts disk db = some (db', ok)) :
    Inv v₀ iv h c opts replayable behind sha256 ⟨disk, some db'⟩ ∧ db'.working = db.working := by
  have hdb := hi.db_inv
  have hn := hi.numbered
  have hphase := hdb.phase
  obtain ⟨v, t, sv, hp, hready, hcases⟩ := switch_eq_some hf
  simp only [PhaseInv, hp] at hphase
  obtain ⟨hne, hw, hnone, j, hcj, hj, rfl⟩ := hphase
  have hlast := hdb.lastIndex_of_committed hn hi.disk hne hready
  rcases hcases with ⟨rfl, -⟩ | ⟨t₁, t₂, hcat, happ, hend⟩
  · -- the commit fails and the trees stay
    exact ⟨hi.of_db ⟨hdb.working, hdb.snapshotVersion, hdb.queue, hdb.sync, hdb.writer, trivial, hdb.rewrite,
      hdb.pruning⟩, rfl⟩
  · have ht := catchupWAL_sound sha256 W hi.sound hi.disk.holds (hn.nextIndex hj) hcat
    rw [hlast, max_eq_right hj] at ht
    have hpend : db.working.pendingLog = emptyEntry := by rw [hw]
    rw [hpend] at happ
    obtain rfl : t₁ = t₂ := Except.ok.inj happ
    have hw' : ({ db.working with mtree := t₁ } : Working N) = db.working := by
      rw [hw, ht]
      rfl
    rw [hw'] at hend
    obtain rfl := congrArg Prod.fst hend
    have hnew : DBInv v₀ iv h c opts replayable disk { db with
        snapshotVersion := sv
        pruning := some .started } := by
      refine ⟨hdb.working, fun h0 => ?_, hdb.queue, hdb.sync, hdb.writer, ?_, hdb.rewrite, fun p hp => ?_⟩
      · exact absurd (List.length_eq_zero_iff.mp (hlast.symm.trans h0)) hne
      · simpa only [PhaseInv, hp] using ⟨hne, hw, hnone, j, hcj, hj, rfl⟩
      · obtain rfl := Option.some.inj hp
        trivial
    exact ⟨hi.of_db (hnew.endCommit hi.disk.le hw v), working_endCommit opts v _⟩

/-! ### Changes and commits -/

theorem DBInv.set_working (hdb : DBInv v₀ iv h c opts replayable disk db) {d : Working N}
    (hp : db.phase = .idle) (hd : WorkingInv h replayable d) :
    DBInv v₀ iv h c opts replayable disk { db with working := d } := by
  refine ⟨hd, hdb.snapshotVersion, hdb.queue, hdb.sync, hdb.writer, ?_, hdb.rewrite, hdb.pruning⟩
  unfold PhaseInv
  simp only [hp]

theorem Inv.applyUpgrades (hi : Inv v₀ iv h c opts replayable behind sha256 ⟨disk, some db⟩)
    (hp : db.phase = .idle) {us : List (TreeNameUpgrade N)} (hempty : db.working.pendingLog = emptyEntry)
    (hok : (db.working.applyUpgrades us).2 = none) :
    Inv v₀ iv h c opts replayable behind sha256
      ⟨disk, some { db with working := (db.working.applyUpgrades us).1 }⟩ := by
  have hdb := hi.db_inv
  have hw := hdb.working.eq_last hempty
  have hu : (⟨h.last, emptyEntry⟩ : Working N).applyUpgrades us = ((db.working.applyUpgrades us).1, none) := by
    rw [← hw]
    exact Prod.ext rfl hok
  exact hi.of_db (hdb.set_working hp (WorkingInv.applyUpgrades hu))

theorem Inv.applyChangeSets (hi : Inv v₀ iv h c opts replayable behind sha256 ⟨disk, some db⟩)
    (hp : db.phase = .idle) {cs : List (NamedChangeSet N)} (hm : MergesInOrder cs db.working)
    (hok : replayable → (db.working.applyChangeSets cs).2 = none) :
    Inv v₀ iv h c opts replayable behind sha256
      ⟨disk, some { db with working := (db.working.applyChangeSets cs).1 }⟩ :=
  hi.of_db (hi.db_inv.set_working hp (hi.db_inv.working.applyChangeSets hi.numbered hm hok))

omit [LinearOrder N] in
theorem DiskInv.push (hd : DiskInv v₀ iv h c disk) (e : WALEntry N) (t : MultiTree N) :
    DiskInv v₀ iv (h.push e t) c disk := by
  have hle := hd.le
  refine ⟨holds_push hd.holds e t, ?_, hd.current, ?_, hd.dropped, hd.numbers⟩
  · rw [History.length_log_push]; omega
  · rw [History.state_push_of_le e t hle]; exact hd.dir

omit [LinearOrder N] in
theorem RewriteInv.push {r : Rewrite N} (hr : RewriteInv v₀ iv h c replayable disk r) (e : WALEntry N)
    (t : MultiTree N) : RewriteInv v₀ iv (h.push e t) c replayable disk r := by
  have hlen : ∀ j, j ≤ h.log.length → j ≤ (h.push e t).log.length := by
    intro j hj
    rw [History.length_log_push]; omega
  cases r with
  | copied u =>
    obtain ⟨j, hc, hj, rfl⟩ := hr
    exact ⟨j, hc, hlen j hj, (History.state_push_of_le e t hj).symm⟩
  | written u =>
    obtain ⟨j, hc, hj, rfl⟩ := hr
    exact ⟨j, hc, hlen j hj, (History.state_push_of_le e t hj).symm⟩
  | renamed v =>
    obtain ⟨j, hc, hj, hv, hl⟩ := hr
    exact ⟨j, hc, hlen j hj, hv, by rw [History.state_push_of_le e t hj]; exact hl⟩
  | tmpLinked v =>
    obtain ⟨j, hc, hj, hv, hl⟩ := hr
    exact ⟨j, hc, hlen j hj, hv, by rw [History.state_push_of_le e t hj]; exact hl⟩
  | loaded u sv =>
    obtain ⟨j, hc, hj, rfl⟩ := hr
    exact ⟨j, hc, hlen j hj, (History.state_push_of_le e t hj).symm⟩
  | ready u sv =>
    obtain ⟨j, hc, hj, rfl⟩ := hr
    exact ⟨j, hc, hlen j hj, (History.state_push_of_le e t hj).symm⟩
  | failed => exact hr
  | linked => trivial
  | closed => trivial

/-- A commit extends the history by its entry and the multitree it saved. -/
theorem Inv.commit (hi : Inv v₀ iv h c opts replayable behind sha256 ⟨disk, some db⟩)
    {t : MultiTree N} (hcm : commit sha256 opts disk db = some (s', t))
    (hmax : nextVersion db.working.mtree.version db.working.mtree.initialVersion ≤ maxInt64) :
    db.working.mtree.saveVersion sha256 true = .ok t ∧
      (s'.db.map fun db => db.working) = some ⟨t, emptyEntry⟩ ∧
      Inv v₀ iv (h.push db.working.pendingLog t) c opts replayable behind sha256 s' := by
  have hdb := hi.db_inv
  have hn := hi.numbered
  have hd := hi.disk
  obtain ⟨hcoh, hlev, hver, hiv⟩ := hdb.working.fields hn
  obtain ⟨hs, hcases⟩ := commit_eq_some hcm
  have htv : t.version ≤ maxInt64 := by
    obtain ⟨trees, -, rfl⟩ := MultiTree.saveVersion_eq_ok hs
    exact hmax
  obtain ⟨htl, htlev, htver, htiv⟩ := MultiTree.Loadable.saveVersion hcoh hlev
    (hver ▸ hn.versionAt_le le_rfl) (hiv ▸ hn.iv_le) hs (.inr htv)
  rw [hver, hiv, nextVersion_versionAt hn.base (hn.versionAt_le le_rfl)] at htver
  rw [hiv] at htiv
  obtain ⟨hsound, hcomplete⟩ := hdb.working.entryStep hn hs
  have hn' : Numbered v₀ iv (h.push db.working.pendingLog t) := hn.push htl htlev htver htiv
  have hidx : walIndex t.version t.initialVersion = h.log.length + 1 := by
    rw [htver, htiv, walIndex_versionAt hn.iv_le (hn.versionAt_succ_le le_rfl)]
  have hlast : (h.push db.working.pendingLog t).last = t := History.last_push h _ t
  have hne : (h.push db.working.pendingLog t).log ≠ [] := by simp
  -- the history is extended whichever way the entry goes
  have hext : ∀ {w : W.Log} {db₁ : DB N}, W.Holds w (h.push db.working.pendingLog t).log →
      W.dropped w ≤ c → W.lastIndex disk.wal ≤ W.lastIndex w →
      Queued (h.push db.working.pendingLog t) w (db₁.batch ++ db₁.walChan) →
      (opts.asyncCommit = false → db₁.batch ++ db₁.walChan = []) →
      db₁ = { db with working := ⟨t, emptyEntry⟩, phase := .checking t.version, walChan := db₁.walChan } →
      Inv v₀ iv (h.push db.working.pendingLog t) c opts replayable behind sha256
        ⟨{ disk with wal := w }, some db₁⟩ := by
    intro w db₁ hholds hdr hle hq hsync hdb₁
    refine ⟨hn', hi.sound.push hsound, fun hr => (hi.complete hr).push (hcomplete hr),
      (hd.push _ t).of_wal hholds hdr, fun hb => (hi.behind hb).trans hle, fun d hd' => ?_, fun hd' => nomatch hd'⟩
    obtain rfl := Option.some.inj hd'
    rw [hdb₁] at hq hsync ⊢
    refine ⟨.inl ⟨t, ?_⟩, fun h0 => hdb.snapshotVersion (by simp only at h0; omega), hq, hsync, hdb.writer,
      ⟨hne, by rw [hlast]⟩, fun r hr => (hdb.rewrite r hr).push _ t, hdb.pruning⟩
    rw [hlast]
    exact clean_last t
  rcases hcases with ⟨hasync, rfl⟩ | ⟨hsync, wal, hwal, rfl⟩
  · refine ⟨hs, rfl, hext (holds_push hd.holds _ t) hd.dropped le_rfl ?_ (fun hf => ?_) rfl⟩
    · rw [hidx, ← List.append_assoc]
      exact hdb.queue.push hd.holds _ t
    · exact nomatch hasync.symm.trans hf
  · have hempty := hdb.sync hsync
    have hq : Queued (h.push db.working.pendingLog t) disk.wal
        ([(walIndex t.version t.initialVersion, db.working.pendingLog)] ++ []) := by
      rw [hidx]
      exact (hempty ▸ hdb.queue).push hd.holds db.working.pendingLog t
    obtain ⟨w', hw', hholds, hq', hdr, hlt⟩ := Queued.writeEntries (holds_push hd.holds _ t) hq
    obtain rfl : w' = wal := Option.some.inj (hw'.symm.trans hwal)
    refine ⟨hs, rfl, hext hholds (hdr ▸ hd.dropped) (by rw [hlt]; exact Nat.le_add_right _ _) ?_
      (fun _ => hempty) rfl⟩
    rw [hempty]
    exact hq'

/-! ### Opening and closing -/

theorem WorkingInv.initialWorking {stores : List N} {d : Working N}
    (hd : initialWorking stores h.last = (d, none)) : WorkingInv h replayable d := by
  unfold Db.initialWorking at hd
  split_ifs at hd
  · exact WorkingInv.applyUpgrades hd
  · obtain ⟨rfl, -⟩ := Prod.mk.inj hd
    exact WorkingInv.last

/-- A newly opened database of a closed one, with the changes of a block. -/
theorem Inv.opened (hi : Inv v₀ iv h c opts replayable behind sha256 ⟨disk, none⟩) {d : Working N} {sv : ℕ}
    (hw : WorkingInv h replayable d) (hsv : h.log = [] → sv = v₀) :
    Inv v₀ iv h c opts replayable behind sha256 ⟨{ disk with currentTmp := none }, some (newDB d sv)⟩ := by
  have hd := hi.disk
  have hlast := hi.closed rfl
  refine ⟨hi.numbered, hi.sound, hi.complete, ⟨hd.holds, hd.le, hd.current, hd.dir, hd.dropped, hd.numbers⟩,
    hi.behind, fun d' hd' => ?_, fun hd' => nomatch hd'⟩
  obtain rfl := Option.some.inj hd'
  refine ⟨hw, fun h0 => hsv (List.length_eq_zero_iff.mp (hlast.symm.trans h0)), ⟨?_, rfl⟩, fun _ => rfl, rfl,
    trivial, (fun r hr => nomatch hr), fun p hp => nomatch hp⟩
  simp [newDB, hlast]

/-- A load starts from the last state. -/
theorem Inv.load (hi : Inv v₀ iv h c opts replayable behind sha256 ⟨disk, none⟩) {stores : List N}
    (hl : load sha256 stores disk = some s') :
    Inv v₀ iv h c opts replayable behind sha256 s' ∧
      (s'.db.map fun db => db.working) = some (initialWorking stores h.last).1 := by
  have hn := hi.numbered
  have hd := hi.disk
  have hlast := hi.closed rfl
  obtain ⟨dir, t₀, t, d, hdir, ht₀, hcat, hw, rfl⟩ := load_eq_some hl
  obtain rfl := Option.some.inj (hd.dir.symm.trans hdir)
  obtain rfl := Option.some.inj ((hn.load_writeSnapshot hd.le).symm.trans ht₀)
  have ht := catchupWAL_sound sha256 W hi.sound hd.holds (hn.nextIndex hd.le) hcat
  rw [hlast, max_eq_right hd.le] at ht
  obtain rfl : t = h.last := ht
  refine ⟨hi.opened (WorkingInv.initialWorking hw) fun hnil => ?_, by rw [hw]; rfl⟩
  have hc : c = 0 := Nat.le_zero.mp (by simpa [hnil] using hd.le)
  subst hc
  exact hn.version 0 hd.le

/-- A load succeeds when every entry can be replayed and no initial store occurs twice. -/
theorem Inv.exists_load (hi : Inv v₀ iv h c opts replayable behind sha256 ⟨disk, none⟩) (hr : replayable)
    {stores : List N} (hs : (initialWorking stores h.last).2 = none) :
    ∃ s', Db.load sha256 stores disk = some s' := by
  have hn := hi.numbered
  have hd := hi.disk
  have hdir : lookupPair disk.current disk.snapshots = some (h.state c).writeSnapshot := hd.dir
  have hcat := catchupWAL_complete sha256 W hi.sound (hi.complete hr) hd.holds (hn.nextIndex hd.le) hd.dropped
  rw [hi.closed rfl, max_eq_right hd.le] at hcat
  simp only [Db.load, hdir, hn.load_writeSnapshot hd.le, Option.bind_eq_bind, Option.bind_some, hcat]
  rcases hw : initialWorking stores (h.state h.log.length) with ⟨d, _ | err⟩
  · exact ⟨_, rfl⟩
  · cases (congrArg Prod.snd hw).symm.trans hs

theorem Inv.close (hi : Inv v₀ iv h c opts replayable behind sha256 ⟨disk, some db⟩)
    (hchan : db.walChan = []) (hbatch : db.batch = []) :
    Inv v₀ iv h c opts replayable behind sha256 ⟨disk, none⟩ := by
  have hq := hi.db_inv.queue
  rw [hchan, hbatch] at hq
  exact ⟨hi.numbered, hi.sound, hi.complete, hi.disk, hi.behind, (fun d hd => nomatch hd),
    fun _ => hq.lastIndex hi.disk.holds⟩

/-- A killed process leaves a part of the history. -/
theorem Inv.kill (hi : Inv v₀ iv h c opts replayable behind sha256 ⟨disk, some db⟩) (hb : behind) (n : ℕ) :
    ∃ k, c ≤ k ∧ Inv v₀ iv (h.cut k) c opts replayable behind sha256
      ⟨{ disk with wal := (writeEntries (db.batch.take n) disk.wal).getD disk.wal }, none⟩ := by
  have hdb := hi.db_inv
  have hd := hi.disk
  have hq : Queued h disk.wal (db.batch.take n ++ (db.batch.drop n ++ db.walChan)) := by
    rw [← List.append_assoc, List.take_append_drop]
    exact hdb.queue
  obtain ⟨w', hw', hholds, -, hdr, hlast⟩ := Queued.writeEntries hd.holds hq
  have hbe := hi.behind hb
  have hck : c ≤ W.lastIndex w' := hbe.trans (by rw [hlast]; omega)
  have hlen : (h.cut (W.lastIndex w')).log.length = W.lastIndex w' := by
    have := hholds.le
    simp only [History.cut, List.length_take]
    omega
  have hwal : (writeEntries (db.batch.take n) disk.wal).getD disk.wal = w' := by
    rw [hw']
    rfl
  rw [hwal]
  refine ⟨W.lastIndex w', hck, hi.numbered.cut _, hi.sound.cut _, fun hr => (hi.complete hr).cut _, ?_,
    fun _ => hck, (by simp), fun _ => hlen.symm⟩
  exact ⟨holds_cut hholds, hck.trans hlen.ge, hd.current, hd.dir, hdr ▸ hd.dropped, hd.numbers⟩

end IavlStore.Db
