import IavlStore.Db.Invariant

/-! The invariant is kept by every step. A commit extends the history by the entry and the
multitree it saved; the other steps of a running database leave the history as it is, and a
link that is replaced moves the place of the current snapshot. -/

namespace IavlStore.Db

open IavlStore.Base.Encoding IavlStore.Base.SortedPairs IavlStore.Base.Journal IavlStore.Multi

variable {N : Type} [LinearOrder N] {W : WalLog (WALEntry N)} {sha256 : Bytes → Bytes} {opts : Options}
  {replayable behind : Prop} {v₀ iv c : ℕ} {h : History (MultiTree N) (WALEntry N)}

/-! ### The log -/

section Log
variable {w : W.Log} {b q : List (ℕ × WALEntry N)}

omit [LinearOrder N] in
theorem Queued.length (hq : Queued h w q) : q.length = h.log.length - W.lastIndex w := by
  have := congrArg List.length hq.1
  simpa using this

omit [LinearOrder N] in
theorem Queued.lastIndex (hw : W.Holds w h.log) (hq : Queued h w ([] : List (ℕ × WALEntry N))) :
    W.lastIndex w = h.log.length := by
  have hlen := hq.length
  have hle := hw.le
  simp only [List.length_nil] at hlen
  omega

omit [LinearOrder N] in
/-- The two parts of a queue with consecutive indices. -/
theorem consecutive_append {m : ℕ} (hq : (b ++ q).map Prod.fst = List.range' m (b ++ q).length) :
    b.map Prod.fst = List.range' m b.length ∧ q.map Prod.fst = List.range' (m + b.length) q.length := by
  rw [List.map_append, List.length_append, ← List.range'_append_1] at hq
  exact List.append_inj hq (by simp)

omit [LinearOrder N] in
theorem consecutive_concat {m : ℕ} (hq : q.map Prod.fst = List.range' m q.length) (e : WALEntry N) :
    (q ++ [(m + q.length, e)]).map Prod.fst = List.range' m (q ++ [(m + q.length, e)]).length := by
  rw [List.map_append, hq, List.length_append, ← List.range'_append_1]
  rfl

omit [LinearOrder N] in
/-- The entries above an index, where the others come before it. -/
theorem filter_consecutive {m i : ℕ} (hb : b.map Prod.fst = List.range' i b.length) (hi : i ≤ m + 1) :
    b.filter (fun e => m < e.1) = b.drop (m + 1 - i) := by
  induction b generalizing i with
  | nil => simp
  | cons e b ih =>
    obtain ⟨hfst, hb'⟩ := List.cons.inj hb
    rcases hi.eq_or_lt with rfl | hlt
    · rw [Nat.sub_self, List.drop_zero]
      refine List.filter_eq_self.mpr fun x hx => ?_
      have hmem : x.1 ∈ (e :: b).map Prod.fst := List.mem_map_of_mem hx
      rw [hb, List.mem_range'_1] at hmem
      simpa using hmem.1
    · rw [List.filter_cons_of_neg (by simp [hfst]; omega), ih hb' (by omega), Nat.add_sub_add_right,
        show m + 1 - i = m - i + 1 by omega, List.drop_succ_cons]

omit [LinearOrder N] in
/-- Entries that continue the numbering are written, and those the log has are skipped. -/
theorem writeEntries_from {i : ℕ} (hb : b.map Prod.fst = List.range' i b.length)
    (hi : i ≤ W.lastIndex w + 1) : ∃ w', writeEntries b w = some w' ∧ W.dropped w' = W.dropped w ∧
      W.entries w' = W.entries w ++ (b.drop (W.lastIndex w + 1 - i)).map Prod.snd ∧
      W.lastIndex w' = W.lastIndex w + (b.length - (W.lastIndex w + 1 - i)) := by
  have hdrop : (b.drop (W.lastIndex w + 1 - i)).map Prod.fst =
      List.range' (W.lastIndex w + 1) (b.drop (W.lastIndex w + 1 - i)).length := by
    rw [List.map_drop, hb, List.drop_range', List.length_drop, Nat.mul_one, Nat.add_sub_cancel' hi]
  obtain ⟨w', hw', hd, hes⟩ := W.writeBatch_eq w _ hdrop
  refine ⟨w', by rw [Db.writeEntries, filter_consecutive hb hi, hw'], hd, hes, ?_⟩
  have hlast := W.lastIndex_eq w
  rw [W.lastIndex_eq w', hd, hes, List.length_append, List.length_map, List.length_drop]
  omega

omit [LinearOrder N] in
theorem writeEntries_eq (hb : b.map Prod.fst = List.range' (W.lastIndex w + 1) b.length) :
    ∃ w', writeEntries b w = some w' ∧ W.dropped w' = W.dropped w ∧
      W.entries w' = W.entries w ++ b.map Prod.snd ∧ W.lastIndex w' = W.lastIndex w + b.length := by
  simpa using writeEntries_from hb le_rfl

omit [LinearOrder N] in
/-- The front of the queue can be written, and the rest is still queued. -/
theorem Queued.writeEntries (hw : W.Holds w h.log) (hq : Queued h w (b ++ q)) :
    ∃ w', writeEntries b w = some w' ∧ W.Holds w' h.log ∧ Queued h w' q ∧
      W.dropped w' = W.dropped w ∧ W.lastIndex w' = W.lastIndex w + b.length := by
  have hle := hw.le
  have hlen := hq.length
  obtain ⟨hsnd, hfst⟩ := hq
  obtain ⟨hb, hqf⟩ := consecutive_append hfst
  rw [List.map_append] at hsnd
  rw [List.length_append] at hlen
  have hbs : b.map Prod.snd = (h.log.drop (W.lastIndex w)).take b.length := by
    rw [← hsnd, List.take_left' (List.length_map _)]
  have hqs : q.map Prod.snd = (h.log.drop (W.lastIndex w)).drop b.length := by
    rw [← hsnd, List.drop_left' (List.length_map _)]
  obtain ⟨w', hw', hd, hes, hlast⟩ := writeEntries_eq hb
  have hdle : W.dropped w ≤ W.lastIndex w := by rw [W.lastIndex_eq]; omega
  refine ⟨w', hw', ⟨by omega, ?_⟩, ⟨?_, ?_⟩, hd, hlast⟩
  · rw [hes, hw.entries, hd, hlast, hbs, List.take_add, List.drop_append_of_le_length]
    simp only [List.length_take]
    omega
  · rw [hqs, List.drop_drop, hlast]
  · rw [hqf, hlast]
    congr 1
    omega

omit [LinearOrder N] in
theorem Queued.push (hw : W.Holds w h.log) (hq : Queued h w q) (e : WALEntry N) (t : MultiTree N) :
    Queued (h.push e t) w (q ++ [(h.log.length + 1, e)]) := by
  have hle := hw.le
  have hlen := hq.length
  refine ⟨?_, ?_⟩
  · rw [History.log_push, List.drop_append_of_le_length hle, List.map_append, hq.1]
    rfl
  · rw [show h.log.length + 1 = W.lastIndex w + 1 + q.length by omega]
    exact consecutive_concat hq.2 e

omit [LinearOrder N] in
theorem holds_push (hw : W.Holds w h.log) (e : WALEntry N) (t : MultiTree N) :
    W.Holds w (h.push e t).log := by
  have hle := hw.le
  refine ⟨?_, ?_⟩
  · rw [History.length_log_push]; omega
  · rw [History.log_push, List.take_append_of_le_length hle]
    exact hw.entries

omit [LinearOrder N] in
theorem holds_cut (hw : W.Holds w h.log) : W.Holds w (h.cut (W.lastIndex w)).log := by
  have hle := hw.le
  refine ⟨?_, ?_⟩
  · simp only [History.cut, List.length_take]; omega
  · simp only [History.cut, List.take_take, min_self]
    exact hw.entries

end Log

/-! ### The block -/

section Working
variable {d : Working N}

theorem WorkingInv.mtree (hd : WorkingInv h replayable d) :
    ∃ up f, h.last.applyUpgrades d.pendingLog.upgrades = (up, none) ∧ d.mtree = up.applyAll f := by
  rcases hd with ⟨up, hc⟩ | ⟨-, up, hp⟩
  · exact ⟨up, _, hc.upgrades, hc.mtree⟩
  · obtain ⟨f, hf⟩ := hp.mtree
    exact ⟨up, f, hp.upgrades, hf⟩

/-- Within a block the version and the initial version are those of the last commit. -/
theorem WorkingInv.fields (hn : Numbered v₀ iv h) (hd : WorkingInv h replayable d) :
    d.mtree.Coherent ∧ d.mtree.Level ∧ d.mtree.version = versionAt v₀ iv h.log.length ∧
      d.mtree.initialVersion = iv := by
  obtain ⟨up, f, hu, hm⟩ := hd.mtree
  obtain ⟨hci, hiv⟩ := MultiTree.applyUpgrades_fields hu
  have hv : up.version = h.last.version := congrArg CommitInfo.version hci
  rw [hm, MultiTree.version_applyAll, MultiTree.initialVersion_applyAll, hv, hiv]
  refine ⟨((hn.coherent le_rfl).applyUpgrades hu).applyAll f, ?_, hn.version _ le_rfl,
    hn.initialVersion _ le_rfl⟩
  exact ((hn.level _ le_rfl).applyUpgrades (hn.loadable _ le_rfl).version_le hu).applyAll f

theorem clean_last (base : MultiTree N) : Clean base base ⟨base, emptyEntry⟩ :=
  ⟨rfl, by simp [emptyEntry], (MultiTree.applyAll_nil base).symm⟩

theorem WorkingInv.last : WorkingInv h replayable ⟨h.last, emptyEntry⟩ := .inl ⟨_, clean_last _⟩

/-- When nothing is pending, the trees are those of the last commit. -/
theorem WorkingInv.eq_last (hd : WorkingInv h replayable d) (he : d.pendingLog = emptyEntry) :
    d = ⟨h.last, emptyEntry⟩ := by
  rcases hd with ⟨up, hc⟩ | ⟨-, up, hp⟩
  · have hup := hc.upgrades
    have hm := hc.mtree
    rw [he] at hup hm
    obtain ⟨rfl, -⟩ := Prod.mk.inj hup
    obtain ⟨t, e⟩ := d
    obtain rfl : e = emptyEntry := he
    exact congrArg (Working.mk · emptyEntry) (hm.trans (MultiTree.applyAll_nil _))
  · obtain ⟨c, hc, -⟩ := hp.unknown
    rw [he] at hc
    exact absurd hc (by simp [emptyEntry])

theorem WorkingInv.applyChangeSets (hn : Numbered v₀ iv h) (hd : WorkingInv h replayable d)
    {cs : List (NamedChangeSet N)} (hm : MergesInOrder cs d)
    (hok : replayable → (d.applyChangeSets cs).2 = none) :
    WorkingInv h replayable (d.applyChangeSets cs).1 := by
  have hb := hn.coherent le_rfl
  rcases hd with ⟨up, hc⟩ | ⟨hr, up, hp⟩
  · rcases hc.applyChangeSets hb hm with ⟨-, hc⟩ | ⟨hne, hp⟩
    · exact .inl ⟨up, hc⟩
    · exact .inr ⟨fun hr => hne (hok hr), up, hp⟩
  · exact .inr ⟨hr, up, hp.applyChangeSets hb cs⟩

/-- Upgrades at the start of a block. -/
theorem WorkingInv.applyUpgrades {us : List (TreeNameUpgrade N)} {d' : Working N}
    (hu : (⟨h.last, emptyEntry⟩ : Working N).applyUpgrades us = (d', none)) : WorkingInv h replayable d' := by
  unfold Working.applyUpgrades at hu
  rcases hup : h.last.applyUpgrades us with ⟨up, _ | err⟩
  · simp only [hup] at hu
    obtain ⟨rfl, -⟩ := Prod.mk.inj hu
    exact .inl ⟨up, by simpa [emptyEntry] using hup, by simp [emptyEntry], (MultiTree.applyAll_nil up).symm⟩
  · simp only [hup] at hu
    exact absurd (Prod.mk.inj hu).2 (by simp)

/-- The entry of a commit leads to what was saved, or cannot be replayed. -/
theorem WorkingInv.entryStep (hn : Numbered v₀ iv h) (hd : WorkingInv h replayable d) {t : MultiTree N}
    (hs : d.mtree.saveVersion sha256 true = .ok t) :
    (∀ t', h.last.entryStep sha256 d.pendingLog = some t' → t' = t) ∧
      (replayable → (h.last.entryStep sha256 d.pendingLog).isSome) := by
  have hb := hn.coherent le_rfl
  rcases hd with ⟨up, hc⟩ | ⟨hr, up, hp⟩
  · have he := hc.entryStep hb hs
    exact ⟨fun t' ht' => Option.some.inj (ht'.symm.trans he), fun _ => by
      rw [show h.last.entryStep sha256 d.pendingLog = some t from he]
      rfl⟩
  · refine ⟨fun t' ht' => ?_, fun hr' => absurd hr' hr⟩
    have he : h.last.entryStep sha256 d.pendingLog = none := hp.entryStep hb
    exact nomatch ht'.symm.trans he

end Working

/-! ### Steps of the threads -/

section Threads
variable {disk disk' : Disk N W} {db db' : DB N} {s s' : World N W}

theorem Inv.db_inv (hi : Inv v₀ iv h c opts replayable behind sha256 ⟨disk, some db⟩) :
    DBInv v₀ iv h c opts replayable disk db := hi.db db rfl

/-- A step that leaves the disk as it is. -/
theorem Inv.of_db (hi : Inv v₀ iv h c opts replayable behind sha256 ⟨disk, some db⟩)
    (hdb : DBInv v₀ iv h c opts replayable disk db') :
    Inv v₀ iv h c opts replayable behind sha256 ⟨disk, some db'⟩ := by
  refine ⟨hi.numbered, hi.sound, hi.complete, hi.disk, hi.behind, fun d hd => ?_, fun hd => nomatch hd⟩
  obtain rfl := Option.some.inj hd
  exact hdb

theorem Inv.receive (hi : Inv v₀ iv h c opts replayable behind sha256 ⟨disk, some db⟩) {n : ℕ}
    (hr : receive n db = some db') : Inv v₀ iv h c opts replayable behind sha256 ⟨disk, some db'⟩ := by
  have hdb := hi.db_inv
  obtain ⟨hempty, rfl⟩ := receive_eq_some hr
  have hq : db.walChan.take (n + 1) ++ db.walChan.drop (n + 1) = db.batch ++ db.walChan := by
    rw [List.take_append_drop, hempty, List.nil_append]
  exact hi.of_db ⟨hdb.working, hdb.snapshotVersion, hq ▸ hdb.queue, fun hs => hq ▸ hdb.sync hs, hdb.writer,
    hdb.phase, hdb.rewrite, hdb.pruning⟩

omit [LinearOrder N] in
/-- The log may change as long as it is a part of the history. -/
theorem DiskInv.of_wal (hd : DiskInv v₀ iv h c disk) {w : W.Log} (hw : W.Holds w h.log)
    (hdr : W.dropped w ≤ c) : DiskInv v₀ iv h c { disk with wal := w } :=
  ⟨hw, hd.le, hd.current, hd.dir, hdr, hd.numbers⟩

theorem Inv.write (hi : Inv v₀ iv h c opts replayable behind sha256 ⟨disk, some db⟩)
    (hw : write disk db = some s') : Inv v₀ iv h c opts replayable behind sha256 s' := by
  have hdb := hi.db_inv
  obtain ⟨w', heq, hholds, hq, hdr, hlast⟩ := hdb.queue.writeEntries hi.disk.holds
  obtain ⟨wal, hwal, rfl⟩ | ⟨hnone, -⟩ := write_eq_some hw
  swap
  · exact nomatch heq.symm.trans hnone
  obtain rfl : w' = wal := Option.some.inj (heq.symm.trans hwal)
  refine ⟨hi.numbered, hi.sound, hi.complete, hi.disk.of_wal hholds (hdr ▸ hi.disk.dropped), fun hbe => ?_,
    fun d hd => ?_, fun hd => nomatch hd⟩
  · exact (hi.behind hbe).trans (by simp only [hlast]; omega)
  · obtain rfl := Option.some.inj hd
    refine ⟨hdb.working, fun h0 => hdb.snapshotVersion ?_, hq, fun hs => ?_, hdb.writer, hdb.phase,
      hdb.rewrite, hdb.pruning⟩
    · simp only [hlast] at h0
      omega
    · exact (List.append_eq_nil_iff.mp (hdb.sync hs)).2

theorem DBInv.set_rewrite (hdb : DBInv v₀ iv h c opts replayable disk db) {c' : ℕ} {r : Rewrite N}
    (hw : disk'.wal = disk.wal) (hph : ∀ v t sv, db.phase ≠ .waiting v t sv)
    (hr : RewriteInv v₀ iv h c' replayable disk' r) (hp : ∀ p ∈ db.pruning, PruneInv v₀ iv c' p) :
    DBInv v₀ iv h c' opts replayable disk' { db with rewrite := some r } := by
  refine ⟨hdb.working, hw ▸ hdb.snapshotVersion, hw ▸ hdb.queue, hdb.sync, hdb.writer, ?_,
    fun r' hr' => ?_, hp⟩
  · have hphase := hdb.phase
    unfold PhaseInv at hphase ⊢
    rcases hp : db.phase with _ | v | ⟨v, t, sv⟩
    · trivial
    · rw [hp] at hphase
      exact hphase
    · exact absurd hp (hph v t sv)
  · obtain rfl := Option.some.inj hr'
    exact hr

/-- While a rewritten multitree waits, no other rewrite runs. -/
theorem DBInv.not_waiting (hdb : DBInv v₀ iv h c opts replayable disk db) {r : Rewrite N}
    (hr : db.rewrite = some r) : ∀ v t sv, db.phase ≠ .waiting v t sv := by
  intro v t sv hp
  have hphase := hdb.phase
  unfold PhaseInv at hphase
  rw [hp] at hphase
  exact nomatch hr.symm.trans hphase.2.2.1

/-- A rewrite keeps the invariant, from the new place of the current snapshot on. -/
theorem Inv.rewrite (hi : Inv v₀ iv h c opts replayable behind sha256 ⟨disk, some db⟩)
    {r r' : Rewrite N} (hr : db.rewrite = some r) (hs : rewriteStep sha256 disk r = some (disk', r'))
    (hlink : behind → ∀ v, r = .tmpLinked v →
      walIndex v db.working.mtree.initialVersion ≤ W.lastIndex disk.wal) :
    ∃ c', Inv v₀ iv h c' opts replayable behind sha256 ⟨disk', some { db with rewrite := some r' }⟩ := by
  have hdb := hi.db_inv
  have hn := hi.numbered
  have hrw := hdb.rewrite r hr
  -- all steps but two leave the disk alone
  have hsame : RewriteInv v₀ iv h c replayable disk r' → disk' = disk → ∃ c', Inv v₀ iv h c' opts replayable behind
      sha256 ⟨disk', some { db with rewrite := some r' }⟩ := by
    rintro hr' rfl
    exact ⟨c, hi.of_db (hdb.set_rewrite rfl (hdb.not_waiting hr) hr' hdb.pruning)⟩
  cases r with
  | copied t =>
    cases hs
    exact hsame hrw rfl
  | written t =>
    obtain ⟨j, hcj, hj, rfl⟩ := hrw
    simp only [rewriteStep] at hs
    split_ifs at hs with hex
    · cases hs
      exact hsame trivial rfl
    · cases hs
      have hv := hn.version j hj
      have hnone : lookupPair (h.state j).version disk.snapshots = none := by
        simpa using hex
      refine ⟨c, hn, hi.sound, hi.complete, ⟨hi.disk.holds, hi.disk.le, hi.disk.current, ?_,
        hi.disk.dropped, fun v hmem => ?_⟩, hi.behind, fun d hd => ?_, by simp⟩
      · rw [lookupPair_append, hi.disk.dir]
        rfl
      · rw [List.map_append, List.mem_append] at hmem
        rcases hmem with hmem | hmem
        · exact hi.disk.numbers v hmem
        · exact ⟨j, by rw [List.mem_singleton.mp hmem, hv]⟩
      · obtain rfl := Option.some.inj hd
        refine hdb.set_rewrite rfl (hdb.not_waiting hr) ⟨j, hcj, hj, hv, ?_⟩ hdb.pruning
        rw [lookupPair_append, hnone]
        simp [lookupPair_cons]
  | renamed v =>
    simp only [rewriteStep] at hs
    split_ifs at hs with htmp
    · cases hs
      exact hsame trivial rfl
    · cases hs
      refine ⟨c, hn, hi.sound, hi.complete, ⟨hi.disk.holds, hi.disk.le, hi.disk.current, hi.disk.dir,
        hi.disk.dropped, hi.disk.numbers⟩, hi.behind, fun d hd => ?_, by simp⟩
      obtain rfl := Option.some.inj hd
      exact hdb.set_rewrite rfl (hdb.not_waiting hr) hrw hdb.pruning
  | tmpLinked v =>
    obtain ⟨j, hcj, hj, rfl, hdir⟩ := hrw
    cases hs
    refine ⟨j, hn, hi.sound, hi.complete, ⟨hi.disk.holds, hj, rfl, hdir, hi.disk.dropped.trans hcj,
      hi.disk.numbers⟩, fun hbe => ?_, fun d hd => ?_, by simp⟩
    · have hle := hlink hbe _ rfl
      rw [(hdb.working.fields hn).2.2.2] at hle
      rcases j with _ | j
      · exact Nat.zero_le _
      · rwa [walIndex_versionAt hn.iv_le (hn.versionAt_succ_le (by omega))] at hle
    · obtain rfl := Option.some.inj hd
      refine hdb.set_rewrite rfl (hdb.not_waiting hr) trivial fun p hp => ?_
      have hpr := hdb.pruning p hp
      cases p with
      | started => trivial
      | visiting cur todo counter earliest =>
        exact ⟨hpr.1.trans (versionAt_mono hn.base hcj), hpr.2⟩
  | linked =>
    have hdir := hi.disk.dir
    simp only [rewriteStep, hdir, hn.load_writeSnapshot hi.disk.le] at hs
    cases hs
    exact hsame ⟨c, le_rfl, hi.disk.le, rfl⟩ rfl
  | loaded t sv =>
    obtain ⟨j, hcj, hj, rfl⟩ := hrw
    simp only [rewriteStep] at hs
    rcases hcat : (h.state j).catchupWAL sha256 W disk.wal 0 with _ | t'
    · rw [hcat] at hs
      cases hs
      refine hsame (fun hr => ?_) rfl
      have hsome := catchupWAL_complete sha256 W hi.sound (hi.complete hr) hi.disk.holds (hn.nextIndex hj)
        (hi.disk.dropped.trans hcj)
      cases hcat.symm.trans hsome
    · rw [hcat] at hs
      cases hs
      refine hsame ⟨_, le_max_of_le_left hcj, ?_,
        catchupWAL_sound sha256 W hi.sound hi.disk.holds (hn.nextIndex hj) hcat⟩ rfl
      exact max_le hj hi.disk.holds.le
  | ready t sv => cases hs
  | failed => cases hs
  | closed => cases hs

end Threads

end IavlStore.Db
