import IavlStore.Db.Model

/-! What each event of the database does. A step is inverted once into the function it
calls, and each function into what it returns when it succeeds. -/

namespace IavlStore.Db

open IavlStore.Base.Encoding IavlStore.Base.SortedPairs IavlStore.Multi

variable {N : Type} [LinearOrder N] {W : WalLog (WALEntry N)} (sha256 : Bytes → Bytes) (opts : Options)

/-- What each event does. -/
inductive Fires : World N W → Event N → World N W → Reply N → Prop
  | load {disk stores s'} : load sha256 stores disk = some s' →
      Fires ⟨disk, none⟩ (.load stores) s' .nothing
  | kill {disk db} (n : ℕ) : Fires ⟨disk, some db⟩ (.kill n)
      ⟨{ disk with wal := (writeEntries (db.batch.take n) disk.wal).getD disk.wal }, none⟩ .nothing
  | receive {disk db db' n} : receive n db = some db' →
      Fires ⟨disk, some db⟩ (.receive n) ⟨disk, some db'⟩ .nothing
  | write {disk db s'} : write disk db = some s' → Fires ⟨disk, some db⟩ .write s' .nothing
  | rewrite {disk db r disk' r'} : db.rewrite = some r → rewriteStep sha256 disk r = some (disk', r') →
      Fires ⟨disk, some db⟩ .rewrite ⟨disk', some { db with rewrite := some r' }⟩ .nothing
  | rewriteFail {disk db r} : db.rewrite = some r → r.canFail = true →
      Fires ⟨disk, some db⟩ .rewriteFail ⟨disk, some { db with rewrite := some .closed }⟩ .nothing
  | prune {disk db p disk' p'} {removed : Bool} : db.pruning = some p →
      pruneStep opts removed db.working.mtree.initialVersion disk p = (disk', p') →
      Fires ⟨disk, some db⟩ (.prune removed) ⟨disk', some { db with pruning := p' }⟩ .nothing
  | finish {disk db db' ok} : finish opts db = some (db', ok) →
      Fires ⟨disk, some db⟩ .finish ⟨disk, some db'⟩ (.returned ok)
  | await {disk db db'} : await db = some db' → Fires ⟨disk, some db⟩ .await ⟨disk, some db'⟩ .nothing
  | switch {disk db db' ok} : switch sha256 opts disk db = some (db', ok) →
      Fires ⟨disk, some db⟩ .switch ⟨disk, some db'⟩ (.returned ok)
  | setInitialVersion {disk db s' v} : db.phase = .idle → setInitialVersion v disk db = some s' →
      Fires ⟨disk, some db⟩ (.setInitialVersion v) s' .nothing
  | applyUpgrades {disk db us} : db.phase = .idle → Fires ⟨disk, some db⟩ (.applyUpgrades us)
      ⟨disk, some { db with working := (db.working.applyUpgrades us).1 }⟩ .nothing
  | applyChangeSets {disk db cs} : db.phase = .idle → Fires ⟨disk, some db⟩ (.applyChangeSets cs)
      ⟨disk, some { db with working := (db.working.applyChangeSets cs).1 }⟩ .nothing
  | commit {disk db s' t} : db.phase = .idle → commit sha256 opts disk db = some (s', t) →
      Fires ⟨disk, some db⟩ .commit s' (.saved t)
  | close {disk db} : db.phase = .idle → db.walChan = [] → db.batch = [] →
      db.rewrite.all Rewrite.isDone = true → Fires ⟨disk, some db⟩ .close ⟨disk, none⟩ .nothing

variable {sha256 opts}

theorem fires_of_step {s s' : World N W} {e : Event N} {o : Reply N}
    (h : step sha256 opts s e = some (s', o)) : Fires sha256 opts s e s' o := by
  obtain ⟨disk, _ | db⟩ := s
  · cases e <;> simp only [step, Option.bind_eq_bind, Option.bind_eq_some_iff, reduceCtorEq] at h
    obtain ⟨s₁, hl, heq⟩ := h
    cases heq
    exact .load hl
  · cases e with
    | load stores => exact nomatch h
    | kill n => cases h; exact .kill n
    | receive n =>
      simp only [step, Option.bind_eq_bind, Option.bind_eq_some_iff] at h
      obtain ⟨db', hr, heq⟩ := h
      cases heq
      exact .receive hr
    | write =>
      simp only [step, Option.bind_eq_bind, Option.bind_eq_some_iff] at h
      obtain ⟨s₁, hw, heq⟩ := h
      cases heq
      exact .write hw
    | rewrite =>
      simp only [step, Option.bind_eq_bind, Option.bind_eq_some_iff] at h
      obtain ⟨r, hr, ⟨disk', r'⟩, hs, heq⟩ := h
      cases heq
      exact .rewrite hr hs
    | rewriteFail =>
      simp only [step, Option.bind_eq_bind, Option.bind_eq_some_iff] at h
      obtain ⟨r, hr, h⟩ := h
      split_ifs at h with hc
      cases h
      exact .rewriteFail hr hc
    | prune removed =>
      simp only [step, Option.bind_eq_bind, Option.bind_eq_some_iff] at h
      obtain ⟨p, hp, heq⟩ := h
      cases heq
      exact .prune hp rfl
    | finish =>
      simp only [step, Option.bind_eq_bind, Option.bind_eq_some_iff] at h
      obtain ⟨⟨db', ok⟩, hf, heq⟩ := h
      cases heq
      exact .finish hf
    | await =>
      simp only [step, Option.bind_eq_bind, Option.bind_eq_some_iff] at h
      obtain ⟨db', hf, heq⟩ := h
      cases heq
      exact .await hf
    | switch =>
      simp only [step, Option.bind_eq_bind, Option.bind_eq_some_iff] at h
      obtain ⟨⟨db', ok⟩, hf, heq⟩ := h
      cases heq
      exact .switch hf
    | setInitialVersion v =>
      rcases hp : db.phase with _ | _ | _ <;> simp only [step, hp, reduceCtorEq] at h
      simp only [Option.bind_eq_bind, Option.bind_eq_some_iff] at h
      obtain ⟨s₁, hs, heq⟩ := h
      cases heq
      exact .setInitialVersion hp hs
    | applyUpgrades us =>
      rcases hp : db.phase with _ | _ | _ <;> simp only [step, hp, reduceCtorEq] at h
      cases h
      rw [← hp]
      exact .applyUpgrades hp
    | applyChangeSets cs =>
      rcases hp : db.phase with _ | _ | _ <;> simp only [step, hp, reduceCtorEq] at h
      cases h
      rw [← hp]
      exact .applyChangeSets hp
    | commit =>
      rcases hp : db.phase with _ | _ | _ <;> simp only [step, hp, reduceCtorEq] at h
      simp only [Option.bind_eq_bind, Option.bind_eq_some_iff] at h
      obtain ⟨⟨s₁, t⟩, hs, heq⟩ := h
      cases heq
      exact .commit hp hs
    | close =>
      rcases hp : db.phase with _ | _ | _ <;> simp only [step, hp, reduceCtorEq] at h
      split_ifs at h with hc
      cases h
      exact .close hp hc.1 hc.2.1 hc.2.2

theorem db_of_close {s s' : World N W} {o : Reply N} (h : step sha256 opts s .close = some (s', o)) :
    s'.db = none := by
  cases fires_of_step h
  rfl

/-! ### Inversion -/

variable {disk disk' : Disk N W} {db db' : DB N} {s' : World N W}

theorem load_eq_some {stores : List N} (h : load sha256 stores disk = some s') :
    ∃ dir t₀ t working, lookupPair disk.current disk.snapshots = some dir ∧ loadMultiTree dir = some t₀ ∧
      t₀.catchupWAL sha256 W disk.wal 0 = some t ∧ initialWorking stores t = (working, none) ∧
      s' = ⟨{ disk with currentTmp := none }, some (newDB working dir.commitInfo.version)⟩ := by
  simp only [load, Option.bind_eq_bind, Option.bind_eq_some_iff] at h
  obtain ⟨dir, hdir, t₀, ht₀, t, ht, h⟩ := h
  rcases hw : initialWorking stores t with ⟨working, _ | err⟩ <;> simp only [hw, reduceCtorEq] at h
  exact ⟨dir, t₀, t, working, hdir, ht₀, ht, hw, (Option.some.inj h).symm⟩

omit [LinearOrder N] in
theorem setInitialVersion_eq_some {v : ℕ} (hs : setInitialVersion v disk db = some s') :
    ∃ t, db.working.mtree.setInitialVersion v = .ok t ∧
      s' = ⟨{ disk with snapshots := (0, emptyDir v) :: erasePair 0 disk.snapshots, current := 0 },
        some { db with working := { db.working with mtree := t } }⟩ := by
  unfold Db.setInitialVersion at hs
  by_cases hpos : 0 < db.working.mtree.version
  · rw [if_pos hpos] at hs
    exact nomatch hs
  · rw [if_neg hpos] at hs
    rcases hset : db.working.mtree.setInitialVersion v with err | t
    · rw [hset] at hs
      exact nomatch hs
    · simp only [hset] at hs
      split_ifs at hs
      exact ⟨t, rfl, (Option.some.inj hs).symm⟩

omit [LinearOrder N] in
/-- The entry goes to the channel, or to the log itself. -/
theorem commit_eq_some {t : MultiTree N} (h : commit sha256 opts disk db = some (s', t)) :
    db.working.mtree.saveVersion sha256 true = .ok t ∧
      (opts.asyncCommit = true ∧ s' = ⟨disk, some { db with
          working := ⟨t, emptyEntry⟩
          phase := .checking t.version
          walChan := db.walChan ++ [(walIndex t.version t.initialVersion, db.working.pendingLog)] }⟩ ∨
        opts.asyncCommit = false ∧ ∃ wal,
          writeEntries [(walIndex t.version t.initialVersion, db.working.pendingLog)] disk.wal = some wal ∧
          s' = ⟨{ disk with wal := wal }, some { db with
            working := ⟨t, emptyEntry⟩
            phase := .checking t.version }⟩) := by
  unfold commit at h
  rcases hs : db.working.mtree.saveVersion sha256 true with err | t'
  · rw [hs] at h
    exact nomatch h
  simp only [hs, Except.toOption, Option.bind_eq_bind, Option.bind_some] at h
  split_ifs at h with hasync
  · obtain ⟨rfl, rfl⟩ := Prod.mk.inj (Option.some.inj h)
    exact ⟨rfl, .inl ⟨hasync, rfl⟩⟩
  · obtain ⟨wal, hwal, h⟩ := Option.bind_eq_some_iff.mp h
    obtain ⟨rfl, rfl⟩ := Prod.mk.inj (Option.some.inj h)
    exact ⟨rfl, .inr ⟨by simpa using hasync, wal, hwal, rfl⟩⟩

omit [LinearOrder N] in
theorem finish_eq_some {ok : Bool} (h : finish opts db = some (db', ok)) :
    ∃ v, db.phase = .checking v ∧
      (db' = { db with phase := .idle, rewrite := none } ∨ db' = (endCommit opts v { db with rewrite := none }).1 ∨
        db' = (endCommit opts v db).1) := by
  unfold finish at h
  split at h
  · exact nomatch h
  · exact ⟨_, ‹db.phase = .checking _›, .inl (Prod.mk.inj (Option.some.inj h)).1.symm⟩
  · exact ⟨_, ‹db.phase = .checking _›, .inr (.inl (congrArg Prod.fst (Option.some.inj h)).symm)⟩
  · exact ⟨_, ‹db.phase = .checking _›, .inr (.inr (congrArg Prod.fst (Option.some.inj h)).symm)⟩
  · exact nomatch h

omit [LinearOrder N] in
theorem await_eq_some (h : await db = some db') :
    ∃ v t sv, db.phase = .checking v ∧ db.rewrite = some (.ready t sv) ∧
      db' = { db with phase := .waiting v t sv, rewrite := none } := by
  unfold await at h
  split at h
  · rename_i v t sv hp hr
    exact ⟨v, t, sv, hp, hr, (Option.some.inj h).symm⟩
  · exact nomatch h

/-- The replay fails, or what it leads to is switched in. -/
theorem switch_eq_some {ok : Bool} (h : switch sha256 opts disk db = some (db', ok)) :
    ∃ v t sv, db.phase = .waiting v t sv ∧ db.working.mtree.version = committedVersion disk db ∧
      (db' = { db with phase := .idle } ∧ ok = false ∨
        ∃ t₁ t₂, t.catchupWAL sha256 W disk.wal 0 = some t₁ ∧ t₁.applyWALEntry db.working.pendingLog = .ok t₂ ∧
          (db', ok) = endCommit opts v { db with
            working := { db.working with mtree := t₂ }
            snapshotVersion := sv
            pruning := some .started }) := by
  unfold switch at h
  rcases hp : db.phase with _ | _ | ⟨v, t, sv⟩ <;> simp only [hp, reduceCtorEq] at h
  split_ifs at h with hready
  refine ⟨v, t, sv, rfl, hready.1, ?_⟩
  rcases hcat : t.catchupWAL sha256 W disk.wal 0 with _ | t₁
  · simp only [hcat] at h
    obtain ⟨rfl, rfl⟩ := Prod.mk.inj (Option.some.inj h)
    exact .inl ⟨rfl, rfl⟩
  · rcases happ : t₁.applyWALEntry db.working.pendingLog with err | t₂ <;>
      simp only [hcat, happ, reduceCtorEq] at h
    exact .inr ⟨t₁, t₂, rfl, happ, (Option.some.inj h).symm⟩

omit [LinearOrder N] in
theorem receive_eq_some {n : ℕ} (h : receive n db = some db') :
    db.batch = [] ∧ db' = { db with batch := db.walChan.take (n + 1), walChan := db.walChan.drop (n + 1) } := by
  unfold receive at h
  split_ifs at h with hc
  exact ⟨hc.1, (Option.some.inj h).symm⟩

omit [LinearOrder N] in
theorem write_eq_some (h : write disk db = some s') :
    (∃ wal, writeEntries db.batch disk.wal = some wal ∧
      s' = ⟨{ disk with wal := wal }, some { db with batch := [] }⟩) ∨
    writeEntries db.batch disk.wal = none ∧ s' = ⟨disk, some { db with writerFailed := true, batch := [] }⟩ := by
  unfold write at h
  split_ifs at h
  split at h <;> rename_i hw
  · exact .inr ⟨hw, (Option.some.inj h).symm⟩
  · exact .inl ⟨_, hw, (Option.some.inj h).symm⟩

/-! ### The rewrite -/

/-- A property of the multitree of a rewrite. -/
def Rewrite.All (P : MultiTree N → Prop) : Rewrite N → Prop
  | .copied t => P t
  | .written t => P t
  | .loaded t _ => P t
  | .ready t _ => P t
  | _ => True

variable {r r' : Rewrite N}

/-- What holds of the snapshots and is kept by catching up is kept by a rewrite. -/
theorem Rewrite.All.step {P : MultiTree N → Prop} (hr : r.All P)
    (hdirs : ∀ p ∈ disk.snapshots, ∀ t, loadMultiTree p.2 = some t → P t)
    (hcat : ∀ t sv t', r = .loaded t sv → P t → t.catchupWAL sha256 W disk.wal 0 = some t' → P t')
    (hs : rewriteStep sha256 disk r = some (disk', r')) : r'.All P := by
  cases r with
  | copied t => cases hs; exact hr
  | written t =>
    simp only [rewriteStep] at hs
    split_ifs at hs <;> cases hs <;> trivial
  | renamed v =>
    simp only [rewriteStep] at hs
    split_ifs at hs <;> cases hs <;> trivial
  | tmpLinked v => cases hs; trivial
  | linked =>
    simp only [rewriteStep] at hs
    rcases hl : lookupPair disk.current disk.snapshots with _ | dir
    · rw [hl] at hs
      cases hs
      trivial
    · simp only [hl] at hs
      rcases ht : loadMultiTree dir with _ | t <;> rw [ht] at hs <;> cases hs
      · trivial
      · exact hdirs _ (pair_mem_of_lookupPair hl) t ht
  | loaded t sv =>
    simp only [rewriteStep] at hs
    rcases hc : t.catchupWAL sha256 W disk.wal 0 with _ | t' <;> rw [hc] at hs <;> cases hs
    · trivial
    · exact hcat t sv t' rfl hr hc
  | ready t sv => exact nomatch hs
  | failed => exact nomatch hs
  | closed => exact nomatch hs

/-- A rewrite keeps the log and adds the snapshot it has written. -/
theorem disk_rewriteStep (hs : rewriteStep sha256 disk r = some (disk', r')) :
    disk'.wal = disk.wal ∧ ∀ p ∈ disk'.snapshots,
      p ∈ disk.snapshots ∨ ∃ t, r = .written t ∧ p = (t.version, t.writeSnapshot) := by
  unfold rewriteStep at hs
  split at hs
  · cases hs
    exact ⟨rfl, fun p hp => .inl hp⟩
  · split_ifs at hs <;> cases hs
    · exact ⟨rfl, fun p hp => .inl hp⟩
    · exact ⟨rfl, fun p hp => (List.mem_append.mp hp).imp_right fun hp => ⟨_, rfl, List.mem_singleton.mp hp⟩⟩
  · split_ifs at hs <;> cases hs <;> exact ⟨rfl, fun p hp => .inl hp⟩
  · cases hs
    exact ⟨rfl, fun p hp => .inl hp⟩
  · split at hs
    · cases hs
      exact ⟨rfl, fun p hp => .inl hp⟩
    · split at hs <;> cases hs <;> exact ⟨rfl, fun p hp => .inl hp⟩
  · split at hs <;> cases hs <;> exact ⟨rfl, fun p hp => .inl hp⟩
  · exact nomatch hs

/-! ### Pruning -/

omit [LinearOrder N] in
/-- Pruning adds no snapshot and keeps the end of the log. -/
theorem disk_pruneStep {removed : Bool} {iv : ℕ} {p : Pruning} {p' : Option Pruning}
    (hf : pruneStep opts removed iv disk p = (disk', p')) :
    W.lastIndex disk'.wal = W.lastIndex disk.wal ∧ ∀ q ∈ disk'.snapshots, q ∈ disk.snapshots := by
  unfold pruneStep at hf
  split at hf
  · rw [← (Prod.mk.inj hf).1]
    exact ⟨rfl, fun q hq => hq⟩
  · rename_i cur v todo counter earliest
    by_cases hk : cur ≤ v ∨ 0 < counter
    · rw [if_pos hk] at hf
      rw [← (Prod.mk.inj hf).1]
      exact ⟨rfl, fun q hq => hq⟩
    · rw [if_neg hk] at hf
      rw [← (Prod.mk.inj hf).1]
      split_ifs
      · exact ⟨rfl, fun q hq => List.mem_of_mem_filter hq⟩
      · exact ⟨rfl, fun q hq => hq⟩
  · simp only at hf
    split at hf <;> rw [← (Prod.mk.inj hf).1]
    · exact ⟨rfl, fun q hq => hq⟩
    · rename_i e _
      refine ⟨?_, fun q hq => hq⟩
      rcases ht : W.truncateFront disk.wal (walIndex (next e) iv) with _ | w
      · rfl
      · exact WalLog.lastIndex_truncateFront ht

/-! ### The log -/

/-- No event takes entries off the end of the log. -/
theorem lastIndex_le_of_step {s : World N W} {e : Event N} {o : Reply N}
    (h : step sha256 opts s e = some (s', o)) : W.lastIndex s.disk.wal ≤ W.lastIndex s'.disk.wal := by
  cases fires_of_step h with
  | load hl =>
    obtain ⟨dir, t₀, t, d, -, -, -, -, rfl⟩ := load_eq_some hl
    exact le_rfl
  | @kill disk db n =>
    simp only
    rcases hw : writeEntries (db.batch.take n) disk.wal with _ | wal
    · exact le_rfl
    · exact WalLog.lastIndex_writeBatch hw
  | write hf =>
    rcases write_eq_some hf with ⟨wal, hw, rfl⟩ | ⟨-, rfl⟩
    · exact WalLog.lastIndex_writeBatch hw
    · exact le_rfl
  | rewrite hr hf => exact (congrArg W.lastIndex (disk_rewriteStep hf).1).ge
  | prune hp hf => exact (disk_pruneStep hf).1.ge
  | setInitialVersion hp hf =>
    obtain ⟨t, -, rfl⟩ := setInitialVersion_eq_some hf
    exact le_rfl
  | commit hp hf =>
    obtain ⟨-, ⟨-, rfl⟩ | ⟨-, wal, hw, rfl⟩⟩ := commit_eq_some hf
    · exact le_rfl
    · exact WalLog.lastIndex_writeBatch hw
  | receive | rewriteFail | finish | await | switch | applyUpgrades | applyChangeSets | close => exact le_rfl

end IavlStore.Db
