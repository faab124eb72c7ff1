import IavlStore.Db.Rollback
import IavlStore.Rootmulti.Replica

/-! Recovery equals execution. A store that is closed after a commit and loaded again is in
the same state, and the same further blocks give the same results as if it had not been
closed. This holds for runs with any switches to rewritten snapshots, as long as the
initial version is not changed once trees have one: the snapshot of the empty database is
written with the new initial version, but the trees keep the one they have. -/

namespace IavlStore.Rootmulti

open IavlStore.Base.Encoding IavlStore.Base.SortedPairs IavlStore.Base.Journal IavlStore.Base.Runs
open IavlStore.Multi IavlStore.Db

variable {N : Type} [LinearOrder N] {W : WalLog (WALEntry N)} {sha256 : Bytes → Bytes} {opts : Options}

/-! ### One call -/

/-- The initial version is not changed once trees have one, the store is closed only after a
commit, and version numbers do not overflow. -/
def Allowed (s : Store N W) (e : Call N × List (Event N)) : Prop :=
  ∀ db ∈ s.world.db, match e.1 with
    | .setInitialVersion v => db.working.mtree.trees = [] ∨ db.working.mtree.initialVersion ≤ 1 ∨
        v = db.working.mtree.initialVersion
    | .commit => nextVersion db.working.mtree.version db.working.mtree.initialVersion ≤ maxInt64
    | .close => db.working.pendingLog = emptyEntry
    | _ => True

instance (s : Store N W) (e : Call N × List (Event N)) : Decidable (Allowed s e) :=
  match e with
  | (.setInitialVersion _, _) => inferInstanceAs (Decidable (∀ db ∈ s.world.db, _ ∨ _ ∨ _))
  | (.commit, _) => inferInstanceAs (Decidable (∀ db ∈ s.world.db, _ ≤ _))
  | (.close, _) => inferInstanceAs (Decidable (∀ db ∈ s.world.db, db.working.pendingLog = emptyEntry))
  | (.load _ _, _) | (.set _ _ _, _) | (.delete _ _, _) | (.workingHash, _) => .isTrue fun _ _ => trivial

variable {r : Replica N} {s s' : Store N W} {v₀ iv c : ℕ} {h : History (MultiTree N) (WALEntry N)}
  {disk : Disk N W} {db : DB N} {world world' : World N W} {stores : List (N × ChangeSet)} {es : List (Event N)}

theorem Tracks.background (hk : Kept v₀ iv h c opts sha256 world) (hdb : world.db = some db) (hm : Mounted stores db)
    (hb : background sha256 opts world es = some world') :
    Tracks opts sha256 ⟨db.working.mtree, stores⟩ ⟨world', stores⟩ := by
  obtain ⟨c', db', hdb', hk', hw, hidle⟩ := hk.background hdb hb
  refine ⟨v₀, iv, h, c', hk', fun hn => by simp [hdb'] at hn, fun d hd => ?_⟩
  obtain rfl := Option.some.inj (hdb'.symm.trans hd)
  exact ⟨⟨hidle hm.idle, hm.nodup, hw ▸ hm.names, hw ▸ hm.pending⟩, by rw [hw]⟩

/-- A store that is closed when nothing is pending keeps its trees. -/
theorem Kept.close (hk : Kept v₀ iv h c opts sha256 ⟨disk, some db⟩) {o : Reply N}
    (hb : Rootmulti.background sha256 opts ⟨disk, some db⟩ es = some world)
    (hc : Db.step sha256 opts world .close = some (world', o)) (hempty : db.working.pendingLog = emptyEntry) :
    ∃ c', Kept v₀ iv h c' opts sha256 world' ∧ db.working.mtree = h.last := by
  obtain ⟨c', db', hdb', hk', hw, -⟩ := hk.background rfl hb
  refine ⟨c', ?_, congrArg Working.mtree (hk.inv.db_inv.working.eq_last hempty)⟩
  have hsnap := hk'.snapshots.step hk'.inv hc trivial
  cases fires_of_step hc with
  | close hp hchan hbatch hdone => exact ⟨hk'.inv.close hchan hbatch, hsnap, fun _ _ hd => by cases hd⟩

/-- An allowed call has the answer of the replica. -/
theorem Tracks.step (ht : Tracks opts sha256 r s) {e : Call N × List (Event N)} {o : Option (CommitInfo N)}
    (ha : Allowed s e) (hs : step sha256 opts s e = some (s', o)) :
    o = (Replica.step sha256 r e.1).2 ∧ Tracks opts sha256 (Replica.step sha256 r e.1).1 s' := by
  obtain ⟨v₀, iv, h, c, hk, hclosed, hopen⟩ := ht
  cases answers_of_step sha256 opts hs with
  | load hl hb =>
    obtain ⟨db, hdb, hk', hm, hr⟩ := hk.load (.inl rfl) hl
    refine ⟨rfl, ?_⟩
    have ht := Tracks.background hk' hdb hm hb
    rw [hr, ← hclosed rfl] at ht
    exact ht
  | setInitialVersion hv hb =>
    obtain ⟨hm, rfl⟩ := hopen _ rfl
    obtain ⟨db', hdb', hk', hm', hmtree⟩ := hk.setInitialVersion hm (ha _ rfl) hv
    have ht := Tracks.background hk' hdb' hm' hb
    rw [hmtree] at ht
    exact ⟨rfl, ht⟩
  | set hname hb =>
    obtain ⟨hm, rfl⟩ := hopen _ rfl
    refine ⟨rfl, Tracks.background hk rfl ⟨hm.idle, ?_, ?_, hm.pending⟩ hb⟩ <;> rw [map_fst_addPair]
    · exact hm.nodup
    · exact hm.names
  | delete hname hb =>
    obtain ⟨hm, rfl⟩ := hopen _ rfl
    refine ⟨rfl, Tracks.background hk rfl ⟨hm.idle, ?_, ?_, hm.pending⟩ hb⟩ <;> rw [map_fst_addPair]
    · exact hm.nodup
    · exact hm.names
  | workingHash hf hb =>
    obtain ⟨hm, rfl⟩ := hopen _ rfl
    obtain ⟨hk', hm', hr, -, -⟩ := hk.flush hm hf
    have ht := Tracks.background hk' rfl hm' hb
    simp only [Replica.step, ← hr]
    exact ⟨trivial, ht⟩
  | commit hf hc hb hdb hidle =>
    obtain ⟨hm, rfl⟩ := hopen _ rfl
    obtain ⟨hk', hm', hr, hver, hiv⟩ := hk.flush hm hf
    obtain ⟨hsave, hnames, hk₁, db₁, hdb₁, hw₁⟩ := hk'.commit hc (by rw [hver, hiv]; exact ha _ rfl)
    obtain ⟨c', db', hdb', hk₂, hw₂, -⟩ := hk₁.background hdb₁ hb
    obtain rfl := Option.some.inj (hdb.symm.trans hdb')
    rw [hw₁] at hw₂
    simp only [Replica.step, ← hr, hsave, Except.toOption, Option.getD_some, hw₂]
    refine ⟨trivial, v₀, iv, _, c', hk₂, fun hn => by simp [hdb] at hn, fun d hd => ?_⟩
    obtain rfl := Option.some.inj (hdb.symm.trans hd)
    refine ⟨⟨hidle, hm'.nodup, ?_, ?_⟩, by rw [hw₂]⟩
    · rw [hw₂, hnames]
      exact hm'.names
    · simp [hw₂, emptyEntry]
  | close hb hc =>
    obtain ⟨hm, rfl⟩ := hopen _ rfl
    obtain ⟨c', hk', hlast⟩ := hk.close hb hc (ha _ rfl)
    exact ⟨rfl, v₀, iv, h, c', hk', fun _ => hlast, fun d hd => by simp [db_of_close hc] at hd⟩

/-- Calls on a fresh directory have the answers of the replica. -/
theorem Tracks.exec (ht : Tracks opts sha256 r s) {es : List (Call N × List (Event N))}
    {os : List (Option (CommitInfo N))} (ha : Along (Rootmulti.step sha256 opts) Allowed s es)
    (he : Base.Runs.exec (Rootmulti.step sha256 opts) s es = some (s', os)) :
    os = (total (Replica.step sha256) r (es.map Prod.fst)).2 ∧
      Tracks opts sha256 (total (Replica.step sha256) r (es.map Prod.fst)).1 s' := by
  rw [← total_map (Replica.step sha256) Prod.fst]
  exact exec_simulates (fun r e => Replica.step sha256 r e.1) (fun _ _ _ _ _ ht ha hs => ht.step ha hs) ht ha he

/-! ### Reloading -/

/-- Without upgrades a store that was closed after a commit is loaded as it was. -/
theorem Kept.reload (hk : Kept v₀ iv h c opts sha256 ⟨disk, none⟩) (hpos : 0 < h.last.version) {mounts : List N}
    (hnd : mounts.Nodup) (hnames : ∀ name ∈ mounts, name ∈ h.last.names) :
    ∃ db, Rootmulti.load sha256 0 mounts .none disk = some ⟨⟨{ disk with currentTmp := none }, some db⟩, mounts.map (·, [])⟩ ∧
      db.working = ⟨h.last, emptyEntry⟩ ∧ db.rewrite = none := by
  obtain ⟨s, hl, hw⟩ := hk.inv.load_last rfl hpos (sortNames mounts)
  obtain ⟨dir, -, -, d, -, -, -, -, rfl⟩ := Db.load_eq_some hl
  obtain rfl : d = ⟨h.last, emptyEntry⟩ := Option.some.inj hw
  refine ⟨newDB ⟨h.last, emptyEntry⟩ dir.commitInfo.version, ?_, rfl, rfl⟩
  rw [Rootmulti.load, if_pos hnd, loadVersion_zero, hl]
  exact if_pos hnames

/-! ### Continuing -/

/-- Two open stores with the same block. The second has no rewrite that could be switched in. -/
structure Alike (s s' : Store N W) : Prop where
  stores : s'.stores = s.stores
  block : ∃ db db', s.world.db = some db ∧ s'.world.db = some db' ∧ db'.working = db.working ∧
    0 < db.working.mtree.version ∧ (db'.rewrite = none ∨ ∃ t, db'.rewrite = some (.copied t))

omit [LinearOrder N] in
theorem Alike.allowed (hal : Alike s s') {c : Call N} {es es' : List (Event N)} (ha : Allowed s (c, es)) :
    Allowed s' (c, es') := by
  obtain ⟨db, db', hdb, hdb', hw, -⟩ := hal.block
  intro d hd
  obtain rfl := Option.some.inj (hdb'.symm.trans hd)
  rw [hw]
  exact ha db hdb

/-- The entry of a commit has the next index of the log. -/
theorem Kept.exists_commit (hk : Kept v₀ iv h c opts sha256 ⟨disk, some db⟩) {t : MultiTree N}
    (hs : db.working.mtree.saveVersion sha256 true = .ok t) :
    ∃ disk' db', Db.commit sha256 opts disk db = some (⟨disk', some db'⟩, t) ∧ db'.working = ⟨t, emptyEntry⟩ ∧
      db'.phase = .checking t.version ∧ db'.rewrite = db.rewrite ∧ db'.writerFailed = false := by
  have hn := hk.inv.numbered
  have hdb := hk.inv.db_inv
  obtain ⟨-, -, hver, hiv⟩ := hdb.working.fields hn
  obtain ⟨htv, htiv⟩ := MultiTree.saveVersion_fields hs
  rw [hver, hiv, nextVersion_versionAt hn.base (hn.versionAt_le le_rfl)] at htv
  rw [hiv] at htiv
  simp only [Db.commit, hs, Except.toOption, Option.bind_eq_bind, Option.bind_some]
  split_ifs with hasync
  · exact ⟨_, _, rfl, rfl, rfl, rfl, hdb.writer⟩
  · have hempty := hdb.sync (by simpa using hasync)
    have hlast := (hempty ▸ hdb.queue).lastIndex hk.inv.disk.holds
    have hidx : walIndex t.version t.initialVersion = W.lastIndex disk.wal + 1 := by
      rw [htv, htiv, walIndex_versionAt hn.iv_le (hn.versionAt_succ_le le_rfl), hlast]
    obtain ⟨wal, hwal, -⟩ := writeEntries_eq (W := W) (w := disk.wal)
      (b := [(walIndex t.version t.initialVersion, db.working.pendingLog)]) (by simp [hidx])
    simp only [hwal, Option.bind_some]
    exact ⟨_, _, rfl, rfl, rfl, rfl, hdb.writer⟩

variable (sha256 opts disk) in
/-- Without a rewritten multitree a commit returns at once. -/
theorem background_finish {v : ℕ} (hp : db.phase = .checking v)
    (hr : db.rewrite = none ∨ ∃ t, db.rewrite = some (.copied t)) (hw : db.writerFailed = false) :
    ∃ db', background sha256 opts ⟨disk, some db⟩ [.finish] = some ⟨disk, some db'⟩ ∧
      db'.working = db.working ∧ db'.phase = .idle ∧
      (db'.rewrite = none ∨ ∃ t, db'.rewrite = some (.copied t)) := by
  have hf : finish opts db = some (rewriteIfApplicable opts v { db with phase := .idle }, true) := by
    rcases hr with hr | ⟨t, hr⟩ <;> simp [finish, hp, hr, endCommit, hw]
  refine ⟨rewriteIfApplicable opts v { db with phase := .idle }, ?_, ?_⟩
  · simp [background, isBackground, Db.step, hf]
  · unfold rewriteIfApplicable
    split_ifs
    · exact ⟨rfl, rfl, .inr ⟨_, rfl⟩⟩
    · exact ⟨rfl, rfl, hr⟩

theorem flush_congr {db₁ db' : DB N} (hw : db'.working = db.working) (hf : flush db stores = some db₁) :
    flush db' stores = some { db' with working := db₁.working } := by
  unfold flush at hf ⊢
  rw [hw]
  rcases ha : db.working.applyChangeSets (popChangeSets stores) with ⟨working, _ | err⟩ <;>
    simp only [ha, reduceCtorEq] at hf ⊢
  obtain rfl := Option.some.inj hf
  rfl

/-- A call of a block succeeds in both stores, with as little background work as possible in
the second. -/
theorem Alike.step {r' : Replica N} (ht : Tracks opts sha256 r s) (ht' : Tracks opts sha256 r' s')
    (hal : Alike s s') {e : Call N × List (Event N)} {t : Store N W} {o : Option (CommitInfo N)}
    (ha : Allowed s e) (hne : e.1 ≠ .close) (hs : step sha256 opts s e = some (t, o)) :
    ∃ es' t' o', Rootmulti.step sha256 opts s' (e.1, es') = some (t', o') ∧ Alike t t' := by
  obtain ⟨v₀, iv, h, c, hk, -, hopen⟩ := ht
  obtain ⟨v₀', iv', h', c', hk', -, hopen'⟩ := ht'
  obtain ⟨⟨disk', _⟩, stores'⟩ := s'
  obtain ⟨hstores, db, db', hdb, hdb', hw, hpos, hrew⟩ := hal
  obtain rfl : _ = some db' := hdb'
  obtain ⟨hm', -⟩ := hopen' _ rfl
  cases answers_of_step sha256 opts hs with
  | load hl hb => cases hdb
  | close hb hc => exact absurd rfl hne
  | setInitialVersion hv hb =>
    obtain rfl := Option.some.inj hdb
    obtain ⟨t', hset, -⟩ := setInitialVersion_eq_some hv
    have h0 := (MultiTree.setInitialVersion_eq_ok hset).2.1
    omega
  | @set _ _ stores name key value es world hname hb =>
    obtain rfl : stores' = stores := hstores
    obtain rfl := Option.some.inj hdb
    obtain ⟨-, db₁, hdb₁, -, hw₁, -⟩ := hk.background rfl hb
    refine ⟨[], ⟨⟨disk', some db'⟩, addPair name ⟨false, key, value⟩ stores'⟩, none, ?_, rfl, db₁, db', hdb₁, rfl,
      hw.trans hw₁.symm, hw₁ ▸ hpos, hrew⟩
    simp [Rootmulti.step, call, hname, Rootmulti.background]
  | @delete _ _ stores name key es world hname hb =>
    obtain rfl : stores' = stores := hstores
    obtain rfl := Option.some.inj hdb
    obtain ⟨-, db₁, hdb₁, -, hw₁, -⟩ := hk.background rfl hb
    refine ⟨[], ⟨⟨disk', some db'⟩, addPair name ⟨true, key, none⟩ stores'⟩, none, ?_, rfl, db₁, db', hdb₁, rfl,
      hw.trans hw₁.symm, hw₁ ▸ hpos, hrew⟩
    simp [Rootmulti.step, call, hname, Rootmulti.background]
  | @workingHash _ _ db₀ stores es world hf hb =>
    obtain rfl : stores' = stores := hstores
    obtain rfl := Option.some.inj hdb
    obtain ⟨hk₀, -, -, hver, -⟩ := hk.flush (hopen _ rfl).1 hf
    obtain ⟨-, db₁, hdb₁, -, hw₁, -⟩ := hk₀.background rfl hb
    refine ⟨[], ⟨⟨disk', some { db' with working := db₀.working }⟩, clearStores stores'⟩,
      some (db₀.working.mtree.workingCommitInfo sha256), ?_, rfl, db₁, _, hdb₁, rfl, hw₁.symm, ?_, hrew⟩
    · simp [Rootmulti.step, call, flush_congr hw hf, Rootmulti.background]
    · rw [hw₁, hver]
      exact hpos
  | @commit _ _ db₀ db₂ stores es world₀ world tree hf hc hb hdb₂ hidle =>
    obtain rfl : stores' = stores := hstores
    obtain rfl := Option.some.inj hdb
    obtain ⟨hk₀, -, -, hver, hiv⟩ := hk.flush (hopen _ rfl).1 hf
    obtain ⟨hsave, -, hk₁, db₁, hdb₁, hw₁⟩ := hk₀.commit hc (by rw [hver, hiv]; exact ha _ rfl)
    obtain ⟨-, db₂', hdb₂', -, hw₂, -⟩ := hk₁.background hdb₁ hb
    obtain rfl := Option.some.inj (hdb₂.symm.trans hdb₂')
    rw [hw₁] at hw₂
    have hf' := flush_congr hw hf
    obtain ⟨hk₀', -, -, -, -⟩ := hk'.flush hm' hf'
    obtain ⟨disk₁, db₁', hc', hw₁', hp, hr, hwf⟩ := hk₀'.exists_commit hsave
    obtain ⟨db₃, hb', hw₃, hidle', hr'⟩ := background_finish sha256 opts disk₁ hp
      (hr ▸ hrew) hwf
    refine ⟨[.finish], ⟨⟨disk₁, some db₃⟩, clearStores stores'⟩, some db₃.working.mtree.lastCommitInfo, ?_, rfl,
      db₂, db₃, hdb₂, rfl, ?_, ?_, hr'⟩
    · simp [Rootmulti.step, call, hf', hc', hb', isIdle_of_idle hidle' disk₁]
    · rw [hw₃, hw₁', hw₂]
    · have hv := hk₁.inv.numbered.version _ le_rfl
      rw [← History.last, History.last_push, History.length_log_push, versionAt_succ] at hv
      simp only [hw₂]
      omega

/-- Blocks that one store has taken can be taken by the other one, with the same results. -/
theorem Alike.exec {fs : List (Call N × List (Event N))} {t : Store N W} {os : List (Option (CommitInfo N))}
    (ht : Tracks opts sha256 r s) (ht' : Tracks opts sha256 r s') (hal : Alike s s')
    (hblocks : ∀ e ∈ fs, e.1 ≠ .close) (ha : Along (Rootmulti.step sha256 opts) Allowed s fs)
    (he : Base.Runs.exec (Rootmulti.step sha256 opts) s fs = some (t, os)) :
    ∃ fs' t', fs'.map Prod.fst = fs.map Prod.fst ∧ Along (Rootmulti.step sha256 opts) Allowed s' fs' ∧
      Base.Runs.exec (Rootmulti.step sha256 opts) s' fs' = some (t', os) := by
  induction fs generalizing s s' r os with
  | nil =>
    cases he
    exact ⟨[], s', rfl, trivial, rfl⟩
  | cons e fs ih =>
    obtain ⟨s₁, o, os', hs, hes, rfl⟩ := exec_cons he
    obtain ⟨es', s₁', o', hs', hal₁⟩ := hal.step ht ht' ha.1 (hblocks e (by simp)) hs
    have ha' : Allowed s' (e.1, es') := hal.allowed ha.1
    obtain ⟨rfl, ht₁⟩ := ht.step ha.1 hs
    obtain ⟨rfl, ht₁'⟩ := ht'.step ha' hs'
    obtain ⟨fs', t', hcalls, halong, hexec⟩ := ih ht₁ ht₁' hal₁ (fun e he => hblocks e (by simp [he]))
      (ha.2 _ hs) hes
    refine ⟨(e.1, es') :: fs', t', by simp [hcalls], ⟨ha', fun q hq => ?_⟩, by simp [Base.Runs.exec, hs', hexec]⟩
    obtain rfl := Option.some.inj (hs'.symm.trans hq)
    exact halong

/-! ### Recovery equals execution -/

theorem Origin.tracks {base : MultiTree N} (hb : Origin base) :
    Tracks opts sha256 ⟨base, []⟩ (⟨⟨freshDisk W base, none⟩, []⟩ : Store N W) :=
  ⟨_, _, _, _, Origin.kept hb, fun _ => rfl, fun _ hdb => by cases hdb⟩

/-- A commit leaves nothing pending. -/
theorem Tracks.committed (ht : Tracks opts sha256 r s) {bg : List (Event N)} {info : Option (CommitInfo N)}
    (ha : Allowed s (.commit, bg)) (hs : Rootmulti.step sha256 opts s (.commit, bg) = some (s', info)) :
    ∃ db t, s'.world.db = some db ∧ db.working = ⟨t, emptyEntry⟩ ∧ 0 < t.version ∧ ∀ w ∈ s'.stores, w.2 = [] := by
  obtain ⟨v₀, iv, h, c, hk, -, hopen⟩ := ht
  cases answers_of_step sha256 opts hs with
  | @commit _ _ _ _ stores _ _ _ t hf hc hb hdb hidle =>
    obtain ⟨hk', -, -, hver, hiv⟩ := hk.flush (hopen _ rfl).1 hf
    obtain ⟨-, -, hk₁, db₁, hdb₁, hw₁⟩ := hk'.commit hc (by rw [hver, hiv]; exact ha _ rfl)
    obtain ⟨-, db₂, hdb₂, -, hw₂, -⟩ := hk₁.background hdb₁ hb
    have hv := hk₁.inv.numbered.version _ le_rfl
    rw [← History.last, History.last_push, History.length_log_push, versionAt_succ] at hv
    refine ⟨db₂, t, hdb₂, hw₂.trans hw₁, by omega, fun w hw => ?_⟩
    obtain ⟨w', -, rfl⟩ := List.mem_map.mp hw
    rfl

omit [LinearOrder N] in
theorem map_fst_of_cleared (hempty : ∀ w ∈ stores, w.2 = []) :
    (stores.map Prod.fst).map (fun name => (name, ([] : ChangeSet))) = stores := by
  rw [List.map_map]
  refine (List.map_congr_left fun w hw => ?_).trans (List.map_id stores)
  exact Prod.ext rfl (hempty w hw).symm

/-- A store that is closed when nothing is pending is reloaded with the same block. -/
theorem Tracks.reload (ht : Tracks opts sha256 r s) (hdb : s.world.db = some db)
    (hw : db.working.pendingLog = emptyEntry) (hpos : 0 < db.working.mtree.version)
    (hempty : ∀ w ∈ s.stores, w.2 = []) {closed : Store N W} {bg : List (Event N)} {o : Option (CommitInfo N)}
    (hs : Rootmulti.step sha256 opts s (.close, bg) = some (closed, o)) :
    ∃ reloaded db', load sha256 0 (s.stores.map Prod.fst) .none closed.world.disk = some reloaded ∧
      reloaded.stores = s.stores ∧ reloaded.world.db = some db' ∧ db'.working = db.working ∧
      Tracks opts sha256 r reloaded ∧ Alike s reloaded := by
  obtain ⟨v₀, iv, h, c, hk, -, hopen⟩ := ht
  obtain ⟨hm, rfl⟩ := hopen db hdb
  cases answers_of_step sha256 opts hs with
  | @close disk db stores _ world world' o' hb hc =>
    obtain rfl := Option.some.inj hdb
    obtain ⟨c', hk', hlast⟩ := hk.close hb hc hw
    obtain ⟨disk', _⟩ := world'
    obtain rfl : _ = none := db_of_close hc
    rw [hlast] at hpos
    obtain ⟨db', hl, hw', hr⟩ := hk'.reload hpos hm.nodup fun name hn => hlast ▸ hm.names name hn
    have hstores : (stores.map Prod.fst).map (fun name => (name, ([] : ChangeSet))) = stores :=
      map_fst_of_cleared hempty
    have hsame : db'.working = db.working :=
      hw'.trans (hk.inv.db_inv.working.eq_last hw).symm
    obtain ⟨db₁, hdb₁, hkr, hmr, -⟩ := hk'.load (.inl rfl) hl
    obtain rfl := Option.some.inj hdb₁
    refine ⟨_, db', hl, hstores, rfl, hsame, ⟨v₀, iv, h, c', hkr, (fun hn => by cases hn), fun d hd => ?_⟩,
      hstores, db, db', rfl, rfl, hsame, hlast ▸ hpos, .inl hr⟩
    obtain rfl := Option.some.inj hd
    exact ⟨hmr, by rw [hsame]; exact congrArg _ hstores.symm⟩

/-- In a run whose calls are allowed, a store that is closed after a commit can be loaded, with
the trees, the versions and the commit info it had. Further blocks that the store could take had
it not been closed can be taken, and they give the same results and the same trees. -/
theorem recovery_equals_execution {base : MultiTree N} (hb : Origin base) {es : List (Call N × List (Event N))}
    {os : List (Option (CommitInfo N))} {s₀ closed : Store N W} {info o : Option (CommitInfo N)}
    {bg bg' : List (Event N)}
    (ha : Along (step sha256 opts) Allowed ⟨⟨freshDisk W base, none⟩, []⟩ es)
    (he : exec (step sha256 opts) ⟨⟨freshDisk W base, none⟩, []⟩ es = some (s₀, os))
    (hall : Allowed s₀ (.commit, bg)) (hcommit : step sha256 opts s₀ (.commit, bg) = some (s, info))
    (hclose : step sha256 opts s (.close, bg') = some (closed, o)) :
    ∃ reloaded, load sha256 0 (s.stores.map Prod.fst) .none closed.world.disk = some reloaded ∧
      reloaded.stores = s.stores ∧
      (reloaded.world.db.map fun db => db.working) = (s.world.db.map fun db => db.working) ∧
      ∀ fs t os', Along (step sha256 opts) Allowed s fs → exec (step sha256 opts) s fs = some (t, os') →
        ((∀ e ∈ fs, e.1 ≠ .close) → ∃ fs' t', fs'.map Prod.fst = fs.map Prod.fst ∧
          Along (step sha256 opts) Allowed reloaded fs' ∧ exec (step sha256 opts) reloaded fs' = some (t', os')) ∧
        ∀ fs' t' os'', fs'.map Prod.fst = fs.map Prod.fst → Along (step sha256 opts) Allowed reloaded fs' →
          exec (step sha256 opts) reloaded fs' = some (t', os'') →
          os'' = os' ∧ ∀ db ∈ t.world.db, ∀ db' ∈ t'.world.db, db'.working.mtree = db.working.mtree := by
  obtain ⟨-, ht₀⟩ := (Origin.tracks hb).exec ha he
  obtain ⟨db, tree, hdb, hw, hpos, hcleared⟩ := ht₀.committed hall hcommit
  obtain ⟨-, ht⟩ := ht₀.step hall hcommit
  obtain ⟨reloaded, db', hl, hstores, hdb', hw', ht', hal⟩ := ht.reload hdb (by rw [hw]) (by rw [hw]; exact hpos)
    hcleared hclose
  refine ⟨reloaded, hl, hstores, by rw [hdb, hdb', Option.map_some, Option.map_some, hw'], ?_⟩
  intro fs t os' hfs hes
  refine ⟨fun hblocks => hal.exec ht ht' hblocks hfs hes, fun fs' t' os'' hcalls hfs' hes' => ?_⟩
  -- both runs have the answers of the replica
  obtain ⟨rfl, hrep⟩ := ht.exec hfs hes
  obtain ⟨rfl, hrep'⟩ := ht'.exec hfs' hes'
  rw [hcalls] at hrep' ⊢
  obtain ⟨-, -, -, -, -, -, hopen⟩ := hrep
  obtain ⟨-, -, -, -, -, -, hopen'⟩ := hrep'
  refine ⟨rfl, fun d hd d' hd' => ?_⟩
  exact congrArg Replica.mtree ((hopen' d' hd').2.symm.trans (hopen d hd).2)

/-! ### Two runs -/

def runCalls (opts : Options) (es : List (Call ℕ × List (Event ℕ))) : Option (Store ℕ (listLog (WALEntry ℕ))) :=
  (exec (step (fun _ => []) opts) ⟨⟨freshDisk _ (MultiTree.newEmptyMultiTree 0), none⟩, []⟩ es).map Prod.fst

/-- A first block at version five is committed and rewritten, and a second one is begun. -/
def rewrittenBlock : List (Call ℕ × List (Event ℕ)) :=
  [(.load [0] .none, []), (.setInitialVersion 5, []), (.set 0 [0] (some [1]), []), (.workingHash, []),
    (.commit, [.finish, .receive 0, .write] ++ List.replicate 6 .rewrite), (.set 0 [0] (some [2]), [])]

/-- The second commit switches to the rewritten multitree. -/
def switchingCommit : Call ℕ × List (Event ℕ) := (.commit, [.await, .receive 0, .write, .switch])

/-- After a switch the store is closed and reloaded at version six. -/
theorem recovery_after_switch :
    ∃ s closed reloaded, runCalls ⟨1, 0, true⟩ (rewrittenBlock ++ [switchingCommit]) = some s ∧
      step (fun _ => []) ⟨1, 0, true⟩ s (.close, [.rewriteFail]) = some (closed, none) ∧
      load (fun _ => []) 0 [0] .none closed.world.disk = some reloaded ∧
      (reloaded.world.db.map fun db => db.working) = (s.world.db.map fun db => db.working) ∧
      (s.world.db.map fun db => db.working.mtree.version) = some 6 := by
  have ha : Along (step (fun _ => []) ⟨1, 0, true⟩) Allowed
    (⟨⟨freshDisk (listLog (WALEntry ℕ)) (MultiTree.newEmptyMultiTree 0), none⟩, []⟩ : Store ℕ _)
    rewrittenBlock := by decide
  have hall : ∀ s ∈ runCalls ⟨1, 0, true⟩ rewrittenBlock, Allowed s switchingCommit := by decide
  obtain ⟨reloaded, hl, -, hw, -⟩ := recovery_equals_execution (Origin.empty (Nat.zero_le _)) ha rfl (hall _ rfl)
    rfl (show step (fun _ => []) ⟨1, 0, true⟩ _ (.close, [.rewriteFail]) = some (_, none) from rfl)
  exact ⟨_, _, reloaded, rfl, rfl, hl, hw, rfl⟩

/-- The initial version is set to a hundred and then to five. The tree is committed at version
a hundred, and at version five once the log is replayed. -/
def initialVersionTwice : List (Call ℕ × List (Event ℕ)) :=
  [(.load [0] .none, []), (.setInitialVersion 100, []), (.setInitialVersion 5, []), (.set 0 [0] (some [1]), []),
    (.commit, [.finish])]

def lastStoreInfos (s : Store ℕ (listLog (WALEntry ℕ))) : Option (List (StoreInfo ℕ)) :=
  s.world.db.map fun db => db.working.mtree.lastCommitInfo.storeInfos

theorem recovery_after_initial_version_twice :
    (runCalls ⟨10, 0, false⟩ initialVersionTwice).bind lastStoreInfos = some [⟨0, 100, []⟩] ∧
      (runCalls ⟨10, 0, false⟩ (initialVersionTwice ++ [(.close, []), (.load [0] .none, [])])).bind lastStoreInfos =
        some [⟨0, 5, []⟩] :=
  ⟨rfl, rfl⟩

end IavlStore.Rootmulti
