import IavlStore.Db.VersionNumbers

/-! The last index of the log and the version in use. As long as every load reaches the end
of the log, a commit whose entries have been written finds its own version there. After a
load of an older version the entries of new commits are skipped, and a commit waits for
ever. -/

namespace IavlStore.Db

open IavlStore.Base.Encoding IavlStore.Base.SortedPairs IavlStore.Base.Runs IavlStore.Multi

variable {N : Type} [LinearOrder N] {W : WalLog (WALEntry N)} {sha256 : Bytes → Bytes} {opts : Options}
  {v₀ iv n : ℕ} {t : MultiTree N}

/-! ### The machine with loads of any version -/

inductive VersionEvent (N : Type) where
  | event (e : Event N)
  | loadVersion (target : ℕ) (initialStores : List N)

def versionStep (sha256 : Bytes → Bytes) (opts : Options) (s : World N W) :
    VersionEvent N → Option (World N W × Reply N)
  | .event e => step sha256 opts s e
  | .loadVersion target stores =>
    match s.db with
    | none => do some (← loadVersion sha256 target stores s.disk, .nothing)
    | some _ => none

/-- A load asks for the latest version or for one that is not before the last one in the
log. Version numbers do not overflow. -/
def Continues (s : World N W) : VersionEvent N → Prop
  | .loadVersion target _ => target = 0 ∨ W.lastIndex s.disk.wal = 0 ∨
    ∀ p ∈ s.disk.snapshots, walVersion (W.lastIndex s.disk.wal) p.2.initialVersion ≤ target
  | .event (.setInitialVersion _) => False
  | .event (.kill _) => False
  | .event .commit => ∀ db ∈ s.db,
    nextVersion db.working.mtree.version db.working.mtree.initialVersion ≤ maxInt64
  | .event _ => True

instance (s : World N W) : (e : VersionEvent N) → Decidable (Continues s e)
  | .loadVersion _ _ => inferInstanceAs (Decidable (_ ∨ _ ∨ ∀ p ∈ s.disk.snapshots, _ ≤ _))
  | .event (.setInitialVersion _) => .isFalse id
  | .event (.kill _) => .isFalse id
  | .event .commit => inferInstanceAs (Decidable (∀ db ∈ s.db, _ ≤ _))
  | .event (.load _) | .event (.applyUpgrades _) | .event (.applyChangeSets _) | .event .finish | .event .await
  | .event .switch | .event (.receive _) | .event .write | .event .rewrite | .event .rewriteFail
  | .event (.prune _) | .event .close => .isTrue trivial

/-- The initial version is not set, nothing is killed, and version numbers do not overflow. -/
def Bounded (s : World N W) : VersionEvent N → Prop
  | .event (.setInitialVersion _) => False
  | .event (.kill _) => False
  | .event .commit => ∀ db ∈ s.db,
    nextVersion db.working.mtree.version db.working.mtree.initialVersion ≤ maxInt64
  | _ => True

omit [LinearOrder N] in
theorem Continues.bounded {s : World N W} {e : VersionEvent N} (h : Continues s e) : Bounded s e := by
  cases e with
  | loadVersion => trivial
  | event e =>
    cases e with
    | setInitialVersion | kill | commit => exact h
    | load | applyUpgrades | applyChangeSets | finish | await | switch | receive | write | rewrite | rewriteFail
    | prune | close => trivial

/-- The version a commit under way has obtained. -/
def Phase.version : Phase N → Option ℕ
  | .idle => none
  | .checking v => some v
  | .waiting v _ _ => some v

/-! ### The numbers of a state -/

section Numbers
variable (v₀ iv n k : ℕ)

/-- A commit under way has obtained the version in use, and nothing is pending. -/
def PhaseNumbers (db : DB N) : Prop :=
  (∀ v ∈ db.phase.version, 0 < k ∧ v = versionAt v₀ iv k ∧ db.working.pendingLog = emptyEntry) ∧
    ∀ v t sv, db.phase = .waiting v t sv → UpTo v₀ iv n t

/-- The version in use is the `k`-th one, and the queue holds the entries up to it that the log may
not have. Where `exact` is asked for, these are all entries that the log does not have. -/
structure DBNumbers (exact : Prop) (opts : Options) (disk : Disk N W) (db : DB N) : Prop where
  working : AtVersion v₀ iv k db.working.mtree
  snapshotVersion : W.lastIndex disk.wal = 0 → db.snapshotVersion = v₀
  queue : (db.batch ++ db.walChan).map Prod.fst =
    List.range' (k + 1 - (db.batch ++ db.walChan).length) (db.batch ++ db.walChan).length
  length : (db.batch ++ db.walChan).length ≤ k
  count : k ≤ W.lastIndex disk.wal + (db.batch ++ db.walChan).length
  exact : exact → W.lastIndex disk.wal + (db.batch ++ db.walChan).length = k
  top : n = max (W.lastIndex disk.wal) k
  sync : opts.asyncCommit = false → db.batch ++ db.walChan = []
  phase : PhaseNumbers v₀ iv n k db
  rewrite : ∀ r ∈ db.rewrite, r.All (UpTo v₀ iv n)

structure Numbers (exact : Prop) (opts : Options) (s : World N W) : Prop where
  range : InRange v₀ iv n
  dirs : ∀ p ∈ s.disk.snapshots, ∀ t, loadMultiTree p.2 = some t → UpTo v₀ iv n t
  db : ∀ db ∈ s.db, ∃ k, DBNumbers v₀ iv n k exact opts s.disk db
  closed : s.db = none → W.lastIndex s.disk.wal = n

end Numbers

/-! ### Steps -/

variable {exact : Prop} {k : ℕ} {s s' : World N W} {o : Reply N} {disk disk' : Disk N W} {db db' : DB N}

theorem Numbers.of_db (h : Numbers v₀ iv n exact opts ⟨disk, some db⟩)
    (hdb : DBNumbers v₀ iv n k exact opts disk db') : Numbers v₀ iv n exact opts ⟨disk, some db'⟩ := by
  refine ⟨h.range, h.dirs, fun d hd => ?_, fun hd => nomatch hd⟩
  obtain rfl := Option.some.inj hd
  exact ⟨k, hdb⟩

omit [LinearOrder N] in
theorem PhaseNumbers.of_idle (h : db.phase = .idle) : PhaseNumbers v₀ iv n k db := by
  simp [PhaseNumbers, h, Phase.version]

omit [LinearOrder N] in
/-- A newly opened database. -/
theorem DBNumbers.newDB {d : Working N} {sv : ℕ} (hat : AtVersion v₀ iv k d.mtree) (hk : k ≤ n)
    (hsv : W.lastIndex disk.wal = 0 → sv = v₀) (hlast : W.lastIndex disk.wal = n) (hexact : exact → n = k) :
    DBNumbers v₀ iv n k exact opts disk (newDB d sv) :=
  ⟨hat, hsv, rfl, Nat.zero_le k, hk.trans hlast.ge, fun h => hlast.trans (hexact h),
    by rw [hlast, max_eq_left hk], fun _ => rfl, .of_idle rfl, fun _ hr => nomatch hr⟩

/-- A load of any version. -/
theorem Numbers.loadVersion (h : Numbers v₀ iv n exact opts ⟨disk, none⟩) {target : ℕ} {stores : List N}
    (hc : exact → Continues ⟨disk, none⟩ (.loadVersion target stores))
    (hl : loadVersion sha256 target stores disk = some s') : Numbers v₀ iv n exact opts s' := by
  obtain ⟨hmax, dir, t, working, ho, hw, rfl⟩ := loadVersion_eq_some hl
  obtain ⟨v, t₀, -, hdir, ht₀, hrep⟩ := openVersion_eq_some ho
  have hmem := pair_mem_of_lookupPair hdir
  have hlast : W.lastIndex disk.wal = n := h.closed rfl
  have hup := h.dirs _ hmem t₀ ht₀
  obtain ⟨hver, hiv⟩ := loadMultiTree_fields ht₀
  have hreach : exact → target = 0 ∨ n = 0 ∨ versionAt v₀ iv n ≤ target := by
    intro hex
    rcases n with _ | n
    · exact .inr (.inl rfl)
    refine (hc hex).imp_right (Or.imp (fun h0 => hlast.symm.trans h0) fun hall => ?_)
    have hle := hall _ hmem
    obtain ⟨i, hi, hat⟩ := hup
    rwa [hlast, ← hiv, hat.2, walVersion_eq h.range.version_le] at hle
  obtain ⟨k, hk, hat⟩ := hup.replayTo h.range hlast.le hrep
  have hexact : exact → n = k := by
    intro hex
    have hat' := hup.replayTo_end h.range hlast hmax (hreach hex) hrep
    exact versionAt_inj h.range.base (hat'.1.symm.trans hat.1)
  refine ⟨h.range, h.dirs, fun d hd => ?_, fun hd => nomatch hd⟩
  obtain rfl := Option.some.inj hd
  have hatw := atVersion_initialWorking hat stores
  rw [hw] at hatw
  refine ⟨k, .newDB hatw hk (fun h0 => ?_) hlast hexact⟩
  obtain ⟨i, hi, hat₀⟩ := hup
  have h0 : W.lastIndex disk.wal = 0 := h0
  obtain rfl : i = 0 := by omega
  exact hver.symm.trans hat₀.1

/-- A commit takes the next version and the index after the queue. -/
theorem Numbers.commit (h : Numbers v₀ iv n exact opts ⟨disk, some db⟩)
    (hmax : nextVersion db.working.mtree.version db.working.mtree.initialVersion ≤ maxInt64)
    (hc : commit sha256 opts disk db = some (s', t)) : ∃ n', Numbers v₀ iv n' exact opts s' := by
  obtain ⟨k, hdb⟩ : ∃ k, DBNumbers v₀ iv n k exact opts disk db := h.db db rfl
  have hr := h.range
  have htop := hdb.top
  have hlen := hdb.length
  have hcount := hdb.count
  obtain ⟨hs, hcases⟩ := commit_eq_some hc
  have ht := hdb.working.saveVersion hr (by omega) hs
  rw [hdb.working.1, hdb.working.2, hr.nextVersion (by omega)] at hmax
  have hidx : Multi.walIndex t.version t.initialVersion = k + 1 := by
    rw [ht.1, ht.2, hr.walIndex (by omega)]
  have hphase : ∀ db₁ : DB N, db₁.phase = .checking t.version → db₁.working.pendingLog = emptyEntry →
      PhaseNumbers v₀ iv (max n (k + 1)) (k + 1) db₁ := by
    intro db₁ hp hpend
    refine ⟨fun v hv => ?_, fun v t sv hw => nomatch hp.symm.trans hw⟩
    rw [hp] at hv
    obtain rfl := Option.some.inj hv
    exact ⟨Nat.succ_pos k, ht.1, hpend⟩
  have hrewrite : ∀ r ∈ db.rewrite, r.All (UpTo v₀ iv (max n (k + 1))) := by
    intro r hr
    have hall := hdb.rewrite r hr
    cases r <;> first | exact hall.mono (le_max_left _ _) | trivial
  have hrange : InRange v₀ iv (max n (k + 1)) := by
    refine ⟨hr.base, hr.iv_le, ?_⟩
    rcases le_total n (k + 1) with hle | hle
    · rwa [max_eq_right hle]
    · rw [max_eq_left hle]
      exact hr.version_le
  have hdirs : ∀ p ∈ disk.snapshots, ∀ t, loadMultiTree p.2 = some t → UpTo v₀ iv (max n (k + 1)) t :=
    fun p hp t ht => (h.dirs p hp t ht).mono (le_max_left _ _)
  rcases hcases with ⟨hasync, rfl⟩ | ⟨hsync, wal, hwal, rfl⟩
  · refine ⟨_, hrange, hdirs, fun d hd => ?_, fun hd => nomatch hd⟩
    obtain rfl := Option.some.inj hd
    refine ⟨k + 1, ht, hdb.snapshotVersion, ?_, ?_, ?_, fun hex => ?_, ?_,
      (fun hf => nomatch hasync.symm.trans hf), hphase _ rfl rfl, hrewrite⟩
    · have hq := consecutive_concat hdb.queue db.working.pendingLog
      rw [Nat.sub_add_cancel (by omega)] at hq
      have hsucc : (db.batch ++ db.walChan ++ [(k + 1, db.working.pendingLog)]).length =
          (db.batch ++ db.walChan).length + 1 := List.length_append
      simp only
      rw [← List.append_assoc, hidx, hq, hsucc, Nat.add_sub_add_right]
    · simp only
      rw [← List.append_assoc, List.length_append, List.length_singleton]
      omega
    · simp only
      rw [← List.append_assoc, List.length_append, List.length_singleton]
      omega
    · have := hdb.exact hex
      simp only
      rw [← List.append_assoc, List.length_append, List.length_singleton]
      omega
    · simp only
      omega
  · have hempty := hdb.sync hsync
    rw [hempty, List.length_nil, Nat.add_zero] at hcount
    obtain ⟨w', hw', -, -, hlast'⟩ := writeEntries_from (W := W) (w := disk.wal) (i := k + 1)
      (b := [(Multi.walIndex t.version t.initialVersion, db.working.pendingLog)]) (by simp [hidx]) (by omega)
    obtain rfl : w' = wal := Option.some.inj (hw'.symm.trans hwal)
    rw [List.length_singleton] at hlast'
    refine ⟨_, hrange, hdirs, fun d hd => ?_, fun hd => nomatch hd⟩
    obtain rfl := Option.some.inj hd
    refine ⟨k + 1, ht, fun h0 => ?_, ?_, ?_, ?_, fun hex => ?_, ?_, fun _ => hempty, hphase _ rfl rfl, hrewrite⟩
    · exact absurd (hlast'.symm.trans h0) (by omega)
    · simp only [hempty]
      rfl
    · simp only [hempty]
      exact Nat.zero_le _
    · simp only [hempty, hlast', List.length_nil]
      omega
    · have hex := hdb.exact hex
      rw [hempty, List.length_nil] at hex
      simp only [hempty, hlast', List.length_nil]
      omega
    · simp only [hlast']
      omega

omit [LinearOrder N] in
theorem DBNumbers.le (h : DBNumbers v₀ iv n k exact opts disk db) : W.lastIndex disk.wal ≤ n ∧ k ≤ n := by
  have := h.top
  omega

omit [LinearOrder N] in
/-- When a commit has its version and the queue is empty, the log ends with that version. -/
theorem DBNumbers.committedVersion (h : DBNumbers v₀ iv n k exact opts disk db) (hr : InRange v₀ iv n)
    (hexact : exact) (hpos : 0 < k) (hq : db.batch ++ db.walChan = []) :
    committedVersion disk db = versionAt v₀ iv k := by
  have hk := h.le.2
  have hcount := h.exact hexact
  rw [hq, List.length_nil, Nat.add_zero] at hcount
  rw [Db.committedVersion, if_neg (by omega), hcount, h.working.2]
  obtain ⟨m, rfl⟩ := Nat.exists_eq_succ_of_ne_zero hpos.ne'
  exact walVersion_eq ((versionAt_mono hr.base hk).trans hr.version_le)

omit [LinearOrder N] in
/-- A commit switches when the log ends with its version. -/
theorem DBNumbers.lastIndex_eq (h : DBNumbers v₀ iv n k exact opts disk db) (hr : InRange v₀ iv n)
    (hv : db.working.mtree.version = Db.committedVersion disk db) : W.lastIndex disk.wal = k := by
  have hle := h.le.1
  refine versionAt_inj hr.base ?_
  rw [h.working.1, Db.committedVersion, h.working.2] at hv
  split_ifs at hv with h0
  · rw [hv, h.snapshotVersion h0, h0]
    rfl
  · obtain ⟨m, hm⟩ := Nat.exists_eq_succ_of_ne_zero h0
    rw [hm] at hv hle ⊢
    rw [hv, walVersion_eq ((versionAt_mono hr.base hle).trans hr.version_le)]

omit [LinearOrder N] in
/-- Steps that keep the version, the queue and the log. -/
theorem DBNumbers.keep (h : DBNumbers v₀ iv n k exact opts disk db) (hworking : db'.working = db.working)
    (hsv : db'.snapshotVersion = db.snapshotVersion) (hbatch : db'.batch = db.batch)
    (hchan : db'.walChan = db.walChan) (hphase : PhaseNumbers v₀ iv n k db')
    (hrewrite : ∀ r ∈ db'.rewrite, r.All (UpTo v₀ iv n)) : DBNumbers v₀ iv n k exact opts disk db' := by
  refine ⟨hworking ▸ h.working, hsv ▸ h.snapshotVersion, ?_, ?_, ?_, ?_, h.top, ?_, hphase, hrewrite⟩ <;>
    rw [hbatch, hchan]
  · exact h.queue
  · exact h.length
  · exact h.count
  · exact h.exact
  · exact h.sync

omit [LinearOrder N] in
theorem DBNumbers.endCommit (h : DBNumbers v₀ iv n k exact opts disk db) (height : ℕ) :
    DBNumbers v₀ iv n k exact opts disk (endCommit opts height db).1 := by
  unfold Db.endCommit rewriteIfApplicable
  split_ifs
  · exact h.keep rfl rfl rfl rfl (.of_idle rfl) h.rewrite
  · refine h.keep rfl rfl rfl rfl (.of_idle rfl) fun r hr => ?_
    obtain rfl := Option.some.inj hr
    exact ⟨k, h.le.2, h.working⟩
  · exact h.keep rfl rfl rfl rfl (.of_idle rfl) h.rewrite

omit [LinearOrder N] in
theorem DBNumbers.finish (h : DBNumbers v₀ iv n k exact opts disk db) {ok : Bool}
    (hf : finish opts db = some (db', ok)) : DBNumbers v₀ iv n k exact opts disk db' := by
  have hnone : ∀ r ∈ (none : Option (Rewrite N)), r.All (UpTo v₀ iv n) := by simp
  obtain ⟨v, -, rfl | rfl | rfl⟩ := finish_eq_some hf
  · exact h.keep rfl rfl rfl rfl (.of_idle rfl) hnone
  · have hdone : DBNumbers v₀ iv n k exact opts disk { db with rewrite := none } :=
      h.keep rfl rfl rfl rfl h.phase hnone
    exact hdone.endCommit v
  · exact h.endCommit v

omit [LinearOrder N] in
theorem DBNumbers.await (h : DBNumbers v₀ iv n k exact opts disk db) (hf : await db = some db') :
    DBNumbers v₀ iv n k exact opts disk db' := by
  obtain ⟨v, t, sv, hp, hr, rfl⟩ := await_eq_some hf
  have hphase := h.phase.1
  rw [hp] at hphase
  refine h.keep rfl rfl rfl rfl ⟨hphase, fun v' t' sv' heq => ?_⟩ (by simp)
  cases heq
  exact h.rewrite _ hr

/-- A switch keeps the version. -/
theorem DBNumbers.switch (h : DBNumbers v₀ iv n k exact opts disk db) (hr : InRange v₀ iv n) {ok : Bool}
    (hf : switch sha256 opts disk db = some (db', ok)) : DBNumbers v₀ iv n k exact opts disk db' := by
  obtain ⟨v, t, sv, hp, hready, hcases⟩ := switch_eq_some hf
  have hlast := h.lastIndex_eq hr hready
  have hn : n = k := by
    have := h.top
    omega
  rcases hcases with ⟨rfl, -⟩ | ⟨t₁, t₂, hcat, happ, hend⟩
  · exact h.keep rfl rfl rfl rfl (.of_idle rfl) h.rewrite
  · obtain ⟨hpos, -, -⟩ := h.phase.1 v (by rw [hp]; rfl)
    have hat := ((h.phase.2 v t sv hp).catchupWAL hr h.le.1 hcat).2 (hlast.trans hn.symm)
    obtain ⟨hv, hiv⟩ := applyWALEntry_fields happ
    obtain rfl := congrArg Prod.fst hend
    have hnew : DBNumbers v₀ iv n k exact opts disk { db with
        working := { db.working with mtree := t₂ }
        snapshotVersion := sv
        pruning := some .started } :=
      ⟨hn ▸ hat.congr hv hiv, fun h0 => absurd (hlast.symm.trans h0) hpos.ne', h.queue, h.length, h.count, h.exact,
        h.top, h.sync, h.phase, h.rewrite⟩
    exact hnew.endCommit v

/-- The front of the queue is written, and the rest is still queued. -/
theorem Numbers.write (h : Numbers v₀ iv n exact opts ⟨disk, some db⟩) (hw : write disk db = some s') :
    Numbers v₀ iv n exact opts s' := by
  obtain ⟨k, hdb⟩ : ∃ k, DBNumbers v₀ iv n k exact opts disk db := h.db db rfl
  have hlen := hdb.length
  have hcount := hdb.count
  have htop := hdb.top
  have hexact := hdb.exact
  obtain ⟨hb, hq⟩ := consecutive_append hdb.queue
  obtain ⟨w', hw', -, -, hlast⟩ := writeEntries_from (w := disk.wal) hb (by omega)
  obtain ⟨wal, hwal, rfl⟩ | ⟨hnone, -⟩ := write_eq_some hw
  swap
  · exact nomatch hw'.symm.trans hnone
  obtain rfl : w' = wal := Option.some.inj (hw'.symm.trans hwal)
  rw [List.length_append] at hlen hcount hexact hlast hq
  refine ⟨h.range, h.dirs, fun d hd => ?_, fun hd => nomatch hd⟩
  obtain rfl := Option.some.inj hd
  refine ⟨k, hdb.working, fun h0 => hdb.snapshotVersion ?_, ?_, ?_, ?_, fun hex => ?_, ?_, fun hs => ?_, hdb.phase,
    hdb.rewrite⟩
  · simp only [hlast] at h0
    omega
  · simp only [List.nil_append]
    rw [hq]
    congr 1
    omega
  · simp only [List.nil_append]
    omega
  · simp only [List.nil_append, hlast]
    omega
  · have := hexact hex
    simp only [List.nil_append, hlast]
    omega
  · simp only [hlast]
    omega
  · exact (List.append_eq_nil_iff.mp (hdb.sync hs)).2

theorem Numbers.rewrite (h : Numbers v₀ iv n exact opts ⟨disk, some db⟩) {r r' : Rewrite N}
    (hr : db.rewrite = some r) (hf : rewriteStep sha256 disk r = some (disk', r')) :
    Numbers v₀ iv n exact opts ⟨disk', some { db with rewrite := some r' }⟩ := by
  obtain ⟨k, hdb⟩ : ∃ k, DBNumbers v₀ iv n k exact opts disk db := h.db db rfl
  have hall := hdb.rewrite r hr
  obtain ⟨hwal, hsnap⟩ := disk_rewriteStep hf
  refine ⟨h.range, fun p hp t ht => ?_, fun d hd => ?_, fun hd => nomatch hd⟩
  · rcases hsnap p hp with hp | ⟨u, rfl, rfl⟩
    · exact h.dirs p hp t ht
    · obtain ⟨i, hi, hu⟩ : UpTo v₀ iv n u := hall
      obtain ⟨hv, hiv⟩ := loadMultiTree_fields ht
      exact ⟨i, hi, hu.congr hv hiv⟩
  · obtain rfl := Option.some.inj hd
    refine ⟨k, hdb.working, hwal ▸ hdb.snapshotVersion, hdb.queue, hdb.length, hwal ▸ hdb.count, hwal ▸ hdb.exact,
      hwal ▸ hdb.top, hdb.sync, hdb.phase, fun r₁ hr₁ => ?_⟩
    obtain rfl := Option.some.inj hr₁
    exact hall.step h.dirs (fun t sv t' _ ht hcat => (ht.catchupWAL h.range hdb.le.1 hcat).1) hf

/-- Every step keeps the numbers, and a commit moves them by one. -/
theorem Numbers.step (h : Numbers v₀ iv n exact opts s) {e : VersionEvent N}
    (hs : versionStep sha256 opts s e = some (s', o)) (hb : Bounded s e) (hc : exact → Continues s e) :
    ∃ n', Numbers v₀ iv n' exact opts s' := by
  cases e with
  | loadVersion target stores =>
    obtain ⟨disk, _ | db⟩ := s
    · simp only [versionStep, Option.bind_eq_bind, Option.bind_eq_some_iff] at hs
      obtain ⟨s₁, hl, heq⟩ := hs
      cases heq
      exact ⟨n, h.loadVersion hc hl⟩
    · exact nomatch hs
  | event e =>
    cases fires_of_step hs with
    | load hl =>
      rw [← loadVersion_zero] at hl
      exact ⟨n, h.loadVersion (fun _ => .inl rfl) hl⟩
    | kill m => exact absurd hb id
    | receive hf =>
      obtain ⟨k, hdb⟩ := h.db _ rfl
      obtain ⟨hempty, rfl⟩ := receive_eq_some hf
      have hq := hdb.queue
      have hlen := hdb.length
      have hcount := hdb.count
      have hexact := hdb.exact
      have hsync := hdb.sync
      rw [hempty, List.nil_append] at hq hlen hcount hexact hsync
      refine ⟨n, h.of_db (k := k) ⟨hdb.working, hdb.snapshotVersion, ?_, ?_, ?_, ?_, hdb.top, ?_, hdb.phase,
        hdb.rewrite⟩⟩ <;> simp only [List.take_append_drop]
      · exact hq
      · exact hlen
      · exact hcount
      · exact hexact
      · exact hsync
    | write hf => exact ⟨n, h.write hf⟩
    | rewrite hr hf => exact ⟨n, h.rewrite hr hf⟩
    | rewriteFail hr hcan =>
      obtain ⟨k, hdb⟩ := h.db _ rfl
      refine ⟨n, h.of_db (hdb.keep rfl rfl rfl rfl hdb.phase fun r hr' => ?_)⟩
      obtain rfl := Option.some.inj hr'
      trivial
    | prune hp hf =>
      obtain ⟨k, hdb⟩ := h.db _ rfl
      obtain ⟨hlast, hsnap⟩ := disk_pruneStep hf
      refine ⟨n, h.range, fun p hp => h.dirs p (hsnap p hp), fun d hd => ?_, fun hd => nomatch hd⟩
      obtain rfl := Option.some.inj hd
      exact ⟨k, hdb.working, hlast ▸ hdb.snapshotVersion, hdb.queue, hdb.length, hlast ▸ hdb.count,
        hlast ▸ hdb.exact, hlast ▸ hdb.top, hdb.sync, hdb.phase, hdb.rewrite⟩
    | finish hf =>
      obtain ⟨k, hdb⟩ := h.db _ rfl
      exact ⟨n, h.of_db (hdb.finish hf)⟩
    | await hf =>
      obtain ⟨k, hdb⟩ := h.db _ rfl
      exact ⟨n, h.of_db (hdb.await hf)⟩
    | switch hf =>
      obtain ⟨k, hdb⟩ := h.db _ rfl
      exact ⟨n, h.of_db (hdb.switch h.range hf)⟩
    | setInitialVersion hp hf => exact absurd hb id
    | applyUpgrades hp =>
      obtain ⟨k, hdb⟩ := h.db _ rfl
      exact ⟨n, h.of_db ⟨atVersion_applyUpgrades hdb.working _, hdb.snapshotVersion, hdb.queue, hdb.length,
        hdb.count, hdb.exact, hdb.top, hdb.sync, .of_idle hp, hdb.rewrite⟩⟩
    | applyChangeSets hp =>
      obtain ⟨k, hdb⟩ := h.db _ rfl
      exact ⟨n, h.of_db ⟨atVersion_applyChangeSets hdb.working _, hdb.snapshotVersion, hdb.queue, hdb.length,
        hdb.count, hdb.exact, hdb.top, hdb.sync, .of_idle hp, hdb.rewrite⟩⟩
    | commit hp hf => exact h.commit (hb _ rfl) hf
    | close hp hchan hbatch hdone =>
      obtain ⟨k, hdb⟩ := h.db _ rfl
      have hcount := hdb.count
      have htop := hdb.top
      rw [hchan, hbatch, List.append_nil, List.length_nil, Nat.add_zero] at hcount
      exact ⟨n, h.range, h.dirs, (fun d hd => nomatch hd), fun _ => (htop.trans (max_eq_left hcount)).symm⟩

/-! ### Runs -/

theorem Origin.numbers {base : MultiTree N} (hb : Origin base) :
    Numbers base.version base.initialVersion 0 exact opts (W := W) ⟨freshDisk W base, none⟩ := by
  refine ⟨⟨?_, hb.loadable.initialVersion_le, hb.loadable.version_le⟩, fun p hp t ht => ?_,
    (fun d hd => nomatch hd), fun _ => ?_⟩
  · rcases hb.start with h0 | h1
    · left
      rw [h0]
      rfl
    · exact .inr h1.2
  · obtain rfl := List.mem_singleton.mp hp
    rw [hb.loadable.loadMultiTree_writeSnapshot] at ht
    obtain rfl := Option.some.inj ht
    exact ⟨0, le_rfl, rfl, rfl⟩
  · rw [W.lastIndex_eq]
    simp [freshDisk, W.new_eq]

/-- In a run whose loads reach the end of the log, a commit whose entries have been written
finds its version there. It need not wait for the switch, which keeps the version. -/
theorem committedVersion_eq_version {base : MultiTree N} (hb : Origin base) {es : List (VersionEvent N)}
    {os : List (Reply N)} (ha : Along (versionStep sha256 opts) Continues ⟨freshDisk W base, none⟩ es)
    (he : exec (versionStep sha256 opts) ⟨freshDisk W base, none⟩ es = some (s, os)) (hdb : s.db = some db)
    {v : ℕ} (hv : db.phase.version = some v) (hchan : db.walChan = []) (hbatch : db.batch = []) :
    committedVersion s.disk db = v ∧ db.working.mtree.version = v ∧
      ∀ t sv, db.phase = .waiting v t sv → db.pruning = none →
        ∃ db' ok, switch sha256 opts s.disk db = some (db', ok) ∧ db'.working.mtree.version = v := by
  obtain ⟨n, h⟩ : ∃ n, Numbers base.version base.initialVersion n True opts s :=
    exec_invariant (P := fun s _ => ∃ n, Numbers base.version base.initialVersion n True opts s)
      (fun s os e s' o ⟨n, h⟩ hc hs => h.step hs hc.bounded fun _ => hc) ⟨0, hb.numbers⟩ ha he
  obtain ⟨disk, _⟩ := s
  obtain rfl : _ = some db := hdb
  obtain ⟨k, hd⟩ := h.db db rfl
  obtain ⟨hpos, rfl, hpend⟩ := hd.phase.1 v hv
  have hcommitted := hd.committedVersion h.range trivial hpos (by rw [hbatch, hchan, List.append_nil])
  refine ⟨hcommitted, hd.working.1, fun t sv hp hprune => ?_⟩
  suffices hsw : ∃ r, switch sha256 opts disk db = some r by
    obtain ⟨⟨db', ok⟩, hsw⟩ := hsw
    exact ⟨db', ok, hsw, (hd.switch h.range hsw).working.1⟩
  simp only [Db.switch, hp, hd.working.1, hcommitted, hprune, Option.isNone_none, and_self, ↓reduceIte, hpend]
  rcases t.catchupWAL sha256 W disk.wal 0 with _ | t₁
  · exact ⟨_, rfl⟩
  · exact ⟨_, rfl⟩

/-- A commit that waits for another version than the log ends with, with nothing queued and no
other task running, can only be killed. -/
theorem kill_of_waiting {v sv : ℕ} (hp : db.phase = .waiting v t sv) (hchan : db.walChan = [])
    (hbatch : db.batch = []) (hrewrite : db.rewrite = none) (hprune : db.pruning = none)
    (hne : db.working.mtree.version ≠ committedVersion disk db) {e : VersionEvent N}
    (hs : versionStep sha256 opts ⟨disk, some db⟩ e = some (s', o)) : ∃ m, e = .event (.kill m) := by
  cases e with
  | loadVersion target stores => exact nomatch hs
  | event e =>
    have hstep : step sha256 opts ⟨disk, some db⟩ e = some (s', o) := hs
    cases fires_of_step hstep with
    | kill m => exact ⟨m, rfl⟩
    | receive hf => simp [receive, hchan] at hf
    | write hf => simp [write, hbatch] at hf
    | rewrite hr | rewriteFail hr => exact nomatch hrewrite.symm.trans hr
    | prune hr => exact nomatch hprune.symm.trans hr
    | finish hf =>
      obtain ⟨v', hp', -⟩ := finish_eq_some hf
      exact nomatch hp.symm.trans hp'
    | await hf =>
      obtain ⟨v', t', sv', hp', -⟩ := await_eq_some hf
      exact nomatch hp.symm.trans hp'
    | switch hf =>
      obtain ⟨v', t', sv', -, heq, -⟩ := switch_eq_some hf
      exact absurd heq hne
    | setInitialVersion hp' | applyUpgrades hp' | applyChangeSets hp' | commit hp' | close hp' =>
      exact nomatch hp.symm.trans hp'

/-! ### A load in the middle -/

/-- Five blocks with a snapshot interval of two, where the rewrites are cancelled. -/
def fiveCommits : List (VersionEvent ℕ) :=
  [.event (.load [0]), .event .commit, .event .finish, .event .commit, .event .finish, .event .rewriteFail,
    .event .commit, .event .finish, .event .commit, .event .finish, .event .rewriteFail, .event .commit,
    .event .finish, .event .close]

/-- Two more blocks, with a rewrite in between. -/
def twoCommits : List (VersionEvent ℕ) :=
  [.event .commit, .event .finish, .event .rewrite, .event .rewrite, .event .rewrite, .event .rewrite,
    .event .rewrite, .event .rewrite, .event .commit, .event .await]

def loadBetween (target : ℕ) : List (VersionEvent ℕ) :=
  fiveCommits ++ .loadVersion target [0] :: twoCommits

def runBetween (target : ℕ) : Option (World ℕ (listLog (WALEntry ℕ))) :=
  (exec (versionStep (fun _ => []) ⟨2, 0, false⟩) ⟨freshDisk _ (MultiTree.newEmptyMultiTree 1), none⟩
    (loadBetween target)).map Prod.fst

/-- With a load of the latest version the second commit switches at version seven. -/
theorem committedVersion_eq_version_seven :
    ∃ s db t sv, runBetween 5 = some s ∧ s.db = some db ∧ db.phase = .waiting 7 t sv ∧
      committedVersion s.disk db = 7 ∧ ∃ db' ok, switch (fun _ => []) ⟨2, 0, false⟩ s.disk db = some (db', ok) ∧
        db'.working.mtree.version = 7 := by
  have ha : Along (versionStep (fun _ => []) ⟨2, 0, false⟩) Continues
    ⟨freshDisk (listLog (WALEntry ℕ)) (MultiTree.newEmptyMultiTree 1), none⟩ (loadBetween 5) := by decide
  have hiv : 1 ≤ maxInt64 := by decide
  have h := committedVersion_eq_version (Origin.empty hiv) ha rfl rfl rfl rfl rfl
  exact ⟨_, _, _, _, rfl, rfl, rfl, h.1, h.2.2 _ _ rfl rfl⟩

/-- After a load of version one the log still ends with version five. The second commit waits
for version three with an empty queue, and nothing can happen but a kill. -/
theorem commit_waits_for_ever :
    ∃ s db t sv, runBetween 1 = some s ∧ s.db = some db ∧ db.phase = .waiting 3 t sv ∧ db.walChan = [] ∧
      db.batch = [] ∧ committedVersion s.disk db = 5 ∧
      ∀ e r, versionStep (fun _ => []) ⟨2, 0, false⟩ s e = some r → ∃ m, e = .event (.kill m) :=
  ⟨_, _, _, _, rfl, rfl, rfl, rfl, rfl, rfl, fun _ _ hs => kill_of_waiting rfl rfl rfl rfl rfl (by decide) hs⟩

end IavlStore.Db
