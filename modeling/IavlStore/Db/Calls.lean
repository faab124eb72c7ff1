import IavlStore.Base.Runs
import IavlStore.Db.Commits

/-! The calls of the main thread on an open database: upgrades, change sets and commits. As long as a switch
to a rewritten multitree leaves the trees as they are, the commit infos of a run are those of the calls
alone, whatever the other threads do in between. Once there is a version, the initial version has no part
in what the calls answer. A database whose log holds one entry for each version since it was begun can
always go on with them. -/

namespace IavlStore.Db

open IavlStore.Base.Encoding IavlStore.Base.Runs IavlStore.Multi

variable {N : Type} [LinearOrder N]

inductive DBCall (N : Type) where
  | applyUpgrades (upgrades : List (TreeNameUpgrade N))
  | applyChangeSets (changeSets : List (NamedChangeSet N))
  | commit

/-- The error of a call, or what was committed. -/
inductive DBAnswer (N : Type) where
  | applied (error : Option (Error N))
  | committed (info : CommitInfo N)

/-- A call on the trees and the pending changes, `none` when a version cannot be saved. -/
def callStep (sha256 : Bytes → Bytes) (d : Working N) : DBCall N → Option (Working N × DBAnswer N)
  | .applyUpgrades us => some ((d.applyUpgrades us).1, .applied (d.applyUpgrades us).2)
  | .applyChangeSets cs => some ((d.applyChangeSets cs).1, .applied (d.applyChangeSets cs).2)
  | .commit => do
    let mtree ← (d.mtree.saveVersion sha256 true).toOption
    some (⟨mtree, emptyEntry⟩, .committed mtree.lastCommitInfo)

def DBAnswer.info : DBAnswer N → Option (CommitInfo N)
  | .applied _ => none
  | .committed info => some info

def Event.call : Event N → Option (DBCall N)
  | .applyUpgrades us => some (.applyUpgrades us)
  | .applyChangeSets cs => some (.applyChangeSets cs)
  | .commit => some .commit
  | _ => none

def Reply.info : Reply N → Option (CommitInfo N)
  | .saved mtree => some mtree.lastCommitInfo
  | _ => none

def DBCall.isCommit : DBCall N → Bool
  | .commit => true
  | _ => false

/-! ### Calls and the other threads -/

section Machine
variable {W : WalLog (WALEntry N)} (sha256 : Bytes → Bytes) (opts : Options)

/-- The database stays open and keeps its initial version, and a switch leaves the trees as they are. -/
def Quiet (s : World N W) : Event N → Prop
  | .load _ | .setInitialVersion _ | .close | .kill _ => False
  | .switch => ∀ s' o, step sha256 opts s .switch = some (s', o) →
    (s'.db.map fun db => db.working) = s.db.map fun db => db.working
  | _ => True

variable {sha256 opts} {s s' : World N W} {db : DB N} {e : Event N} {o : Reply N}

/-- A step is a call, or leaves the trees and the pending changes. -/
theorem Quiet.step (hquiet : Quiet sha256 opts s e) (hdb : s.db = some db)
    (hs : step sha256 opts s e = some (s', o)) :
    ∃ db', s'.db = some db' ∧ ((e.call = none ∧ db'.working = db.working ∧ o.info = none) ∨
      ∃ c a, e.call = some c ∧ callStep sha256 db.working c = some (db'.working, a) ∧ o.info = a.info) := by
  obtain ⟨disk, _⟩ := s
  obtain rfl : _ = some db := hdb
  cases fires_of_step hs with
  | kill | setInitialVersion | close => exact hquiet.elim
  | receive hf =>
    obtain ⟨-, rfl⟩ := receive_eq_some hf
    exact ⟨_, rfl, .inl ⟨rfl, rfl, rfl⟩⟩
  | write hf =>
    rcases write_eq_some hf with ⟨wal, -, rfl⟩ | ⟨-, rfl⟩ <;> exact ⟨_, rfl, .inl ⟨rfl, rfl, rfl⟩⟩
  | rewrite | rewriteFail | prune => exact ⟨_, rfl, .inl ⟨rfl, rfl, rfl⟩⟩
  | finish hf =>
    obtain ⟨v, -, rfl | rfl | rfl⟩ := finish_eq_some hf
    · exact ⟨_, rfl, .inl ⟨rfl, rfl, rfl⟩⟩
    · exact ⟨_, rfl, .inl ⟨rfl, working_endCommit _ _ _, rfl⟩⟩
    · exact ⟨_, rfl, .inl ⟨rfl, working_endCommit _ _ _, rfl⟩⟩
  | await hf =>
    obtain ⟨v, t, sv, -, -, rfl⟩ := await_eq_some hf
    exact ⟨_, rfl, .inl ⟨rfl, rfl, rfl⟩⟩
  | switch hf =>
    refine ⟨_, rfl, .inl ⟨rfl, ?_, rfl⟩⟩
    simpa using hquiet _ _ hs
  | applyUpgrades hp => exact ⟨_, rfl, .inr ⟨_, _, rfl, rfl, rfl⟩⟩
  | applyChangeSets hp => exact ⟨_, rfl, .inr ⟨_, _, rfl, rfl, rfl⟩⟩
  | @commit _ _ _ t hp hf =>
    obtain ⟨hsave, ⟨-, rfl⟩ | ⟨-, wal, -, rfl⟩⟩ := commit_eq_some hf <;>
      exact ⟨_, rfl, .inr ⟨.commit, .committed t.lastCommitInfo, rfl, by simp [callStep, hsave, Except.toOption], rfl⟩⟩

/-- The commit infos of a run are those of its calls. -/
theorem exec_calls {es : List (Event N)} {os : List (Reply N)} (hdb : s.db = some db)
    (ha : Along (Db.step sha256 opts) (Quiet sha256 opts) s es) (he : exec (Db.step sha256 opts) s es = some (s', os)) :
    ∃ d answers, exec (callStep sha256) db.working (es.filterMap Event.call) = some (d, answers) ∧
      os.filterMap Reply.info = answers.filterMap DBAnswer.info := by
  induction es generalizing s db os with
  | nil =>
    cases he
    exact ⟨_, [], rfl, rfl⟩
  | cons e es ih =>
    obtain ⟨s₁, o, os', hs, hes, rfl⟩ := exec_cons he
    obtain ⟨db₁, hdb₁, hcall⟩ := ha.1.step hdb hs
    obtain ⟨d, answers, hrun, hinfos⟩ := ih hdb₁ (ha.2 _ hs) hes
    rcases hcall with ⟨hnone, hwork, ho⟩ | ⟨c, a, hc, hstep, ho⟩
    · refine ⟨d, answers, ?_, ?_⟩
      · rwa [List.filterMap_cons_none hnone, ← hwork]
      · rwa [List.filterMap_cons_none ho]
    · refine ⟨d, a :: answers, ?_, ?_⟩
      · rw [List.filterMap_cons_some hc]
        simp [exec, hstep, hrun]
      · rw [List.filterMap_cons, List.filterMap_cons, ho, hinfos]

end Machine

/-! ### Calls after a version -/

section Renumber
variable {sha256 : Bytes → Bytes} {t : MultiTree N} {d : Working N}

/-- The same trees under another initial version. -/
def renumber (iv : ℕ) (t : MultiTree N) : MultiTree N := { t with initialVersion := iv }

def Working.renumber (iv : ℕ) (d : Working N) : Working N := { d with mtree := Db.renumber iv d.mtree }

theorem nextVersion_of_pos {v : ℕ} (hv : 0 < v) (iv : ℕ) : nextVersion v iv = next v := if_neg (by omega)

theorem applyUpgrades_renumber (hpos : 0 < t.version) (iv : ℕ) (us : List (TreeNameUpgrade N)) :
    (renumber iv t).applyUpgrades us = (renumber iv (t.applyUpgrades us).1, (t.applyUpgrades us).2) := by
  have hv : (renumber iv t).version = t.version := rfl
  have ht : (renumber iv t).trees = t.trees := rfl
  simp only [MultiTree.applyUpgrades, hv, ht, nextVersion_of_pos hpos]
  split_ifs
  · rfl
  · rcases MultiTree.upgradeLoop (next t.version) us t.trees with ⟨trees, _ | err⟩ <;> rfl

theorem applyChangeSet_renumber (iv : ℕ) (name : N) (cs : ChangeSet) (t : MultiTree N) :
    (renumber iv t).applyChangeSet name cs =
      (renumber iv (t.applyChangeSet name cs).1, (t.applyChangeSet name cs).2) := by
  have hi : (renumber iv t).treesByName = t.treesByName := rfl
  simp only [MultiTree.applyChangeSet, hi]
  rcases Base.SortedPairs.lookupPair name t.treesByName with _ | i <;> rfl

theorem applyChangeSets_renumber (iv : ℕ) (cs : List (NamedChangeSet N)) (t : MultiTree N) :
    (renumber iv t).applyChangeSets cs = (renumber iv (t.applyChangeSets cs).1, (t.applyChangeSets cs).2) := by
  induction cs generalizing t with
  | nil => rfl
  | cons c cs ih =>
    simp only [MultiTree.applyChangeSets, applyChangeSet_renumber]
    rcases t.applyChangeSet c.name c.changeset with ⟨t', _ | e⟩
    · exact ih t'
    · rfl

omit [LinearOrder N] in
theorem saveVersion_renumber (hpos : 0 < t.version) (iv : ℕ) :
    (renumber iv t).saveVersion sha256 true = (t.saveVersion sha256 true).map (renumber iv) := by
  have hv : (renumber iv t).version = t.version := rfl
  have ht : (renumber iv t).trees = t.trees := rfl
  simp only [MultiTree.saveVersion, hv, ht, nextVersion_of_pos hpos]
  rcases MultiTree.saveTrees t.trees with err | trees <;> rfl

theorem Working.applyUpgrades_renumber (hpos : 0 < d.mtree.version) (iv : ℕ) (us : List (TreeNameUpgrade N)) :
    (d.renumber iv).applyUpgrades us = ((d.applyUpgrades us).1.renumber iv, (d.applyUpgrades us).2) := by
  simp only [Working.applyUpgrades, Working.renumber, Db.applyUpgrades_renumber hpos]
  rcases d.mtree.applyUpgrades us with ⟨t, _ | e⟩ <;> rfl

theorem Working.applyChangeSet_renumber (iv : ℕ) (name : N) (cs : ChangeSet) (d : Working N) :
    (d.renumber iv).applyChangeSet name cs =
      ((d.applyChangeSet name cs).1.renumber iv, (d.applyChangeSet name cs).2) := by
  simp only [Working.applyChangeSet, Working.renumber, Db.applyChangeSet_renumber]
  split_ifs <;> rfl

theorem Working.mergeChangeSets_renumber (iv : ℕ) (cs : List (NamedChangeSet N)) (d : Working N) :
    (d.renumber iv).mergeChangeSets cs = ((d.mergeChangeSets cs).1.renumber iv, (d.mergeChangeSets cs).2) := by
  induction cs generalizing d with
  | nil => rfl
  | cons c cs ih =>
    simp only [Working.mergeChangeSets, applyChangeSet_renumber]
    rcases d.applyChangeSet c.name c.changeset with ⟨d', _ | e⟩
    · exact ih d'
    · rfl

theorem Working.applyChangeSets_renumber (iv : ℕ) (cs : List (NamedChangeSet N)) (d : Working N) :
    (d.renumber iv).applyChangeSets cs = ((d.applyChangeSets cs).1.renumber iv, (d.applyChangeSets cs).2) := by
  have hm : (d.renumber iv).mtree = Db.renumber iv d.mtree := rfl
  have hp : (d.renumber iv).pendingLog = d.pendingLog := rfl
  simp only [Working.applyChangeSets, hm, hp, Db.applyChangeSets_renumber, mergeChangeSets_renumber]
  split_ifs <;> rfl

/-- A call answers the same under any initial version. -/
theorem callStep_renumber (hpos : 0 < d.mtree.version) (iv : ℕ) (c : DBCall N) :
    callStep sha256 (d.renumber iv) c = (callStep sha256 d c).map fun r => (r.1.renumber iv, r.2) := by
  cases c with
  | applyUpgrades us => simp only [callStep, Working.applyUpgrades_renumber hpos, Option.map_some]
  | applyChangeSets cs => simp only [callStep, Working.applyChangeSets_renumber, Option.map_some]
  | commit =>
    have hm : (d.renumber iv).mtree = renumber iv d.mtree := rfl
    simp only [callStep, hm, saveVersion_renumber hpos]
    rcases d.mtree.saveVersion sha256 true with err | t <;> rfl

/-- Only a commit changes the version, and no call the initial version. -/
theorem fields_callStep {d' : Working N} {c : DBCall N} {a : DBAnswer N} (h : callStep sha256 d c = some (d', a)) :
    d'.mtree.initialVersion = d.mtree.initialVersion ∧ d'.mtree.version =
      if c.isCommit then nextVersion d.mtree.version d.mtree.initialVersion else d.mtree.version := by
  cases c with
  | applyUpgrades us =>
    cases h
    rcases hu : d.mtree.applyUpgrades us with ⟨t, e⟩
    obtain ⟨hci, hiv⟩ := MultiTree.applyUpgrades_fields hu
    have hv : t.version = d.mtree.version := congrArg CommitInfo.version hci
    rcases e with _ | e <;> simp [Working.applyUpgrades, hu, hiv, hv, DBCall.isCommit]
  | applyChangeSets cs =>
    cases h
    have hkeep : ∀ (t : MultiTree N) cs, (t.initialVersion = d.mtree.initialVersion ∧ t.version = d.mtree.version) →
        (t.applyChangeSets cs).1.initialVersion = d.mtree.initialVersion ∧
          (t.applyChangeSets cs).1.version = d.mtree.version := by
      intro t cs ht
      obtain ⟨hci, hiv⟩ := MultiTree.applyChangeSets_fields cs t
      exact ⟨hiv.trans ht.1, (congrArg CommitInfo.version hci).trans ht.2⟩
    simpa [DBCall.isCommit] using Working.applyChangeSets_keeps hkeep ⟨rfl, rfl⟩ cs
  | commit =>
    simp only [callStep, Option.bind_eq_bind, Option.bind_eq_some_iff, Option.some.injEq, Prod.mk.injEq] at h
    obtain ⟨t, ht, rfl, -⟩ := h
    rcases hs : d.mtree.saveVersion sha256 true with err | t' <;> rw [hs] at ht
    · cases ht
    · cases ht
      obtain ⟨hv, hiv⟩ := MultiTree.saveVersion_fields hs
      exact ⟨hiv, by simpa [DBCall.isCommit] using hv⟩

/-- So do calls one after the other, as long as version numbers do not overflow. -/
theorem exec_renumber (iv : ℕ) {calls : List (DBCall N)} (hpos : 0 < d.mtree.version)
    (hle : d.mtree.version + calls.countP DBCall.isCommit ≤ maxInt64) :
    exec (callStep sha256) (d.renumber iv) calls =
      (exec (callStep sha256) d calls).map fun r => (r.1.renumber iv, r.2) := by
  induction calls generalizing d with
  | nil => rfl
  | cons c calls ih =>
    rcases hc : callStep sha256 d c with _ | ⟨d', a⟩
    · simp [exec, callStep_renumber hpos, hc]
    · have hv := (fields_callStep hc).2
      rw [nextVersion_of_pos hpos, next_eq (by omega)] at hv
      have hcount : d.mtree.version + (calls.countP DBCall.isCommit + if c.isCommit then 1 else 0) ≤ maxInt64 := by
        simpa [List.countP_cons] using hle
      have hrest := ih (d := d') (by split_ifs at hv <;> omega) (by split_ifs at hv hcount <;> omega)
      simp only [exec, callStep_renumber hpos, hc, Option.map_some, Option.bind_eq_bind, Option.bind_some, hrest]
      rcases exec (callStep sha256) d' calls with _ | ⟨d'', answers⟩ <;> rfl

end Renumber

/-! ### A run without the other threads -/

def DBCall.events : DBCall N → List (Event N)
  | .applyUpgrades us => [.applyUpgrades us]
  | .applyChangeSets cs => [.applyChangeSets cs]
  | .commit => [.commit, .finish]

section Plain
variable {W : WalLog (WALEntry N)} {sha256 : Bytes → Bytes} {opts : Options} {iv k : ℕ} {disk : Disk N W} {db : DB N}

/-- The database is idle after `k` versions; a commit that writes the log itself has written them all. -/
structure Ready (opts : Options) (iv k : ℕ) (disk : Disk N W) (db : DB N) : Prop where
  phase : db.phase = .idle
  writer : db.writerFailed = false
  rewrite : ∀ r ∈ db.rewrite, ∃ t, r = .copied t
  initialVersion : db.working.mtree.initialVersion = iv
  version : db.working.mtree.version + 1 = iv + k
  lastIndex : opts.asyncCommit = false → W.lastIndex disk.wal = k

variable (opts) in
omit [LinearOrder N] in
theorem exists_finish {v : ℕ} (hp : db.phase = .checking v) (hw : db.writerFailed = false)
    (hr : ∀ r ∈ db.rewrite, ∃ t, r = .copied t) :
    ∃ db', finish opts db = some (db', true) ∧ db'.working = db.working ∧ db'.phase = .idle ∧
      db'.writerFailed = false ∧ ∀ r ∈ db'.rewrite, ∃ t, r = .copied t := by
  have hfinish : finish opts db = some (rewriteIfApplicable opts v { db with phase := .idle }, true) := by
    rcases hrw : db.rewrite with _ | r
    · simp [finish, hp, hrw, endCommit, hw]
    · obtain ⟨t, rfl⟩ := hr r hrw
      simp [finish, hp, hrw, endCommit, hw]
  refine ⟨_, hfinish, ?_⟩
  unfold rewriteIfApplicable
  split_ifs
  · exact ⟨rfl, rfl, hw, fun r hr => ⟨_, (Option.some.inj hr).symm⟩⟩
  · exact ⟨rfl, rfl, hw, hr⟩

omit [LinearOrder N] in
/-- The entry of a commit is handed over or written. -/
theorem Ready.exists_commit (h : Ready opts iv k disk db) (hiv : 0 < iv) (hle : iv + k ≤ maxInt64) {t : MultiTree N}
    (hs : db.working.mtree.saveVersion sha256 true = .ok t) :
    t.version = iv + k ∧ ∃ disk' db', Db.commit sha256 opts disk db = some (⟨disk', some db'⟩, t) ∧
      db'.working = ⟨t, emptyEntry⟩ ∧ db'.phase = .checking t.version ∧ db'.writerFailed = false ∧
      (∀ r ∈ db'.rewrite, ∃ t, r = .copied t) ∧ (opts.asyncCommit = false → W.lastIndex disk'.wal = k + 1) := by
  obtain ⟨hversion, hinitial⟩ := MultiTree.saveVersion_fields hs
  have hv := h.version
  rw [h.initialVersion] at hversion hinitial
  rw [nextVersion, if_neg (by omega), next_eq (by omega), hv] at hversion
  have hindex : walIndex t.version t.initialVersion = k + 1 := by
    unfold maxInt64 at hle
    rw [walIndex, hversion, hinitial]
    split_ifs <;> omega
  refine ⟨hversion, ?_⟩
  rcases hasync : opts.asyncCommit with _ | _
  · have hlast := h.lastIndex hasync
    obtain ⟨w, hw, -, -, hlast'⟩ := writeEntries_eq (w := disk.wal) (b := [(k + 1, db.working.pendingLog)])
      (by simp [hlast])
    refine ⟨{ disk with wal := w }, { db with working := ⟨t, emptyEntry⟩, phase := .checking t.version }, ?_, rfl, rfl,
      h.writer, h.rewrite, fun _ => ?_⟩
    · simp [Db.commit, hs, Except.toOption, hindex, hasync, hw]
    · simpa [hlast] using hlast'
  · refine ⟨disk, { db with
        working := ⟨t, emptyEntry⟩
        phase := .checking t.version
        walChan := db.walChan ++ [(k + 1, db.working.pendingLog)] }, ?_, rfl, rfl, h.writer, h.rewrite,
      fun hf => by cases hf⟩
    simp [Db.commit, hs, Except.toOption, hindex, hasync]

/-- A commit returns. -/
theorem Ready.commit (h : Ready opts iv k disk db) (hiv : 0 < iv) (hle : iv + k ≤ maxInt64) {d : Working N}
    {a : DBAnswer N} (hc : callStep sha256 db.working .commit = some (d, a)) :
    ∃ disk' db' os, exec (Db.step sha256 opts) ⟨disk, some db⟩ [.commit, .finish] = some (⟨disk', some db'⟩, os) ∧
      db'.working = d ∧ Ready opts iv (k + 1) disk' db' := by
  rcases hs : db.working.mtree.saveVersion sha256 true with err | t
  · simp [callStep, hs, Except.toOption] at hc
  simp only [callStep, hs, Except.toOption, Option.bind_eq_bind, Option.bind_some, Option.some.injEq, Prod.mk.injEq] at hc
  obtain ⟨rfl, -⟩ := hc
  obtain ⟨hversion, disk', db₁, hcommit, hwork, hphase, hwriter, hrewrite, hlast⟩ := h.exists_commit hiv hle hs
  obtain ⟨db', hfinish, hwork', hphase', hwriter', hrewrite'⟩ := exists_finish opts hphase hwriter hrewrite
  refine ⟨disk', db', [.saved t, .returned true], ?_, hwork'.trans hwork, hphase', hwriter', hrewrite', ?_, ?_, hlast⟩
  · simp [exec, Db.step, h.phase, hcommit, hfinish]
  · rw [hwork', hwork]
    exact (MultiTree.saveVersion_fields hs).2.trans h.initialVersion
  · rw [hwork', hwork]
    simp only [hversion]
    omega

/-- The calls can be made one after the other, without any step of the other threads. -/
theorem Ready.exec_events (h : Ready opts iv k disk db) (hiv : 0 < iv) {calls : List (DBCall N)}
    (hle : iv + k + calls.countP DBCall.isCommit ≤ maxInt64 + 1) {d : Working N} {answers : List (DBAnswer N)}
    (hcalls : exec (callStep sha256) db.working calls = some (d, answers)) :
    ∃ s os, exec (Db.step sha256 opts) ⟨disk, some db⟩ (calls.flatMap DBCall.events) = some (s, os) := by
  induction calls generalizing k disk db answers with
  | nil => exact ⟨_, _, rfl⟩
  | cons c calls ih =>
    obtain ⟨d₁, a, answers', hc, hrest, rfl⟩ := exec_cons hcalls
    have hcount : iv + k + (calls.countP DBCall.isCommit + if c.isCommit then 1 else 0) ≤ maxInt64 + 1 := by
      simpa [List.countP_cons] using hle
    suffices hstep : ∃ disk' db' os k', exec (Db.step sha256 opts) ⟨disk, some db⟩ c.events =
        some (⟨disk', some db'⟩, os) ∧ db'.working = d₁ ∧ Ready opts iv k' disk' db' ∧
        k' = k + if c.isCommit then 1 else 0 by
      obtain ⟨disk', db', os, k', hrun, rfl, hready, rfl⟩ := hstep
      obtain ⟨s, os', hes⟩ := ih hready (by omega) hrest
      exact ⟨s, os ++ os', exec_append hrun hes⟩
    cases c with
    | applyUpgrades us =>
      obtain ⟨hi, hv⟩ := fields_callStep hc
      cases hc
      refine ⟨disk, { db with working := (db.working.applyUpgrades us).1 }, [.nothing], k, ?_, rfl,
        ⟨h.phase, h.writer, h.rewrite, hi.trans h.initialVersion, ?_, h.lastIndex⟩, rfl⟩
      · simp [DBCall.events, exec, Db.step, h.phase]
      · exact (congrArg (· + 1) hv).trans h.version
    | applyChangeSets cs =>
      obtain ⟨hi, hv⟩ := fields_callStep hc
      cases hc
      refine ⟨disk, { db with working := (db.working.applyChangeSets cs).1 }, [.nothing], k, ?_, rfl,
        ⟨h.phase, h.writer, h.rewrite, hi.trans h.initialVersion, ?_, h.lastIndex⟩, rfl⟩
      · simp [DBCall.events, exec, Db.step, h.phase]
      · exact (congrArg (· + 1) hv).trans h.version
    | commit =>
      have hle' : iv + k ≤ maxInt64 := by
        rw [DBCall.isCommit, if_pos rfl] at hcount
        omega
      obtain ⟨disk', db', os, hrun, hwork, hready⟩ := h.commit hiv hle' hc
      exact ⟨disk', db', os, k + 1, hrun, hwork, hready, rfl⟩

omit [LinearOrder N] in
theorem calls_events (calls : List (DBCall N)) : (calls.flatMap DBCall.events).filterMap Event.call = calls := by
  induction calls with
  | nil => rfl
  | cons c calls ih => cases c <;> simpa [DBCall.events, Event.call, List.filterMap_cons] using ih

/-- No step of such a run is a switch. -/
theorem along_events (s : World N W) (calls : List (DBCall N)) :
    Along (Db.step sha256 opts) (Quiet sha256 opts) s (calls.flatMap DBCall.events) := by
  have hplain : ∀ e ∈ calls.flatMap DBCall.events, ∀ s : World N W, Quiet sha256 opts s e := by
    intro e he s
    obtain ⟨c, -, hc⟩ := List.mem_flatMap.mp he
    cases c <;> simp only [DBCall.events, List.mem_cons, List.not_mem_nil, or_false] at hc
    · subst hc
      trivial
    · subst hc
      trivial
    · rcases hc with rfl | rfl <;> trivial
  generalize calls.flatMap DBCall.events = es at hplain
  induction es generalizing s with
  | nil => trivial
  | cons e es ih => exact ⟨hplain e (by simp) s, fun r _ => ih r.1 fun e he => hplain e (by simp [he])⟩

end Plain

end IavlStore.Db
