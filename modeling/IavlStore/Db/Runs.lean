import IavlStore.Base.Runs
import IavlStore.Db.Commits

/-! Runs of the database from a directory with one snapshot and an empty log, and the
switch to a rewritten multitree. A run is orderly when no change set is merged into a
block that has two change sets of its store, upgrades come first in a block, and version
numbers do not overflow. In an orderly run that is not killed, every switch leaves the
trees as they are. When a store occurs twice in a block, a merge changes the order of the
changes in the log, and a switch changes the contents. -/

namespace IavlStore.Db

open IavlStore.Base.Encoding IavlStore.Base.SortedPairs IavlStore.Base.Journal IavlStore.Base.Runs
open IavlStore.Multi

variable {N : Type} [LinearOrder N] {W : WalLog (WALEntry N)} {sha256 : Bytes → Bytes} {opts : Options}
  {replayable behind : Prop} {v₀ iv c : ℕ} {h : History (MultiTree N) (WALEntry N)}
  {s s' : World N W} {e : Event N} {o : Reply N}

/-! ### Where runs start -/

/-- A directory with one snapshot and an empty log. -/
def freshDisk (W : WalLog (WALEntry N)) (base : MultiTree N) : Disk N W :=
  ⟨[(base.version, base.writeSnapshot)], base.version, none, W.new⟩

/-- An empty multitree, or one whose next version is its initial version. -/
structure Origin (base : MultiTree N) : Prop where
  loadable : base.Loadable
  level : base.Level
  start : base = MultiTree.newEmptyMultiTree base.initialVersion ∨
    0 < base.version ∧ base.version + 1 = base.initialVersion

theorem Origin.empty (hiv : iv ≤ maxInt64) :
    Origin (MultiTree.newEmptyMultiTree iv : MultiTree N) where
  loadable := ⟨⟨List.Pairwise.nil, rfl⟩, Nat.zero_le _, hiv, .inr fun e he => absurd he (by simp [MultiTree.newEmptyMultiTree])⟩
  level := fun e he => absurd he (by simp [MultiTree.newEmptyMultiTree])
  start := .inl rfl

theorem Origin.inv {base : MultiTree N} (hb : Origin base) :
    Inv base.version base.initialVersion ⟨[], fun _ => base⟩ 0 opts replayable behind sha256
      ⟨freshDisk W base, none⟩ := by
  have hlast : W.lastIndex W.new = 0 := by rw [W.lastIndex_eq, W.new_eq.1, W.new_eq.2]; rfl
  refine ⟨⟨?_, fun h0 => ?_, fun _ _ => hb.loadable, fun _ _ => hb.level, fun i hi => ?_, fun _ _ => rfl⟩,
    (fun i e s hi => nomatch hi), (fun _ i e hi => nomatch hi), ⟨⟨?_, ?_⟩, le_rfl, rfl, ?_, ?_, fun v hv => ?_⟩,
    fun _ => Nat.zero_le _, (fun d hd => nomatch hd), fun _ => hlast⟩
  · rcases hb.start with h0 | h1
    · left
      rw [h0]
      rfl
    · exact .inr h1.2
  · rcases hb.start with hs | h1
    · exact hs
    · omega
  · obtain rfl : i = 0 := Nat.le_zero.mp hi
    rfl
  · exact hlast.le
  · simp [freshDisk, W.new_eq]
  · simp [freshDisk, lookupPair_cons]
  · exact W.new_eq.1.le
  · exact ⟨0, by simpa [freshDisk, versionAt] using hv⟩

/-! ### Orderly runs -/

/-- The event keeps the changes of a block in order. The initial version is not set again. -/
def Orderly (s : World N W) : Event N → Prop
  | .setInitialVersion _ => False
  | .applyUpgrades us =>
    ∀ db ∈ s.db, db.working.pendingLog = emptyEntry ∧ (db.working.applyUpgrades us).2 = none
  | .applyChangeSets cs => ∀ db ∈ s.db, MergesInOrder cs db.working
  | .commit => ∀ db ∈ s.db,
      nextVersion db.working.mtree.version db.working.mtree.initialVersion ≤ maxInt64
  | _ => True

def Event.isKill : Event N → Bool
  | .kill _ => true
  | _ => false

/-- A call that applies change sets knows all their stores. -/
def Succeeds (s : World N W) : Event N → Prop
  | .applyChangeSets cs => ∀ db ∈ s.db, (db.working.applyChangeSets cs).2 = none
  | _ => True

/-- The `current` link is replaced only once the log has reached the version. -/
def LinksBehind (s : World N W) : Event N → Prop
  | .rewrite => ∀ db ∈ s.db,
    match db.rewrite with
    | some (.tmpLinked v) => walIndex v db.working.mtree.initialVersion ≤ W.lastIndex s.disk.wal
    | _ => True
  | _ => True

instance (s : World N W) : (e : Event N) → Decidable (Orderly s e)
  | .setInitialVersion _ => .isFalse id
  | .applyUpgrades _ => inferInstanceAs (Decidable (∀ db ∈ s.db, _ ∧ _))
  | .applyChangeSets cs => inferInstanceAs (Decidable (∀ db ∈ s.db, MergesInOrder cs db.working))
  | .commit => inferInstanceAs (Decidable (∀ db ∈ s.db, _ ≤ _))
  | .load _ | .finish | .await | .switch | .receive _ | .write | .rewrite | .rewriteFail | .prune _ | .close
  | .kill _ => .isTrue trivial

instance (s : World N W) : (e : Event N) → Decidable (Succeeds s e)
  | .applyChangeSets cs => inferInstanceAs (Decidable (∀ db ∈ s.db, (db.working.applyChangeSets cs).2 = none))
  | .setInitialVersion _ | .applyUpgrades _ | .commit | .load _ | .finish | .await | .switch | .receive _
  | .write | .rewrite | .rewriteFail | .prune _ | .close | .kill _ => .isTrue trivial

instance (s : World N W) : (e : Event N) → Decidable (LinksBehind s e)
  | .rewrite =>
    have (db : DB N) : Decidable (match db.rewrite with
        | some (.tmpLinked v) => walIndex v db.working.mtree.initialVersion ≤ W.lastIndex s.disk.wal
        | _ => True) := by split <;> infer_instance
    inferInstanceAs (Decidable (∀ db ∈ s.db, _))
  | .applyChangeSets _ | .setInitialVersion _ | .applyUpgrades _ | .commit | .load _ | .finish | .await
  | .switch | .receive _ | .write | .rewriteFail | .prune _ | .close | .kill _ => .isTrue trivial

/-- A commit extends the history, a kill cuts it, and the other steps leave it as it is. -/
inductive HistoryStep (h : History (MultiTree N) (WALEntry N)) :
    Event N → Reply N → History (MultiTree N) (WALEntry N) → Prop
  | same {e : Event N} {o : Reply N} : (∀ t, o ≠ .saved t) → HistoryStep h e o h
  | push {e : Event N} (entry : WALEntry N) (t : MultiTree N) : HistoryStep h e (.saved t) (h.push entry t)
  | cut (n k : ℕ) : HistoryStep h (.kill n) .nothing (h.cut k)

omit [LinearOrder N] in
/-- The states of the new history are old ones and what was committed. -/
theorem HistoryStep.states {h' : History (MultiTree N) (WALEntry N)} (hs : HistoryStep h e o h') :
    ∀ i ≤ h'.log.length, i ≤ h.log.length ∧ h'.state i = h.state i ∨ o = .saved (h'.state i) := by
  intro i hle
  cases hs with
  | same => exact .inl ⟨hle, rfl⟩
  | push entry t =>
    rw [History.length_log_push] at hle
    rcases hle.lt_or_eq with hlt | rfl
    · exact .inl ⟨by omega, History.state_push_of_le _ _ (by omega)⟩
    · exact .inr (by simp [History.push])
  | cut n k => exact .inl ⟨hle.trans (by simp [History.cut]), rfl⟩

omit [LinearOrder N] in
/-- No state is lost unless the process is killed. -/
theorem HistoryStep.extends {h' : History (MultiTree N) (WALEntry N)} (hs : HistoryStep h e o h')
    (hk : e.isKill = false) : h.Extends h' := by
  cases hs with
  | same => exact .refl h
  | push entry t => exact h.extends_push entry t
  | cut n k => cases hk

/-- Every step keeps the invariant. -/
theorem Inv.step (hi : Inv v₀ iv h c opts replayable behind sha256 s)
    (hs : step sha256 opts s e = some (s', o)) (ho : Orderly s e) (hr : replayable → Succeeds s e)
    (hl : behind → LinksBehind s e) (hk : e.isKill = true → behind) :
    ∃ h' c', Inv v₀ iv h' c' opts replayable behind sha256 s' ∧ HistoryStep h e o h' := by
  cases fires_of_step hs with
  | load hld => exact ⟨h, c, (hi.load hld).1, .same (by simp)⟩
  | kill n =>
    obtain ⟨k, -, hcut⟩ := hi.kill (hk rfl) n
    exact ⟨_, c, hcut, .cut n k⟩
  | receive hf => exact ⟨h, c, hi.receive hf, .same (by simp)⟩
  | write hf => exact ⟨h, c, hi.write hf, .same (by simp)⟩
  | rewrite hrw hf =>
    obtain ⟨c', hi'⟩ := hi.rewrite hrw hf fun hb v hv => by
      have hle := hl hb _ rfl
      rwa [hrw, hv] at hle
    exact ⟨h, c', hi', .same (by simp)⟩
  | rewriteFail hrw hcan =>
    have hdb := hi.db_inv
    exact ⟨h, c, hi.of_db (hdb.set_rewrite rfl (hdb.not_waiting hrw) trivial hdb.pruning), .same (by simp)⟩
  | prune hp hf => exact ⟨h, c, hi.prune hp hf, .same (by simp)⟩
  | finish hf => exact ⟨h, c, (hi.finish hf).1, .same (by simp)⟩
  | await hf => exact ⟨h, c, (hi.await hf).1, .same (by simp)⟩
  | switch hf => exact ⟨h, c, (hi.switch hf).1, .same (by simp)⟩
  | setInitialVersion hp hf => exact absurd ho id
  | applyUpgrades hp =>
    obtain ⟨hempty, hok⟩ := ho _ rfl
    exact ⟨h, c, hi.applyUpgrades hp hempty hok, .same (by simp)⟩
  | applyChangeSets hp =>
    exact ⟨h, c, hi.applyChangeSets hp (ho _ rfl) fun h' => hr h' _ rfl, .same (by simp)⟩
  | commit hp hf =>
    obtain ⟨-, -, hi'⟩ := hi.commit hf (ho _ rfl)
    exact ⟨_, c, hi', .push _ _⟩
  | close hp hchan hbatch hdone => exact ⟨h, c, hi.close hchan hbatch, .same (by simp)⟩

/-- Along a run the states of the history are the first one and those that were committed. -/
theorem inv_of_exec {base : MultiTree N} (hb : Origin base) {cond : World N W → Event N → Prop}
    (hcond : ∀ s e, cond s e → Orderly s e ∧ (replayable → Succeeds s e) ∧ (behind → LinksBehind s e) ∧
      (e.isKill = true → behind)) {es : List (Event N)} {os : List (Reply N)}
    (ha : Along (step sha256 opts) cond ⟨freshDisk W base, none⟩ es)
    (he : exec (step sha256 opts) ⟨freshDisk W base, none⟩ es = some (s, os)) :
    ∃ h c, Inv base.version base.initialVersion h c opts replayable behind sha256 s ∧
      ∀ i ≤ h.log.length, h.state i = base ∨ .saved (h.state i) ∈ os := by
  refine exec_invariant (P := fun s os => ∃ h c, Inv base.version base.initialVersion h c opts replayable
    behind sha256 s ∧ ∀ i ≤ h.log.length, h.state i = base ∨ .saved (h.state i) ∈ os) ?_
    ⟨_, 0, hb.inv, fun i _ => .inl rfl⟩ ha he
  rintro s os e s' o ⟨h, c, hi, hstates⟩ hc hs
  obtain ⟨ho, hr, hl, hk⟩ := hcond s e hc
  obtain ⟨h', c', hi', hnew⟩ := hi.step hs ho hr hl hk
  refine ⟨h', c', hi', fun i hle => ?_⟩
  rcases hnew.states i hle with ⟨hle', heq⟩ | heq
  · rw [heq]
    exact (hstates i hle').imp_right (List.mem_append_left _)
  · exact .inr (List.mem_append_right _ (by simp [heq]))

/-! ### Switches -/

/-- In an orderly run that is not killed, a switch leaves the trees as they are. -/
theorem switch_invisible {base : MultiTree N} (hb : Origin base) {es : List (Event N)}
    {os : List (Reply N)}
    (ha : Along (step sha256 opts) (fun s e => Orderly s e ∧ e.isKill = false) ⟨freshDisk W base, none⟩ es)
    (he : exec (step sha256 opts) ⟨freshDisk W base, none⟩ es = some (s, os))
    (hs : step sha256 opts s .switch = some (s', o)) :
    (s'.db.map fun db => db.working) = s.db.map fun db => db.working := by
  have hcond : ∀ (s : World N W) e, (Orderly s e ∧ e.isKill = false) → Orderly s e ∧
      (False → Succeeds s e) ∧ (False → LinksBehind s e) ∧ (e.isKill = true → False) :=
    fun s e h => ⟨h.1, False.elim, False.elim, fun hk => nomatch h.2.symm.trans hk⟩
  obtain ⟨h, c, hi, -⟩ := inv_of_exec hb hcond ha he
  cases fires_of_step hs with
  | switch hf => simp [(hi.switch hf).2]

/-- Set the key `0` of the store `0`. -/
def setKey (value : UInt8) : NamedChangeSet ℕ := ⟨0, [⟨false, [0], some [value]⟩]⟩

/-- A first block is committed, written to the log and rewritten. Then a second block is
committed and written to the log while the rewritten multitree waits. -/
def twoBlocks (second : List (Event ℕ)) : List (Event ℕ) :=
  [.load [0], .applyChangeSets [setKey 0], .commit, .finish, .receive 0, .write] ++
    List.replicate 6 .rewrite ++ second ++ [.commit, .await, .receive 0, .write]

def runEvents (es : List (Event ℕ)) : Option (World ℕ (listLog (WALEntry ℕ))) :=
  (exec (step (fun _ => []) ⟨1, 0, true⟩) ⟨freshDisk _ (MultiTree.newEmptyMultiTree 0), none⟩ es).map Prod.fst

/-- The pairs of every tree in use. -/
def contents (s : World ℕ (listLog (WALEntry ℕ))) : Option (List (ℕ × List (Bytes × Bytes))) :=
  s.db.map fun db => db.working.mtree.trees.map fun e => (e.name, e.tree.pairs)

theorem switch_invisible_second_block :
    ∃ s s', runEvents (twoBlocks [.applyChangeSets [setKey 1]]) = some s ∧
      step (fun _ => []) ⟨1, 0, true⟩ s .switch = some (s', .returned true) ∧
      (s'.db.map fun db => db.working) = s.db.map fun db => db.working := by
  have ha : Along (step (fun _ => []) ⟨1, 0, true⟩) (fun s e => Orderly s e ∧ e.isKill = false)
    ⟨freshDisk (listLog (WALEntry ℕ)) (MultiTree.newEmptyMultiTree 0), none⟩
    (twoBlocks [.applyChangeSets [setKey 1]]) := by decide +kernel
  exact ⟨_, _, rfl, rfl, switch_invisible (Origin.empty (Nat.zero_le _)) ha rfl rfl⟩

/-- The store occurs twice in the first call of the block. The second call is merged into
its first change set, and the replay ends with the value of the other one. -/
theorem switch_changes_contents :
    let twice := twoBlocks [.applyChangeSets [setKey 1, setKey 2], .applyChangeSets [setKey 3]]
    (runEvents twice).map contents = some (some [(0, [([0], [3])])]) ∧
      (runEvents (twice ++ [.switch])).map contents = some (some [(0, [([0], [2])])]) :=
  ⟨rfl, rfl⟩

end IavlStore.Db
