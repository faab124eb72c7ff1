import IavlStore.Db.Runs

/-! Loading after the process was killed. The snapshot and the log reach the disk through
two threads. When the `current` link is replaced only after the log has reached the
version of the snapshot, and every call that applies change sets succeeds, a killed
database is loaded at a state that was committed, and the log accepts the next commit.
Otherwise a link ahead of the log leaves a gap that the log rejects. -/

namespace IavlStore.Db

open IavlStore.Base.Encoding IavlStore.Base.SortedPairs IavlStore.Base.Journal IavlStore.Base.Runs
open IavlStore.Multi

variable {N : Type} [LinearOrder N] {W : WalLog (WALEntry N)} {sha256 : Bytes → Bytes} {opts : Options}
  {replayable behind : Prop} {v₀ iv c : ℕ} {h : History (MultiTree N) (WALEntry N)}

/-! ### Initial stores -/

theorem upgradeLoop_add (v : ℕ) (stores : List N) (trees : List (NamedTree N)) :
    MultiTree.upgradeLoop v (stores.map fun name => ⟨name, none, false⟩) trees =
      (trees ++ stores.map fun name => ⟨name, newWithInitialVersion v⟩, none) := by
  induction stores generalizing trees with
  | nil => simp [MultiTree.upgradeLoop]
  | cons name stores ih =>
    simp [MultiTree.upgradeLoop, MultiTree.upgradeTrees, ih]

/-- Distinct initial stores can be added to an empty multitree. -/
theorem initialWorking_empty {stores : List N} (hnd : stores.Nodup) (iv : ℕ) :
    (initialWorking stores (MultiTree.newEmptyMultiTree iv)).2 = none := by
  unfold initialWorking
  split_ifs with h0
  · have hne : (stores.map fun name => (⟨name, none, false⟩ : TreeNameUpgrade N)) ≠ [] := by
      simpa using h0.2
    have hnodup : ((MultiTree.sortTrees (stores.map fun name =>
        (⟨name, newWithInitialVersion (nextVersion 0 iv)⟩ : NamedTree N))).map NamedTree.name).Nodup := by
      refine (((List.perm_insertionSort _ _).map NamedTree.name).nodup_iff).mpr ?_
      simpa [Function.comp_def] using hnd
    have hidx := indexTrees_eq (k := 0) (m := []) hnodup (by simp)
    simp only [Working.applyUpgrades, MultiTree.applyUpgrades, MultiTree.newEmptyMultiTree, MultiTree.version]
    rw [if_neg hne, upgradeLoop_add]
    simp only [List.nil_append, hidx]
  · rfl

/-- At version zero nothing was committed. -/
theorem Numbered.last_of_version_zero (hn : Numbered v₀ iv h) (h0 : h.last.version = 0) :
    h.log = [] ∧ h.last = MultiTree.newEmptyMultiTree iv := by
  rw [History.last, hn.version _ le_rfl] at h0
  have hlen : h.log.length = 0 := by
    by_contra hne
    obtain ⟨k, hk⟩ := Nat.exists_eq_succ_of_ne_zero hne
    rw [hk, Nat.succ_eq_add_one, versionAt_succ] at h0
    omega
  rw [hlen] at h0
  refine ⟨List.length_eq_zero_iff.mp hlen, ?_⟩
  rw [History.last, hlen]
  exact hn.empty h0

theorem Numbered.initialWorking (hn : Numbered v₀ iv h) {stores : List N} (hnd : stores.Nodup) :
    (Db.initialWorking stores h.last).2 = none := by
  by_cases h0 : h.last.version = 0
  · rw [(hn.last_of_version_zero h0).2]
    exact initialWorking_empty hnd iv
  · rw [Db.initialWorking, if_neg fun hc => h0 hc.1]

/-! ### Killed and loaded -/

/-- A database killed at any point of such a run is loaded at its first state or one that
was committed, and the next commit has the next index of the log. -/
theorem load_after_kill {base : MultiTree N} (hb : Origin base) {es : List (Event N)}
    {os : List (Reply N)} {s s' : World N W} {o : Reply N}
    (ha : Along (step sha256 opts) (fun s e => Orderly s e ∧ Succeeds s e ∧ LinksBehind s e)
      ⟨freshDisk W base, none⟩ es)
    (he : exec (step sha256 opts) ⟨freshDisk W base, none⟩ es = some (s, os)) (n : ℕ)
    (hk : step sha256 opts s (.kill n) = some (s', o)) {stores : List N} (hnd : stores.Nodup) :
    ∃ t s₁, (t = base ∨ .saved t ∈ os) ∧ load sha256 stores s'.disk = some s₁ ∧
      (s₁.db.map fun db => db.working) = some (initialWorking stores t).1 ∧
      walIndex (nextVersion t.version t.initialVersion) t.initialVersion = W.lastIndex s'.disk.wal + 1 := by
  have hcond : ∀ (s : World N W) e, (Orderly s e ∧ Succeeds s e ∧ LinksBehind s e) → Orderly s e ∧
      (True → Succeeds s e) ∧ (True → LinksBehind s e) ∧ (e.isKill = true → True) :=
    fun s e h => ⟨h.1, fun _ => h.2.1, fun _ => h.2.2, fun _ => trivial⟩
  obtain ⟨h, c, hi, hstates⟩ := inv_of_exec hb hcond ha he
  cases fires_of_step hk with
  | kill =>
    obtain ⟨k, -, hcut⟩ := hi.kill trivial n
    have hn := hcut.numbered
    obtain ⟨s₁, hl⟩ := hcut.exists_load trivial (hn.initialWorking hnd)
    refine ⟨(h.cut k).last, s₁, hstates _ ?_, hl, (hcut.load hl).2, ?_⟩
    · simp [History.cut]
    · rw [hcut.closed rfl]
      exact hn.nextIndex le_rfl

/-- The log has the first block before its snapshot is linked. -/
theorem load_after_kill_linked :
    ∃ s s' s₁ t, runEvents ([.load [0], .applyChangeSets [setKey 0], .commit, .finish, .receive 0, .write] ++
        List.replicate 4 .rewrite) = some s ∧
      step (fun _ => []) ⟨1, 0, true⟩ s (.kill 0) = some (s', .nothing) ∧
      load (fun _ => []) [0] s'.disk = some s₁ ∧
      (s₁.db.map fun db => db.working) = some (initialWorking [0] t).1 ∧
      walIndex (nextVersion t.version t.initialVersion) t.initialVersion =
        (listLog (WALEntry ℕ)).lastIndex s'.disk.wal + 1 := by
  have ha : Along (step (fun _ => []) ⟨1, 0, true⟩) (fun s e => Orderly s e ∧ Succeeds s e ∧ LinksBehind s e)
    ⟨freshDisk (listLog (WALEntry ℕ)) (MultiTree.newEmptyMultiTree 0), none⟩
    ([.load [0], .applyChangeSets [setKey 0], .commit, .finish, .receive 0, .write] ++
        List.replicate 4 .rewrite) := by decide +kernel
  obtain ⟨t, s₁, -, hl, hw, hidx⟩ := load_after_kill (Origin.empty (Nat.zero_le _)) ha rfl 0 rfl
    (List.nodup_singleton 0)
  exact ⟨_, _, s₁, t, rfl, rfl, hl, hw, hidx⟩

/-- The snapshot is linked while the entry of its version is still queued. After a kill the
database is at version one and the log at index zero, and the log rejects the next commit. -/
theorem link_ahead_of_log_rejects_commit :
    let crash : List (Event ℕ) := [.load [0], .applyChangeSets [setKey 0], .commit, .finish] ++
      List.replicate 4 .rewrite ++ [.kill 0, .load [0]]
    let observe (s : World ℕ (listLog (WALEntry ℕ))) := (s.db.map fun db =>
      (db.working.mtree.version, db.writerFailed), (listLog (WALEntry ℕ)).lastIndex s.disk.wal)
    (runEvents crash).map observe = some (some (1, false), 0) ∧
      (runEvents (crash ++ [.commit, .receive 0, .write])).map observe = some (some (2, true), 0) :=
  ⟨rfl, rfl⟩

end IavlStore.Db
