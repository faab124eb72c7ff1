import IavlStore.Streaming.Follows
import IavlStore.VersionDb.Iterator

/-! Reads of the version database agree with the trees. For every committed multitree that no
rollback has taken back, at every later time, reads at its version find what its trees held. This
holds for any blocks, restarts, upgrades of other stores, kills that lose no entry of the log,
and rollbacks. -/

namespace IavlStore.Streaming

open IavlStore.Base.Encoding IavlStore.Base.SortedPairs IavlStore.Base.Journal IavlStore.Base.Runs
open IavlStore.Base.Ranges IavlStore.Multi IavlStore.Rootmulti
open IavlStore.VersionDb hiding History
open IavlStore.Db (DB World versionAt)

variable {L : RollbackLog (WALEntry Bytes)} {R : PlainRocksDB} {sha256 : Bytes → Bytes} {opts : Db.Options}
  {name : Bytes} {exposedKeys : List Bytes} {iv c : ℕ} {h : History (MultiTree Bytes) (WALEntry Bytes)}
  {world : World Bytes L.toWalLog} {s s' : Node L R}

/-! ### Ends of the process -/

/-- A process that has ended leaves the history and the version database. -/
theorem Follows.ended (hf : Follows name exposedKeys iv c h opts sha256 s) {c' : ℕ}
    (hk : Kept 0 iv h c' opts sha256 world) (hnone : world.db = none) (stores : List (Bytes × ChangeSet))
    (listeners : List (Bytes × List StoreKVPair)) (n : ℤ) :
    Follows name exposedKeys iv c' h opts sha256 ⟨⟨world, stores⟩, listeners, n, s.versionDB⟩ :=
  ⟨hk, hf.stocked, hf.recorded, fun d hd => absurd (hnone.symm.trans hd) (by simp)⟩

theorem states_cut {j : ℕ} (hn : Db.Numbered 0 iv h) (hj : j ≤ h.log.length) :
    states (h.cut j) = (states h).filter (·.version ≤ versionAt 0 iv j) := by
  have hlen : (h.cut j).log.length = j := by simp [History.cut, hj]
  have hver : ∀ i < h.log.length, ((h.state (i + 1)).version ≤ versionAt 0 iv j ↔ i < j) := by
    intro i hi
    rw [hn.version (i + 1) hi]
    exact ⟨fun hle => Db.le_of_versionAt_le hn.base hle, fun hlt => Db.versionAt_mono hn.base hlt⟩
  obtain ⟨m, hm⟩ := Nat.exists_eq_add_of_le hj
  rw [states, hlen, states, hm, List.range_add, List.map_append, List.filter_append]
  have hfront : ((List.range j).map fun i => h.state (i + 1)).filter (·.version ≤ versionAt 0 iv j) =
      (List.range j).map fun i => h.state (i + 1) := by
    apply List.filter_eq_self.mpr
    intro t ht
    obtain ⟨i, hi, rfl⟩ := List.mem_map.mp ht
    have hi := List.mem_range.mp hi
    simpa using (hver i (by omega)).mpr hi
  have hback : (((List.range m).map (j + ·)).map fun i => h.state (i + 1)).filter (·.version ≤ versionAt 0 iv j) =
      [] := by
    apply List.filter_eq_nil_iff.mpr
    intro t ht
    obtain ⟨i, hi, rfl⟩ := List.mem_map.mp ht
    obtain ⟨k, hk, rfl⟩ := List.mem_map.mp hi
    have hk := List.mem_range.mp hk
    simp [hver (j + k) (by omega)]
  rw [hfront, hback, List.append_nil]
  rfl

/-- A rollback takes the states above its target back. -/
theorem Follows.rollbackToVersion (hf : Follows name exposedKeys iv c h opts sha256 s) {target : ℕ}
    (hs : Streaming.rollbackToVersion sha256 opts target s = some s') :
    ∃ h' c', states h' = (states h).filter (·.version ≤ target) ∧
      Follows name exposedKeys iv c' h' opts sha256 s' := by
  unfold Streaming.rollbackToVersion at hs
  split_ifs at hs with htarget
  simp only [Option.bind_eq_bind, Option.bind_eq_some_iff] at hs
  obtain ⟨⟨disk, _⟩, hclosed, world, hl, heq⟩ := hs
  obtain rfl := Option.some.inj heq
  obtain ⟨rfl, hk⟩ := hf.kept.closed hclosed
  obtain ⟨j, c', hpos, hj, rfl, hk'⟩ := hk.rollback (Nat.pos_of_ne_zero htarget) hl
  have hn := hk.inv.numbered
  have hlen : (h.cut j).log.length = j := by simp [History.cut, hj]
  refine ⟨h.cut j, c', states_cut hn hj, hk', fun i hi => hf.stocked i (by omega),
    ⟨hf.recorded.skip, fun i hi key => hf.recorded.values i (by omega) key, hf.recorded.positive, ?_⟩,
    fun d hd => absurd hd (by simp)⟩
  obtain ⟨latest, hlatest, hle, -⟩ := hf.recorded.latest
  refine ⟨latest, hlatest, hle, fun h0 => ?_⟩
  rw [History.last, hk'.inv.numbered.version _ le_rfl, hlen, versionAt, if_neg hpos.ne'] at h0
  omega

/-! ### Runs -/

theorem call_of_step {call : Call Bytes} {es : List (Db.Event Bytes)} {o : Published}
    (hs : Streaming.step sha256 opts exposedKeys s (.call call es) = some (s', o)) :
    (∀ mounts upgrades, call ≠ .load mounts upgrades) ∧ ∃ store info,
      Rootmulti.step sha256 opts s.store (call, es) = some (store, info) ∧ o = Streaming.publish store call ∧
      s' = ⟨store, listen s.listeners call, s.currentBlockNumber, listenCommit s call⟩ := by
  cases call with
  | load => cases hs
  | setInitialVersion | set | delete | workingHash | commit | close =>
    simp only [Streaming.step, Option.bind_eq_bind, Option.bind_eq_some_iff, Option.some.injEq, Prod.mk.injEq] at hs
    obtain ⟨⟨store, info⟩, hstep, rfl, rfl⟩ := hs
    exact ⟨by simp, store, info, hstep, rfl, rfl⟩

/-- One call. -/
theorem Follows.call (hf : Follows name exposedKeys iv c h opts sha256 s)
    (hplain : ∀ key ∈ exposedKeys, PlainName key) (hname : name ∈ exposedKeys) {call : Call Bytes}
    {es : List (Db.Event Bytes)} {o : Published} (hr : Regular s (.call call es))
    (hs : Streaming.step sha256 opts exposedKeys s (.call call es) = some (s', o)) :
    ∃ iv' h' c', states h' = o.extend (states h) ∧ Follows name exposedKeys iv' c' h' opts sha256 s' := by
  obtain ⟨hload, store, info, hstep, rfl, rfl⟩ := call_of_step hs
  obtain ⟨⟨world, stores⟩, listeners, n, versionDB⟩ := s
  cases answers_of_step sha256 opts hstep with
  | load => exact absurd rfl (hload _ _)
  | setInitialVersion hv hb =>
    obtain ⟨hnil, c', hf'⟩ := hf.setInitialVersion (hr _ rfl) hv hb
    refine ⟨_, _, c', ?_, hf'⟩
    simp [Streaming.publish, Published.extend, states, hnil]
  | set hmem hb =>
    obtain ⟨c', hf'⟩ := hf.write hname hmem _ _ _ hb
    exact ⟨iv, h, c', rfl, hf'⟩
  | delete hmem hb =>
    obtain ⟨c', hf'⟩ := hf.write hname hmem _ _ _ hb
    exact ⟨iv, h, c', rfl, hf'⟩
  | workingHash hflush hb =>
    obtain ⟨c', hf'⟩ := hf.workingHash hflush hb
    exact ⟨iv, h, c', rfl, hf'⟩
  | @commit _ _ _ db₂ _ _ _ world' t hflush hc hb hdb hidle =>
    obtain ⟨hmax, hnumber⟩ := hr _ rfl
    obtain ⟨htree, h', c', hstates, hf'⟩ := hf.commit hplain hname hmax hnumber hflush hc hb fun d hd => by
      obtain rfl := Option.some.inj (hdb.symm.trans hd)
      exact hidle
    rw [hdb] at htree
    refine ⟨iv, h', c', ?_, hf'⟩
    simp only [Streaming.publish, hdb, Published.extend, hstates, ← Option.some.inj htree]
  | close hb hc =>
    obtain ⟨c', -, hdb', hk', -, -⟩ := hf.kept.background rfl hb
    obtain ⟨hnone, hk''⟩ := hk'.closeStep hc
    exact ⟨iv, h, c', rfl, hf.ended hk'' hnone _ _ _⟩

/-- One step, in whatever state the node is. -/
theorem Follows.step (hf : Follows name exposedKeys iv c h opts sha256 s)
    (hplain : ∀ key ∈ exposedKeys, PlainName key) (hname : name ∈ exposedKeys) {e : NodeEvent} {o : Published}
    (hr : Regular s e) (hspare : SparedBy name e)
    (hs : Streaming.step sha256 opts exposedKeys s e = some (s', o)) :
    ∃ iv' h' c', states h' = o.extend (states h) ∧ Follows name exposedKeys iv' c' h' opts sha256 s' := by
  cases e with
  | start mounts upgrades es =>
    obtain ⟨s₁, hstart, heq⟩ := Option.map_eq_some_iff.mp hs
    cases heq
    obtain ⟨c', hf'⟩ := hf.start hspare hstart
    exact ⟨iv, h, c', rfl, hf'⟩
  | listenFinalizeBlock height =>
    cases hs
    exact ⟨iv, h, c, rfl, hf.kept, hf.stocked, hf.recorded, hf.block⟩
  | call call es => exact hf.call hplain hname hr hs
  | kill written =>
    simp only [Streaming.step, Option.bind_eq_bind, Option.bind_eq_some_iff] at hs
    obtain ⟨⟨world, reply⟩, hkill, heq⟩ := hs
    cases heq
    obtain ⟨⟨⟨disk, _ | db⟩, stores⟩, listeners, n, versionDB⟩ := s
    · cases hkill
    · obtain ⟨hnone, hk⟩ := hf.kept.kill (hr db rfl).1 (hr db rfl).2 hkill
      exact ⟨iv, h, c, rfl, hf.ended hk hnone _ _ _⟩
  | rollbackToVersion target =>
    obtain ⟨s₁, hroll, heq⟩ := Option.map_eq_some_iff.mp hs
    cases heq
    obtain ⟨h', c', hstates, hf'⟩ := hf.rollbackToVersion hroll
    exact ⟨iv, h', c', hstates, hf'⟩

theorem follows_newNode (hiv : iv ≤ maxInt64) (name : Bytes) (exposedKeys : List Bytes) :
    Follows name exposedKeys iv 0 ⟨[], fun _ => MultiTree.newEmptyMultiTree iv⟩ opts sha256 (newNode L R iv) := by
  refine ⟨Origin.kept (Db.Origin.empty hiv), fun _ _ => stocked_newEmptyMultiTree iv,
    ⟨rfl, fun i hi key => ?_, ?_, 0, ?_, ?_, fun _ => rfl⟩, fun _ hd => absurd hd (by simp [newNode])⟩
  · obtain rfl := Nat.le_zero.mp hi
    exact valueAt_zero (by simp [newNode, VersionDb.Store.newStore, R.records_new]) key
  · simp [newNode, VersionDb.Store.newStore, R.records_new]
  · simp [newNode, VersionDb.Store.newStore, VersionDb.Store.getLatestVersion, R.getBytes_new]
  · simp [newNode, VersionDb.Store.newStore, R.records_new]

/-- A whole run. -/
theorem follows_exec (hiv : iv ≤ maxInt64) (hplain : ∀ key ∈ exposedKeys, PlainName key) (hname : name ∈ exposedKeys)
    {es : List NodeEvent} {os : List Published}
    (ha : Along (Streaming.step sha256 opts exposedKeys) (fun s e => Regular s e ∧ SparedBy name e)
      (newNode L R iv) es)
    (he : exec (Streaming.step sha256 opts exposedKeys) (newNode L R iv) es = some (s, os)) :
    ∃ iv' h c, states h = lineage os ∧ Follows name exposedKeys iv' c h opts sha256 s := by
  refine exec_invariant (P := fun s os => ∃ iv' h c, states h = lineage os ∧
    Follows name exposedKeys iv' c h opts sha256 s) ?_ ⟨iv, _, 0, rfl, follows_newNode hiv name exposedKeys⟩ ha he
  rintro s os e s' o ⟨iv', h, c, hstates, hf⟩ ⟨hr, hspare⟩ hs
  obtain ⟨iv'', h', c', hstates', hf'⟩ := hf.step hplain hname hr hspare hs
  refine ⟨iv'', h', c', ?_, hf'⟩
  rw [hstates', hstates, lineage, lineage, List.foldl_append]
  rfl

/-! ### Agreement -/

/-- A read at the version of a state finds what its trees hold. -/
theorem Follows.getAtVersion (hf : Follows name exposedKeys iv c h opts sha256 s) {t : MultiTree Bytes}
    (ht : t ∈ states h) (key : Bytes) :
    s.versionDB.getAtVersion name key (some t.version) = lookupPair key (t.pairsOf name) ∧ t.Stocked := by
  obtain ⟨i, hi, rfl⟩ := List.mem_map.mp ht
  have hi : i + 1 ≤ h.log.length := List.mem_range.mp hi
  have hn := hf.kept.inv.numbered
  have hv := hn.version _ hi
  refine ⟨?_, hf.stocked _ hi⟩
  rw [getAtVersion_eq_valueAt hf.recorded.skip name key (hv ▸ hn.versionAt_le hi), hv]
  exact hf.recorded.values _ hi key

/-- Two stores are started at version five. The second block is closed in the middle and begun
anew, the third is rolled back and replaced by another one. -/
def blocksWithRollback : List NodeEvent :=
  [.start [[97], [98]] .none [], .call (.setInitialVersion 5) [], .listenFinalizeBlock 5,
    .call (.set [97] [1] (some [10])) [], .call (.set [98] [1] (some [20])) [], .call .commit [.finish],
    .listenFinalizeBlock 6, .call (.set [97] [1] (some [99])) [], .call .close [],
    .start [[97], [98]] .none [], .listenFinalizeBlock 6, .call (.set [97] [2] (some [11])) [], .call .workingHash [],
    .call (.delete [97] [1]) [], .call .commit [.finish],
    .listenFinalizeBlock 7, .call (.set [97] [2] (some [12])) [], .call .commit [.finish], .kill 0,
    .rollbackToVersion 6, .start [[97], [98]] .none [], .listenFinalizeBlock 7,
    .call (.set [97] [3] (some [13])) [], .call .commit [.finish]]

def nodeAfter (es : List NodeEvent) :
    Option (Node (listRollbackLog (WALEntry Bytes)) listPlainRocksDB × List Published) :=
  exec (Streaming.step (fun _ => []) ⟨100, 0, false⟩ [[97], [98]]) (newNode _ _ 0) es

/-- The pairs that an iterator shows are those of the tree in the range. -/
theorem Follows.shownPairs (hf : Follows name exposedKeys iv c h opts sha256 s) {t : MultiTree Bytes}
    (ht : t ∈ states h) (start stop : Option Bytes) :
    VersionDb.shownPairs s.versionDB name start stop (some t.version) =
      rangePairs start stop (t.pairsOf name) := by
  have hsorted := (hf.getAtVersion ht []).2.sorted name
  apply sorted_shownPairs.ext (hsorted.filter _)
  intro key
  apply Option.ext
  intro value
  rw [← mem_iff_lookupPair sorted_shownPairs, ← mem_iff_lookupPair (hsorted.filter _),
    mem_shownPairs, List.mem_filter, mem_iff_lookupPair hsorted, ← (hf.getAtVersion ht key).1, and_comm]
  simp [VersionDb.Store.getAtVersion]

end IavlStore.Streaming
