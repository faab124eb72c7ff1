import IavlStore.Rootmulti.Recovery
import Mathlib.Data.List.ReduceOption

/-! The working hash is the hash of the next commit. Saving changes no root hash, and neither
does any step of the other threads but a switch to a rewritten multitree. A switch leaves the
trees as they are as long as every load has reached the end of the log. After a load of an
older version the log still holds entries of the versions after it; a rewritten multitree
replays these instead of the new ones. -/

namespace IavlStore.Rootmulti

open IavlStore.Base.Encoding IavlStore.Base.SortedPairs IavlStore.Base.Journal IavlStore.Base.Runs
open IavlStore.Multi IavlStore.Db

variable {N : Type} [LinearOrder N] {W : WalLog (WALEntry N)} {sha256 : Bytes → Bytes} {opts : Options}

/-! ### Hashes -/

/-- The hash of a commit depends on the names and the hashes of the stores. -/
def commitHash (hash : List (N × Bytes) → Bytes) (info : CommitInfo N) : Bytes :=
  hash (info.storeInfos.map fun i => (i.name, i.hash))

/-- The names and the root hashes of the trees. -/
def rootHashes (sha256 : Bytes → Bytes) (t : MultiTree N) : List (N × Bytes) :=
  t.trees.map fun e => (e.name, e.tree.rootHash sha256)

omit [LinearOrder N] in
theorem commitHash_buildCommitInfo (hash : List (N × Bytes) → Bytes) (v : ℕ) (t : MultiTree N) :
    commitHash hash (t.buildCommitInfo sha256 v) = hash (rootHashes sha256 t) := by
  simp [commitHash, rootHashes, MultiTree.buildCommitInfo, Function.comp_def]

omit [LinearOrder N] in
theorem rootHashes_saveTrees {trees trees' : List (NamedTree N)} (h : MultiTree.saveTrees trees = .ok trees') :
    (trees'.map fun e => (e.name, e.tree.rootHash sha256)) = trees.map fun e => (e.name, e.tree.rootHash sha256) := by
  induction trees generalizing trees' with
  | nil => cases h; rfl
  | cons e es ih =>
    rw [MultiTree.saveTrees] at h
    rcases hs : e.tree.saveVersion with _ | tree
    · simp only [hs, reduceCtorEq] at h
    · rcases hr : MultiTree.saveTrees es with err | rest
      · rw [hs, hr] at h
        cases h
      · rw [hs, hr] at h
        cases h
        have htree : tree.rootHash sha256 = e.tree.rootHash sha256 := by
          unfold Tree.saveVersion at hs
          split_ifs at hs
          cases hs
          rfl
        simp [ih hr, htree]

omit [LinearOrder N] in
/-- The commit info of a saved multitree has the working hashes. -/
theorem commitHash_saveVersion (hash : List (N × Bytes) → Bytes) {t t' : MultiTree N}
    (h : t.saveVersion sha256 true = .ok t') : commitHash hash t'.lastCommitInfo = hash (rootHashes sha256 t) := by
  obtain ⟨trees, hs, rfl⟩ := MultiTree.saveVersion_eq_ok h
  rw [rootHashes, ← rootHashes_saveTrees hs]
  exact commitHash_buildCommitInfo hash _ _

omit [LinearOrder N] in
/-- The initial version is set while all trees are empty. -/
theorem rootHashes_setInitialVersion {v : ℕ} {t t' : MultiTree N} (h : t.setInitialVersion v = .ok t') :
    rootHashes sha256 t' = rootHashes sha256 t := by
  obtain ⟨-, -, hempty, rfl⟩ := MultiTree.setInitialVersion_eq_ok h
  unfold rootHashes MultiTree.assignInitialVersion
  split_ifs
  · rw [List.map_map]
    refine List.map_congr_left fun e he => ?_
    have hroot : (setInitialVersionTree v e.tree).root = e.tree.root := by
      unfold setInitialVersionTree
      split_ifs <;> rfl
    simp [Tree.rootHash, hroot]
  · rfl

/-! ### Calls without writes -/

/-- Calls between a working hash and the commit. -/
def isQuiet : Call N → Bool
  | .workingHash | .setInitialVersion _ => true
  | _ => false

/-- The other threads leave the block of a call alone. -/
def Calm (sha256 : Bytes → Bytes) (opts : Options) (s : Store N W) (e : Call N × List (Event N)) : Prop :=
  ∀ db s₁ info world, s.world.db = some db → call sha256 opts s db e.1 = some (s₁, info) →
    background sha256 opts s₁.world e.2 = some world →
    (world.db.map fun db => db.working) = s₁.world.db.map fun db => db.working

/-- Nothing is collected, and the trees in use have these hashes. -/
structure Showing (sha256 : Bytes → Bytes) (hashes : List (N × Bytes)) (s : Store N W) : Prop where
  cleared : ∀ w ∈ s.stores, w.2 = []
  hashes : ∀ db ∈ s.world.db, rootHashes sha256 db.working.mtree = hashes

theorem popChangeSets_of_cleared {stores : List (N × ChangeSet)} (h : ∀ w ∈ stores, w.2 = []) :
    popChangeSets stores = [] := by
  have hf : stores.filter (fun s => s.2 ≠ []) = [] := by
    refine List.filter_eq_nil_iff.mpr fun s hs => ?_
    simp [h s hs]
  rw [popChangeSets, hf]
  rfl

/-- A second flush does nothing. -/
theorem flush_of_cleared {db db' : DB N} {stores : List (N × ChangeSet)} (h : ∀ w ∈ stores, w.2 = [])
    (hf : flush db stores = some db') : db' = db := by
  rw [flush, popChangeSets_of_cleared h, Working.applyChangeSets, if_pos rfl] at hf
  exact (Option.some.inj hf).symm

omit [LinearOrder N] in
theorem cleared_clearStores (stores : List (N × ChangeSet)) : ∀ w ∈ clearStores stores, w.2 = [] := by
  intro w hw
  obtain ⟨w', -, rfl⟩ := List.mem_map.mp hw
  rfl

variable {s s' : Store N W} {hashes : List (N × Bytes)}

omit [LinearOrder N] in
theorem Showing.of_block {world world' : World N W} {stores : List (N × ChangeSet)} {db : DB N}
    (hc : ∀ w ∈ stores, w.2 = []) (hdb : world.db = some db) (hh : rootHashes sha256 db.working.mtree = hashes)
    (hw : (world'.db.map fun db => db.working) = world.db.map fun db => db.working) :
    Showing sha256 hashes (⟨world', stores⟩ : Store N W) := by
  refine ⟨hc, fun d hd => ?_⟩
  have hd' : world'.db = some d := hd
  rw [hdb, hd', Option.map_some, Option.map_some, Option.some.injEq] at hw
  rw [hw]
  exact hh

/-- A call without writes keeps the hashes. -/
theorem Showing.step (hs : Showing sha256 hashes s) {e : Call N × List (Event N)} {o : Option (CommitInfo N)}
    (hq : isQuiet e.1 = true) (hc : Calm sha256 opts s e) (hstep : Rootmulti.step sha256 opts s e = some (s', o)) :
    Showing sha256 hashes s' := by
  cases answers_of_step sha256 opts hstep with
  | @setInitialVersion disk db stores v es world world' hv hb =>
    obtain ⟨t, hset, rfl⟩ := setInitialVersion_eq_some hv
    refine .of_block hs.cleared rfl ?_ (hc _ ⟨_, stores⟩ none _ rfl (by simp [call, hv]) hb)
    exact (rootHashes_setInitialVersion hset).trans (hs.hashes db rfl)
  | @workingHash disk db db' stores es world hf hb =>
    refine .of_block (cleared_clearStores stores) rfl ?_ (hc _ ⟨_, clearStores stores⟩
      (some (db'.working.mtree.workingCommitInfo sha256)) _ rfl (by simp [call, hf]) hb)
    rw [flush_of_cleared hs.cleared hf]
    exact hs.hashes db rfl
  | load | set | delete | commit | close => cases hq

/-- A commit returns the hash of the trees. -/
theorem Showing.commit (hs : Showing sha256 hashes s) {es : List (Event N)} {o : Option (CommitInfo N)}
    (hc : Calm sha256 opts s (.commit, es)) (hstep : Rootmulti.step sha256 opts s (.commit, es) = some (s', o))
    (hash : List (N × Bytes) → Bytes) : ∃ y, o = some y ∧ commitHash hash y = hash hashes := by
  cases answers_of_step sha256 opts hstep with
  | @commit disk db db' db'' stores _ world world' t hf hcm hb hdb hidle =>
    have hw := hc _ ⟨_, clearStores stores⟩ none _ rfl (by simp [call, hf, hcm]) hb
    obtain rfl := flush_of_cleared hs.cleared hf
    obtain ⟨hsave, hcases⟩ := commit_eq_some hcm
    have ht : (world.db.map fun db => db.working) = some ⟨t, emptyEntry⟩ := by
      rcases hcases with ⟨-, rfl⟩ | ⟨-, wal, -, rfl⟩ <;> rfl
    rw [hdb, ht, Option.map_some, Option.some.injEq] at hw
    refine ⟨_, rfl, ?_⟩
    rw [hw, commitHash_saveVersion hash hsave, hs.hashes db' rfl]

/-- From a working hash on, calls without writes lead to a commit with that hash. -/
theorem Showing.exec (hash : List (N × Bytes) → Bytes) {q : List (Call N × List (Event N))} {es : List (Event N)}
    {os : List (Option (CommitInfo N))} (hs : Showing sha256 hashes s) (hq : ∀ e ∈ q, isQuiet e.1 = true)
    (hc : Along (Rootmulti.step sha256 opts) (Calm sha256 opts) s (q ++ [(.commit, es)]))
    (he : Base.Runs.exec (Rootmulti.step sha256 opts) s (q ++ [(.commit, es)]) = some (s', os)) :
    ∃ infos y, os = infos ++ [some y] ∧ commitHash hash y = hash hashes := by
  induction q generalizing s os with
  | nil =>
    obtain ⟨s₁, o, os', hstep, hnil, rfl⟩ := exec_cons he
    cases hnil
    obtain ⟨y, rfl, hy⟩ := hs.commit hc.1 hstep hash
    exact ⟨[], y, rfl, hy⟩
  | cons e q ih =>
    obtain ⟨s₁, o, os', hstep, hes, rfl⟩ := exec_cons he
    obtain ⟨infos, y, rfl, hy⟩ := ih (hs.step (hq e (by simp)) hc.1 hstep) (fun e he => hq e (by simp [he]))
      (hc.2 _ hstep) hes
    exact ⟨o :: infos, y, rfl, hy⟩

/-- A working hash, calls without writes, and a commit, all undisturbed. -/
theorem commitHash_of_calm (hash : List (N × Bytes) → Bytes) {q : List (Call N × List (Event N))}
    {ws es : List (Event N)} {x y : CommitInfo N} {infos : List (Option (CommitInfo N))}
    (hq : ∀ e ∈ q, isQuiet e.1 = true)
    (hc : Along (step sha256 opts) (Calm sha256 opts) s ((.workingHash, ws) :: (q ++ [(.commit, es)])))
    (he : exec (step sha256 opts) s ((.workingHash, ws) :: (q ++ [(.commit, es)])) =
      some (s', some x :: (infos ++ [some y]))) : commitHash hash y = commitHash hash x := by
  obtain ⟨s₁, o, os', hstep, hes, heq⟩ := exec_cons he
  obtain ⟨rfl, rfl⟩ := List.cons.inj heq
  cases id (answers_of_step sha256 opts hstep) with
  | @workingHash disk db db' stores _ world hf hb =>
    have hw := hc.1 _ ⟨_, clearStores stores⟩ (some (db'.working.mtree.workingCommitInfo sha256)) _ rfl
      (by simp [call, hf]) hb
    have hshow : Showing sha256 (rootHashes sha256 db'.working.mtree) (⟨world, clearStores stores⟩ : Store N W) :=
      .of_block (cleared_clearStores stores) rfl rfl hw
    obtain ⟨infos', y', heq, hy⟩ := hshow.exec hash hq (hc.2 _ hstep) hes
    obtain ⟨-, hlast⟩ := List.append_inj' heq rfl
    cases hlast
    rw [hy]
    exact (commitHash_buildCommitInfo hash _ _).symm

/-! ### Undisturbed calls -/

/-- No background step but a switch changes the block. -/
theorem working_background {world world' : World N W} {es : List (Event N)} (hns : .switch ∉ es)
    (hb : background sha256 opts world es = some world') :
    (world'.db.map fun db => db.working) = world.db.map fun db => db.working := by
  induction es generalizing world with
  | nil =>
    cases hb
    rfl
  | cons e es ih =>
    rw [background] at hb
    split_ifs at hb with he
    rcases hs : Db.step sha256 opts world e with _ | ⟨world₁, o⟩
    · simp only [hs, reduceCtorEq] at hb
    have hb₁ : background sha256 opts world₁ es = some world' := by
      rcases o with _ | t | _ | _ <;> simp only [hs, reduceCtorEq] at hb <;> exact hb
    rw [ih (fun h => hns (by simp [h])) hb₁]
    cases fires_of_step hs with
    | receive hf =>
      obtain ⟨-, rfl⟩ := receive_eq_some hf
      rfl
    | write hf =>
      rcases write_eq_some hf with ⟨wal, -, rfl⟩ | ⟨-, rfl⟩ <;> rfl
    | finish hf =>
      obtain ⟨v, -, rfl | rfl | rfl⟩ := finish_eq_some hf
      · rfl
      · exact congrArg some (working_endCommit opts v _)
      · exact congrArg some (working_endCommit opts v _)
    | await hf =>
      obtain ⟨v, t, sv, -, -, rfl⟩ := await_eq_some hf
      rfl
    | rewrite | rewriteFail | prune => rfl
    | switch hf => exact absurd List.mem_cons_self hns
    | load | kill | setInitialVersion | applyUpgrades | applyChangeSets | commit | close => cases he

theorem calm_of_no_switch {e : Call N × List (Event N)} (hns : .switch ∉ e.2) : Calm sha256 opts s e :=
  fun _ _ _ _ _ _ hb => working_background hns hb

/-- A store that follows its replica is not disturbed by a switch either. -/
theorem calm_of_tracks {r : Replica N} (ht : Tracks opts sha256 r s) {e : Call N × List (Event N)}
    (ha : Allowed s e) : Calm sha256 opts s e := by
  obtain ⟨v₀, iv, h, c, hk, -, hopen⟩ := ht
  intro db s₁ info world hdb hcall hb
  have hkept : ∀ {v₀ iv h c db₁}, Kept v₀ iv h c opts sha256 s₁.world → s₁.world.db = some db₁ →
      (world.db.map fun db => db.working) = s₁.world.db.map fun db => db.working := by
    intro v₀ iv h c db₁ hk₁ hdb₁
    obtain ⟨-, db', hdb', -, hw, -⟩ := hk₁.background hdb₁ hb
    rw [hdb', hdb₁, Option.map_some, Option.map_some, hw]
  obtain ⟨hm, -⟩ := hopen db hdb
  obtain ⟨⟨disk, _⟩, stores⟩ := s
  obtain rfl : _ = some db := hdb
  obtain ⟨c, es⟩ := e
  cases c with
  | load | close => simp [call] at hcall
  | setInitialVersion v =>
    simp only [call, Option.bind_eq_bind, Option.bind_eq_some_iff, Option.some.injEq, Prod.mk.injEq] at hcall
    obtain ⟨world₁, hv, rfl, -⟩ := hcall
    obtain ⟨db₁, hdb₁, hk₁, -, -⟩ := hk.setInitialVersion hm (ha _ rfl) hv
    exact hkept hk₁ hdb₁
  | set name key value =>
    simp only [call, Option.ite_none_right_eq_some, Option.some.injEq, Prod.mk.injEq] at hcall
    obtain ⟨-, rfl, -⟩ := hcall
    exact hkept hk rfl
  | delete name key =>
    simp only [call, Option.ite_none_right_eq_some, Option.some.injEq, Prod.mk.injEq] at hcall
    obtain ⟨-, rfl, -⟩ := hcall
    exact hkept hk rfl
  | workingHash =>
    simp only [call, Option.bind_eq_bind, Option.bind_eq_some_iff, Option.some.injEq, Prod.mk.injEq] at hcall
    obtain ⟨db₁, hf, rfl, -⟩ := hcall
    exact hkept (hk.flush hm hf).1 rfl
  | commit =>
    simp only [call, Option.bind_eq_bind, Option.bind_eq_some_iff, Option.some.injEq, Prod.mk.injEq] at hcall
    obtain ⟨db₁, hf, ⟨world₁, t⟩, hc, rfl, -⟩ := hcall
    obtain ⟨hk₁, -, -, hver, hiv⟩ := hk.flush hm hf
    obtain ⟨-, -, hk₂, db₂, hdb₂, -⟩ := hk₁.commit hc (by rw [hver, hiv]; exact ha _ rfl)
    exact hkept hk₂ hdb₂

/-! ### Loads of any version -/

inductive VersionCall (N : Type) where
  | call (c : Call N)
  | loadVersion (target : ℕ) (mounts : List N) (upgrades : StoreUpgrades N)

def versionCallStep (sha256 : Bytes → Bytes) (opts : Options) (s : Store N W)
    (e : VersionCall N × List (Event N)) : Option (Store N W × Option (CommitInfo N)) :=
  match e.1, s.world.db with
  | .call c, _ => step sha256 opts s (c, e.2)
  | .loadVersion target mounts upgrades, none => do
    let s ← load sha256 target mounts upgrades s.world.disk
    let world ← background sha256 opts s.world e.2
    some (⟨world, s.stores⟩, none)
  | .loadVersion _ _ _, some _ => none

/-- A load asks for the latest version or for one that is not before the last one in the log. -/
def LoadsLatest (s : Store N W) (e : VersionCall N × List (Event N)) : Prop :=
  match e.1 with
  | .call c => Allowed s (c, e.2)
  | .loadVersion target _ _ => target = 0 ∨ W.lastIndex s.world.disk.wal = 0 ∨
    ∀ p ∈ s.world.disk.snapshots, walVersion (W.lastIndex s.world.disk.wal) p.2.initialVersion ≤ target

instance (s : Store N W) (e : VersionCall N × List (Event N)) : Decidable (LoadsLatest s e) :=
  match e with
  | (.call c, es) => inferInstanceAs (Decidable (Allowed s (c, es)))
  | (.loadVersion _ _ _, _) => inferInstanceAs (Decidable (_ = 0 ∨ _ = 0 ∨ ∀ p ∈ s.world.disk.snapshots, _ ≤ _))

theorem Kept.latest {v₀ iv c : ℕ} {h : History (MultiTree N) (WALEntry N)} {disk : Disk N W}
    (hk : Kept v₀ iv h c opts sha256 ⟨disk, none⟩) {target : ℕ}
    (hl : ∀ p ∈ disk.snapshots, walVersion (W.lastIndex disk.wal) p.2.initialVersion ≤ target) :
    h.log = [] ∨ versionAt v₀ iv h.log.length ≤ target := by
  have hn := hk.inv.numbered
  have hlast : W.lastIndex disk.wal = h.log.length := hk.inv.closed rfl
  have hdir := hl _ (pair_mem_of_lookupPair hk.inv.disk.dir)
  rcases hlen : h.log.length with _ | n
  · exact .inl (List.length_eq_zero_iff.mp hlen)
  · have hiv : (h.state c).writeSnapshot.initialVersion = iv := hn.initialVersion c hk.inv.disk.le
    rw [hlast, hlen, hiv, walVersion_eq (hn.versionAt_le hlen.ge)] at hdir
    exact .inr hdir

theorem Tracks.versionCall {r : Replica N} (ht : Tracks opts sha256 r s) {e : VersionCall N × List (Event N)}
    {o : Option (CommitInfo N)} (ha : LoadsLatest s e) (hs : versionCallStep sha256 opts s e = some (s', o)) :
    ∃ r', Tracks opts sha256 r' s' := by
  obtain ⟨c, es⟩ := e
  cases c with
  | call c => exact ⟨_, (ht.step ha hs).2⟩
  | loadVersion target mounts upgrades =>
    obtain ⟨v₀, iv, h, c, hk, -, -⟩ := ht
    obtain ⟨⟨disk, _ | db⟩, stores⟩ := s
    · simp only [versionCallStep, Option.bind_eq_bind, Option.bind_eq_some_iff, Option.some.injEq,
        Prod.mk.injEq] at hs
      obtain ⟨s₁, hl, world, hb, rfl, -⟩ := hs
      have hlatest : target = 0 ∨ h.log = [] ∨ versionAt v₀ iv h.log.length ≤ target := by
        rcases ha with h0 | h0 | hle
        · exact .inl h0
        · exact .inr (.inl (List.length_eq_zero_iff.mp ((hk.inv.closed rfl).symm.trans h0)))
        · exact .inr (hk.latest hle)
      obtain ⟨db, hdb, hk', hm, -⟩ := hk.load hlatest hl
      exact ⟨_, Tracks.background hk' hdb hm hb⟩
    · simp [versionCallStep] at hs

/-- A commit after a working hash, with no writes between them, returns that hash: always when
it does not switch to a rewritten multitree, and otherwise in a run in which every load has
reached the end of the log. -/
theorem commitHash_eq_workingHash (hash : List (N × Bytes) → Bytes) {q : List (Call N × List (Event N))}
    {ws es : List (Event N)} {x y : CommitInfo N} {infos : List (Option (CommitInfo N))}
    (hq : ∀ e ∈ q, isQuiet e.1 = true)
    (he : exec (step sha256 opts) s ((.workingHash, ws) :: (q ++ [(.commit, es)])) =
      some (s', some x :: (infos ++ [some y])))
    (hcond : (∀ e ∈ (.workingHash, ws) :: (q ++ [(.commit, es)]), .switch ∉ e.2) ∨
      ∃ base cs os, Origin base ∧
        Along (versionCallStep sha256 opts) LoadsLatest ⟨⟨freshDisk W base, none⟩, []⟩ cs ∧
        exec (versionCallStep sha256 opts) ⟨⟨freshDisk W base, none⟩, []⟩ cs = some (s, os) ∧
        Along (step sha256 opts) Allowed s ((.workingHash, ws) :: (q ++ [(.commit, es)]))) :
    commitHash hash y = commitHash hash x := by
  refine commitHash_of_calm hash hq ?_ he
  rcases hcond with hns | ⟨base, cs, os, hb, ha, hcs, hall⟩
  · exact (along_of_forall hns s).of_invariant (P := fun _ => True)
      (fun _ _ _ h => ⟨calm_of_no_switch h, fun _ _ => trivial⟩) trivial
  · have htracks : ∃ r, Tracks opts sha256 r s := by
      refine exec_invariant (P := fun s _ => ∃ r, Tracks opts sha256 r s) ?_ ⟨_, Origin.tracks hb⟩ ha hcs
      rintro s _ e s' o ⟨r, ht⟩ hc hs
      exact ht.versionCall hc hs
    refine hall.of_invariant (P := fun s => ∃ r, Tracks opts sha256 r s) ?_ htracks
    rintro s e ⟨r, ht⟩ ha
    exact ⟨calm_of_tracks ht ha, fun q hq => ⟨_, (ht.step ha hq).2⟩⟩

/-! ### Two runs -/

def runVersionCalls (opts : Options) (es : List (VersionCall ℕ × List (Event ℕ))) :
    Option (Store ℕ (listLog (WALEntry ℕ)) × List (Option (CommitInfo ℕ))) :=
  exec (versionCallStep id opts) ⟨⟨freshDisk _ (MultiTree.newEmptyMultiTree 0), none⟩, []⟩ es

/-- The root hashes that a run returns. -/
def returnedHashes (opts : Options) (es : List (VersionCall ℕ × List (Event ℕ))) : Option (List (List Bytes)) :=
  (runVersionCalls opts es).map fun r => r.2.reduceOption.map fun info => info.storeInfos.map StoreInfo.hash

def setValue (value : UInt8) : VersionCall ℕ × List (Event ℕ) := (.call (.set 0 [0] (some [value])), [])

/-- A first block is committed and rewritten, and a second one is begun. -/
def begunBlock : List (VersionCall ℕ × List (Event ℕ)) :=
  [(.call (.load [0] .none), []), setValue 1, (.call .commit, .finish :: List.replicate 6 .rewrite), setValue 2]

/-- The second commit switches and returns the working hash. -/
theorem commitHash_after_switch :
    ∃ s s' os x y, runVersionCalls ⟨1, 0, false⟩ begunBlock = some (s, os) ∧
      exec (step id ⟨1, 0, false⟩) s [(.workingHash, []), (.commit, [.await, .switch])] = some (s', [some x, some y]) ∧
      commitHash (fun hs => hs.flatMap Prod.snd) y = commitHash (fun hs => hs.flatMap Prod.snd) x := by
  have ha : Along (versionCallStep id ⟨1, 0, false⟩) LoadsLatest
    (⟨⟨freshDisk (listLog (WALEntry ℕ)) (MultiTree.newEmptyMultiTree 0), none⟩, []⟩ : Store ℕ _)
    begunBlock := by decide
  have hall : ∀ r ∈ runVersionCalls ⟨1, 0, false⟩ begunBlock,
      Along (step id ⟨1, 0, false⟩) Allowed r.1 [(.workingHash, []), (.commit, [.await, .switch])] := by decide
  obtain ⟨s, s', os, x, y, hrun, he⟩ : ∃ s s' os x y, runVersionCalls ⟨1, 0, false⟩ begunBlock = some (s, os) ∧
      exec (step id ⟨1, 0, false⟩) s ((.workingHash, []) :: ([] ++ [(.commit, [.await, .switch])])) =
        some (s', some x :: ([] ++ [some y])) := ⟨_, _, _, _, _, rfl, rfl⟩
  exact ⟨s, s', os, x, y, hrun, he, commitHash_eq_workingHash _ (by simp) he
    (.inr ⟨_, begunBlock, _, Origin.empty (Nat.zero_le _), ha, hrun, hall _ hrun⟩)⟩

/-- Three blocks are committed, the first version is loaded again and two other blocks follow.
Their entries are skipped, since the log has entries of these versions, and the rewritten
multitree of the second version replays the old third entry. -/
def olderVersion : List (VersionCall ℕ × List (Event ℕ)) :=
  [(.call (.load [0] .none), []), setValue 1, (.call .commit, [.finish]), setValue 2,
    (.call .commit, [.finish, .rewriteFail]), setValue 3, (.call .commit, [.finish]), (.call .close, []),
    (.loadVersion 1 [0] .none, []), setValue 4, (.call .commit, .finish :: List.replicate 6 .rewrite), setValue 5,
    (.call .workingHash, []), (.call .commit, [.await, .switch])]

/-- The working hash is that of the value five, the commit returns that of the value three. -/
theorem commitHash_after_older_version :
    (returnedHashes ⟨2, 0, false⟩ olderVersion).map (List.drop 4) =
      some [[[0, 2, 6, 1, 0, 1, 5]], [[0, 2, 6, 1, 0, 1, 3]]] := by
  decide +kernel

end IavlStore.Rootmulti
