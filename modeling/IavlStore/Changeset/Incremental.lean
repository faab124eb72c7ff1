import IavlStore.Changeset.Replay

/-! Verifying a store in two parts. Its files each hold consecutive versions, and where they overlap
they agree. A run to some version, continued from a snapshot of its tree, ends as one run over all
files does; a version that no file holds is noticed. -/

namespace IavlStore.Changeset

open IavlStore.Base.Encoding IavlStore.Base.Heaps IavlStore.Base.Parsers IavlStore.Heap IavlStore.Multi

/-- The versions in the files. -/
def versions (runs : List (List (ℤ × ChangeSet))) : List ℤ := runs.flatten.map Prod.fst

/-- Files written from runs of consecutive versions, of which `a` is the first and `b` the last. -/
structure StoreFiles (runs : List (List (ℤ × ChangeSet))) (files : List Bytes) (a b : ℕ) : Prop where
  written : runs.map writeChangeSets = files.map some
  ranges : ∀ run ∈ runs, ∀ r ∈ run, RecordRanges r
  length : ∀ file ∈ files, file.length < 2 ^ 63
  consecutive : ∀ run ∈ runs, run.IsChain fun r r' => r'.1 = r.1 + 1
  agree : ∀ r ∈ runs.flatten, ∀ r' ∈ runs.flatten, r.1 = r'.1 → r.2 = r'.2
  pos : 1 ≤ a
  first : (a : ℤ) ∈ versions runs
  last : (b : ℤ) ∈ versions runs
  between : ∀ v ∈ versions runs, (a : ℤ) ≤ v ∧ v ≤ b

variable {sha256 : Bytes → Bytes} {content : ℕ → ChangeSet} {run : List (ℤ × ChangeSet)}
  {runs : List (List (ℤ × ChangeSet))} {files : List Bytes} {a b : ℕ}

/-! ### The files that are found -/

/-- A run of consecutive versions is a span. -/
theorem eq_span (hchain : run.IsChain fun r r' => r'.1 = r.1 + 1)
    (hcontent : ∀ r ∈ run, 0 ≤ r.1 ∧ r.2 = content r.1.toNat) :
    ∀ r ∈ run.head?, run = span content r.1.toNat run.length := by
  induction run with
  | nil => simp
  | cons r run ih =>
    rintro r ⟨⟩
    obtain ⟨hpos, hr⟩ := hcontent r List.mem_cons_self
    have hhead : r = ((r.1.toNat : ℤ), content r.1.toNat) := Prod.ext (Int.toNat_of_nonneg hpos).symm hr
    have hspan : span content r.1.toNat (run.length + 1) =
        ((r.1.toNat : ℤ), content r.1.toNat) :: span content (r.1.toNat + 1) run.length := rfl
    rw [List.length_cons, hspan, ← hhead]
    congr 1
    rcases run with _ | ⟨r', run⟩
    · rfl
    · obtain ⟨hnext, hchain'⟩ := List.isChain_cons_cons.mp hchain
      have htail := ih hchain' (fun q hq => hcontent q (List.mem_cons_of_mem r hq)) r' rfl
      rwa [show r'.1.toNat = r.1.toNat + 1 by omega] at htail

theorem mem_span {first count : ℕ} {r : ℤ × ChangeSet} :
    r ∈ span content first count ↔ ∃ v : ℕ, (first ≤ v ∧ v < first + count) ∧ ((v : ℤ), content v) = r := by
  simp only [span, List.mem_map, List.mem_range'_1]

/-- The number of records in a file. -/
def recordCount (f : FileWithVersion) : ℕ :=
  (iterateChangeSets (E := Empty) (fun _ _ n => (n + 1, .ok true)) f.file 0).state

section
variable (hranges : ∀ r ∈ run, RecordRanges r) (hlen : (fileOf run).file.length < 2 ^ 63)
include hranges hlen

theorem recordCount_fileOf : recordCount (fileOf run) = run.length := by
  have hend : ∃ e, readChangeSet true [] = .error e := ⟨_, rfl⟩
  have h := (iterate_eq (E := Empty) (fun _ _ n => n + 1) hranges hend 0 (by rwa [Nat.zero_add])
    (length_le_recordBytes run) 0).2
  rw [List.append_nil] at h
  refine h.trans ?_
  rw [recordsRead, List.foldl_map, List.foldl_add_const]
  simp

theorem holdsSpan_fileOf (hne : run ≠ []) (hchain : run.IsChain fun r r' => r'.1 = r.1 + 1)
    (hcontent : ∀ r ∈ run, 0 ≤ r.1 ∧ r.2.map readBack = content r.1.toNat) :
    recordsRead true run = span content (fileOf run).version (recordCount (fileOf run)) ∧
      HoldsSpan sha256 content (fileOf run) (recordCount (fileOf run)) := by
  rw [recordCount_fileOf hranges hlen]
  obtain ⟨r, run, rfl⟩ := List.exists_cons_of_ne_nil hne
  have hr := hcontent r List.mem_cons_self
  have hlt := (hranges r List.mem_cons_self).1.2
  have hversion : (fileOf (r :: run)).version = r.1.toNat := by
    rw [fileOf, List.headD_cons, uint64, Int.emod_eq_of_lt hr.1 (by omega)]
  have hspan : recordsRead true (r :: run) = span content (fileOf (r :: run)).version (r :: run).length := by
    have hchain' : (recordsRead true (r :: run)).IsChain fun r r' => r'.1 = r.1 + 1 := (List.isChain_map _).mpr hchain
    have h := eq_span hchain' (List.forall_mem_map.mpr hcontent) (r.1, r.2.map readBack) rfl
    rwa [recordsRead, List.length_map, ← hversion] at h
  refine ⟨hspan, Nat.succ_pos _, ?_, fun target t => ?_⟩
  · -- the last record has a version of its type
    rw [List.length_cons]
    have hlast : ((((fileOf (r :: run)).version + run.length : ℕ) : ℤ), content ((fileOf (r :: run)).version + run.length)) ∈
        recordsRead true (r :: run) := by
      rw [hspan, mem_span]
      exact ⟨_, ⟨by omega, by simp⟩, rfl⟩
    obtain ⟨q, hq, hlast⟩ := List.mem_map.mp hlast
    have hlt := (hranges q hq).1.2
    rw [(Prod.mk.inj hlast).1] at hlt
    unfold maxInt64
    omega
  · rw [← hspan]
    exact iterate_deliver hranges hlen (length_le_recordBytes _) 0 t

end

theorem StoreFiles.exists_content (h : StoreFiles runs files a b) :
    ∃ content : ℕ → ChangeSet, ∀ r ∈ runs.flatten, r.2.map readBack = content r.1.toNat := by
  classical
  refine ⟨fun v => if hv : ∃ r ∈ runs.flatten, r.1.toNat = v then hv.choose.2.map readBack else [], fun r hr => ?_⟩
  have hv : ∃ q ∈ runs.flatten, q.1.toNat = r.1.toNat := ⟨r, hr, rfl⟩
  obtain ⟨hq, heq⟩ := hv.choose_spec
  have hposr := (h.between _ (List.mem_map_of_mem hr)).1
  have hposq := (h.between _ (List.mem_map_of_mem hq)).1
  dsimp only
  rw [dif_pos hv, h.agree r hr _ hq (by omega)]

/-- What the files are, from their runs. -/
theorem StoreFiles.eq_map (h : StoreFiles runs files a b) :
    files = runs.map fun run => run.flatMap fun r => recordBytes r.1 r.2 := by
  have hwritten : runs.map writeChangeSets = (runs.map fun run => run.flatMap fun r => recordBytes r.1 r.2).map some := by
    rw [List.map_map]
    exact List.map_congr_left fun run hrun => writeChangeSets_eq fun r hr => (h.ranges run hrun r hr).2
  exact List.map_injective_iff.mpr (Option.some_injective _) (h.written.symm.trans hwritten)

theorem StoreFiles.version_range (h : StoreFiles runs files a b) (hrun : run ∈ runs) {r : ℤ × ChangeSet} (hr : r ∈ run) :
    0 ≤ r.1 ∧ r.1 < 2 ^ 63 :=
  ⟨(h.between _ (List.mem_map_of_mem (List.mem_flatten_of_mem hrun hr))).1.trans' (Int.natCast_nonneg a),
    (h.ranges run hrun r hr).1.2⟩

/-- Every file holds its run. -/
theorem StoreFiles.holds (h : StoreFiles runs files a b) (sha256 : Bytes → Bytes)
    (hcontent : ∀ r ∈ runs.flatten, r.2.map readBack = content r.1.toNat) (hrun : run ∈ runs) (hne : run ≠ []) :
    HoldsSpan sha256 content (fileOf run) (recordCount (fileOf run)) ∧
      ∀ v : ℕ, (fileOf run).version ≤ v ∧ v < (fileOf run).version + recordCount (fileOf run) ↔
        (v : ℤ) ∈ run.map Prod.fst := by
  have hfile : (fileOf run).file ∈ files := by
    rw [h.eq_map]
    exact List.mem_map_of_mem hrun
  obtain ⟨hspan, hholds⟩ := holdsSpan_fileOf (h.ranges run hrun) (h.length _ hfile) hne (h.consecutive run hrun)
    fun r hr => ⟨(h.version_range hrun hr).1, hcontent r (List.mem_flatten_of_mem hrun hr)⟩
  refine ⟨hholds, fun v => ?_⟩
  have hfst : run.map Prod.fst = (span content (fileOf run).version (recordCount (fileOf run))).map Prod.fst := by
    rw [← hspan, recordsRead, List.map_map]
    rfl
  simp only [hfst, span, List.map_map, List.mem_map, List.mem_range'_1, Function.comp_apply, Nat.cast_inj,
    exists_eq_right]

/-- The files in the order of their first versions, the first one with the first version. -/
theorem StoreFiles.sorted (h : StoreFiles runs files a b) (sha256 : Bytes → Bytes) (sortSlice : SortSlice) :
    ∃ content first rest, sortFilesByFirstVerson sortSlice files = .ok (first :: rest) ∧ first.version = a ∧
      InOrder (first :: rest) ∧ (∀ f ∈ first :: rest, HoldsSpan sha256 content f (recordCount f)) ∧
      ∀ v : ℕ, Covers recordCount (first :: rest) v ↔ (v : ℤ) ∈ versions runs := by
  obtain ⟨content, hcontent⟩ := h.exists_content
  obtain ⟨hperm, hasc⟩ := sortSlice.sort_spec ((runs.filter (· ≠ [])).map fileOf)
  have hmem : ∀ f, f ∈ sortSlice.sort ((runs.filter (· ≠ [])).map fileOf) ↔ ∃ run ∈ runs, run ≠ [] ∧ fileOf run = f := by
    intro f
    simp only [hperm.mem_iff, List.mem_map, List.mem_filter, decide_eq_true_eq, and_assoc]
  have hcovers : ∀ v : ℕ, Covers recordCount (sortSlice.sort ((runs.filter (· ≠ [])).map fileOf)) v ↔
      (v : ℤ) ∈ versions runs := by
    intro v
    simp only [Covers, hmem, versions, List.map_flatten, List.mem_flatten, List.mem_map, exists_exists_and_eq_and]
    constructor
    · rintro ⟨f, ⟨run, hrun, hne, rfl⟩, hv⟩
      exact ⟨run, hrun, List.mem_map.mp (((h.holds sha256 hcontent hrun hne).2 v).mp hv)⟩
    · rintro ⟨run, hrun, hv⟩
      have hne : run ≠ [] := by rintro rfl; simp at hv
      exact ⟨_, ⟨run, hrun, hne, rfl⟩, ((h.holds sha256 hcontent hrun hne).2 v).mpr (List.mem_map.mpr hv)⟩
  have hspans : ∀ f ∈ sortSlice.sort ((runs.filter (· ≠ [])).map fileOf), HoldsSpan sha256 content f (recordCount f) := by
    intro f hf
    obtain ⟨run, hrun, hne, rfl⟩ := (hmem f).mp hf
    exact (h.holds sha256 hcontent hrun hne).1
  have horder : InOrder (sortSlice.sort ((runs.filter (· ≠ [])).map fileOf)) := hasc.imp fun hfg => not_lt.mp (of_decide_eq_false hfg)
  have hsorted : sortFilesByFirstVerson sortSlice files = .ok (sortSlice.sort ((runs.filter (· ≠ [])).map fileOf)) := by
    rw [sortFilesByFirstVerson, h.eq_map, nonEmptyFiles_eq]
    rfl
  generalize sortSlice.sort ((runs.filter (· ≠ [])).map fileOf) = sorted at hcovers hspans horder hsorted
  obtain ⟨f, hf, hle, -⟩ := (hcovers a).mpr h.first
  obtain ⟨first, rest, rfl⟩ := List.exists_cons_of_ne_nil (List.ne_nil_of_mem hf)
  refine ⟨content, first, rest, hsorted, le_antisymm ?_ ?_, horder, hspans, hcovers⟩
  · rcases List.mem_cons.mp hf with rfl | hf
    · exact hle
    · exact ((List.pairwise_cons.mp horder).1 f hf).trans hle
  · have hfirst : Covers recordCount (first :: rest) first.version :=
      ⟨first, List.mem_cons_self, le_rfl, Nat.lt_add_of_pos_right (hspans first List.mem_cons_self).pos⟩
    exact Int.ofNat_le.mp (h.between _ ((hcovers _).mp hfirst)).1

/-! ### Runs -/

/-- The commit of a tree. -/
def commitOf (sha256 : Bytes → Bytes) (t : Tree) : CommitID :=
  ⟨t.version, (t.rootHash sha256).take 32 ++ List.replicate (32 - (t.rootHash sha256).length) 0⟩

section
variable {sortSlice : SortSlice} {first : FileWithVersion} {rest : List FileWithVersion} {target : ℕ} {t : Tree}
  (hsorted : sortFilesByFirstVerson sortSlice files = .ok (first :: rest)) (hfirst : first.version ≤ maxInt64)
  (htarget : target = 0 ∨ first.version ≤ target)
include hsorted hfirst htarget

/-- A run goes over to the replay of the files. -/
theorem verifyOneStore_replays :
    (∀ e, replayFiles (valueTree sha256) target (first :: rest) (setInitialVersionTree first.version t) = .error e →
        verifyOneStore (valueTree sha256) sortSlice files target t = .error e) ∧
      ∀ t', replayFiles (valueTree sha256) target (first :: rest) (setInitialVersionTree first.version t) = .ok t' →
        t'.version ≤ maxInt64 →
        verifyOneStore (valueTree sha256) sortSlice files target t = .ok (some (commitOf sha256 t'), t') := by
  have hreach : ¬ (0 < (target : ℤ) ∧ (target : ℤ) < first.version) := by omega
  have hnonneg : ¬ int64 first.version < 0 := by
    rw [int64_of_lt (by unfold maxInt64 at hfirst; omega)]
    omega
  have hset : (valueTree sha256).setInitialVersion first.version t = setInitialVersionTree first.version t := rfl
  simp only [verifyOneStore, hsorted, hreach, if_false, hnonneg, hset]
  refine ⟨fun e he => by rw [he], fun t' hok ht => ?_⟩
  have hroot : (valueTree sha256).rootHash t' = some (t'.rootHash sha256, t') := rfl
  have hid : lastCommitID (valueTree sha256) t' = some (commitOf sha256 t', t') := by
    simp only [lastCommitID, hroot, Option.bind_eq_bind, Option.bind_some, version_valueTree ht]
    rfl
  rw [hok]
  simp only [hid]

end

/-- The trees of the store, version by version. -/
def treeAt (content : ℕ → ChangeSet) (a v : ℕ) : Tree := (advance content)^[v + 1 - a] ⟨a - 1, none⟩

theorem version_treeAt {v : ℕ} (ha : 1 ≤ a) (hv : a ≤ v + 1) : (treeAt content a v).version = v := by
  rw [treeAt, version_iterate_advance]
  dsimp only
  omega

/-- From an empty tree, or from one of the trees of the store, a run leads to the target or to the
last version. -/
theorem StoreFiles.exists_runs (h : StoreFiles runs files a b) (sha256 : Bytes → Bytes) (sortSlice : SortSlice)
    (hall : ∀ v : ℕ, a ≤ v → v ≤ b → (v : ℤ) ∈ versions runs) :
    ∃ content : ℕ → ChangeSet,
      (∀ t, a ≤ t → t ≤ b → verifyOneStore (valueTree sha256) sortSlice files t (Tree.newEmptyTree 0) =
        .ok (some (commitOf sha256 (treeAt content a t)), treeAt content a t)) ∧
      ∀ t₀, t₀ = Tree.newEmptyTree 0 ∨ (∃ t, a ≤ t ∧ t ≤ b ∧ t₀ = treeAt content a t) →
        verifyOneStore (valueTree sha256) sortSlice files 0 t₀ =
          .ok (some (commitOf sha256 (treeAt content a b)), treeAt content a b) := by
  obtain ⟨content, first, rest, hsorted, rfl, horder, hspans, hcovers⟩ := h.sorted sha256 sortSlice
  have hpos := h.pos
  have hle : ∀ v, Covers recordCount (first :: rest) v → v ≤ maxInt64 ∧ v ≤ b := by
    intro v hv
    refine ⟨?_, Int.ofNat_le.mp (h.between _ ((hcovers v).mp hv)).2⟩
    obtain ⟨f, hf, -, hlt⟩ := hv
    have := (hspans f hf).le
    omega
  have hall' : ∀ v, first.version ≤ v → v ≤ b → Covers recordCount (first :: rest) v := fun v ha hb =>
    (hcovers v).mpr (hall v ha hb)
  have hb := hle b ((hcovers b).mpr h.last)
  have ha := hle _ ((hcovers _).mpr h.first)
  have hset : setInitialVersionTree first.version (Tree.newEmptyTree 0) = treeAt content first.version (first.version - 1) := by
    rw [treeAt, show first.version - 1 + 1 - first.version = 0 by omega]
    rfl
  -- one more stretch of the replay
  have hreplay : ∀ v last target : ℕ, first.version ≤ v + 1 → v ≤ last → last ≤ b →
      (target = 0 ∧ last = b ∨ target = last ∧ v < last) →
      replayFiles (valueTree sha256) target (first :: rest) (treeAt content first.version v) =
        .ok (treeAt content first.version last) := by
    intro v last target hv hvl hlb htarget
    have hversion : (treeAt content first.version v).version = v := version_treeAt hpos hv
    have hend : target = 0 ∧ (∀ f ∈ first :: rest, f.version + recordCount f ≤ last + 1) ∨
        target = last ∧ (treeAt content first.version v).version < last := by
      rcases htarget with ⟨rfl, rfl⟩ | ⟨rfl, hlt⟩
      · refine .inl ⟨rfl, fun f hf => ?_⟩
        have hfpos := (hspans f hf).pos
        have := (hle (f.version + recordCount f - 1) ⟨f, hf, by omega, by omega⟩).2
        omega
      · exact .inr ⟨rfl, by omega⟩
    rw [replayFiles_covered horder hspans (by omega) (by omega) hend fun w hw hwl => hall' w (by omega) (by omega),
      hversion, treeAt, treeAt, ← Function.iterate_add_apply,
      show last - v + (v + 1 - first.version) = last + 1 - first.version by omega]
  refine ⟨content, fun t hat htb => ?_, fun t₀ ht₀ => ?_⟩
  · refine (verifyOneStore_replays hsorted ha.1 (.inr hat)).2 _ ?_ ?_
    · rw [hset]
      exact hreplay _ t t (by omega) (by omega) htb (.inr ⟨rfl, by omega⟩)
    · rw [version_treeAt hpos (by omega)]
      omega
  · have htree : (treeAt content first.version b).version ≤ maxInt64 := by
      rw [version_treeAt hpos (by omega)]
      exact hb.1
    have hzero : (0 : ℕ) = 0 ∨ first.version ≤ 0 := .inl rfl
    refine (verifyOneStore_replays hsorted ha.1 hzero).2 _ ?_ htree
    · rcases ht₀ with rfl | ⟨t, hat, htb, rfl⟩
      · rw [hset]
        exact hreplay _ b 0 (by omega) (by omega) le_rfl (.inl ⟨rfl, rfl⟩)
      · have hkeep : setInitialVersionTree first.version (treeAt content first.version t) = treeAt content first.version t := by
          rw [setInitialVersionTree, version_treeAt hpos (by omega), if_pos (by omega)]
        rw [hkeep]
        exact hreplay t b 0 (by omega) htb le_rfl (.inl ⟨rfl, rfl⟩)

/-- Without one of the versions between the first and the last a run over all files fails. -/
theorem StoreFiles.exists_gap (h : StoreFiles runs files a b) (sha256 : Bytes → Bytes) (sortSlice : SortSlice)
    {v : ℕ} (hav : a < v) (hvb : v < b) (hv : (v : ℤ) ∉ versions runs) :
    ∃ e, verifyOneStore (valueTree sha256) sortSlice files 0 (Tree.newEmptyTree 0) = .error e := by
  obtain ⟨content, first, rest, hsorted, rfl, horder, hspans, hcovers⟩ := h.sorted sha256 sortSlice
  have hspan := hspans first List.mem_cons_self
  have ha := hspan.version_le
  have hzero : (0 : ℕ) = 0 ∨ first.version ≤ 0 := .inl rfl
  obtain ⟨e, he⟩ : ∃ e, replayFiles (valueTree sha256) (0 : ℕ) (first :: rest)
      (setInitialVersionTree first.version (Tree.newEmptyTree 0)) = .error e := by
    have hset : setInitialVersionTree first.version (Tree.newEmptyTree 0) = ⟨first.version - 1, none⟩ := rfl
    rw [hset]
    rcases replayFiles_cases (t := ⟨first.version - 1, none⟩) hspans (by dsimp only; omega) with
      ⟨t', -, -, hends, hcovered⟩ | ⟨saved, version, herr⟩
    · -- the last version was reached, and with it the missing one
      obtain ⟨f, hf, -, hlt⟩ := (hcovers b).mpr h.last
      have hend := hends f hf
      exact absurd ((hcovers v).mp (hcovered v (by dsimp only; omega) (by omega))) hv
    · exact ⟨_, herr⟩
  exact ⟨e, (verifyOneStore_replays hsorted ha hzero).1 e he⟩

/-- Verifying the store up to a version, and from a snapshot of the tree at that version over the same
files to the end, gives the same commit as one run from an empty tree. If a version between the
first and the last is in no file, this run fails. -/
theorem verifyOneStore_incremental {C : Type} (K : Cache C) (sha256 : Bytes → Bytes) (sortSlice : SortSlice)
    {runs : List (List (ℤ × ChangeSet))} {files : List Bytes} {a b : ℕ} (h : StoreFiles runs files a b)
    (cacheSize cacheSize' : ℤ) (m : Mem) :
    let verify := verifyOneStore (heapTree K sha256) sortSlice files
    let empty := (HTree.newEmptyTree K 0 cacheSize, m)
    ((∀ v : ℕ, a ≤ v → v ≤ b → (v : ℤ) ∈ versions runs) → ∀ t : ℕ, a ≤ t → t ≤ b →
      ∃ id full id' saved reopened resumed, verify 0 empty = .ok (some id, full) ∧ id.version = b ∧
        verify t empty = .ok (some id', saved) ∧ id'.version = t ∧
        saved.1.reload K sha256 cacheSize' saved.2 = some reopened ∧
        verify 0 reopened = .ok (some id, resumed)) ∧
      ((∃ v : ℕ, a < v ∧ v < b ∧ (v : ℤ) ∉ versions runs) → ∃ e, verify 0 empty = .error e) := by
  obtain ⟨content, first, rest, hsorted, -, -, hspans, -⟩ := h.sorted sha256 sortSlice
  have hle : ∀ f ∈ first :: rest, f.version ≤ maxInt64 := fun f hf => (hspans f hf).version_le
  have hempty : Simulates K sha256 (HTree.newEmptyTree K 0 cacheSize, m) (Tree.newEmptyTree 0) :=
    ⟨[], Sim.newEmptyTree m 0 cacheSize⟩
  have hpos := h.pos
  -- what a run on a tree as a value gives, a run on the heap gives
  have hok : ∀ (target : ℕ) s t id t', Simulates K sha256 s t →
      verifyOneStore (valueTree sha256) sortSlice files target t = .ok (some id, t') →
      ∃ s', verifyOneStore (heapTree K sha256) sortSlice files target s = .ok (some id, s') ∧ Simulates K sha256 s' t' := by
    intro target s t id t' hst hrun
    have hrel := (heapTree_related K sha256).verifyOneStore hsorted hle target hst
    rw [hrun] at hrel
    obtain ⟨⟨id', s'⟩, hr, rfl, hs'⟩ := hrel.of_ok
    exact ⟨s', hr, hs'⟩
  intro verify empty
  refine ⟨fun hall t hat htb => ?_, fun ⟨v, hav, hvb, hv⟩ => ?_⟩
  · obtain ⟨content, hto, hend⟩ := h.exists_runs sha256 sortSlice hall
    obtain ⟨full, hfull, -⟩ := hok 0 _ _ _ _ hempty (hend _ (.inl rfl))
    obtain ⟨saved, hsaved, L, hsim⟩ := hok t _ _ _ _ hempty (hto t hat htb)
    obtain ⟨ht', m', hreload, hsim', -⟩ := hsim.reload cacheSize'
    obtain ⟨resumed, hresumed, -⟩ := hok 0 (ht', m') _ _ _ ⟨[], hsim'⟩ (hend _ (.inr ⟨t, hat, htb, rfl⟩))
    refine ⟨_, full, _, saved, _, resumed, hfull, ?_, hsaved, ?_, hreload, hresumed⟩
    · exact congrArg Nat.cast (version_treeAt hpos (by omega))
    · exact congrArg Nat.cast (version_treeAt hpos (by omega))
  · obtain ⟨e, he⟩ := h.exists_gap sha256 sortSlice hav hvb hv
    have hrel := (heapTree_related K sha256).verifyOneStore hsorted hle 0 hempty
    rw [he] at hrel
    exact ⟨e, hrel.of_error⟩

/-- Two files that overlap, in the wrong order, and an empty one. -/
theorem verifyOneStore_incremental_overlap :
    let sortSlice : SortSlice := ⟨List.insertionSort fun f g => f.version ≤ g.version,
      insertionSort_ascending FileWithVersion.version⟩
    let runs : List (List (ℤ × ChangeSet)) := [[(3, [⟨false, [2], some [7]⟩]), (4, [⟨true, [1], none⟩])], [],
      [(2, [⟨false, [1], some [5]⟩]), (3, [⟨false, [2], some [7]⟩])]]
    ∃ files : List Bytes, runs.map writeChangeSets = files.map some ∧
      let verify := verifyOneStore (heapTree lruCache id) sortSlice files
      let empty := (HTree.newEmptyTree lruCache 0 0, [])
      ∃ id full id' saved reopened resumed, verify 0 empty = .ok (some id, full) ∧ id.version = 4 ∧
        verify 3 empty = .ok (some id', saved) ∧ id'.version = 3 ∧
        saved.1.reload lruCache (fun bytes => bytes) 0 saved.2 = some reopened ∧
        verify 0 reopened = .ok (some id, resumed) := by
  intro sortSlice runs
  have hranges : ∀ run ∈ runs, ∀ r ∈ run, RecordRanges r := by
    unfold RecordRanges SliceLengths
    decide
  have hstore : StoreFiles runs (runs.map fun run => run.flatMap fun r => recordBytes r.1 r.2) 2 4 :=
    ⟨by decide, hranges, by decide, by decide, by decide, by decide, by decide, by decide, by decide⟩
  have hall : ∀ v : ℕ, 2 ≤ v → v ≤ 4 → (v : ℤ) ∈ versions runs := by
    intro v hv hv'
    interval_cases v <;> decide
  exact ⟨_, hstore.written, (verifyOneStore_incremental lruCache id sortSlice hstore 0 0 []).1 hall 3 (by decide) (by decide)⟩

end IavlStore.Changeset
