import IavlStore.Base.Search

/-! The cache of historical versions that queries read. New commits and the backfill of
older versions are added in any order; the oldest versions are dropped when there are
more than the limit. The latest version is what queries advertise: once it was read, a
lookup of it finds an entry, or the version is so far behind the latest one by then that
the miss is reported as a version that is gone.

Every operation holds the lock, so an interleaving of the callers is a list of calls. -/

namespace IavlStore.Rootmulti

open IavlStore.Base.SortedPairs IavlStore.Base.Search

variable {M : Type}

/-- The cached versions in increasing order, with the latest one that was published. -/
structure QueryDBCache (M : Type) where
  entries : List (ℤ × M)
  seq : List ℤ
  latest : ℤ
  exporter : Option (ℤ × M)

structure CacheOptions where
  historicalQueryLimit : ℤ
  snapshotInterval : ℕ

def defaultSnapshotInterval : ℤ := 1000

def snapshotIntervalLimit (opts : CacheOptions) : ℤ :=
  if (opts.snapshotInterval : ℤ) ≤ 0 then defaultSnapshotInterval else opts.snapshotInterval

/-- One more than the versions before the latest one. -/
def cacheLimit (opts : CacheOptions) : ℤ :=
  let maxInterval := snapshotIntervalLimit opts
  let limit := opts.historicalQueryLimit
  (if limit ≤ 0 ∨ maxInterval < limit then maxInterval else limit) + 1

/-- Insert a version where a binary search puts it. -/
def insertVersion (version : ℤ) (seq : List ℤ) : List ℤ :=
  match seq.getLast? with
  | none => [version]
  | some last =>
    if last < version then seq ++ [version]
    else if version = last then seq
    else
      let idx := searchIndex version (seq.map fun v => (v, ()))
      if seq[idx]? = some version then seq else seq.take idx ++ version :: seq.drop idx

/-- Drop the oldest version while there are more than the limit. -/
def pruneLoop (limit : ℤ) : List ℤ → List (ℤ × M) → List ℤ × List (ℤ × M)
  | [], entries => ([], entries)
  | version :: seq, entries =>
    if limit < ((version :: seq).length : ℤ) then pruneLoop limit seq (erasePair version entries)
    else (version :: seq, entries)

/-- A miss, by what the latest version says about it. -/
inductive CacheMiss where
  | notYetPublished (version latest : ℤ)
  | notFound (version : ℤ)
  | notReady (version : ℤ)
  deriving DecidableEq

def classifyCacheMiss (version cacheLatest cacheLimit : ℤ) : CacheMiss :=
  if cacheLatest < version then .notYetPublished version cacheLatest
  else if cacheLimit ≤ cacheLatest - version then .notFound version
  else .notReady version

inductive CacheCall (M : Type) where
  | addHistoricalVersion (mtree : M) (version : ℤ)
  | setSnapshotExporter (version : ℤ) (mtree : Option M)
  | purgeSnapshotExporter (height : ℤ)

namespace QueryDBCache

def newQueryDBCache : QueryDBCache M := ⟨[], [], 0, none⟩

/-- The entry or the exporter of the version, and the latest version at that time. -/
def getHistoricalTrees (version : ℤ) (c : QueryDBCache M) : Option M × ℤ :=
  match lookupPair version c.entries with
  | some mtree => (some mtree, c.latest)
  | none =>
    match c.exporter with
    | some (v, mtree) => (if v = version then some mtree else none, c.latest)
    | none => (none, c.latest)

def pruneHistoricalTrees (limit : ℤ) (c : QueryDBCache M) : QueryDBCache M :=
  if limit ≤ 0 then c
  else
    let (seq, entries) := pruneLoop limit c.seq c.entries
    { c with seq := seq, entries := entries }

def addHistoricalVersion (opts : CacheOptions) (mtree : M) (version : ℤ) (c : QueryDBCache M) :
    QueryDBCache M :=
  if version ≤ 0 ∨ (lookupPair version c.entries).isSome then c
  else
    let c := { c with entries := (version, mtree) :: c.entries, seq := insertVersion version c.seq }
    let c := c.pruneHistoricalTrees (cacheLimit opts)
    if c.latest < version then { c with latest := version } else c

/-- Rejected without a multitree, and while there is another exporter. -/
def setSnapshotExporter (version : ℤ) (mtree : Option M) (c : QueryDBCache M) : QueryDBCache M :=
  match mtree, c.exporter with
  | some mtree, none => if version ≤ 0 then c else { c with exporter := some (version, mtree) }
  | _, _ => c

def purgeSnapshotExporter (height : ℤ) (c : QueryDBCache M) : QueryDBCache M :=
  if (c.exporter.map Prod.fst) = some height then { c with exporter := none } else c

def step (opts : CacheOptions) (c : QueryDBCache M) : CacheCall M → QueryDBCache M
  | .addHistoricalVersion mtree version => c.addHistoricalVersion opts mtree version
  | .setSnapshotExporter version mtree => c.setSnapshotExporter version mtree
  | .purgeSnapshotExporter height => c.purgeSnapshotExporter height

def run (opts : CacheOptions) (calls : List (CacheCall M)) (c : QueryDBCache M) : QueryDBCache M :=
  calls.foldl (step opts) c

end QueryDBCache

theorem one_lt_cacheLimit (opts : CacheOptions) : 1 < cacheLimit opts := by
  have hmax : 0 < snapshotIntervalLimit opts := by
    unfold snapshotIntervalLimit defaultSnapshotInterval
    split_ifs <;> omega
  simp only [cacheLimit]
  split_ifs <;> omega

/-! ### The sequence of versions -/

theorem sorted_map_unit {seq : List ℤ} (h : seq.Pairwise (· < ·)) :
    Sorted (seq.map fun v => (v, ())) :=
  List.pairwise_map.mpr h

/-- A version goes between the smaller and the larger ones. -/
theorem insertVersion_eq {version : ℤ} {seq : List ℤ} (h : seq.Pairwise (· < ·)) (hv : version ∉ seq) :
    ∃ l r, seq = l ++ r ∧ insertVersion version seq = l ++ version :: r ∧ (∀ v ∈ l, v < version) ∧
      ∀ v ∈ r, version < v := by
  unfold insertVersion
  rcases hl : seq.getLast? with _ | last
  · have hnil : seq = [] := List.getLast?_eq_none_iff.mp hl
    exact ⟨[], [], by simp [hnil], rfl, by simp, by simp⟩
  · have hmem : last ∈ seq := List.mem_of_getLast? hl
    have hle : ∀ v ∈ seq, v ≤ last := by
      obtain ⟨init, rfl⟩ := List.getLast?_eq_some_iff.mp hl
      intro v hv
      rcases List.mem_append.mp hv with hv | hv
      · exact ((List.pairwise_append.mp h).2.2 v hv last (by simp)).le
      · exact (List.mem_singleton.mp hv).le
    dsimp only
    by_cases hlt : last < version
    · rw [if_pos hlt]
      exact ⟨seq, [], by simp, rfl, fun v hv => (hle v hv).trans_lt hlt, by simp⟩
    · have hne : version ≠ last := fun heq => hv (heq ▸ hmem)
      set idx := searchIndex version (seq.map fun v => (v, ())) with hidx
      have hget : seq[idx]? ≠ some version := fun heq => hv (List.mem_of_getElem? heq)
      rw [if_neg hlt, if_neg hne, if_neg hget]
      refine ⟨seq.take idx, seq.drop idx, (List.take_append_drop _ _).symm, rfl, ?_, ?_⟩
      · intro v hv
        have hbelow := take_searchIndex version (sorted_map_unit h)
        rw [← hidx, ← List.map_take] at hbelow
        exact hbelow (v, ()) (List.mem_map_of_mem hv)
      · intro v hv'
        have hleast := drop_searchIndex version (sorted_map_unit h)
        rw [← hidx, ← List.map_drop] at hleast
        have hge := hleast (v, ()) (List.mem_map_of_mem hv')
        exact lt_of_le_of_ne hge fun heq => hv (heq ▸ List.mem_of_mem_drop hv')

theorem insertVersion_sorted {version : ℤ} {seq : List ℤ} (h : seq.Pairwise (· < ·)) (hv : version ∉ seq) :
    (insertVersion version seq).Pairwise (· < ·) := by
  obtain ⟨l, r, rfl, heq, hl, hr⟩ := insertVersion_eq h hv
  obtain ⟨hsl, hsr, hlr⟩ := List.pairwise_append.mp h
  rw [heq]
  refine List.pairwise_append.mpr ⟨hsl, List.pairwise_cons.mpr ⟨hr, hsr⟩, ?_⟩
  intro a ha b hb
  rcases List.mem_cons.mp hb with rfl | hb
  · exact hl a ha
  · exact hlr a ha b hb

theorem mem_insertVersion {version v : ℤ} {seq : List ℤ} (h : seq.Pairwise (· < ·))
    (hv : version ∉ seq) : v ∈ insertVersion version seq ↔ v = version ∨ v ∈ seq := by
  obtain ⟨l, r, rfl, heq, -, -⟩ := insertVersion_eq h hv
  rw [heq]
  simp only [List.mem_append, List.mem_cons]
  tauto

/-- Pruning keeps a suffix of the sequence and forgets the entries before it. -/
theorem pruneLoop_eq (limit : ℤ) (seq : List ℤ) (entries : List (ℤ × M)) :
    ∃ gone, seq = gone ++ (pruneLoop limit seq entries).1 ∧
      (gone ≠ [] → 0 ≤ limit → ((pruneLoop limit seq entries).1.length : ℤ) = limit) ∧
      (0 ≤ limit → ((pruneLoop limit seq entries).1.length : ℤ) ≤ limit) ∧
      ∀ v, lookupPair v (pruneLoop limit seq entries).2 =
        if v ∈ gone then none else lookupPair v entries := by
  induction seq generalizing entries with
  | nil => exact ⟨[], by simp [pruneLoop], by simp, by simp [pruneLoop], by simp [pruneLoop]⟩
  | cons version seq ih =>
    rw [pruneLoop]
    split_ifs with hlt
    · obtain ⟨gone, hseq, hlen, hle, hlook⟩ := ih (erasePair version entries)
      refine ⟨version :: gone, by rw [List.cons_append, ← hseq], ?_, hle, ?_⟩
      · intro _ hlim
        by_cases hg : gone = []
        · have hge : limit ≤ (seq.length : ℤ) := by
            rw [List.length_cons] at hlt
            push_cast at hlt
            omega
          have hself : (pruneLoop limit seq (erasePair version entries)).1 = seq := by
            rw [hg, List.nil_append] at hseq
            exact hseq.symm
          have := hle hlim
          rw [hself] at this ⊢
          omega
        · exact hlen hg hlim
      · intro v
        rw [hlook, lookupPair_erasePair]
        by_cases hg : v ∈ gone
        · rw [if_pos hg, if_pos (List.mem_cons_of_mem _ hg)]
        · by_cases heq : v = version <;> simp [hg, heq]
    · exact ⟨[], rfl, by simp, fun _ => not_lt.mp hlt, by simp⟩

/-- Increasing versions between two bounds leave room for their number. -/
theorem add_length_le {v m : ℤ} {l : List ℤ} (h : l.Pairwise (· < ·)) (hb : ∀ x ∈ l, v < x ∧ x ≤ m)
    (hvm : v ≤ m) : v + l.length ≤ m := by
  induction l generalizing v with
  | nil => simpa using hvm
  | cons x l ih =>
    obtain ⟨hlt, hpair⟩ := List.pairwise_cons.mp h
    obtain ⟨hvx, hxm⟩ := hb x (by simp)
    have := ih hpair (fun y hy => ⟨hlt y hy, (hb y (by simp [hy])).2⟩) hxm
    rw [List.length_cons]
    push_cast
    omega

/-! ### Every state of the cache -/

namespace QueryDBCache

/-- The sequence lists the cached versions in order, at most as many as the limit, and the
latest version is the last of them. -/
structure Inv (limit : ℤ) (c : QueryDBCache M) : Prop where
  sorted : c.seq.Pairwise (· < ·)
  keys : ∀ v, v ∈ c.seq ↔ (lookupPair v c.entries).isSome
  length : (c.seq.length : ℤ) ≤ limit
  positive : ∀ v ∈ c.seq, 0 < v
  le_latest : ∀ v ∈ c.seq, v ≤ c.latest
  latest : c.latest ∈ c.seq ∨ c.seq = [] ∧ c.latest = 0

theorem Inv.new {limit : ℤ} (h : 0 ≤ limit) : Inv limit (newQueryDBCache : QueryDBCache M) :=
  ⟨List.Pairwise.nil, by simp [newQueryDBCache], by simpa [newQueryDBCache] using h, by simp [newQueryDBCache],
    by simp [newQueryDBCache], .inr ⟨rfl, rfl⟩⟩

theorem Inv.getLast {limit : ℤ} {c : QueryDBCache M} (h : Inv limit c) :
    c.seq.getLast?.getD 0 = c.latest := by
  rcases hl : c.seq.getLast? with _ | last
  · have hnil : c.seq = [] := List.getLast?_eq_none_iff.mp hl
    rcases h.latest with hmem | ⟨-, h0⟩
    · simp [hnil] at hmem
    · exact h0.symm
  · obtain ⟨init, hinit⟩ := List.getLast?_eq_some_iff.mp hl
    have hlast : last ∈ c.seq := List.mem_of_getLast? hl
    rcases h.latest with hmem | ⟨hnil, -⟩
    · have hsorted := h.sorted
      rw [hinit] at hmem hsorted
      have hle : c.latest ≤ last := by
        rcases List.mem_append.mp hmem with hmem | hmem
        · exact ((List.pairwise_append.mp hsorted).2.2 _ hmem last (by simp)).le
        · exact (List.mem_singleton.mp hmem).le
      exact le_antisymm (h.le_latest last hlast) hle
    · simp [hnil] at hlast

/-- What adding a new version does: the sequence with the version loses a prefix, and only
when it has more versions than the limit. -/
theorem addHistoricalVersion_eq (opts : CacheOptions) {c : QueryDBCache M} (mtree : M) {version : ℤ}
    (hv : 0 < version) (hnew : lookupPair version c.entries = none) :
    ∃ gone seq, insertVersion version c.seq = gone ++ seq ∧
      (c.addHistoricalVersion opts mtree version).seq = seq ∧
      (gone ≠ [] → (seq.length : ℤ) = cacheLimit opts) ∧ (seq.length : ℤ) ≤ cacheLimit opts ∧
      (∀ v, lookupPair v (c.addHistoricalVersion opts mtree version).entries =
        if v ∈ gone then none else if v = version then some mtree else lookupPair v c.entries) ∧
      (c.addHistoricalVersion opts mtree version).latest = max c.latest version := by
  have hlim := one_lt_cacheLimit opts
  obtain ⟨gone, hseq, hlen, hle, hlook⟩ := pruneLoop_eq (cacheLimit opts) (insertVersion version c.seq)
    ((version, mtree) :: c.entries)
  have hadd : c.addHistoricalVersion opts mtree version =
      ⟨(pruneLoop (cacheLimit opts) (insertVersion version c.seq) ((version, mtree) :: c.entries)).2,
        (pruneLoop (cacheLimit opts) (insertVersion version c.seq) ((version, mtree) :: c.entries)).1,
        max c.latest version, c.exporter⟩ := by
    unfold addHistoricalVersion
    rw [if_neg (by simp [hnew, hv])]
    simp only [pruneHistoricalTrees, if_neg (show ¬ cacheLimit opts ≤ 0 by omega)]
    split_ifs with hlt
    · rw [max_eq_right hlt.le]
    · rw [max_eq_left (not_lt.mp hlt)]
  refine ⟨gone, _, hseq, ?_, fun hg => hlen hg (by omega), hle (by omega), ?_, ?_⟩
  · rw [hadd]
  · intro v
    rw [hadd, hlook, lookupPair_cons]
  · rw [hadd]

/-- What is found after a version was added. -/
theorem lookup_addHistoricalVersion {opts : CacheOptions} {c : QueryDBCache M} {mtree t : M} {version v : ℤ}
    (h : lookupPair v (c.addHistoricalVersion opts mtree version).entries = some t) :
    lookupPair v c.entries = some t ∨ 0 < version ∧ v = version ∧ t = mtree := by
  by_cases hskip : version ≤ 0 ∨ (lookupPair version c.entries).isSome
  · rw [QueryDBCache.addHistoricalVersion, if_pos hskip] at h
    exact .inl h
  · rw [not_or, not_le, Option.not_isSome_iff_eq_none] at hskip
    obtain ⟨gone, seq, -, -, -, -, hlook, -⟩ := addHistoricalVersion_eq opts mtree hskip.1 hskip.2
    rw [hlook] at h
    split_ifs at h with hgone hv
    · exact .inr ⟨hskip.1, hv, (Option.some.inj h).symm⟩
    · exact .inl h

theorem Inv.addHistoricalVersion {opts : CacheOptions} {c : QueryDBCache M} (h : Inv (cacheLimit opts) c)
    (mtree : M) (version : ℤ) : Inv (cacheLimit opts) (c.addHistoricalVersion opts mtree version) := by
  by_cases hskip : version ≤ 0 ∨ (lookupPair version c.entries).isSome
  · rw [QueryDBCache.addHistoricalVersion, if_pos hskip]
    exact h
  · push Not at hskip
    have hv := hskip.1
    have hnone : lookupPair version c.entries = none := by simpa using hskip.2
    have hnot : version ∉ c.seq := fun hmem => by simpa [hnone] using (h.keys version).mp hmem
    obtain ⟨gone, seq, hins, hseq, hfull, hle, hlook, hlatest⟩ :=
      addHistoricalVersion_eq opts mtree hv hnone
    have hsorted := insertVersion_sorted h.sorted hnot
    have hmem : ∀ v, v ∈ gone ++ seq ↔ v = version ∨ v ∈ c.seq := by
      intro v
      rw [← hins]
      exact mem_insertVersion h.sorted hnot
    rw [hins] at hsorted
    obtain ⟨-, hsortedSeq, hbefore⟩ := List.pairwise_append.mp hsorted
    have hlast : max c.latest version ∈ gone ++ seq := by
      rw [hmem]
      rcases h.latest with hl | ⟨-, h0⟩
      · rcases le_total c.latest version with hcv | hcv
        · exact .inl (max_eq_right hcv)
        · exact .inr (by rwa [max_eq_left hcv])
      · exact .inl (by rw [h0]; exact max_eq_right hv.le)
    have hbound : ∀ v ∈ gone ++ seq, v ≤ max c.latest version := by
      intro v hv
      rcases (hmem v).mp hv with rfl | hv
      · exact le_max_right _ _
      · exact (h.le_latest v hv).trans (le_max_left _ _)
    refine ⟨hseq ▸ hsortedSeq, ?_, hseq ▸ hle, ?_, ?_, ?_⟩
    · intro v
      rw [hlook, hseq]
      by_cases hg : v ∈ gone
      · rw [if_pos hg]
        simp only [Option.isSome_none, Bool.false_eq_true, iff_false]
        intro hs
        exact absurd rfl (hbefore v hg v hs).ne
      · rw [if_neg hg]
        have := hmem v
        rw [List.mem_append, or_iff_right hg] at this
        rw [this, h.keys v]
        by_cases heq : v = version <;> simp [heq]
    · intro v hv'
      rw [hseq] at hv'
      rcases (hmem v).mp (List.mem_append_right _ hv') with rfl | hv'
      · exact hv
      · exact h.positive v hv'
    · intro v hv'
      rw [hlatest]
      rw [hseq] at hv'
      exact hbound v (List.mem_append_right _ hv')
    · left
      rw [hlatest, hseq]
      rcases List.mem_append.mp hlast with hg | hs
      · -- the versions that are kept come after the latest one
        have hlim := one_lt_cacheLimit opts
        have hlen := hfull (List.ne_nil_of_mem hg)
        obtain ⟨x, hx⟩ : ∃ x, x ∈ seq := List.exists_mem_of_ne_nil seq (by
          rintro rfl
          simp at hlen
          omega)
        exact absurd (hbound x (List.mem_append_right _ hx)) (not_le.mpr (hbefore _ hg x hx))
      · exact hs

theorem Inv.step {opts : CacheOptions} {c : QueryDBCache M} (h : Inv (cacheLimit opts) c)
    (call : CacheCall M) : Inv (cacheLimit opts) (c.step opts call) := by
  cases call with
  | addHistoricalVersion mtree version => exact h.addHistoricalVersion mtree version
  | setSnapshotExporter version mtree =>
    simp only [QueryDBCache.step, setSnapshotExporter]
    split
    · split_ifs
      · exact h
      · exact ⟨h.sorted, h.keys, h.length, h.positive, h.le_latest, h.latest⟩
    · exact h
  | purgeSnapshotExporter height =>
    simp only [QueryDBCache.step, purgeSnapshotExporter]
    split_ifs
    · exact ⟨h.sorted, h.keys, h.length, h.positive, h.le_latest, h.latest⟩
    · exact h

/-! ### Versions that were advertised -/

/-- The version is cached, or as many later versions as the limit allows are. -/
def Settled (limit v : ℤ) (c : QueryDBCache M) : Prop :=
  v ≤ c.latest ∧ (v ∈ c.seq ∨ v + limit ≤ c.latest)

theorem Settled.addHistoricalVersion {opts : CacheOptions} {c : QueryDBCache M}
    (h : Inv (cacheLimit opts) c) {v : ℤ} (hs : Settled (cacheLimit opts) v c) (mtree : M) (version : ℤ) :
    Settled (cacheLimit opts) v (c.addHistoricalVersion opts mtree version) := by
  have h' := h.addHistoricalVersion mtree version
  by_cases hskip : version ≤ 0 ∨ (lookupPair version c.entries).isSome
  · rw [QueryDBCache.addHistoricalVersion, if_pos hskip]
    exact hs
  · push Not at hskip
    have hnone : lookupPair version c.entries = none := by simpa using hskip.2
    have hnot : version ∉ c.seq := fun hmem => by simpa [hnone] using (h.keys version).mp hmem
    obtain ⟨gone, seq, hins, hseq, hfull, -, -, hlatest⟩ :=
      addHistoricalVersion_eq opts mtree hskip.1 hnone
    have hle : v ≤ (c.addHistoricalVersion opts mtree version).latest := by
      rw [hlatest]
      exact hs.1.trans (le_max_left _ _)
    refine ⟨hle, ?_⟩
    rcases hs.2 with hmem | hfar
    · have hmem' : v ∈ gone ++ seq := by
        rw [← hins, mem_insertVersion h.sorted hnot]
        exact .inr hmem
      rcases List.mem_append.mp hmem' with hg | hg
      · -- dropped: the limit is full of later versions
        right
        have hsorted := insertVersion_sorted h.sorted hnot
        rw [hins] at hsorted
        rw [← hfull (List.ne_nil_of_mem hg)]
        apply add_length_le (List.pairwise_append.mp hsorted).2.1 _ hle
        intro x hx
        exact ⟨(List.pairwise_append.mp hsorted).2.2 v hg x hx, h'.le_latest x (hseq ▸ hx)⟩
      · exact .inl (hseq ▸ hg)
    · right
      rw [hlatest]
      exact hfar.trans (le_max_left _ _)

theorem Settled.step {opts : CacheOptions} {c : QueryDBCache M} (h : Inv (cacheLimit opts) c) {v : ℤ}
    (hs : Settled (cacheLimit opts) v c) (call : CacheCall M) :
    Settled (cacheLimit opts) v (c.step opts call) := by
  cases call with
  | addHistoricalVersion mtree version => exact hs.addHistoricalVersion h mtree version
  | setSnapshotExporter version mtree =>
    simp only [QueryDBCache.step, setSnapshotExporter]
    split
    · split_ifs <;> exact hs
    · exact hs
  | purgeSnapshotExporter height =>
    simp only [QueryDBCache.step, purgeSnapshotExporter]
    split_ifs <;> exact hs

/-- Both hold along every list of calls. -/
theorem run_inv {opts : CacheOptions} (calls : List (CacheCall M)) {c : QueryDBCache M}
    (h : Inv (cacheLimit opts) c) :
    Inv (cacheLimit opts) (c.run opts calls) ∧
      ∀ v, Settled (cacheLimit opts) v c → Settled (cacheLimit opts) v (c.run opts calls) := by
  induction calls generalizing c with
  | nil => exact ⟨h, fun v hs => hs⟩
  | cons call calls ih =>
    obtain ⟨hinv, hsettled⟩ := ih (h.step call)
    exact ⟨hinv, fun v hs => hsettled v (hs.step h call)⟩

theorem getHistoricalTrees_eq_none {c : QueryDBCache M} {limit v : ℤ} (h : Inv limit c)
    (hnone : (c.getHistoricalTrees v).1 = none) : v ∉ c.seq := by
  intro hmem
  obtain ⟨mtree, hm⟩ := Option.isSome_iff_exists.mp ((h.keys v).mp hmem)
  simp [getHistoricalTrees, hm] at hnone

theorem getHistoricalTrees_latest (c : QueryDBCache M) (v : ℤ) :
    (c.getHistoricalTrees v).2 = c.latest := by
  unfold getHistoricalTrees
  split
  · rfl
  · split <;> rfl

/-- A version that was advertised as the latest one is found later, or is reported as gone.
In every state the sequence lists the cached versions in order, within the limit, up to the
latest one. -/
theorem latest_classifiable (opts : CacheOptions) (before after : List (CacheCall M)) :
    let c := newQueryDBCache.run opts before
    (∀ v, v = c.latest → 0 < v → ((c.run opts after).getHistoricalTrees v).1 = none →
      classifyCacheMiss v ((c.run opts after).getHistoricalTrees v).2 (cacheLimit opts) = .notFound v) ∧
    c.seq.Pairwise (· < ·) ∧ (∀ v, v ∈ c.seq ↔ (lookupPair v c.entries).isSome) ∧
    (c.seq.length : ℤ) ≤ cacheLimit opts ∧ c.seq.getLast?.getD 0 = c.latest := by
  intro c
  have hlim := one_lt_cacheLimit opts
  have h : Inv (cacheLimit opts) c := (run_inv before (Inv.new (by omega))).1
  refine ⟨?_, h.sorted, h.keys, h.length, h.getLast⟩
  intro v hv hpos hnone
  have hs : Settled (cacheLimit opts) v c := by
    refine ⟨hv.le, .inl ?_⟩
    rcases h.latest with hmem | ⟨-, h0⟩
    · rwa [hv]
    · omega
  obtain ⟨h', hs'⟩ := run_inv after h
  have hnot := getHistoricalTrees_eq_none h' hnone
  obtain ⟨hle, hmem | hfar⟩ := hs' v hs
  · exact absurd hmem hnot
  · rw [getHistoricalTrees_latest, classifyCacheMiss, if_neg (by omega), if_pos (by omega)]

/-- With room for two versions, the fifth one is read, found, and gone after the seventh. -/
theorem latest_classifiable_pruned :
    let opts : CacheOptions := ⟨1, 10⟩
    let c := newQueryDBCache.run opts [.addHistoricalVersion () 5, .addHistoricalVersion () 3]
    let c' := c.run opts [.addHistoricalVersion () 6, .addHistoricalVersion () 7]
    c.latest = 5 ∧ (c.getHistoricalTrees 5).1 = some () ∧ (c'.getHistoricalTrees 5).1 = none ∧
      classifyCacheMiss 5 (c'.getHistoricalTrees 5).2 (cacheLimit opts) = .notFound 5 := by
  intro opts c c'
  have h := latest_classifiable opts [.addHistoricalVersion () 5, .addHistoricalVersion () 3]
    [.addHistoricalVersion () 6, .addHistoricalVersion () 7]
  have hnone : (c'.getHistoricalTrees 5).1 = none := by decide
  exact ⟨by decide, by decide, hnone, h.1 5 (by decide) (by decide) hnone⟩

end QueryDBCache

end IavlStore.Rootmulti
