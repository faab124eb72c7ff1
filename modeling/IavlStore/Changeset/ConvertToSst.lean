import IavlStore.Changeset.Replay
import IavlStore.Changeset.SstFiles

/-! Change-set files of a store as files for the versioned database. All pairs go through the external sorter
and are written in the order in which they come out. Ingesting the files gives what feeding the change
sets one after the other gives. -/

namespace IavlStore.Changeset

open IavlStore.Base.Encoding IavlStore.Base.ByteOrder IavlStore.Base.Heaps IavlStore.Base.Parsers
open IavlStore.Base.Timestamps IavlStore.Extsort IavlStore.VersionDb

/-! ### Files -/

section
variable {S E : Type}

/-- The records of one file after the other, until an error occurs. -/
def iterateFiles (fn : ℤ → ChangeSet → S → S × Except (IterateError E) Bool) :
    List Bytes → S → Except (IterateError E) S
  | [], s => .ok s
  | file :: files, s =>
    let r := iterateChangeSets fn file s
    match r.err with
    | some e => .error e
    | none => iterateFiles fn files r.state

end

def feedFiles {R : RocksDB} (store : Bytes) (files : List Bytes) (s : Store R) :
    Except (IterateError Empty) (Store R) :=
  iterateFiles (fun version changeSet s => (s.feedChangeSet version store changeSet, .ok true)) files s

/-- The pairs of a version as items. An item that cannot be encoded is a panic. -/
def sendItems (version : ℤ) (changeSet : ChangeSet) (items : List Bytes) :
    List Bytes × Except (IterateError Unit) Bool :=
  match changeSet.mapM (encodeSorterItem (uint64 version)) with
  | none => (items, .error (.callback ()))
  | some encoded => (items ++ encoded, .ok true)

def sorterOptions (sorterChunkSize : ℤ) : Options := ⟨true, true, sorterChunkSize, compareSorterItem⟩

instance strictWeakOrderOptions (sorterChunkSize : ℤ) :
    IsStrictWeakOrder Bytes fun a b => (sorterOptions sorterChunkSize).lesserFunc a b = true :=
  strictWeakOrderSorterItem

section
variable (store : Bytes) (w : SSTFileWriter SSTEntry) (sstFileSize : ℕ)

/-- The files of a store, with a schedule for the sorter in the background. -/
def convertSingleStore (sortSlice : SortSlice) (libs : Libraries compareSorterItem) (sorterChunkSize : ℤ)
    (files : List Bytes) (schedule : Schedule) : Option (Except ConvertError (List (List SSTEntry))) :=
  match sortFilesByFirstVerson sortSlice files with
  | .error e => some (.error (.firstVersion e))
  | .ok csFiles =>
    if csFiles = [] then some (.ok [])
    else
      match iterateFiles sendItems (csFiles.map FileWithVersion.file) [] with
      | .error e => some (.error (.iterate e))
      | .ok items =>
        if items = [] then some (.ok [])
        else
          match spawn (sorterOptions sorterChunkSize) libs items schedule with
          | none => none
          | some (.error e) => some (.error (.sorter e))
          | some (.ok sorted) => some (writeItemsToFiles store w sstFileSize sorted)

end

/-! ### Files of change sets -/

/-- The files that were written for these runs of versions. -/
structure ChangeSetFiles (runs : List (List (ℤ × ChangeSet))) (files : List Bytes) : Prop where
  ranges : ∀ run ∈ runs, ∀ r ∈ run, RecordRanges r
  written : runs.map writeChangeSets = files.map some
  lengths : ∀ file ∈ files, file.length < 2 ^ 63

/-- The pairs of all versions. -/
def changesOf (records : List (ℤ × ChangeSet)) : List Change :=
  records.flatMap fun r => r.2.map fun pair => (uint64 r.1, pair)

def runBytes (run : List (ℤ × ChangeSet)) : Bytes := run.flatMap fun r => recordBytes r.1 r.2

variable {runs : List (List (ℤ × ChangeSet))} {files : List Bytes} {changes : List Change} {store : Bytes}
  {w : SSTFileWriter SSTEntry} {sstFileSize : ℕ}

theorem ChangeSetFiles.files_eq (h : ChangeSetFiles runs files) : files = runs.map runBytes := by
  have hwritten : runs.map writeChangeSets = (runs.map runBytes).map some := by
    rw [List.map_map]
    exact List.map_congr_left fun run hrun => writeChangeSets_eq fun r hr => (h.ranges run hrun r hr).2
  exact List.map_injective_iff.mpr (Option.some_injective Bytes) (h.written.symm.trans hwritten)

section
variable {S E : Type}

theorem deliver_eq (step : ℤ → ChangeSet → S → S) (records : List (ℤ × ChangeSet)) (s : S) :
    deliver (E := E) (fun version changeSet s => (step version changeSet s, .ok true)) records s =
      (records.foldl (fun s r => step r.1 r.2 s) s, none) := by
  induction records generalizing s with
  | nil => rfl
  | cons r records ih => exact ih _

/-- A callback that never stops gets the records of all files. -/
theorem iterateFiles_eq (step : ℤ → ChangeSet → S → S) (hranges : ∀ run ∈ runs, ∀ r ∈ run, RecordRanges r)
    (hlengths : ∀ run ∈ runs, (runBytes run).length < 2 ^ 63) (s : S) :
    iterateFiles (E := E) (fun version changeSet s => (step version changeSet s, .ok true)) (runs.map runBytes) s =
      .ok ((recordsRead true runs.flatten).foldl (fun s r => step r.1 r.2 s) s) := by
  induction runs generalizing s with
  | nil => rfl
  | cons run runs ih =>
    set fn : ℤ → ChangeSet → S → S × Except (IterateError E) Bool :=
      fun version changeSet s => (step version changeSet s, .ok true) with hfn
    have hrun : ((iterateChangeSets fn (runBytes run) s).state, (iterateChangeSets fn (runBytes run) s).err) =
        deliver fn (recordsRead true run) s :=
      iterate_deliver (hranges run List.mem_cons_self) (hlengths run List.mem_cons_self) (length_le_recordBytes run) 0 s
    rw [hfn, deliver_eq, ← hfn] at hrun
    obtain ⟨hstate, herr⟩ := Prod.mk.inj hrun
    have hrest := ih (fun run' h => hranges run' (List.mem_cons_of_mem _ h))
      (fun run' h => hlengths run' (List.mem_cons_of_mem _ h))
    rw [List.map_cons, iterateFiles]
    simp only [herr, hstate]
    rw [hrest, recordsRead, recordsRead, recordsRead, List.flatten_cons, List.map_append, List.foldl_append]

end

theorem changesOf_append (records records' : List (ℤ × ChangeSet)) :
    changesOf (records ++ records') = changesOf records ++ changesOf records' := List.flatMap_append

/-- The items of the records as they are read. -/
theorem foldl_sendItems (records : List (ℤ × ChangeSet)) (items : List Bytes) :
    (recordsRead true records).foldl
      (fun items r => items ++ r.2.map (sorterItem (uint64 r.1))) items =
      items ++ (changesOf records).map fun c => sorterItem c.1 c.2 := by
  induction records generalizing items with
  | nil => simp [changesOf, recordsRead]
  | cons r records ih =>
    have hread (pair : KVPair) : sorterItem (uint64 r.1) (readBack pair) = sorterItem (uint64 r.1) pair := by
      unfold sorterItem readBack
      cases pair.delete <;> rfl
    have hstep := ih (items ++ (r.2.map readBack).map (sorterItem (uint64 r.1)))
    rw [recordsRead, List.map_cons, List.foldl_cons, ← recordsRead]
    simp only [if_true]
    rw [hstep, ← List.singleton_append, changesOf_append, List.map_append, List.append_assoc]
    simp [changesOf, hread]

theorem sendItems_eq (version : ℤ) (changeSet : ChangeSet) (items : List Bytes) :
    sendItems version changeSet items = (items ++ changeSet.map (sorterItem (uint64 version)), .ok true) := by
  rw [sendItems, mapM_eq_some_map fun pair _ => encodeSorterItem_eq (uint64 version) pair]

/-- What feeding the change sets writes. -/
theorem feedFiles_eq {R : RocksDB} (h : ChangeSetFiles runs files) (store : Bytes) (s : Store R) :
    ∃ s', feedFiles store files s = .ok s' ∧
      R.records s'.db = R.records s.db ++ (changesOf runs.flatten).map fun c => changeRecord store c.1 c.2 := by
  have hlengths : ∀ run ∈ runs, (runBytes run).length < 2 ^ 63 := fun run hrun =>
    h.lengths _ (h.files_eq ▸ List.mem_map_of_mem hrun)
  refine ⟨_, h.files_eq ▸ iterateFiles_eq (fun v cs => Store.feedChangeSet v store cs) h.ranges hlengths s, ?_⟩
  generalize runs.flatten = records
  induction records generalizing s with
  | nil => simp [recordsRead, changesOf]
  | cons r records ih =>
    have hread (pair : KVPair) :
        changeRecord store (timestamp r.1) (readBack pair) = changeRecord store (uint64 r.1) pair := by
      unfold changeRecord readBack
      cases pair.delete <;> rfl
    have hstep := ih (s.feedChangeSet r.1 store (r.2.map readBack))
    rw [recordsRead, List.map_cons, List.foldl_cons, ← recordsRead]
    simp only [if_true]
    rw [hstep, Store.records_feedChangeSet, ← List.singleton_append, changesOf_append, List.map_append,
      List.append_assoc]
    simp [changesOf, hread]

/-- What the sorter returns is in the order of the database. -/
theorem exists_sorted {items : List Bytes} (hperm : items.Perm (changes.map fun c => sorterItem c.1 c.2))
    (hasc : Ascending compareSorterItem items) (hfits : ∀ c ∈ changes, c.Fits)
    (hnodup : (changes.map fun c => (c.1, c.2.key)).Nodup) :
    ∃ sorted : List Change, sorted.Perm changes ∧ items = sorted.map (fun c => sorterItem c.1 c.2) ∧
      sorted.Pairwise Before := by
  obtain ⟨sorted, hsorted, rfl⟩ := exists_perm_map hperm
  refine ⟨sorted, hsorted, rfl, ?_⟩
  have hdistinct : sorted.Pairwise fun a b => (a.1, a.2.key) ≠ (b.1, b.2.key) :=
    List.pairwise_map.mp ((hsorted.map _).nodup_iff.mpr hnodup)
  refine ((List.pairwise_map.mp hasc).and hdistinct).imp_of_mem fun {a b} ha hb h => ?_
  obtain ⟨hle, hne⟩ := h
  have hkey (c : Change) (hc : c ∈ sorted) : sortKey (sorterItem c.1 c.2) = toLex (c.2.key, .toDual c.1) := by
    obtain ⟨hts, hsize⟩ := hfits c (hsorted.mem_iff.mp hc)
    exact sortKey_sorterItem ((Nat.le_add_right _ 13).trans (length_key_le c.2) |>.trans_lt hsize) hts
  simp only [compareSorterItem_eq, byKey_eq_false, hkey a ha, hkey b hb, Prod.Lex.toLex_le_toLex,
    OrderDual.toDual_le_toDual] at hle
  rcases hle with hlt | ⟨heq, hle⟩
  · exact .inl hlt
  · exact .inr ⟨heq, lt_of_le_of_ne hle fun hts => hne (by rw [heq, hts])⟩

/-- The versions of all pairs, with their keys. -/
def versionKeys (runs : List (List (ℤ × ChangeSet))) : List (ℤ × Bytes) :=
  runs.flatten.flatMap fun r => r.2.map fun pair => (r.1, pair.key)

theorem ChangeSetFiles.nodup (h : ChangeSetFiles runs files) (hdistinct : (versionKeys runs).Nodup) :
    ((changesOf runs.flatten).map fun c => (c.1, c.2.key)).Nodup := by
  have hmap : (changesOf runs.flatten).map (fun c => (c.1, c.2.key)) =
      (versionKeys runs).map fun p => (uint64 p.1, p.2) := by
    simp only [changesOf, versionKeys, List.map_flatMap, List.map_map]
    rfl
  rw [hmap]
  refine hdistinct.map_on fun p hp q hq heq => ?_
  have hrange : ∀ p ∈ versionKeys runs, -2 ^ 63 ≤ p.1 ∧ p.1 < 2 ^ 63 := by
    intro p hp
    obtain ⟨r, hr, hp⟩ := List.mem_flatMap.mp hp
    obtain ⟨pair, -, rfl⟩ := List.mem_map.mp hp
    obtain ⟨run, hrun, hr⟩ := List.mem_flatten.mp hr
    exact (h.ranges run hrun r hr).1
  obtain ⟨hversion, hkey⟩ := Prod.mk.inj heq
  have hint := congrArg int64 hversion
  rw [int64_uint64 (hrange p hp), int64_uint64 (hrange q hq)] at hint
  exact Prod.ext hint hkey

/-! ### Both ways -/

/-- The files are read in the order of their first versions. -/
theorem ChangeSetFiles.sorted (h : ChangeSetFiles runs files) (sortSlice : SortSlice) :
    ∃ runs' : List (List (ℤ × ChangeSet)), sortFilesByFirstVerson sortSlice files = .ok (runs'.map fileOf) ∧
      (∀ run ∈ runs', run ∈ runs) ∧ (changesOf runs'.flatten).Perm (changesOf runs.flatten) := by
  have hfiles : nonEmptyFiles files = .ok ((runs.filter (· ≠ [])).map fileOf) := h.files_eq ▸ nonEmptyFiles_eq runs
  obtain ⟨runs', hperm, hsort⟩ := exists_perm_map (sortSlice.sort_spec ((runs.filter (· ≠ [])).map fileOf)).1
  refine ⟨runs', ?_, fun run hrun => List.mem_of_mem_filter (hperm.mem_iff.mp hrun), ?_⟩
  · rw [sortFilesByFirstVerson, hfiles, Except.map, hsort]
  · have hflat : (runs.filter (· ≠ [])).flatten = runs.flatten := List.flatten_filter_ne_nil
    exact (hflat ▸ hperm.flatten).flatMap_right _

variable (store w sstFileSize) in
/-- What is converted are the changes, in some order. -/
theorem convertSingleStore_eq (h : ChangeSetFiles runs files) (sortSlice : SortSlice)
    (libs : Libraries compareSorterItem) (sorterChunkSize : ℤ) :
    ∃ changes : List Change, changes.Perm (changesOf runs.flatten) ∧ ∀ schedule,
      convertSingleStore store w sstFileSize sortSlice libs sorterChunkSize files schedule =
        if changes = [] then some (.ok [])
        else (spawn (sorterOptions sorterChunkSize) libs (changes.map fun c => sorterItem c.1 c.2) schedule).map fun r =>
          (r.mapError .sorter).bind (writeItemsToFiles store w sstFileSize) := by
  obtain ⟨runs', hsorted, hmem, hperm⟩ := h.sorted sortSlice
  refine ⟨changesOf runs'.flatten, hperm, fun schedule => ?_⟩
  have hitems : iterateFiles sendItems ((runs'.map fileOf).map FileWithVersion.file) [] =
      .ok ((changesOf runs'.flatten).map fun c => sorterItem c.1 c.2) := by
    have hsend : sendItems = fun version changeSet items =>
        (items ++ changeSet.map (sorterItem (uint64 version)), .ok true) := by
      funext version changeSet items
      exact sendItems_eq version changeSet items
    have hread := iterateFiles_eq (E := Unit)
      (fun version changeSet items => items ++ changeSet.map (sorterItem (uint64 version)))
      (fun run hrun => h.ranges run (hmem run hrun))
      (fun run hrun => h.lengths _ (h.files_eq ▸ List.mem_map_of_mem (hmem run hrun))) []
    rw [foldl_sendItems, List.nil_append] at hread
    rw [List.map_map, hsend]
    exact hread
  rw [convertSingleStore, hsorted]
  dsimp only
  by_cases hruns : runs' = []
  · subst hruns
    rfl
  · rw [if_neg (by simpa using hruns), hitems]
    dsimp only
    by_cases hempty : changesOf runs'.flatten = []
    · simp [hempty]
    · rw [if_neg (by simpa using hempty), if_neg hempty]
      rcases spawn (sorterOptions sorterChunkSize) libs _ schedule with _ | e | sorted
      · rfl
      · rfl
      · rfl

/-- Files with the changes in some order hold what feeding the change sets writes. -/
theorem ChangeSetFiles.ingest (h : ChangeSetFiles runs files) (I : IngestingRocksDB)
    (hperm : changes.Perm (changesOf runs.flatten)) (hfits : ∀ c ∈ changes, c.Fits)
    (hnodup : (changes.map fun c => (c.1, c.2.key)).Nodup) {sst : List (List SSTEntry)}
    (hsst : sst.flatten = changes.map (Change.entry store)) (s : Store I.toRocksDB) :
    ∃ s', feedFiles store files s = .ok s' ∧
      (I.records (I.ingestExternalFileCF sst s.db)).Perm (I.records s'.db) ∧
      ∀ key t, entryAt key t (I.records (I.ingestExternalFileCF sst s.db)) = entryAt key t (I.records s'.db) := by
  obtain ⟨s', hfeed, hrecords⟩ := feedFiles_eq h store s
  have hingest : I.records (I.ingestExternalFileCF sst s.db) =
      I.records s.db ++ changes.map fun c => changeRecord store c.1 c.2 := by
    rw [I.records_ingest, hsst, List.map_map]
    exact congrArg _ (List.map_congr_left fun c hc => record_entry (hfits c hc))
  have hdistinct : ((changes.map fun c => changeRecord store c.1 c.2).map fun r => (r.key, r.timestamp)).Nodup := by
    have hinj : Function.Injective fun p : ℕ × Bytes => (prependStoreKey store p.2, p.1) := by
      intro p q heq
      obtain ⟨hkey, hts⟩ := Prod.mk.inj heq
      exact Prod.ext hts (List.append_cancel_left hkey)
    have hmap := hnodup.map hinj
    rw [List.map_map] at hmap ⊢
    exact hmap
  refine ⟨s', hfeed, ?_, fun key t => ?_⟩
  · rw [hingest, hrecords]
    exact (hperm.map _).append_left _
  · rw [hingest, hrecords, entryAt_append, entryAt_append, entryAt_perm (hperm.map _) hdistinct]

/-- However the chunks are finished, files are written whose keys are ascending in the order of the database,
with no key in two files. Ingesting them gives the records that feeding the change sets gives. -/
theorem convertSingleStore_feedFiles (I : IngestingRocksDB) (store : Bytes) (sortSlice : SortSlice)
    (libs : Libraries compareSorterItem) (w : SSTFileWriter SSTEntry) (h : ChangeSetFiles runs files)
    (hdistinct : (versionKeys runs).Nodup)
    (hitems : ∀ run ∈ runs, ∀ r ∈ run, ∀ pair ∈ r.2, sizeOfSorterItem pair < 2 ^ 32)
    (hsize : 0 < sstFileSize) (sorterChunkSize : ℤ) :
    let convert := convertSingleStore store w sstFileSize sortSlice libs sorterChunkSize files
    (∃ schedule, (convert schedule).isSome) ∧
      ∀ schedule result, convert schedule = some result → ∃ sst, result = .ok sst ∧
        (∀ s : Store I.toRocksDB, ∃ s', feedFiles store files s = .ok s' ∧
          (I.records (I.ingestExternalFileCF sst s.db)).Perm (I.records s'.db) ∧
          ∀ key t, entryAt key t (I.records (I.ingestExternalFileCF sst s.db)) = entryAt key t (I.records s'.db)) ∧
        (sst.flatten.Pairwise fun a b => Comparator.compare a.key b.key < 0) ∧
        sst.Pairwise fun f g => ∀ a ∈ f, ∀ b ∈ g, Comparator.userKey a.key ≠ Comparator.userKey b.key := by
  intro convert
  obtain ⟨changes, hperm, hconvert⟩ := convertSingleStore_eq store w sstFileSize h sortSlice libs sorterChunkSize
  have hfits : ∀ c ∈ changes, c.Fits := by
    intro c hc
    obtain ⟨r, hr, hc⟩ := List.mem_flatMap.mp (hperm.mem_iff.mp hc)
    obtain ⟨pair, hpair, rfl⟩ := List.mem_map.mp hc
    obtain ⟨run, hrun, hr⟩ := List.mem_flatten.mp hr
    exact ⟨uint64_lt r.1, hitems run hrun r hr pair hpair⟩
  have hnodup := (hperm.map _).nodup_iff.mpr (h.nodup hdistinct)
  have hshort : ∀ item ∈ changes.map fun c => sorterItem c.1 c.2, item.length < 2 ^ 32 := by
    intro item hitem
    obtain ⟨c, hc, rfl⟩ := List.mem_map.mp hitem
    rw [length_sorterItem]
    exact (hfits c hc).2
  by_cases hempty : changes = []
  · have hconvert' (schedule : Schedule) : convert schedule = some (.ok []) :=
      (hconvert schedule).trans (if_pos hempty)
    refine ⟨⟨⟨[], []⟩, by rw [hconvert']; rfl⟩, fun schedule result hresult => ⟨[], ?_, ?_, by simp, by simp⟩⟩
    · exact (Option.some.inj ((hconvert' schedule).symm.trans hresult)).symm
    · exact h.ingest I (hempty ▸ hperm) (hempty ▸ hfits) (hempty ▸ hnodup) rfl
  · have hconvert' (schedule : Schedule) := (hconvert schedule).trans (if_neg hempty)
    refine ⟨?_, fun schedule result hresult => ?_⟩
    · obtain ⟨schedule, hrun⟩ := exists_schedule (sorterOptions sorterChunkSize) libs hshort
      exact ⟨schedule, (congrArg Option.isSome (hconvert' schedule)).trans (by rwa [Option.isSome_map])⟩
    · obtain ⟨r, hrun, hr⟩ := Option.map_eq_some_iff.mp ((hconvert' schedule).symm.trans hresult)
      obtain ⟨items, rfl, hitemsPerm, hasc⟩ := spawn_sorts hshort hrun
      obtain ⟨sorted, hsorted, rfl, hbefore⟩ := exists_sorted hitemsPerm hasc hfits hnodup
      have hfits' : ∀ c ∈ sorted, c.Fits := fun c hc => hfits c (hsorted.mem_iff.mp hc)
      obtain ⟨sst, hsst, hflat, hapart⟩ := writeItemsToFiles_eq store w hsize hbefore hfits'
        (fun hnil => hempty (List.perm_nil.mp (hnil ▸ hsorted.symm)))
      have hkeys : sst.flatten.Pairwise fun a b => Comparator.compare a.key b.key < 0 := by
        rw [hflat]
        exact List.pairwise_map.mpr (hbefore.imp_of_mem fun ha hb => compare_entry (hfits' _ ha) (hfits' _ hb))
      refine ⟨sst, hr.symm.trans hsst, ?_, hkeys, hapart.imp fun hlt a ha b hb => (hlt a ha b hb).ne⟩
      exact h.ingest I (hsorted.trans hperm) hfits' ((hsorted.map _).nodup_iff.mpr hnodup) hflat

/-- Files sorted by insertion, items too, and files that are as large as the number of their entries. -/
def insertionSortSlice : SortSlice :=
  ⟨List.insertionSort fun f g => f.version ≤ g.version, insertionSort_ascending FileWithVersion.version⟩

def insertionLibraries : Libraries compareSorterItem where
  sortSlice := List.insertionSort fun a b => sortKey a ≤ sortKey b
  sortSlice_spec l := compareSorterItem_eq ▸ insertionSort_ascending sortKey l
  snappy := ⟨id, id, id_eq⟩
  heap := binaryHeap _

def countingWriter : SSTFileWriter SSTEntry := ⟨List.length, rfl⟩

/-- Two versions of a key, and another key that it begins. -/
theorem convertSingleStore_feedFiles_two_versions :
    let runs : List (List (ℤ × ChangeSet)) :=
      [[(2, [⟨true, [1], none⟩])], [(1, [⟨false, [1, 0], some [8]⟩, ⟨false, [1], some [7]⟩])]]
    ∃ files, ChangeSetFiles runs files ∧ ∃ schedule sst,
      convertSingleStore [97] countingWriter 1 insertionSortSlice insertionLibraries 20 files schedule =
        some (.ok sst) ∧
      ∃ s', feedFiles [97] files (⟨[], false⟩ : Store listIngestingRocksDB.toRocksDB) = .ok s' ∧
        (listIngestingRocksDB.records (listIngestingRocksDB.ingestExternalFileCF sst [])).Perm
          (listIngestingRocksDB.records s'.db) := by
  intro runs
  have hfiles : ChangeSetFiles runs (runs.map runBytes) := by
    refine ⟨?_, by decide, by decide⟩
    unfold RecordRanges SliceLengths
    decide
  obtain ⟨⟨schedule, hrun⟩, hall⟩ := convertSingleStore_feedFiles listIngestingRocksDB [97] insertionSortSlice
    insertionLibraries countingWriter hfiles (by decide) (by decide) Nat.one_pos 20
  obtain ⟨result, hresult⟩ := Option.isSome_iff_exists.mp hrun
  obtain ⟨sst, rfl, hrecords, -⟩ := hall schedule result hresult
  obtain ⟨s', hfeed, hperm, -⟩ := hrecords ⟨[], false⟩
  exact ⟨_, hfiles, schedule, sst, hresult, s', hfeed, hperm⟩

theorem changeSetFiles_long {value : Bytes} (h : value.length = 2 ^ 32) :
    ChangeSetFiles [[(1, [⟨false, [], some value⟩])]] [runBytes [(1, [⟨false, [], some value⟩])]] := by
  have hvalue : valueLen ⟨false, [], some value⟩ = 2 ^ 32 := h
  have hslices : SliceLengths ⟨false, [], some value⟩ := ⟨by simp, by rw [hvalue]; norm_num⟩
  have hrecord : ∀ r ∈ [((1 : ℤ), [(⟨false, [], some value⟩ : KVPair)])], RecordRanges r := by
    simp [RecordRanges, hslices]
  refine ⟨by simpa using hrecord, ?_, ?_⟩
  · rw [List.map_singleton, writeChangeSets_eq fun r hr => (hrecord r hr).2]
    rfl
  · have hsize := length_layout hslices
    have hlens : uvarintSize 0 = 1 ∧ uvarintSize (2 ^ 32) = 5 := by decide
    simp only [encodedSizeOfKVPair, hvalue, Bool.false_eq_true, if_false, List.length_nil, hlens] at hsize
    have hbytes : (runBytes [(1, [⟨false, [], some value⟩])]).length =
        (layout ⟨false, [], some value⟩).length + 17 := by
      simp [runBytes, recordBytes, payload]
      omega
    intro file hfile
    rw [List.mem_singleton.mp hfile, hbytes]
    omega

/-- A value of four gigabytes is fed to the database, but is no item for the sorter. -/
theorem convertSingleStore_long_value :
    let pair : KVPair := ⟨false, [], some (List.replicate (2 ^ 32) 0)⟩
    ∃ files, ChangeSetFiles [[(1, [pair])]] files ∧
      convertSingleStore [97] countingWriter 1 insertionSortSlice insertionLibraries 20 files ⟨[], []⟩ =
        some (.error (.sorter (.feed .itemTooLong))) ∧
      ∃ s', feedFiles [97] files (⟨[], false⟩ : Store listIngestingRocksDB.toRocksDB) = .ok s' := by
  intro pair
  have hvalue : (List.replicate (2 ^ 32) (0 : UInt8)).length = 2 ^ 32 := List.length_replicate
  have hfiles := changeSetFiles_long hvalue
  obtain ⟨changes, hperm, hconvert⟩ := convertSingleStore_eq [97] countingWriter 1 hfiles insertionSortSlice
    insertionLibraries 20
  obtain rfl : changes = [(1, pair)] := List.perm_singleton.mp hperm
  obtain ⟨s', hfeed, -⟩ := feedFiles_eq hfiles [97] (⟨[], false⟩ : Store listIngestingRocksDB.toRocksDB)
  have hlong : 2 ^ 32 ≤ (sorterItem 1 pair).length := by
    rw [length_sorterItem]
    exact hvalue.ge.trans (Nat.le_add_left _ _)
  have hspawn : spawn (sorterOptions 20) insertionLibraries [sorterItem 1 pair] ⟨[], []⟩ =
      some (.error (.feed .itemTooLong)) := spawn_too_long hlong
  exact ⟨_, hfiles, (hconvert _).trans ((if_neg (by simp)).trans (congrArg (Option.map _) hspawn)), s', hfeed⟩

end IavlStore.Changeset
