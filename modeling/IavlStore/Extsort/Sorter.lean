import IavlStore.Base.Runs
import IavlStore.Extsort.Chunks

/-! External sorting. Items are collected in chunks; every full chunk is sorted and written to a
file in the background, and the files are merged in the end, whatever the order in which they
were finished. -/

namespace IavlStore.Extsort

open IavlStore.Base.Encoding IavlStore.Base.Heaps IavlStore.Base.Runs

/-- What is written to a compressed file is read from it. -/
structure Codec where
  write : Bytes → Bytes
  read : Bytes → Bytes
  read_write : ∀ bs, read (write bs) = bs

structure Options where
  deltaEncoding : Bool
  snappyCompression : Bool
  maxChunkSize : ℤ
  lesserFunc : Bytes → Bytes → Bool

/-- The libraries that the sorter uses. -/
structure Libraries (lesserFunc : Bytes → Bytes → Bool) where
  sortSlice : List Bytes → List Bytes
  sortSlice_spec : ∀ l, (sortSlice l).Perm l ∧ Ascending lesserFunc (sortSlice l)
  snappy : Codec
  heap : HeapContract (less (S := ChunkStream) lesserFunc)

/-- The chunks that are being sorted in the background are `running`. -/
structure ExtSorter where
  currentChunk : List Bytes
  currentChunkSize : ℤ
  running : List (List Bytes)
  chunkFiles : List Bytes

inductive FeedError where
  | itemTooLong
  deriving DecidableEq

def maxUint32 : ℕ := 2 ^ 32 - 1

variable (opts : Options) (libs : Libraries opts.lesserFunc)

def newExtSorter : ExtSorter := ⟨[], 0, [], []⟩

def sortAndSaveChunk (chunk : List Bytes) : Bytes :=
  let data := writeItems opts.deltaEncoding [] (libs.sortSlice chunk)
  if opts.snappyCompression then libs.snappy.write data else data

def openChunk (file : Bytes) : ChunkStream :=
  ⟨opts.deltaEncoding, if opts.snappyCompression then libs.snappy.read file else file, []⟩

def ExtSorter.sortChunkAndRotate (s : ExtSorter) : ExtSorter :=
  { s with currentChunk := [], currentChunkSize := 0, running := s.running ++ [s.currentChunk] }

def ExtSorter.feed (item : Bytes) (s : ExtSorter) : ExtSorter × Except FeedError Unit :=
  if maxUint32 < item.length then (s, .error .itemTooLong)
  else
    let s := { s with currentChunk := s.currentChunk ++ [item], currentChunkSize := s.currentChunkSize + item.length + 4 }
    (if opts.maxChunkSize ≤ s.currentChunkSize then s.sortChunkAndRotate else s, .ok ())

/-- A call of the user, or the end of a goroutine. -/
inductive SorterEvent where
  | feed (item : Bytes)
  | finish (i : ℕ)

/-- Any of the chunks may be finished next. -/
def sorterStep (s : ExtSorter) : SorterEvent → Option (ExtSorter × Except FeedError Unit)
  | .feed item => some (s.feed opts item)
  | .finish i =>
    match s.running[i]? with
    | none => none
    | some chunk => some ({ s with running := s.running.eraseIdx i, chunkFiles := s.chunkFiles ++ [sortAndSaveChunk opts libs chunk] }, .ok ())

/-- The merge of all files, once the chunks that are left are finished in some order. -/
def ExtSorter.finalize (s : ExtSorter) (order : List ℕ) : Option (Except StreamError (MultiWayMerge ChunkStream)) := do
  let s := if 0 < s.currentChunkSize then s.sortChunkAndRotate else s
  let (s, _) ← exec (sorterStep opts libs) s (order.map .finish)
  if s.running = [] then
    some (newMultiWayMerge ChunkStream.next opts.lesserFunc libs.heap (s.chunkFiles.map (openChunk opts libs)))
  else none

/-- The items that were fed. -/
def fedItems (events : List SorterEvent) : List Bytes := events.filterMap fun
  | .feed item => some item
  | .finish _ => none

/-! ### Runs -/

/-- Every item is in the current chunk, in a chunk that is being sorted, or in a file. -/
structure ExtSorter.Inv (s : ExtSorter) (fed : List Bytes) : Prop where
  size : s.currentChunkSize = (s.currentChunk.map fun item => (item.length : ℤ) + 4).sum
  items : ∃ saved : List (List Bytes), s.chunkFiles = saved.map (sortAndSaveChunk opts libs) ∧
    (s.currentChunk ++ s.running.flatten ++ saved.flatten).Perm fed

variable {opts libs} {s s' : ExtSorter} {fed : List Bytes}

theorem ExtSorter.Inv.rotate (h : s.Inv opts libs fed) : s.sortChunkAndRotate.Inv opts libs fed := by
  obtain ⟨-, saved, hfiles, hperm⟩ := h
  refine ⟨rfl, saved, hfiles, .trans ?_ hperm⟩
  simp only [sortChunkAndRotate, List.flatten_append, List.flatten_singleton, List.nil_append]
  exact (List.perm_append_comm).append_right _

theorem ExtSorter.Inv.feed (h : s.Inv opts libs fed) {item : Bytes} (hitem : item.length < 2 ^ 32) :
    (s.feed opts item).1.Inv opts libs (fed ++ [item]) ∧ (s.feed opts item).2 = .ok () := by
  obtain ⟨hsize, saved, hfiles, hperm⟩ := h
  have hadd : ExtSorter.Inv opts libs
      { s with currentChunk := s.currentChunk ++ [item], currentChunkSize := s.currentChunkSize + item.length + 4 }
      (fed ++ [item]) := by
    refine ⟨?_, saved, hfiles, ?_⟩
    · simp [hsize, Int.add_assoc]
    · have hmove : (s.currentChunk ++ [item] ++ s.running.flatten ++ saved.flatten).Perm
          (s.currentChunk ++ s.running.flatten ++ saved.flatten ++ [item]) := by
        refine List.perm_iff_count.mpr fun a => ?_
        simp only [List.count_append]
        omega
      exact hmove.trans (hperm.append_right _)
  have hshort : ¬ maxUint32 < item.length := by unfold maxUint32; omega
  unfold ExtSorter.feed
  rw [if_neg hshort]
  dsimp only
  split_ifs
  · exact ⟨hadd.rotate, rfl⟩
  · exact ⟨hadd, rfl⟩

theorem ExtSorter.Inv.finish (h : s.Inv opts libs fed) {i : ℕ} {out : Except FeedError Unit}
    (hstep : sorterStep opts libs s (.finish i) = some (s', out)) : s'.Inv opts libs fed ∧ out = .ok () := by
  obtain ⟨hsize, saved, hfiles, hperm⟩ := h
  rcases hchunk : s.running[i]? with _ | chunk
  · simp [sorterStep, hchunk] at hstep
  · simp only [sorterStep, hchunk, Option.some.injEq, Prod.mk.injEq] at hstep
    obtain ⟨rfl, rfl⟩ := hstep
    refine ⟨⟨hsize, saved ++ [chunk], ?_, .trans ?_ hperm⟩, rfl⟩
    · simp [hfiles]
    · obtain ⟨hi, rfl⟩ := List.getElem?_eq_some_iff.mp hchunk
      have hrunning := (List.getElem_cons_eraseIdx_perm hi).flatten
      refine List.perm_iff_count.mpr fun a => ?_
      have hcount := hrunning.count_eq a
      simp only [List.flatten_cons, List.flatten_append, List.flatten_nil, List.count_append, List.count_nil] at hcount ⊢
      omega

theorem ExtSorter.Inv.exec (h : s.Inv opts libs fed) {events : List SorterEvent} {outs : List (Except FeedError Unit)}
    (hitems : ∀ item ∈ fedItems events, item.length < 2 ^ 32)
    (hrun : exec (sorterStep opts libs) s events = some (s', outs)) :
    s'.Inv opts libs (fed ++ fedItems events) ∧ ∀ out ∈ outs, out = .ok () := by
  induction events generalizing s fed outs with
  | nil =>
    obtain ⟨rfl, rfl⟩ := Prod.mk.inj (Option.some.inj hrun)
    exact ⟨by rwa [fedItems, List.filterMap_nil, List.append_nil], by simp⟩
  | cons e events ih =>
    obtain ⟨s₁, out, outs', hstep, hrest, rfl⟩ := exec_cons hrun
    cases e with
    | feed item =>
      obtain ⟨hinv, hok⟩ := h.feed (hitems item List.mem_cons_self)
      obtain ⟨rfl, rfl⟩ := Prod.mk.inj (Option.some.inj hstep)
      obtain ⟨hinv', houts⟩ := ih hinv (fun i hi => hitems i (List.mem_cons_of_mem item hi)) hrest
      rw [List.append_assoc] at hinv'
      exact ⟨hinv', List.forall_mem_cons.mpr ⟨hok, houts⟩⟩
    | finish i =>
      obtain ⟨hinv, hok⟩ := h.finish hstep
      obtain ⟨hinv', houts⟩ := ih hinv hitems hrest
      exact ⟨hinv', List.forall_mem_cons.mpr ⟨hok, houts⟩⟩

/-- The files yield their chunks in order. -/
theorem yields_openChunk {saved : List (List Bytes)} (h : ∀ chunk ∈ saved, ∀ item ∈ chunk, item.length < 2 ^ 32) :
    List.Forall₂ (Yields ChunkStream.next) ((saved.map (sortAndSaveChunk opts libs)).map (openChunk opts libs))
      (saved.map libs.sortSlice) := by
  rw [List.map_map, List.forall₂_map_left_iff, List.forall₂_map_right_iff, List.forall₂_same]
  intro chunk hchunk
  have hopen : openChunk opts libs (sortAndSaveChunk opts libs chunk) =
      ⟨opts.deltaEncoding, writeItems opts.deltaEncoding [] (libs.sortSlice chunk), []⟩ := by
    unfold openChunk sortAndSaveChunk
    dsimp only
    split_ifs
    · rw [libs.snappy.read_write]
    · rfl
  rw [Function.comp_apply, hopen]
  refine yields_writeItems (fun _ => rfl) fun item hitem => ?_
  have hlt := h chunk hchunk item ((libs.sortSlice_spec chunk).1.mem_iff.mp hitem)
  omega

theorem currentChunk_exec_finish {order : List ℕ} {outs : List (Except FeedError Unit)}
    (hrun : exec (sorterStep opts libs) s (order.map .finish) = some (s', outs)) : s'.currentChunk = s.currentChunk := by
  induction order generalizing s outs with
  | nil =>
    obtain ⟨rfl, -⟩ := Prod.mk.inj (Option.some.inj hrun)
    rfl
  | cons i order ih =>
    obtain ⟨s₁, out, outs', hstep, hrest, rfl⟩ := exec_cons hrun
    rcases hchunk : s.running[i]? with _ | chunk
    · simp [sorterStep, hchunk] at hstep
    · simp only [sorterStep, hchunk, Option.some.injEq, Prod.mk.injEq] at hstep
      rw [ih hrest, ← hstep.1]

/-- No item is left over when a chunk of size 0 is not rotated. -/
theorem ExtSorter.Inv.currentChunk_eq_nil (h : s.Inv opts libs fed) (hsize : ¬ 0 < s.currentChunkSize) :
    s.currentChunk = [] := by
  have hsum := h.size
  rcases hchunk : s.currentChunk with _ | ⟨item, items⟩
  · rfl
  · have hnonneg : 0 ≤ (items.map fun item => (item.length : ℤ) + 4).sum :=
      List.sum_nonneg fun n hn => by
        obtain ⟨item, -, rfl⟩ := List.mem_map.mp hn
        omega
    rw [hchunk, List.map_cons, List.sum_cons] at hsum
    omega

/-- Once all chunks are finished, all items are in files. -/
theorem ExtSorter.Inv.finalize (h : s.Inv opts libs fed) {order : List ℕ}
    {result : Except StreamError (MultiWayMerge ChunkStream)} (hfinal : s.finalize opts libs order = some result) :
    ∃ saved : List (List Bytes), saved.flatten.Perm fed ∧
      result = newMultiWayMerge ChunkStream.next opts.lesserFunc libs.heap
        ((saved.map (sortAndSaveChunk opts libs)).map (openChunk opts libs)) := by
  have hrotated : ∃ t : ExtSorter, (if 0 < s.currentChunkSize then s.sortChunkAndRotate else s) = t ∧
      t.Inv opts libs fed ∧ t.currentChunk = [] := by
    split_ifs with hsize
    · exact ⟨_, rfl, h.rotate, rfl⟩
    · exact ⟨_, rfl, h, h.currentChunk_eq_nil hsize⟩
  obtain ⟨t, ht, hinv, hchunk⟩ := hrotated
  simp only [ExtSorter.finalize, ht, Option.bind_eq_bind, Option.bind_eq_some_iff] at hfinal
  obtain ⟨⟨s', outs⟩, hrun, hfinal⟩ := hfinal
  have hfed : fedItems (order.map .finish) = [] := by simp [fedItems, List.filterMap_map]
  have hdone := hinv.exec (by simp [hfed]) hrun
  rw [hfed, List.append_nil] at hdone
  obtain ⟨-, saved, hfiles, hperm⟩ := hdone.1
  split_ifs at hfinal with hrunning
  rw [currentChunk_exec_finish hrun, hchunk, hrunning] at hperm
  exact ⟨saved, hperm, by rw [← hfiles, Option.some.inj hfinal]⟩

/-- The merge returns all items, none of them before a lesser one. -/
theorem ExtSorter.Inv.finalize_drains [IsStrictWeakOrder Bytes fun a b => opts.lesserFunc a b = true]
    (h : s.Inv opts libs fed) (hitems : ∀ item ∈ fed, item.length < 2 ^ 32) {order : List ℕ}
    {result : Except StreamError (MultiWayMerge ChunkStream)} (hfinal : s.finalize opts libs order = some result) :
    ∃ merge items, result = .ok merge ∧
      (∀ calls, items.length < calls →
        merge.drain ChunkStream.next opts.lesserFunc libs.heap calls = some (.ok items)) ∧
      items.Perm fed ∧ Ascending opts.lesserFunc items := by
  obtain ⟨saved, hperm, rfl⟩ := h.finalize hfinal
  have hshort : ∀ chunk ∈ saved, ∀ item ∈ chunk, item.length < 2 ^ 32 := fun chunk hchunk item hitem =>
    hitems item (hperm.mem_iff.mp (List.mem_flatten_of_mem hchunk hitem))
  have hsorted : ∀ l ∈ saved.map libs.sortSlice, Ascending opts.lesserFunc l := by
    rintro l hl
    obtain ⟨chunk, -, rfl⟩ := List.mem_map.mp hl
    exact (libs.sortSlice_spec chunk).2
  obtain ⟨merge, hmerge, hminv, hcontents⟩ := newMultiWayMerge_spec libs.heap (yields_openChunk hshort) hsorted
  obtain ⟨items, hitemsPerm, hasc, hdrain⟩ := hminv.drain libs.heap
  refine ⟨merge, items, hmerge, hdrain, ?_, hasc⟩
  have hflat : (saved.map libs.sortSlice).flatten.Perm saved.flatten := by
    have hperms := List.Perm.flatMap_left saved (g := id) fun chunk _ => (libs.sortSlice_spec chunk).1
    rwa [List.flatMap_def, List.flatMap_def, List.map_id] at hperms
  exact hitemsPerm.trans (hcontents.trans (hflat.trans hperm))

theorem ExtSorter.Inv.new : newExtSorter.Inv opts libs [] := ⟨rfl, [], rfl, .refl _⟩

/-- However the items are fed and the chunks are finished, all items are returned, none of them
before a lesser one. -/
theorem extSorter_sorts [IsStrictWeakOrder Bytes fun a b => opts.lesserFunc a b = true] {events : List SorterEvent}
    (hitems : ∀ item ∈ fedItems events, item.length < 2 ^ 32) {outs : List (Except FeedError Unit)}
    (hrun : exec (sorterStep opts libs) newExtSorter events = some (s, outs)) {order : List ℕ}
    {result : Except StreamError (MultiWayMerge ChunkStream)} (hfinal : s.finalize opts libs order = some result) :
    (∀ out ∈ outs, out = .ok ()) ∧ ∃ merge items, result = .ok merge ∧
      (∀ calls, items.length < calls →
        merge.drain ChunkStream.next opts.lesserFunc libs.heap calls = some (.ok items)) ∧
      items.Perm (fedItems events) ∧ items.Pairwise fun earlier later => opts.lesserFunc later earlier = false := by
  obtain ⟨hinv, houts⟩ := ExtSorter.Inv.new.exec hitems hrun
  rw [List.nil_append] at hinv
  exact ⟨houts, hinv.finalize_drains hitems hfinal⟩

/-- Shorter items first; items of one length are not told apart. -/
def shorter (a b : Bytes) : Bool := decide (a.length < b.length)

instance strictWeakOrderShorter : IsStrictWeakOrder Bytes fun a b => shorter a b = true :=
  strictWeakOrder_byKey List.length

/-- Three chunks, of which the second is finished first. -/
theorem extSorter_sorts_ties :
    let opts : Options := ⟨true, false, 6, shorter⟩
    let libs : Libraries shorter := ⟨List.insertionSort fun a b => a.length ≤ b.length, insertionSort_ascending List.length,
      ⟨id, id, fun _ => rfl⟩, binaryHeap _⟩
    let events : List SorterEvent := [.feed [7, 7], .feed [1], .feed [2], .finish 1, .feed []]
    ∃ s outs merge items, exec (sorterStep opts libs) newExtSorter events = some (s, outs) ∧
      s.finalize opts libs [0, 0] = some (.ok merge) ∧
      merge.drain ChunkStream.next shorter libs.heap 9 = some (.ok items) ∧ items.Perm [[7, 7], [1], [2], []] := by
  intro opts libs events
  have hitems : ∀ item ∈ fedItems events, item.length < 2 ^ 32 := by simp [events, fedItems]
  have hrun : exec (sorterStep opts libs) newExtSorter events =
      some (⟨[[]], 4, [[[7, 7]]], [sortAndSaveChunk opts libs [[1], [2]]]⟩, List.replicate 5 (.ok ())) := rfl
  have hfinal : ExtSorter.finalize opts libs ⟨[[]], 4, [[[7, 7]]], [sortAndSaveChunk opts libs [[1], [2]]]⟩ [0, 0] =
      some _ := rfl
  obtain ⟨-, merge, items, hmerge, hdrain, hperm, -⟩ := extSorter_sorts hitems hrun hfinal
  have hlen : items.length = 4 := hperm.length_eq
  exact ⟨_, _, merge, items, hrun, hfinal.trans (congrArg some hmerge), hdrain 9 (by omega), hperm⟩

end IavlStore.Extsort
