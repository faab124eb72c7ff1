import IavlStore.Extsort.Sorter

/-! The sorter between two channels. A goroutine feeds it the items of the first channel until that is
closed, and then sends all items in order to the second. Chunks are finished in the background, some
before the last item is fed and the others after it. -/

namespace IavlStore.Extsort

open IavlStore.Base.Encoding IavlStore.Base.Heaps IavlStore.Base.Runs

/-- The chunks that are finished after each item, and those that are finished in the end. -/
structure Schedule where
  pauses : List (List ℕ)
  order : List ℕ

def interleave : List Bytes → List (List ℕ) → List SorterEvent
  | [], _ => []
  | item :: items, pauses => .feed item :: ((pauses.headD []).map .finish ++ interleave items pauses.tail)

/-- What the goroutine panics with. -/
inductive SpawnError where
  | feed (err : FeedError)
  | stream (err : StreamError)

def failed : Except FeedError Unit → Option FeedError
  | .error e => some e
  | .ok _ => none

section
variable (opts : Options) (libs : Libraries opts.lesserFunc)

/-- The items of the second channel. Every item is returned once, so that one call more than items were fed
finds the end. A schedule that names a chunk that is not there is no run. -/
def spawn (items : List Bytes) (schedule : Schedule) : Option (Except SpawnError (List Bytes)) :=
  match exec (sorterStep opts libs) newExtSorter (interleave items schedule.pauses) with
  | none => none
  | some (s, outs) =>
    match outs.findSome? failed with
    | some e => some (.error (.feed e))
    | none =>
      match s.finalize opts libs schedule.order with
      | none => none
      | some (.error e) => some (.error (.stream e))
      | some (.ok merge) =>
        (merge.drain ChunkStream.next opts.lesserFunc libs.heap (items.length + 1)).map (·.mapError .stream)

end

variable {opts : Options} {libs : Libraries opts.lesserFunc} {items : List Bytes} {schedule : Schedule}
  {result : Except SpawnError (List Bytes)}

theorem fedItems_interleave (items : List Bytes) (pauses : List (List ℕ)) :
    fedItems (interleave items pauses) = items := by
  induction items generalizing pauses with
  | nil => rfl
  | cons item items ih =>
    have hpause : ∀ l : List ℕ, fedItems (l.map .finish) = [] := fun l => by simp [fedItems, List.filterMap_map]
    have happend : ∀ es es' : List SorterEvent, fedItems (es ++ es') = fedItems es ++ fedItems es' :=
      fun es es' => List.filterMap_append
    have hfeed : ∀ es, fedItems (.feed item :: es) = item :: fedItems es := fun _ => rfl
    rw [interleave, hfeed, happend, hpause, List.nil_append, ih]

theorem findSome?_failed {outs : List (Except FeedError Unit)} (h : ∀ out ∈ outs, out = .ok ()) :
    outs.findSome? failed = none :=
  List.findSome?_eq_none_iff.mpr fun out hout => by
    rw [h out hout]
    rfl

/-- In every run all items come out, none of them before a lesser one. -/
theorem spawn_sorts [IsStrictWeakOrder Bytes fun a b => opts.lesserFunc a b = true]
    (hitems : ∀ item ∈ items, item.length < 2 ^ 32) (h : spawn opts libs items schedule = some result) :
    ∃ sorted, result = .ok sorted ∧ sorted.Perm items ∧ Ascending opts.lesserFunc sorted := by
  have hfed := fedItems_interleave items schedule.pauses
  rcases hrun : exec (sorterStep opts libs) newExtSorter (interleave items schedule.pauses) with _ | ⟨s, outs⟩
  · simp [spawn, hrun] at h
  · obtain ⟨hinv, houts⟩ := ExtSorter.Inv.new.exec (by rwa [hfed]) hrun
    rw [hfed, List.nil_append] at hinv
    rcases hfinal : s.finalize opts libs schedule.order with _ | final
    · simp [spawn, hrun, findSome?_failed houts, hfinal] at h
    · obtain ⟨merge, sorted, rfl, hdrain, hperm, hasc⟩ := hinv.finalize_drains hitems hfinal
      have hcalls := hdrain (items.length + 1) (by rw [hperm.length_eq]; omega)
      simp only [spawn, hrun, findSome?_failed houts, hfinal, hcalls, Option.map_some, Option.some.injEq] at h
      exact ⟨sorted, h.symm, hperm, hasc⟩

/-- The goroutine panics at an item whose length has more than 32 bits. -/
theorem spawn_too_long {item : Bytes} (h : 2 ^ 32 ≤ item.length) :
    spawn opts libs [item] ⟨[], []⟩ = some (.error (.feed .itemTooLong)) := by
  have hlong : maxUint32 < item.length := by
    unfold maxUint32
    omega
  have hfeed : newExtSorter.feed opts item = (newExtSorter, .error .itemTooLong) := if_pos hlong
  have hrun : exec (sorterStep opts libs) newExtSorter (interleave [item] []) =
      some (newExtSorter, [.error .itemTooLong]) := by
    simp only [interleave, List.headD_nil, List.map_nil, List.append_nil, exec, sorterStep, hfeed, Option.bind_eq_bind,
      Option.bind_some]
  simp only [spawn, hrun]
  rfl

/-! ### A schedule -/

variable (opts libs) in
theorem exists_exec_feed (items : List Bytes) (s : ExtSorter) :
    ∃ s' outs, exec (sorterStep opts libs) s (interleave items []) = some (s', outs) := by
  induction items generalizing s with
  | nil => exact ⟨s, [], rfl⟩
  | cons item items ih =>
    obtain ⟨s', outs, hrest⟩ := ih (s.feed opts item).1
    refine ⟨s', (s.feed opts item).2 :: outs, ?_⟩
    simp only [interleave, List.headD_nil, List.map_nil, List.nil_append, List.tail_nil, exec, sorterStep,
      Option.bind_eq_bind, Option.bind_some, hrest]

variable (opts libs) in
/-- The chunks may be finished one after the other. -/
theorem exists_exec_finish (s : ExtSorter) :
    ∃ s' outs, exec (sorterStep opts libs) s ((List.replicate s.running.length 0).map .finish) = some (s', outs) ∧
      s'.running = [] := by
  obtain ⟨chunk, size, running, files⟩ := s
  induction running generalizing files with
  | nil => exact ⟨_, [], rfl, rfl⟩
  | cons first running ih =>
    obtain ⟨s', outs, hrest, hdone⟩ := ih (files ++ [sortAndSaveChunk opts libs first])
    refine ⟨s', .ok () :: outs, ?_, hdone⟩
    simp only [List.length_cons, List.replicate_succ, List.map_cons, exec, sorterStep, List.getElem?_cons_zero,
      List.eraseIdx_cons_zero, Option.bind_eq_bind, Option.bind_some]
    simp only at hrest
    rw [hrest]
    rfl

variable (opts libs) in
/-- Some schedule is a run: the chunks are finished in the order in which they were filled. -/
theorem exists_schedule [IsStrictWeakOrder Bytes fun a b => opts.lesserFunc a b = true]
    (hitems : ∀ item ∈ items, item.length < 2 ^ 32) : ∃ schedule, (spawn opts libs items schedule).isSome := by
  obtain ⟨s, outs, hrun⟩ := exists_exec_feed opts libs items newExtSorter
  have hfed := fedItems_interleave items []
  obtain ⟨hinv, houts⟩ := ExtSorter.Inv.new.exec (by rwa [hfed]) hrun
  rw [hfed, List.nil_append] at hinv
  set rotated := if 0 < s.currentChunkSize then s.sortChunkAndRotate else s with hrotated
  obtain ⟨s', outs', hfinish, hdone⟩ := exists_exec_finish opts libs rotated
  refine ⟨⟨[], List.replicate rotated.running.length 0⟩, ?_⟩
  have hfinal : s.finalize opts libs (List.replicate rotated.running.length 0) =
      some (newMultiWayMerge ChunkStream.next opts.lesserFunc libs.heap
        (s'.chunkFiles.map (openChunk opts libs))) := by
    simp only [ExtSorter.finalize, ← hrotated, hfinish, Option.bind_eq_bind, Option.bind_some, hdone, ↓reduceIte]
  obtain ⟨merge, sorted, hmerge, hdrain, hperm, -⟩ := hinv.finalize_drains hitems hfinal
  have hcalls := hdrain (items.length + 1) (by rw [hperm.length_eq]; omega)
  simp only [spawn, hrun, findSome?_failed houts, hfinal, hmerge, hcalls, Option.map_some, Option.isSome_some]

end IavlStore.Extsort
