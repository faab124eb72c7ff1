import IavlStore.Base.Encoding
import IavlStore.Base.Heaps

/-! Merging sorted streams with a heap that holds the next item of each stream. The least item is
returned, its entry advanced in place and sifted to its new position, or removed when its stream
has ended. -/

namespace IavlStore.Extsort

open IavlStore.Base.Encoding IavlStore.Base.Heaps

variable {S E : Type} (stream : S → Except E (Option Bytes × S)) (lesserFunc : Bytes → Bytes → Bool)

/-- A stream and the item that was read from it last. -/
structure HeapEntry (S : Type) where
  stream : S
  value : Bytes

def newHeapEntry (s : S) : Except E (Option (HeapEntry S)) :=
  (stream s).map fun r => r.1.map (⟨r.2, ·⟩)

/-- The order of the heap. -/
def less (a b : HeapEntry S) : Bool := lesserFunc a.value b.value

structure MultiWayMerge (S : Type) where
  entries : List (HeapEntry S)

variable (heap : HeapContract (less (S := S) lesserFunc))

/-- A heap of the streams that have an item. -/
def newMultiWayMerge (streams : List S) : Except E (MultiWayMerge S) := do
  let entries ← streams.mapM (newHeapEntry stream)
  return ⟨heap.init entries.reduceOption⟩

/-- The least item, or nil when all streams have ended. The value of an entry that is removed is
not compared any more. -/
def MultiWayMerge.next (merge : MultiWayMerge S) : Except E (Option Bytes × MultiWayMerge S) :=
  match merge.entries with
  | [] => .ok (none, merge)
  | minEntry :: entries =>
    match stream minEntry.stream with
    | .error e => .error e
    | .ok (none, s) => .ok (some minEntry.value, ⟨heap.remove (⟨s, minEntry.value⟩ :: entries)⟩)
    | .ok (some value, s) => .ok (some minEntry.value, ⟨heap.fix (⟨s, value⟩ :: entries)⟩)

/-- The items until nil is returned; `none` when the calls do not suffice. -/
def MultiWayMerge.drain : ℕ → MultiWayMerge S → Option (Except E (List Bytes))
  | 0, _ => none
  | calls + 1, merge =>
    match merge.next stream lesserFunc heap with
    | .error e => some (.error e)
    | .ok (none, _) => some (.ok [])
    | .ok (some item, merge) => (drain calls merge).map fun r => r.map (item :: ·)

/-! ### What is left -/

/-- The stream returns these items and then nil. -/
inductive Yields : S → List Bytes → Prop where
  | nil {s s' : S} (h : stream s = .ok (none, s')) : Yields s []
  | cons {s s' : S} {item : Bytes} {items : List Bytes} (h : stream s = .ok (some item, s'))
    (rest : Yields s' items) : Yields s (item :: items)

open Classical in
/-- The items a stream has left. -/
noncomputable def remaining (s : S) : List Bytes := if h : ∃ items, Yields stream s items then h.choose else []

/-- The items that are still to be returned, in some order. -/
noncomputable def MultiWayMerge.contents (merge : MultiWayMerge S) : List Bytes :=
  merge.entries.flatMap fun e => e.value :: remaining stream e.stream

/-- The entry and its stream are in order. -/
def HeapEntry.Sorted (e : HeapEntry S) : Prop :=
  Yields stream e.stream (remaining stream e.stream) ∧ Ascending lesserFunc (e.value :: remaining stream e.stream)

structure MultiWayMerge.Inv (merge : MultiWayMerge S) : Prop where
  sorted : ∀ e ∈ merge.entries, e.Sorted stream lesserFunc
  heap : HeapFrom (less lesserFunc) 0 merge.entries

variable {stream lesserFunc heap} {s : S} {items : List Bytes} {merge : MultiWayMerge S}

theorem Yields.unique {items' : List Bytes} (h : Yields stream s items) (h' : Yields stream s items') :
    items = items' := by
  induction h generalizing items' with
  | nil h =>
    cases h' with
    | nil => rfl
    | cons h' => cases h.symm.trans h'
  | cons h _ ih =>
    cases h' with
    | nil h' => cases h.symm.trans h'
    | cons h' rest =>
      obtain ⟨hitem, rfl⟩ := Prod.mk.inj (Except.ok.inj (h.symm.trans h'))
      rw [Option.some.inj hitem, ih rest]

theorem Yields.remaining_eq (h : Yields stream s items) : remaining stream s = items := by
  have hex : ∃ items, Yields stream s items := ⟨items, h⟩
  rw [remaining, dif_pos hex]
  exact hex.choose_spec.unique h

/-! ### Starting and going on -/

/-- The first items are taken from the streams. -/
theorem mapM_newHeapEntry {streams : List S} {lists : List (List Bytes)}
    (h : List.Forall₂ (Yields stream) streams lists) (hsorted : ∀ l ∈ lists, Ascending lesserFunc l) :
    ∃ entries, streams.mapM (newHeapEntry stream) = .ok entries ∧
      (∀ e ∈ entries.reduceOption, e.Sorted stream lesserFunc) ∧
      (entries.reduceOption.flatMap fun e => e.value :: remaining stream e.stream) = lists.flatten := by
  induction h with
  | nil => exact ⟨[], rfl, fun _ he => absurd he List.not_mem_nil, rfl⟩
  | @cons s l streams lists hs _ ih =>
    obtain ⟨entries, hmap, hentries, hflat⟩ := ih fun l hl => hsorted l (List.mem_cons_of_mem _ hl)
    have hl := hsorted l List.mem_cons_self
    cases hs with
    | nil hs =>
      refine ⟨none :: entries, ?_, hentries, hflat⟩
      rw [List.mapM_cons, newHeapEntry, hs, hmap]
      rfl
    | @cons _ s' item items hs hrest =>
      have hcons : (some ⟨s', item⟩ :: entries).reduceOption = ⟨s', item⟩ :: entries.reduceOption := rfl
      refine ⟨some ⟨s', item⟩ :: entries, ?_, ?_, ?_⟩
      · rw [List.mapM_cons, newHeapEntry, hs, hmap]
        rfl
      · rw [hcons, List.forall_mem_cons, HeapEntry.Sorted, hrest.remaining_eq]
        exact ⟨⟨hrest, hl⟩, hentries⟩
      · rw [hcons, List.flatMap_cons, hflat, hrest.remaining_eq, List.flatten_cons]

variable (heap) in
theorem newMultiWayMerge_spec {streams : List S} {lists : List (List Bytes)}
    (h : List.Forall₂ (Yields stream) streams lists) (hsorted : ∀ l ∈ lists, Ascending lesserFunc l) :
    ∃ merge, newMultiWayMerge stream lesserFunc heap streams = .ok merge ∧ merge.Inv stream lesserFunc ∧
      (merge.contents stream).Perm lists.flatten := by
  obtain ⟨entries, hmap, hentries, hflat⟩ := mapM_newHeapEntry h hsorted
  obtain ⟨hperm, hheap⟩ := heap.init_spec entries.reduceOption
  refine ⟨⟨heap.init entries.reduceOption⟩, ?_, ⟨fun e he => hentries e (hperm.mem_iff.mp he), hheap⟩, ?_⟩
  · rw [newMultiWayMerge, hmap]
    rfl
  · rw [← hflat]
    exact List.Perm.flatMap hperm fun e _ => .refl _

variable [IsStrictWeakOrder Bytes fun a b => lesserFunc a b = true]

instance strictWeakOrderLess : IsStrictWeakOrder (HeapEntry S) fun a b => less lesserFunc a b = true :=
  inferInstanceAs (IsStrictWeakOrder (HeapEntry S) (Function.onFun (fun a b => lesserFunc a b = true) HeapEntry.value))

theorem MultiWayMerge.Inv.least {e : HeapEntry S} {entries : List (HeapEntry S)} (h : merge.Inv stream lesserFunc)
    (hentries : merge.entries = e :: entries) : ∀ item ∈ merge.contents stream, lesserFunc item e.value = false := by
  intro item hitem
  obtain ⟨e', he', hmem⟩ := List.mem_flatMap.mp hitem
  have hhead : lesserFunc e'.value e.value = false :=
    (hentries ▸ h.heap).head_least e' (hentries ▸ he')
  rcases List.mem_cons.mp hmem with rfl | hrest
  · exact hhead
  · exact not_lesser_trans ((List.pairwise_cons.mp (h.sorted e' he').2).1 item hrest) hhead

omit [IsStrictWeakOrder Bytes fun a b => lesserFunc a b = true] in
/-- The heap after the first entry was advanced or removed. -/
theorem MultiWayMerge.Inv.of_perm {e : HeapEntry S} {entries entries' rest : List (HeapEntry S)}
    (h : merge.Inv stream lesserFunc) (hentries : merge.entries = e :: entries)
    (hheap : HeapFrom (less lesserFunc) 0 entries') (hperm : entries'.Perm (rest ++ entries)) (hrest : ∀ e ∈ rest, e.Sorted stream lesserFunc)
    (hleft : (rest.flatMap fun e => e.value :: remaining stream e.stream) = remaining stream e.stream) :
    MultiWayMerge.Inv stream lesserFunc ⟨entries'⟩ ∧
      (merge.contents stream).Perm (e.value :: MultiWayMerge.contents stream ⟨entries'⟩) := by
  refine ⟨⟨fun e' he' => ?_, hheap⟩, ?_⟩
  · rcases List.mem_append.mp (hperm.mem_iff.mp he') with hmem | hmem
    · exact hrest e' hmem
    · exact h.sorted e' (hentries ▸ List.mem_cons_of_mem e hmem)
  · rw [contents, hentries, List.flatMap_cons, List.cons_append]
    refine List.Perm.cons _ ?_
    have hflat := (List.Perm.flatMap hperm fun e _ => List.Perm.refl (e.value :: remaining stream e.stream)).symm
    rw [List.flatMap_append, hleft] at hflat
    exact hflat

variable (heap) in
/-- One call returns a least item of what is left. -/
theorem MultiWayMerge.Inv.next (h : merge.Inv stream lesserFunc) (hne : merge.entries ≠ []) :
    ∃ item merge', merge.next stream lesserFunc heap = .ok (some item, merge') ∧ merge'.Inv stream lesserFunc ∧
      (merge.contents stream).Perm (item :: merge'.contents stream) ∧
      ∀ item' ∈ merge.contents stream, lesserFunc item' item = false := by
  obtain ⟨e, entries, hentries⟩ := List.exists_cons_of_ne_nil hne
  obtain ⟨hyields, hasc⟩ := h.sorted e (hentries ▸ List.mem_cons_self)
  have hleast := h.least hentries
  have hheap := hentries ▸ h.heap
  rcases hleft : remaining stream e.stream with _ | ⟨value, items⟩ <;> rw [hleft] at hyields hasc
  · cases hyields with
    | @nil _ s' hnext =>
      obtain ⟨hperm, hheap'⟩ := heap.remove_spec (⟨s', e.value⟩ :: entries) hheap.changed_head
      have hperm' : (heap.remove (⟨s', e.value⟩ :: entries)).Perm ([] ++ entries) := hperm
      obtain ⟨hinv, hcontents⟩ := h.of_perm hentries hheap' hperm' (by simp) hleft.symm
      exact ⟨e.value, _, by simp only [MultiWayMerge.next, hentries, hnext], hinv, hcontents, hleast⟩
  · cases hyields with
    | @cons _ s' _ _ hnext hrest =>
      obtain ⟨hperm, hheap'⟩ := heap.fix_spec (⟨s', value⟩ :: entries) hheap.changed_head
      have hsorted : HeapEntry.Sorted stream lesserFunc ⟨s', value⟩ := by
        rw [HeapEntry.Sorted, hrest.remaining_eq]
        exact ⟨hrest, (List.pairwise_cons.mp hasc).2⟩
      have hleft' : ([⟨s', value⟩].flatMap fun e : HeapEntry S => e.value :: remaining stream e.stream) =
          remaining stream e.stream := by
        simp [hrest.remaining_eq, hleft]
      obtain ⟨hinv, hcontents⟩ := h.of_perm hentries hheap' hperm (by simpa using hsorted) hleft'
      exact ⟨e.value, _, by simp only [MultiWayMerge.next, hentries, hnext], hinv, hcontents, hleast⟩

variable (heap) in
/-- All items are returned in order before nil. -/
theorem MultiWayMerge.Inv.drain (h : merge.Inv stream lesserFunc) :
    ∃ items, items.Perm (merge.contents stream) ∧ Ascending lesserFunc items ∧
      ∀ calls, items.length < calls → merge.drain stream lesserFunc heap calls = some (.ok items) := by
  generalize hn : (merge.contents stream).length = n
  induction n generalizing merge with
  | zero =>
    have hnil := List.eq_nil_of_length_eq_zero hn
    have hentries : merge.entries = [] := by
      by_contra hne
      obtain ⟨item, merge', -, -, hperm, -⟩ := h.next heap hne
      rw [hnil] at hperm
      cases hperm.nil_eq
    refine ⟨[], by rw [hnil], .nil, fun calls hcalls => ?_⟩
    obtain ⟨calls, rfl⟩ := Nat.exists_eq_add_of_lt hcalls
    simp only [MultiWayMerge.drain, MultiWayMerge.next, hentries]
  | succ n ih =>
    have hne : merge.entries ≠ [] := fun hentries => by simp [contents, hentries] at hn
    obtain ⟨item, merge', hnext, hinv, hperm, hleast⟩ := h.next heap hne
    have hlen := hperm.length_eq
    rw [List.length_cons] at hlen
    obtain ⟨items, hperm', hasc, hdrain⟩ := ih hinv (by omega)
    refine ⟨item :: items, (hperm'.cons item).trans hperm.symm, ?_, fun calls hcalls => ?_⟩
    · refine List.pairwise_cons.mpr ⟨fun item' hmem => hleast item' ?_, hasc⟩
      exact hperm.mem_iff.mpr (List.mem_cons_of_mem item (hperm'.mem_iff.mp hmem))
    · rw [List.length_cons] at hcalls
      obtain ⟨calls, rfl⟩ : ∃ c, calls = c + 1 := ⟨calls - 1, by omega⟩
      simp only [MultiWayMerge.drain, hnext, hdrain calls (by omega)]
      rfl

end IavlStore.Extsort
