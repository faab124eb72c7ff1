import IavlStore.Changeset.SorterItems
import IavlStore.Extsort.Spawn
import IavlStore.VersionDb.Ingest

/-! Items of the sorter written to files for the versioned database. A new file is begun when the last one is
large enough and the key is another one. Items that come in order are all written, in the order of the
database, and no key is in two files. -/

namespace IavlStore.Changeset

open IavlStore.Base.Encoding IavlStore.Base.ByteOrder IavlStore.Base.Parsers
open IavlStore.Extsort IavlStore.VersionDb

inductive ConvertError where
  | firstVersion (err : ReadError)
  | iterate (err : IterateError Unit)
  | sorter (err : SpawnError)
  /-- An item whose bounds are out of range. -/
  | decode
  | sst (err : SSTError)

/-- The files that are finished, the one that is being written, and the last key. -/
structure SSTFiles where
  finished : List (List SSTEntry)
  current : List SSTEntry
  lastKey : Bytes

section
variable (store : Bytes) (w : SSTFileWriter SSTEntry) (sstFileSize : ℕ)

/-- A file is only left for the next one when the key is different. -/
def SSTFiles.split (key : Bytes) (s : SSTFiles) : Except SSTError SSTFiles :=
  if sstFileSize ≤ w.fileSize s.current ∧ s.lastKey ≠ key then
    (SSTFileWriter.finish s.current).map fun file => { s with finished := s.finished ++ [file], current := [] }
  else .ok s

/-- The next item of the sorter. -/
def SSTFiles.write (s : SSTFiles) (item : Bytes) : Except ConvertError SSTFiles :=
  match decodeSorterItem item with
  | none => .error .decode
  | some (ts, pair) =>
    match s.split w sstFileSize pair.key with
    | .error e => .error (.sst e)
    | .ok s =>
      let value := if pair.delete then none else some (pair.value.getD [])
      match SSTFileWriter.add SSTEntry.compare ⟨prependStoreKey store pair.key ++ ts, value⟩ s.current with
      | .error e => .error (.sst e)
      | .ok current => .ok { s with current := current, lastKey := pair.key }

/-- All items of the sorter. -/
def writeItemsToFiles (items : List Bytes) : Except ConvertError (List (List SSTEntry)) :=
  match items.foldlM (SSTFiles.write store w sstFileSize) ⟨[], [], []⟩ with
  | .error e => .error e
  | .ok s =>
    match SSTFileWriter.finish s.current with
    | .error e => .error (.sst e)
    | .ok file => .ok (s.finished ++ [file])

end

/-! ### Writing in order -/

/-- A pair with its version as an unsigned number. -/
abbrev Change := ℕ × KVPair

/-- A key comes before a greater one, and a version before an older one of its key. -/
def Before (a b : Change) : Prop := a.2.key < b.2.key ∨ a.2.key = b.2.key ∧ b.1 < a.1

def Change.entry (store : Bytes) (c : Change) : SSTEntry :=
  ⟨prependStoreKey store c.2.key ++ putLE 8 c.1, if c.2.delete then none else some (c.2.value.getD [])⟩

/-- A version of its type, and an item that the sorter takes. -/
def Change.Fits (c : Change) : Prop := c.1 < 2 ^ 64 ∧ sizeOfSorterItem c.2 < 2 ^ 32

variable {store : Bytes} {w : SSTFileWriter SSTEntry} {sstFileSize : ℕ} {a b c : Change} {done changes : List Change}
  {s : SSTFiles}

theorem Before.key_le (h : Before a b) : a.2.key ≤ b.2.key := by
  rcases h with h | h
  · exact h.le
  · exact h.1.le

theorem userKey_entry (store : Bytes) (c : Change) :
    Comparator.userKey (c.entry store).key = prependStoreKey store c.2.key :=
  Comparator.userKey_append _ _ (length_putLE 8 c.1)

theorem userKey_entry_lt : Comparator.userKey (a.entry store).key < Comparator.userKey (b.entry store).key ↔
    a.2.key < b.2.key := by
  rw [userKey_entry, userKey_entry, prependStoreKey, prependStoreKey, bytes_append_lt_append]

theorem keyTimestamp_entry (h : c.Fits) : readLE (Comparator.keyTimestamp (c.entry store).key) = c.1 := by
  rw [Change.entry, Comparator.keyTimestamp_append _ _ (length_putLE 8 c.1),
    readLE_putLE_of_lt (by norm_num; exact h.1)]

theorem record_entry (h : c.Fits) : (c.entry store).record = changeRecord store c.1 c.2 := by
  rw [SSTEntry.record, keyTimestamp_entry h, userKey_entry]
  rfl

theorem compare_entry (ha : a.Fits) (hb : b.Fits) (h : Before a b) :
    Comparator.compare (a.entry store).key (b.entry store).key < 0 := by
  rw [Comparator.compare_neg_iff, userKey_entry_lt, keyTimestamp_entry ha, keyTimestamp_entry hb, userKey_entry,
    userKey_entry]
  rcases h with h | ⟨hkey, hts⟩
  · exact .inl h
  · exact .inr ⟨by rw [hkey], hts⟩

/-- After these changes: they are in the files, and no key is in two of them. -/
structure SSTFiles.Holds (store : Bytes) (s : SSTFiles) (done : List Change) : Prop where
  entries : s.finished.flatten ++ s.current = done.map (Change.entry store)
  current : done ≠ [] → s.current ≠ []
  lastKey : ∀ c ∈ done.getLast?, s.lastKey = c.2.key
  apart : (s.finished ++ [s.current]).Pairwise fun f g =>
    ∀ a ∈ f, ∀ b ∈ g, Comparator.userKey a.key < Comparator.userKey b.key

theorem SSTFiles.Holds.exists_change (h : s.Holds store done) {e : SSTEntry} (he : e ∈ s.current) :
    ∃ a ∈ done, a.entry store = e :=
  List.mem_map.mp (h.entries ▸ List.mem_append_right _ he)

theorem SSTFiles.Holds.exists_finished (h : s.Holds store done) {f : List SSTEntry} (hf : f ∈ s.finished)
    {e : SSTEntry} (he : e ∈ f) : ∃ a ∈ done, a.entry store = e :=
  List.mem_map.mp (h.entries ▸ List.mem_append_left _ (List.mem_flatten_of_mem hf he))

/-- After another key has begun, no key of before comes again. -/
theorem key_lt_of_last (hsorted : (done ++ [c]).Pairwise Before) (ha : a ∈ done)
    (hlast : ∀ last ∈ done.getLast?, last.2.key ≠ c.2.key) : a.2.key < c.2.key := by
  obtain ⟨hdone, -, hbefore⟩ := List.pairwise_append.mp hsorted
  obtain ⟨init, last, rfl⟩ := List.eq_nil_or_concat' done |>.resolve_left (List.ne_nil_of_mem ha)
  have hlt : last.2.key < c.2.key :=
    lt_of_le_of_ne (hbefore last (by simp) c (by simp)).key_le (hlast last (by simp))
  rcases List.mem_append.mp ha with ha | ha
  · exact ((List.pairwise_append.mp hdone).2.2 a ha last (by simp)).key_le.trans_lt hlt
  · rwa [List.mem_singleton.mp ha]

/-- Leaving a file for the next one keeps keys apart. -/
theorem SSTFiles.Holds.split (h : s.Holds store done) (hsize : 0 < sstFileSize)
    (hsorted : (done ++ [c]).Pairwise Before) :
    ∃ s', s.split w sstFileSize c.2.key = .ok s' ∧
      s'.finished.flatten ++ s'.current = done.map (Change.entry store) ∧
      (∀ e ∈ s'.current, e ∈ s.current) ∧
      (s'.finished ++ [s'.current ++ [c.entry store]]).Pairwise fun f g =>
        ∀ a ∈ f, ∀ b ∈ g, Comparator.userKey a.key < Comparator.userKey b.key := by
  have hle : ∀ a ∈ done, a.2.key ≤ c.2.key := fun a ha =>
    ((List.pairwise_append.mp hsorted).2.2 a ha c (by simp)).key_le
  unfold SSTFiles.split
  split_ifs with hcut
  · have hne : s.current ≠ [] := by
      intro hnil
      have hzero := w.fileSize_nil
      rw [hnil] at hcut
      omega
    refine ⟨_, by rw [SSTFileWriter.finish_eq hne]; rfl, ?_, by simp, ?_⟩
    · simpa using h.entries
    · refine List.pairwise_append.mpr ⟨h.apart, by simp, fun f hf g hg e he e' he' => ?_⟩
      obtain rfl : e' = c.entry store := by simpa [List.mem_singleton.mp hg] using he'
      have hchange : ∃ a ∈ done, a.entry store = e := by
        rcases List.mem_append.mp hf with hf | hf
        · exact h.exists_finished hf he
        · rw [List.mem_singleton.mp hf] at he
          exact h.exists_change he
      obtain ⟨a, ha, rfl⟩ := hchange
      exact userKey_entry_lt.mpr (key_lt_of_last hsorted ha fun last hlast => h.lastKey last hlast ▸ hcut.2)
  · refine ⟨s, rfl, h.entries, fun _ he => he, ?_⟩
    obtain ⟨hfinished, -, hapart⟩ := List.pairwise_append.mp h.apart
    refine List.pairwise_append.mpr ⟨hfinished, by simp, fun f hf g hg e he e' he' => ?_⟩
    rw [List.mem_singleton.mp hg] at he'
    rcases List.mem_append.mp he' with he' | he'
    · exact hapart f hf s.current (by simp) e he e' he'
    · -- the file that is being written has an entry, and its key is not greater
      rw [List.mem_singleton.mp he']
      obtain ⟨a, ha, -⟩ := h.exists_finished hf he
      obtain ⟨e₀, he₀⟩ := List.exists_mem_of_ne_nil _ (h.current (List.ne_nil_of_mem ha))
      obtain ⟨b, hb, rfl⟩ := h.exists_change he₀
      refine (hapart f hf s.current (by simp) e he _ he₀).trans_le (not_lt.mp fun hlt => ?_)
      exact (hle b hb).not_gt (userKey_entry_lt.mp hlt)

/-- One item more. -/
theorem SSTFiles.Holds.write (h : s.Holds store done) (hsize : 0 < sstFileSize)
    (hsorted : (done ++ [c]).Pairwise Before) (hfits : ∀ a ∈ done ++ [c], a.Fits) :
    ∃ s', s.write store w sstFileSize (sorterItem c.1 c.2) = .ok s' ∧ s'.Holds store (done ++ [c]) := by
  obtain ⟨s₁, hsplit, hentries, hsub, hapart⟩ := h.split (w := w) hsize hsorted
  have hadd : SSTFileWriter.add SSTEntry.compare (c.entry store) s₁.current =
      .ok (s₁.current ++ [c.entry store]) := by
    refine SSTFileWriter.add_eq fun last hlast => ?_
    obtain ⟨a, ha, rfl⟩ := h.exists_change (hsub last (List.mem_of_getLast? hlast))
    have hlt : Comparator.compare (a.entry store).key (c.entry store).key < 0 :=
      compare_entry (hfits a (by simp [ha])) (hfits c (by simp))
        ((List.pairwise_append.mp hsorted).2.2 a ha c (by simp))
    rw [SSTEntry.compare, Comparator.compare_swap]
    omega
  have hentry : (⟨prependStoreKey store (readBack c.2).key ++ putLE 8 c.1,
      if (readBack c.2).delete then none else some ((readBack c.2).value.getD [])⟩ : SSTEntry) = c.entry store := by
    unfold readBack Change.entry
    cases c.2.delete <;> rfl
  refine ⟨{ s₁ with current := s₁.current ++ [c.entry store], lastKey := c.2.key }, ?_, ?_, by simp, by simp, hapart⟩
  · rw [SSTFiles.write, decodeSorterItem_sorterItem (hfits c (by simp)).2]
    dsimp only
    rw [hentry]
    rw [show (readBack c.2).key = c.2.key from rfl, hsplit]
    dsimp only
    rw [hadd]
  · rw [List.map_append, ← hentries, List.append_assoc]
    rfl

theorem SSTFiles.Holds.foldlM (h : s.Holds store done) (hsize : 0 < sstFileSize)
    (hsorted : (done ++ changes).Pairwise Before) (hfits : ∀ a ∈ done ++ changes, a.Fits) :
    ∃ s', (changes.map fun c => sorterItem c.1 c.2).foldlM (SSTFiles.write store w sstFileSize) s = .ok s' ∧
      s'.Holds store (done ++ changes) := by
  induction changes generalizing s done with
  | nil => exact ⟨s, rfl, by rwa [List.append_nil]⟩
  | cons c changes ih =>
    rw [← List.singleton_append, ← List.append_assoc] at hsorted hfits ⊢
    obtain ⟨s₁, hwrite, h₁⟩ := h.write (w := w) hsize (List.pairwise_append.mp hsorted).1
      fun a ha => hfits a (List.mem_append_left _ ha)
    obtain ⟨s', hrest, h'⟩ := ih h₁ hsorted hfits
    refine ⟨s', ?_, h'⟩
    rw [List.singleton_append, List.map_cons, List.foldlM_cons, hwrite]
    exact hrest

variable (store w) in
/-- Items in order are all written, in order, and no key is in two files. -/
theorem writeItemsToFiles_eq (hsize : 0 < sstFileSize) (hsorted : changes.Pairwise Before)
    (hfits : ∀ a ∈ changes, a.Fits) (hne : changes ≠ []) :
    ∃ sst, writeItemsToFiles store w sstFileSize (changes.map fun c => sorterItem c.1 c.2) = .ok sst ∧
      sst.flatten = changes.map (Change.entry store) ∧
      sst.Pairwise fun f g => ∀ a ∈ f, ∀ b ∈ g, Comparator.userKey a.key < Comparator.userKey b.key := by
  have hstart : SSTFiles.Holds store ⟨[], [], []⟩ [] := ⟨rfl, by simp, by simp, by simp⟩
  obtain ⟨s, hrun, hs⟩ := hstart.foldlM (w := w) hsize (show ([] ++ changes).Pairwise Before from hsorted) hfits
  refine ⟨s.finished ++ [s.current], ?_, by simpa using hs.entries, hs.apart⟩
  rw [writeItemsToFiles, hrun]
  dsimp only
  rw [SSTFileWriter.finish_eq (hs.current hne)]

end IavlStore.Changeset
