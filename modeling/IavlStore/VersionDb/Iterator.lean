import IavlStore.VersionDb.Store

/-! Iterators at a version. The cursor beneath goes over the keys of all stores, so the bounds
are extended by the name of the store. A reverse iterator is placed by a search for the
exclusive end and a step back, and only one bound is checked in each direction. Entries at
version zero are skipped in a loop. An iterator shows exactly the keys that reads at the
same version find. -/

namespace IavlStore.VersionDb

open IavlStore.Base.Encoding IavlStore.Base.ByteOrder IavlStore.Base.SortedPairs IavlStore.Base.Cursors
open IavlStore.Base.Ranges IavlStore.Base.Timestamps

structure RocksDBIterator (R : RocksDB) where
  source : R.cursors.Cursor
  keyPrefix : Bytes
  start : Option Bytes
  stop : Option Bytes
  isReverse : Bool
  isInvalid : Bool
  skipVersionZero : Bool

variable {R : RocksDB}

namespace RocksDBIterator

/-- Whether the entry is within the bound that is checked. -/
def inBounds (it : RocksDBIterator R) (e : Bytes × (Bytes × ℕ)) : Bool :=
  if it.isReverse then it.start.all (· ≤ e.1) else it.stop.all (e.1 < ·)

/-- Once invalid, forever invalid. -/
def valid (it : RocksDBIterator R) : Bool × RocksDBIterator R :=
  if it.isInvalid then (false, it)
  else
    match R.cursors.entry it.source with
    | none => (false, { it with isInvalid := true })
    | some e => if it.inBounds e then (true, it) else (false, { it with isInvalid := true })

def move (it : RocksDBIterator R) : RocksDBIterator R :=
  { it with source := if it.isReverse then R.cursors.prev it.source else R.cursors.next it.source }

/-- Skip the entries at version zero, within a number of steps. -/
def trySkipZeroVersion : ℕ → RocksDBIterator R → Option (RocksDBIterator R)
  | 0, _ => none
  | n + 1, it =>
    if it.skipVersionZero then
      match it.valid with
      | (false, it) => some it
      | (true, it) =>
        match R.cursors.entry it.source with
        | some (_, _, 0) => trySkipZeroVersion n it.move
        | _ => some it
    else some it

/-- The next entry, or a panic. -/
def next (n : ℕ) (it : RocksDBIterator R) : Option (RocksDBIterator R) :=
  match it.valid with
  | (false, _) => none
  | (true, it) => trySkipZeroVersion n it.move

/-- The key without the name of its store, and the value. -/
def pair (it : RocksDBIterator R) : Option (Bytes × Bytes) :=
  match it.valid with
  | (false, _) => none
  | (true, it) =>
    match R.cursors.entry it.source with
    | none => none
    | some e => if it.keyPrefix.length ≤ e.1.length then some (e.1.drop it.keyPrefix.length, e.2.1) else none

/-- The loop of a caller: everything that the iterator shows. -/
def collect : ℕ → RocksDBIterator R → Option (List (Bytes × Bytes))
  | 0, _ => none
  | n + 1, it =>
    if it.valid.1 then do
      let p ← it.pair
      let it ← it.next n
      some (p :: (← collect n it))
    else some []

end RocksDBIterator

/-- Where the cursor is placed first. -/
def startSource (source : R.cursors.Cursor) (start stop : Option Bytes) (isReverse : Bool) : R.cursors.Cursor :=
  if isReverse then
    match stop with
    | none => R.cursors.seekToLast source
    | some stop =>
      let source := R.cursors.seek stop source
      match R.cursors.entry source with
      | none => R.cursors.seekToLast source
      | some e => if stop ≤ e.1 then R.cursors.prev source else source
  else
    match start with
    | none => R.cursors.seekToFirst source
    | some start => R.cursors.seek start source

def newRocksDBIterator (n : ℕ) (source : R.cursors.Cursor) (keyPrefix : Bytes) (start stop : Option Bytes)
    (isReverse skipVersionZero : Bool) : Option (RocksDBIterator R) :=
  RocksDBIterator.trySkipZeroVersion n
    ⟨startSource source start stop isReverse, keyPrefix, start, stop, isReverse, false, skipVersionZero⟩

inductive Error where
  | keyEmpty

namespace Store

def iteratorAtVersion (n : ℕ) (storeKey : Bytes) (start stop : Option Bytes) (version : Option ℤ) (reverse : Bool)
    (s : Store R) : Except Error (Option (RocksDBIterator R)) :=
  if start = some [] ∨ stop = some [] then .error .keyEmpty
  else
    let bounds := iterateWithPrefix (storePrefix storeKey) start stop
    .ok (newRocksDBIterator n (R.newIteratorCF (readTimestamp version) s.db) (storePrefix storeKey) bounds.1 bounds.2
      reverse s.skipVersionZero)

end Store

/-! ### What an iterator shows -/

namespace RocksDBIterator

/-- Entries at version zero may be skipped. -/
def keeps (it : RocksDBIterator R) (e : Bytes × (Bytes × ℕ)) : Bool := !(it.skipVersionZero && e.2.2 == 0)

/-- The entries shown of those that the cursor meets. -/
def shown (it : RocksDBIterator R) (ahead : List (Bytes × (Bytes × ℕ))) : List (Bytes × (Bytes × ℕ)) :=
  (ahead.takeWhile it.inBounds).filter it.keeps

/-- The cursor meets these entries in the direction of the iterator. -/
def Meets (it : RocksDBIterator R) (ahead : List (Bytes × (Bytes × ℕ))) : Prop :=
  Ahead R.cursors.entry (if it.isReverse then R.cursors.prev else R.cursors.next) it.source ahead

/-- The iterator stands on the first of these entries, with at most `n` moves of the cursor to come. -/
def Shows (n : ℕ) (it : RocksDBIterator R) : List (Bytes × (Bytes × ℕ)) → Prop
  | [] => it.valid.1 = false
  | e :: l => it.isInvalid = false ∧ R.cursors.entry it.source = some e ∧ it.inBounds e = true ∧
    ∃ ahead, it.move.Meets ahead ∧ ahead.length + 1 < n ∧ it.shown ahead = l

variable {it : RocksDBIterator R} {e : Bytes × (Bytes × ℕ)} {ahead l : List (Bytes × (Bytes × ℕ))} {n : ℕ}

theorem Meets.entry_cons (h : it.Meets (e :: ahead)) : R.cursors.entry it.source = some e ∧ it.move.Meets ahead := by
  obtain ⟨he, ha⟩ := h
  refine ⟨he, ?_⟩
  unfold Meets move
  cases hr : it.isReverse <;> simp only [hr] at ha ⊢ <;> exact ha

theorem Shows.mono {m : ℕ} (h : it.Shows n l) (hle : n ≤ m) : it.Shows m l := by
  cases l with
  | nil => exact h
  | cons e l =>
    obtain ⟨hi, he, hb, ahead, hm, hlen, hl⟩ := h
    exact ⟨hi, he, hb, ahead, hm, hlen.trans_le hle, hl⟩

theorem valid_of_entry (hi : it.isInvalid = false) (he : R.cursors.entry it.source = some e)
    (hb : it.inBounds e = true) : it.valid = (true, it) := by
  simp [valid, hi, he, hb]

/-- The loop stops at the first entry to be shown, or where the iterator becomes invalid. -/
theorem shows_trySkipZeroVersion (hi : it.isInvalid = false) (ha : it.Meets ahead) (hn : ahead.length < n) :
    ∃ it', trySkipZeroVersion n it = some it' ∧ it'.keyPrefix = it.keyPrefix ∧ it'.Shows n (it.shown ahead) := by
  induction ahead generalizing it n with
  | nil =>
    obtain ⟨n, rfl⟩ := Nat.exists_eq_succ_of_ne_zero (by omega : n ≠ 0)
    have he : R.cursors.entry it.source = none := ha
    have hv : it.valid = (false, { it with isInvalid := true }) := by simp [valid, hi, he]
    rw [trySkipZeroVersion]
    split_ifs with hskip
    · rw [hv]
      exact ⟨_, rfl, rfl, by simp [shown, Shows, valid]⟩
    · exact ⟨_, rfl, rfl, by simp [shown, Shows, hv]⟩
  | cons e ahead ih =>
    obtain ⟨n, rfl⟩ := Nat.exists_eq_succ_of_ne_zero (by omega : n ≠ 0)
    rw [List.length_cons] at hn
    obtain ⟨he, hmove⟩ := ha.entry_cons
    by_cases hb : it.inBounds e = true
    · have hv := valid_of_entry hi he hb
      by_cases hk : it.keeps e = true
      · -- the iterator stops here
        have hstop : trySkipZeroVersion (n + 1) it = some it := by
          rw [trySkipZeroVersion]
          split_ifs with hskip
          · obtain ⟨k, v, t⟩ := e
            rcases t with _ | t
            · simp [keeps, hskip] at hk
            · simp only [hv, he]
          · rfl
        refine ⟨it, hstop, rfl, ?_⟩
        rw [shown, List.takeWhile_cons_of_pos hb, List.filter_cons_of_pos hk]
        exact ⟨hi, he, hb, ahead, hmove, by omega, rfl⟩
      · have hzero : it.skipVersionZero = true ∧ e.2.2 = 0 := by simpa [keeps] using hk
        obtain ⟨it', hskip, hname, hshows⟩ := ih (show it.move.isInvalid = false from hi) hmove
          (show ahead.length < n by omega)
        refine ⟨it', ?_, hname, ?_⟩
        · obtain ⟨k, v, t⟩ := e
          obtain rfl : t = 0 := hzero.2
          rw [trySkipZeroVersion, if_pos hzero.1]
          simp only [hv, he]
          exact hskip
        · rw [shown, List.takeWhile_cons_of_pos hb, List.filter_cons_of_neg hk]
          exact hshows.mono (Nat.le_succ n)
    · have hv : it.valid = (false, { it with isInvalid := true }) := by simp [valid, hi, he, hb]
      rw [shown, List.takeWhile_cons_of_neg hb, List.filter_nil, trySkipZeroVersion]
      split_ifs with hskip
      · rw [hv]
        exact ⟨_, rfl, rfl, by simp [Shows, valid]⟩
      · exact ⟨_, rfl, rfl, by simp [Shows, hv]⟩

/-- A caller sees the entries one by one. -/
theorem collect_of_shows (hl : ∀ e ∈ l, it.keyPrefix.length ≤ e.1.length) (h : it.Shows n l) (hn : 0 < n) :
    collect n it = some (l.map fun e => (e.1.drop it.keyPrefix.length, e.2.1)) := by
  induction l generalizing it n with
  | nil =>
    obtain ⟨n, rfl⟩ := Nat.exists_eq_succ_of_ne_zero hn.ne'
    have hv : it.valid.1 = false := h
    simp [collect, hv]
  | cons e l ih =>
    obtain ⟨n, rfl⟩ := Nat.exists_eq_succ_of_ne_zero hn.ne'
    obtain ⟨hi, he, hb, ahead, hmove, hlen, hshown⟩ := h
    have hv := valid_of_entry hi he hb
    have hpair : it.pair = some (e.1.drop it.keyPrefix.length, e.2.1) := by
      simp [pair, hv, he, hl e List.mem_cons_self]
    obtain ⟨it', hskip, hname, hshows⟩ := shows_trySkipZeroVersion (show it.move.isInvalid = false from hi) hmove
      (show ahead.length < n by omega)
    have hnext : it.next n = some it' := by rw [next, hv]; exact hskip
    have hname' : it'.keyPrefix = it.keyPrefix := hname
    have hrest := ih (fun e he => hname' ▸ hl e (List.mem_cons_of_mem _ he)) (hshown ▸ hshows) (by omega)
    rw [collect, hv, hpair, hnext]
    simp [hrest, hname']

end RocksDBIterator

/-! ### Where an iterator starts -/

section Start
variable (c : R.cursors.Cursor) {hi : Bytes}

theorem view_startSource (start stop : Option Bytes) (isReverse : Bool) :
    R.cursors.view (startSource c start stop isReverse) = R.cursors.view c := by
  unfold startSource
  rcases isReverse with _ | _
  · rcases start with _ | start
    · exact R.cursors.view_seekToFirst c
    · exact R.cursors.view_seek start c
  · rcases stop with _ | stop
    · exact R.cursors.view_seekToLast c
    · simp only [if_true]
      split
      · rw [R.cursors.view_seekToLast, R.cursors.view_seek]
      · split_ifs
        · rw [R.cursors.view_prev, R.cursors.view_seek]
        · exact R.cursors.view_seek stop c

/-- A reverse iterator starts on the last key below its end. -/
theorem entry_startSource_reverse (hi : Bytes) (start : Option Bytes) :
    R.cursors.entry (startSource c start (some hi) true) =
      (R.cursors.view c).reverse.find? fun p => p.1 < hi := by
  have hseek := R.cursors.entry_seek hi c
  have hview := R.cursors.view_seek hi c
  have hsorted := R.cursors.sorted c
  simp only [startSource, if_true]
  rcases he : R.cursors.entry (R.cursors.seek hi c) with _ | e
  · -- all keys are below the end
    have hall : ∀ p ∈ R.cursors.view c, p.1 < hi := by
      intro p hp
      have := List.find?_eq_none.mp (hseek ▸ he) p hp
      simpa using this
    simp only
    rw [R.cursors.entry_seekToLast, hview, ← List.head?_reverse, ← List.head?_filter, List.filter_eq_self.mpr]
    intro p hp
    simpa using hall p (List.mem_reverse.mp hp)
  · rw [he] at hseek
    obtain ⟨hle, as, bs, hsplit, has⟩ := List.find?_eq_some_iff_append.mp hseek.symm
    have hle' : hi ≤ e.1 := by simpa using hle
    simp only [if_pos hle']
    rw [R.cursors.entry_prev _ e he, hview]
    -- between the end and the key that was found there is none
    rw [← List.head?_filter, ← List.head?_filter]
    congr 1
    refine List.filter_congr fun p hp => ?_
    have hp' : p ∈ R.cursors.view c := List.mem_reverse.mp hp
    rw [hsplit, List.mem_append] at hp'
    rw [hsplit] at hsorted
    rcases hp' with hp' | hp'
    · have hlt : p.1 < hi := by simpa using has p hp'
      simp [hlt, hlt.trans_le hle']
    · have hge : e.1 ≤ p.1 := by
        rcases List.mem_cons.mp hp' with rfl | hp'
        · exact le_rfl
        · exact ((List.pairwise_cons.mp (List.pairwise_append.mp hsorted).2.1).1 p hp').le
      simp [not_lt.mpr hge, not_lt.mpr (hle'.trans hge)]

/-- From its start an iterator shows the range, in its direction. -/
theorem shows_newRocksDBIterator (keyPrefix lo hi : Bytes) (isReverse skip : Bool) {n : ℕ}
    (hn : (R.cursors.view c).length < n) :
    ∃ it, newRocksDBIterator n c keyPrefix (some lo) (some hi) isReverse skip = some it ∧ it.keyPrefix = keyPrefix ∧
      it.Shows n ((directed (!isReverse) (rangePairs (some lo) (some hi) (R.cursors.view c))).filter fun e =>
        !(skip && e.2.2 == 0)) := by
  let it : RocksDBIterator R :=
    ⟨startSource c (some lo) (some hi) isReverse, keyPrefix, some lo, some hi, isReverse, false, skip⟩
  have hsorted := R.cursors.sorted c
  obtain ⟨ahead, hmeets, hlen, hshown⟩ : ∃ ahead, it.Meets ahead ∧ ahead.length ≤ (R.cursors.view c).length ∧
      ahead.takeWhile it.inBounds = directed (!isReverse) (rangePairs (some lo) (some hi) (R.cursors.view c)) := by
    rcases isReverse with _ | _
    · refine ⟨_, R.cursors.ahead_seek lo c, List.length_filter_le _ _, ?_⟩
      rw [takeWhile_eq_filter (hsorted.filter _), List.filter_filter, directed, if_pos (by rfl), rangePairs]
      · refine List.filter_congr fun p _ => ?_
        rw [Bool.eq_iff_iff]
        simp [it, RocksDBIterator.inBounds, InRange, and_comm]
      · intro a b hab hb
        simp only [it, RocksDBIterator.inBounds, Bool.false_eq_true, if_false, Option.all_some,
          decide_eq_true_eq] at hb ⊢
        exact hab.trans hb
    · have hstart := entry_startSource_reverse c hi (some lo)
      rw [← view_startSource c (some lo) (some hi) true] at hstart
      have hahead := R.cursors.ahead_prev (k := hi) (hstart.trans (by congr!))
      rw [view_startSource] at hahead
      refine ⟨_, hahead, by simpa using List.length_filter_le _ _, ?_⟩
      rw [takeWhile_eq_filter (List.pairwise_reverse.mpr (hsorted.filter _)), List.filter_reverse, List.filter_filter,
        directed, if_neg (by simp), rangePairs]
      · congr 1
        refine List.filter_congr fun p _ => ?_
        rw [Bool.eq_iff_iff]
        simp [it, RocksDBIterator.inBounds, InRange]
      · intro a b hab hb
        simp only [it, RocksDBIterator.inBounds, if_true, Option.all_some, decide_eq_true_eq] at hb ⊢
        exact hb.trans (le_of_lt hab)
  obtain ⟨it', hnew, hname, hshows⟩ := RocksDBIterator.shows_trySkipZeroVersion (show it.isInvalid = false from rfl)
    hmeets (hlen.trans_lt hn)
  rw [RocksDBIterator.shown, hshown] at hshows
  exact ⟨it', hnew, hname, hshows⟩

end Start

/-! ### Iterators and reads -/

theorem getAtVersionSlice_eq_some {s : Store R} {storeKey k v : Bytes} {version : Option ℤ} :
    s.getAtVersionSlice storeKey k version = some v ↔
      ∃ t, read (readTimestamp version) (prependStoreKey storeKey k) (R.records s.db) = some (v, t) ∧
        (!(s.skipVersionZero && t == 0)) = true := by
  rw [Store.getAtVersionSlice, R.getCFWithTS_eq]
  rcases read (readTimestamp version) (prependStoreKey storeKey k) (R.records s.db) with _ | ⟨v', t⟩
  · simp
  · by_cases hz : s.skipVersionZero = true ∧ t = 0
    · simp [hz]
    · simp only [if_neg hz, Option.some.injEq, Prod.mk.injEq]
      constructor
      · rintro rfl
        refine ⟨t, ⟨rfl, rfl⟩, ?_⟩
        rcases hskip : s.skipVersionZero with _ | _
        · rfl
        · simpa [hskip] using hz
      · rintro ⟨t', ⟨rfl, rfl⟩, -⟩
        rfl

/-- Both bounds of an iterator are given. -/
theorem iterateWithPrefix_storePrefix (storeKey : Bytes) (start stop : Option Bytes) :
    ∃ lo hi, iterateWithPrefix (storePrefix storeKey) start stop = (some lo, some hi) := by
  rcases stop with _ | stop
  · exact ⟨_, _, by simp only [iterateWithPrefix, storePrefix_ne_nil, if_false, cpIncr_storePrefix]; rfl⟩
  · exact ⟨_, _, by simp only [iterateWithPrefix, storePrefix_ne_nil, if_false]; rfl⟩

/-- The entries that an iterator shows, in the order of their keys. -/
def shownPairs (s : Store R) (storeKey : Bytes) (start stop : Option Bytes) (version : Option ℤ) : List (Bytes × Bytes) :=
  let bounds := iterateWithPrefix (storePrefix storeKey) start stop
  ((rangePairs bounds.1 bounds.2 (visible (readTimestamp version) (R.records s.db))).filter fun e =>
    !(s.skipVersionZero && e.2.2 == 0)).map fun e => (e.1.drop (storePrefix storeKey).length, e.2.1)

section Shown
variable {s : Store R} {storeKey : Bytes} {start stop : Option Bytes} {version : Option ℤ}

variable (s storeKey start stop version) in
/-- The same, with the timestamps and under the keys of the database. -/
def shownEntries : List (Bytes × (Bytes × ℕ)) :=
  let bounds := iterateWithPrefix (storePrefix storeKey) start stop
  (rangePairs bounds.1 bounds.2 (visible (readTimestamp version) (R.records s.db))).filter fun e =>
    !(s.skipVersionZero && e.2.2 == 0)

theorem storePrefix_le_of_mem_shownEntries {e : Bytes × (Bytes × ℕ)}
    (he : e ∈ shownEntries s storeKey start stop version) : (storePrefix storeKey).length ≤ e.1.length := by
  have hin := of_decide_eq_true (List.mem_filter.mp (List.mem_of_mem_filter he)).2
  obtain ⟨k, hk, -⟩ := (inRange_iterateWithPrefix storeKey start stop e.1).mp hin
  rw [hk, prependStoreKey, List.length_append]
  exact Nat.le_add_right _ _

variable (s storeKey version) in
theorem iteratorAtVersion_shows (reverse : Bool) (hstart : start ≠ some []) (hstop : stop ≠ some []) :
    ∃ fuel, ∀ n, fuel ≤ n → 0 < n ∧ ∃ it, s.iteratorAtVersion n storeKey start stop version reverse = .ok (some it) ∧
      it.keyPrefix = storePrefix storeKey ∧
      it.Shows n (directed (!reverse) (shownEntries s storeKey start stop version)) := by
  obtain ⟨lo, hi, hbounds⟩ := iterateWithPrefix_storePrefix storeKey start stop
  set c := R.newIteratorCF (readTimestamp version) s.db with hc
  have hview : R.cursors.view c = visible (readTimestamp version) (R.records s.db) := R.view_newIteratorCF _ _
  refine ⟨(R.cursors.view c).length + 1, fun n hn => ⟨by omega, ?_⟩⟩
  obtain ⟨it, hnew, hname, hshows⟩ := shows_newRocksDBIterator c (storePrefix storeKey) lo hi reverse
    s.skipVersionZero hn
  refine ⟨it, ?_, hname, ?_⟩
  · rw [Store.iteratorAtVersion, if_neg (not_or.mpr ⟨hstart, hstop⟩), hbounds, ← hc]
    exact congrArg _ hnew
  · rw [hview] at hshows
    rw [shownEntries, hbounds]
    cases reverse
    · exact hshows
    · simpa only [directed, Bool.not_true, Bool.false_eq_true, if_false, List.filter_reverse] using hshows

variable (s storeKey version) in
theorem iteratorAtVersion_collect (reverse : Bool) (hstart : start ≠ some []) (hstop : stop ≠ some []) :
    ∃ fuel, ∀ n, fuel ≤ n → ∃ it, s.iteratorAtVersion n storeKey start stop version reverse = .ok (some it) ∧
      it.collect n = some (directed (!reverse) (shownPairs s storeKey start stop version)) := by
  obtain ⟨fuel, hshows⟩ := iteratorAtVersion_shows s storeKey version reverse hstart hstop
  refine ⟨fuel, fun n hn => ?_⟩
  obtain ⟨hpos, it, hit, hname, hshows⟩ := hshows n hn
  refine ⟨it, hit, ?_⟩
  have hmem : ∀ e ∈ directed (!reverse) (shownEntries s storeKey start stop version),
      it.keyPrefix.length ≤ e.1.length := by
    intro e he
    have he' : e ∈ shownEntries s storeKey start stop version := by
      cases reverse
      · exact he
      · exact List.mem_reverse.mp he
    rw [hname]
    exact storePrefix_le_of_mem_shownEntries he'
  rw [RocksDBIterator.collect_of_shows hmem hshows hpos, hname]
  cases reverse
  · rfl
  · exact congrArg some List.map_reverse

theorem sorted_shownPairs : Sorted (shownPairs s storeKey start stop version) := by
  rw [shownPairs, Sorted, List.pairwise_map]
  have hsorted := ((sorted_visible (readTimestamp version) (R.records s.db)).filter
    (fun p => decide (InRange (iterateWithPrefix (storePrefix storeKey) start stop).1
      (iterateWithPrefix (storePrefix storeKey) start stop).2 p.1))).filter
    (fun e => !(s.skipVersionZero && e.2.2 == 0))
  refine hsorted.imp_of_mem fun {p q} hp hq hpq => ?_
  -- the name of the store in front of both keys does not matter
  obtain ⟨k, hk, -⟩ := (inRange_iterateWithPrefix storeKey start stop p.1).mp
    (of_decide_eq_true (List.mem_filter.mp (List.mem_of_mem_filter hp)).2)
  obtain ⟨k', hk', -⟩ := (inRange_iterateWithPrefix storeKey start stop q.1).mp
    (of_decide_eq_true (List.mem_filter.mp (List.mem_of_mem_filter hq)).2)
  simp only [hk, hk', prependStoreKey, bytes_append_lt_append] at hpq
  simpa only [hk, hk', prependStoreKey, List.drop_left] using hpq

theorem mem_shownPairs {k v : Bytes} :
    (k, v) ∈ shownPairs s storeKey start stop version ↔
      InRange start stop k ∧ s.getAtVersionSlice storeKey k version = some v := by
  rw [shownPairs, List.mem_map, getAtVersionSlice_eq_some]
  constructor
  · rintro ⟨⟨key, v', t⟩, he, heq⟩
    obtain ⟨hr, hkeep⟩ := List.mem_filter.mp he
    obtain ⟨hvis, hin⟩ := List.mem_filter.mp hr
    obtain ⟨k', rfl, hk'⟩ := (inRange_iterateWithPrefix storeKey start stop key).mp (of_decide_eq_true hin)
    obtain ⟨hk, rfl⟩ := Prod.mk.inj heq
    rw [prependStoreKey, List.drop_left] at hk
    subst hk
    exact ⟨hk', t, mem_visible.mp hvis, hkeep⟩
  · rintro ⟨hk, t, hread, hkeep⟩
    refine ⟨(prependStoreKey storeKey k, v, t), ?_, by rw [prependStoreKey, List.drop_left]⟩
    refine List.mem_filter.mpr ⟨List.mem_filter.mpr ⟨mem_visible.mpr hread, ?_⟩, hkeep⟩
    exact decide_eq_true ((inRange_iterateWithPrefix storeKey start stop _).mpr ⟨k, rfl, hk⟩)

end Shown

/-- An iterator shows, in its direction and each key once, the keys of its store in the range
that a read at the same version finds, with the values that are read, and these were put for
this store. -/
theorem iteratorAtVersion_agrees_with_reads (history : List (ℤ × List StoreKVPair))
    (hplain : ∀ call ∈ history, ∀ pair ∈ call.2, PlainName pair.storeKey) {storeKey : Bytes} (hs : PlainName storeKey)
    (version : Option ℤ) {start stop : Option Bytes} (hstart : start ≠ some []) (hstop : stop ≠ some [])
    (skipVersionZero reverse : Bool) :
    let s : Store R := Store.putAll history ⟨R.new, skipVersionZero⟩
    ∃ l fuel, (∀ n, fuel ≤ n → ∃ it, s.iteratorAtVersion n storeKey start stop version reverse = .ok (some it) ∧
        it.collect n = some l) ∧
      Sorted (directed (!reverse) l) ∧
      (∀ k v, (k, v) ∈ l ↔ InRange start stop k ∧ s.hasAtVersion storeKey k version = true ∧
        s.getAtVersion storeKey k version = some v) ∧
      ∀ k v, (k, v) ∈ l → ∃ call ∈ history, ∃ pair ∈ call.2,
        pair.storeKey = storeKey ∧ pair.key = k ∧ pair.delete = false ∧ pair.value = v := by
  intro s
  obtain ⟨fuel, hcollect⟩ := iteratorAtVersion_collect s storeKey version reverse hstart hstop
  have hmem : ∀ k v, (k, v) ∈ directed (!reverse) (shownPairs s storeKey start stop version) ↔
      InRange start stop k ∧ s.getAtVersionSlice storeKey k version = some v := by
    intro k v
    rw [← mem_shownPairs]
    cases reverse <;> simp [directed]
  refine ⟨_, fuel, hcollect, ?_, ?_, ?_⟩
  · cases reverse <;> simpa [directed] using sorted_shownPairs
  · intro k v
    rw [hmem, Store.hasAtVersion, Store.getAtVersion]
    exact and_congr_right fun _ => ⟨fun h => ⟨by rw [h]; rfl, h⟩, fun h => h.2⟩
  · intro k v hkv
    obtain ⟨t, hread, -⟩ := getAtVersionSlice_eq_some.mp ((hmem k v).mp hkv).2
    have hput := (read_eq_some hread).2
    rw [Store.records_putAll, R.records_new, List.nil_append, List.mem_flatMap] at hput
    obtain ⟨call, hcall, hput⟩ := hput
    obtain ⟨pair, hpair, heq⟩ := List.mem_map.mp hput
    obtain ⟨hkey, -, hvalue⟩ := Record.mk.inj heq
    obtain ⟨hstore, hk⟩ := prependStoreKey_inj (hplain call hcall pair hpair) hs hkey
    refine ⟨call, hcall, pair, hpair, hstore, hk, ?_⟩
    rcases hdelete : pair.delete with _ | _
    · simpa [hdelete] using hvalue
    · simp [hdelete] at hvalue

/-- Two stores, an entry at version zero and a deletion, backwards. -/
theorem reverse_iterator_skips_version_zero :
    let history : List (ℤ × List StoreKVPair) :=
      [(0, [⟨[97], false, [1], [10]⟩]), (1, [⟨[97], false, [2], [20]⟩, ⟨[97, 98], false, [3], [30]⟩]),
        (2, [⟨[97], true, [1], []⟩, ⟨[97], false, [4], [40]⟩])]
    let s : Store listRocksDB := Store.putAll history ⟨listRocksDB.new, true⟩
    ∃ l fuel, (∀ n, fuel ≤ n → ∃ it, s.iteratorAtVersion n [97] none (some [9]) (some 1) true = .ok (some it) ∧
        it.collect n = some l) ∧
      Sorted (directed false l) ∧
      (∀ k v, (k, v) ∈ l ↔ InRange none (some [9]) k ∧ s.hasAtVersion [97] k (some 1) = true ∧
        s.getAtVersion [97] k (some 1) = some v) ∧
      ∀ k v, (k, v) ∈ l → ∃ call ∈ history, ∃ pair ∈ call.2,
        pair.storeKey = [97] ∧ pair.key = k ∧ pair.delete = false ∧ pair.value = v :=
  iteratorAtVersion_agrees_with_reads _ (by decide) (by decide) (some 1) (by decide) (by decide) true true

end IavlStore.VersionDb
