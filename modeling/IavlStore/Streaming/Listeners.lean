import IavlStore.Base.StableSort
import IavlStore.Streaming.Node

/-! What the listeners collect. The pairs of a store are popped in the order of its writes, in
whatever order the listeners are gone through, and once they are put into the version database, a
read of a key sees the last of them. What a key of a store holds once a block is flushed can be
read off the trees and the writes. -/

namespace IavlStore.Streaming

open IavlStore.Base.Encoding IavlStore.Base.SortedPairs IavlStore.Base.Timestamps IavlStore.Multi
open IavlStore.Rootmulti IavlStore.VersionDb IavlStore.Base.StableSort
open IavlStore.Heap (pairAfter)

variable {listeners : List (Bytes × List StoreKVPair)} {name : Bytes}

/-! ### Collected pairs -/

/-- The pairs that the listener of a store has collected. -/
def listened (name : Bytes) (listeners : List (Bytes × List StoreKVPair)) : List StoreKVPair :=
  (listeners.filter (·.1 = name)).flatMap Prod.snd

/-- A listener for each name, whose pairs are of its store. -/
structure Tidy (exposedKeys : List Bytes) (listeners : List (Bytes × List StoreKVPair)) : Prop where
  nodup : (listeners.map Prod.fst).Nodup
  mem : ∀ name, name ∈ listeners.map Prod.fst ↔ name ∈ exposedKeys
  storeKey : ∀ l ∈ listeners, ∀ p ∈ l.2, p.storeKey = l.1

variable {exposedKeys : List Bytes}

theorem addListener_spec {ls : List (Bytes × List StoreKVPair)} (hnd : (ls.map Prod.fst).Nodup)
    (hempty : ∀ l ∈ ls, l.2 = []) (key : Bytes) :
    ((addListener ls key).map Prod.fst).Nodup ∧
      (∀ name, name ∈ (addListener ls key).map Prod.fst ↔ name ∈ ls.map Prod.fst ∨ name = key) ∧
      ∀ l ∈ addListener ls key, l.2 = [] := by
  rw [addListener]
  split_ifs with hkey
  · refine ⟨hnd, fun name => ⟨.inl, fun h => h.elim id ?_⟩, hempty⟩
    rintro rfl
    exact hkey
  · rw [List.map_append]
    refine ⟨hnd.append (List.nodup_singleton key) ?_, fun name => by simp, fun l hl => ?_⟩
    · rw [List.map_singleton, List.disjoint_singleton]
      exact hkey
    · rcases List.mem_append.mp hl with hl | hl
      · exact hempty l hl
      · rw [List.mem_singleton.mp hl]

theorem addListeners_spec (keys : List Bytes) (ls : List (Bytes × List StoreKVPair))
    (hnd : (ls.map Prod.fst).Nodup) (hempty : ∀ l ∈ ls, l.2 = []) :
    ((addListeners keys ls).map Prod.fst).Nodup ∧
      (∀ name, name ∈ (addListeners keys ls).map Prod.fst ↔ name ∈ ls.map Prod.fst ∨ name ∈ keys) ∧
      ∀ l ∈ addListeners keys ls, l.2 = [] := by
  induction keys generalizing ls with
  | nil => exact ⟨hnd, by simp [addListeners], hempty⟩
  | cons key keys ih =>
    obtain ⟨hnd₁, hmem₁, hnil₁⟩ := addListener_spec hnd hempty key
    obtain ⟨hnd', hmem, hnil⟩ := ih _ hnd₁ hnil₁
    refine ⟨hnd', fun name => (hmem name).trans ?_, hnil⟩
    rw [hmem₁, List.mem_cons, or_assoc]

theorem tidy_addListeners (exposedKeys : List Bytes) : Tidy exposedKeys (addListeners exposedKeys []) := by
  obtain ⟨hnd, hmem, hnil⟩ := addListeners_spec exposedKeys [] List.nodup_nil (by simp)
  refine ⟨hnd, fun name => by simpa using hmem name, fun l hl p hp => ?_⟩
  simp [hnil l hl] at hp

theorem listened_addListeners (name : Bytes) (exposedKeys : List Bytes) :
    listened name (addListeners exposedKeys []) = [] := by
  obtain ⟨-, -, hnil⟩ := addListeners_spec exposedKeys [] List.nodup_nil (by simp)
  exact List.flatMap_eq_nil_iff.mpr fun l hl => hnil l (List.mem_of_mem_filter hl)

@[simp] theorem map_fst_onWrite (storeKey key : Bytes) (value : Option Bytes) (delete : Bool)
    (listeners : List (Bytes × List StoreKVPair)) :
    (onWrite storeKey key value delete listeners).map Prod.fst = listeners.map Prod.fst := by
  rw [onWrite, List.map_map]
  apply List.map_congr_left
  intro l _
  simp only [Function.comp_apply]
  split_ifs <;> rfl

theorem Tidy.onWrite (h : Tidy exposedKeys listeners) (storeKey key : Bytes) (value : Option Bytes) (delete : Bool) :
    Tidy exposedKeys (onWrite storeKey key value delete listeners) := by
  refine ⟨by rw [map_fst_onWrite]; exact h.nodup, by rw [map_fst_onWrite]; exact h.mem, fun l hl p hp => ?_⟩
  obtain ⟨l₀, hl₀, rfl⟩ := List.mem_map.mp hl
  by_cases hkey : l₀.1 = storeKey
  · simp only [hkey, if_true, List.mem_append, List.mem_singleton] at hp ⊢
    rcases hp with hp | rfl
    · exact (h.storeKey l₀ hl₀ p hp).trans hkey
    · rfl
  · simp only [hkey, if_false] at hp ⊢
    exact h.storeKey l₀ hl₀ p hp

theorem Tidy.popStateCache (h : Tidy exposedKeys listeners) : Tidy exposedKeys (popStateCache listeners).2 := by
  have hfst : (Streaming.popStateCache listeners).2.map Prod.fst = listeners.map Prod.fst := by
    simp [Streaming.popStateCache]
  refine ⟨hfst ▸ h.nodup, fun name => by rw [hfst]; exact h.mem name, fun l hl p hp => ?_⟩
  obtain ⟨l₀, -, rfl⟩ := List.mem_map.mp hl
  cases hp

theorem listened_popStateCache (name : Bytes) (listeners : List (Bytes × List StoreKVPair)) :
    listened name (popStateCache listeners).2 = [] := by
  apply List.flatMap_eq_nil_iff.mpr
  intro l hl
  obtain ⟨l₀, -, rfl⟩ := List.mem_map.mp (List.mem_of_mem_filter hl)
  rfl

theorem listened_cons (name : Bytes) (l : Bytes × List StoreKVPair) (ls : List (Bytes × List StoreKVPair)) :
    listened name (l :: ls) = (if l.1 = name then l.2 else []) ++ listened name ls := by
  by_cases h : l.1 = name <;> simp [listened, h]

theorem listened_of_not_mem (h : name ∉ listeners.map Prod.fst) : listened name listeners = [] := by
  have hnil : listeners.filter (·.1 = name) = [] := by
    apply List.filter_eq_nil_iff.mpr
    intro l hl
    simpa using fun heq => h (List.mem_map.mpr ⟨l, hl, heq⟩)
  rw [listened, hnil, List.flatMap_nil]

/-- A write is collected by the listener of its store and by no other. -/
theorem listened_onWrite (h : Tidy exposedKeys listeners) (storeKey key : Bytes) (value : Option Bytes)
    (delete : Bool) (hname : name ∈ exposedKeys) :
    listened name (onWrite storeKey key value delete listeners) =
      listened name listeners ++ if storeKey = name then [⟨name, delete, key, value.getD []⟩] else [] := by
  have hnd := h.nodup
  have hmem := (h.mem name).mpr hname
  clear h
  induction listeners with
  | nil => cases hmem
  | cons l ls ih =>
    obtain ⟨hnot, hnd⟩ := List.nodup_cons.mp hnd
    rw [Streaming.onWrite, List.map_cons, listened_cons, listened_cons, ← Streaming.onWrite]
    by_cases hl : l.1 = name
    · have hrest : ∀ ls' : List (Bytes × List StoreKVPair), ls'.map Prod.fst = ls.map Prod.fst →
          listened name ls' = [] := fun ls' heq => listened_of_not_mem (by rw [heq]; exact hl ▸ hnot)
      rw [hrest _ (map_fst_onWrite _ _ _ _ _), hrest ls rfl]
      by_cases hkey : storeKey = name
      · simp [hl, hkey]
      · simp [hl, hkey, Ne.symm hkey]
    · rw [ih hnd ((List.mem_cons.mp hmem).resolve_left (Ne.symm hl))]
      split_ifs <;> simp

theorem filter_flatMap (h : Tidy exposedKeys listeners) (name : Bytes) :
    (listeners.flatMap Prod.snd).filter (·.storeKey = name) = listened name listeners := by
  have hkey := h.storeKey
  clear h
  induction listeners with
  | nil => rfl
  | cons l ls ih =>
    rw [List.flatMap_cons, List.filter_append, listened_cons, ih fun l' hl' => hkey l' (by simp [hl'])]
    congr 1
    split_ifs with hl
    · exact List.filter_eq_self.mpr fun p hp => by simpa using (hkey l (by simp) p hp).trans hl
    · exact List.filter_eq_nil_iff.mpr fun p hp => by simpa [hkey l (by simp) p hp] using hl

/-- The popped pairs of a store are those that were collected for it. -/
theorem filter_popStateCache (h : Tidy exposedKeys listeners) (name : Bytes) :
    (popStateCache listeners).1.filter (·.storeKey = name) = listened name listeners :=
  (filter_insertionSort StoreKVPair.storeKey name _).trans (filter_flatMap h name)

theorem storeKey_of_mem_popStateCache (h : Tidy exposedKeys listeners) {p : StoreKVPair}
    (hp : p ∈ (popStateCache listeners).1) : p.storeKey ∈ exposedKeys := by
  obtain ⟨l, hl, hpl⟩ := List.mem_flatMap.mp ((List.mem_insertionSort _).mp hp)
  rw [h.storeKey l hl p hpl, ← h.mem]
  exact List.mem_map_of_mem hl

/-! ### Reads of the version database -/

/-- The value of a key after a pair of its store. -/
def streamed (key : Bytes) (old : Option Bytes) (p : StoreKVPair) : Option Bytes :=
  if p.key = key then (if p.delete then none else some p.value) else old

theorem foldl_pairRecord {cs : List StoreKVPair} (hplain : ∀ p ∈ cs, PlainName p.storeKey) (hname : PlainName name)
    (version : ℤ) (key : Bytes) (old : Option Bytes) :
    (cs.map (VersionDb.Store.pairRecord version)).foldl (valueAfter (prependStoreKey name key)) old =
      (cs.filter (·.storeKey = name)).foldl (streamed key) old := by
  induction cs generalizing old with
  | nil => rfl
  | cons p cs ih =>
    have ih := fun old => ih (fun q hq => hplain q (by simp [hq])) old
    rw [List.map_cons, List.foldl_cons, ih]
    by_cases hp : p.storeKey = name
    · rw [List.filter_cons_of_pos (by simpa using hp), List.foldl_cons]
      congr 1
      rw [valueAfter, streamed, VersionDb.Store.pairRecord, hp]
      by_cases hkey : p.key = key
      · simp [hkey]
      · have hne : prependStoreKey name p.key ≠ prependStoreKey name key :=
          fun heq => hkey (prependStoreKey_inj hname hname heq).2
        simp [hkey, hne]
    · have hne : prependStoreKey p.storeKey p.key ≠ prependStoreKey name key :=
        fun heq => hp (prependStoreKey_inj (hplain p (by simp)) hname heq).1
      rw [List.filter_cons_of_neg (by simpa using hp), valueAfter, VersionDb.Store.pairRecord, if_neg hne]

variable {R : PlainRocksDB}

theorem timestamp_natCast {version : ℕ} (hv : version ≤ maxInt64) : timestamp (version : ℤ) = version := by
  have := timestamp_of_nonneg (Int.natCast_nonneg version) (by unfold maxInt64 at hv; omega)
  exact_mod_cast this

/-- What a read at a timestamp finds under a key of a store. -/
def valueAt (ts : ℕ) (name key : Bytes) (s : VersionDb.Store R.toRocksDB) : Option Bytes :=
  (read ts (prependStoreKey name key) (R.records s.db)).map Prod.fst

theorem getAtVersion_eq_valueAt {s : VersionDb.Store R.toRocksDB} (hskip : s.skipVersionZero = false)
    (name key : Bytes) {version : ℕ} (hv : version ≤ maxInt64) :
    s.getAtVersion name key (some version) = valueAt version name key s := by
  have hts : readTimestamp (some (version : ℤ)) = version := timestamp_natCast hv
  rw [VersionDb.Store.getAtVersion, VersionDb.Store.getAtVersionSlice, hts, R.getCFWithTS_eq, valueAt]
  rcases read version (prependStoreKey name key) (R.records s.db) with _ | ⟨value, ts⟩
  · rfl
  · simp [hskip]

section Puts
variable {s : VersionDb.Store R.toRocksDB} {version : ℕ} {cs : List StoreKVPair} {ts : ℕ}

theorem timestamp_of_mem_putAtVersion (hv : version ≤ maxInt64) {r : Record Bytes Bytes}
    (hr : r ∈ R.records (s.putAtVersion version cs).db) : r ∈ R.records s.db ∨ r.timestamp = version := by
  rw [VersionDb.Store.records_putAtVersion] at hr
  rcases List.mem_append.mp hr with hr | hr
  · exact .inl hr
  · obtain ⟨p, -, rfl⟩ := List.mem_map.mp hr
    exact .inr (timestamp_natCast hv)

/-- A read before the version of a change set does not see it. -/
theorem valueAt_putAtVersion_of_lt (hv : version ≤ maxInt64) (hlt : ts < version) (key : Bytes) :
    valueAt ts name key (s.putAtVersion version cs) = valueAt ts name key s := by
  rw [valueAt, VersionDb.Store.records_putAtVersion, read_append_of_lt, valueAt]
  intro r hr
  obtain ⟨p, -, rfl⟩ := List.mem_map.mp hr
  exact hlt.trans_eq (timestamp_natCast hv).symm

/-- A read from the version of a change set on sees the last pair of its key. -/
theorem valueAt_putAtVersion (hv : version ≤ maxInt64) (hold : ∀ r ∈ R.records s.db, r.timestamp ≤ version)
    (hplain : ∀ p ∈ cs, PlainName p.storeKey) (hname : PlainName name) (hle : version ≤ ts) (key : Bytes) :
    valueAt ts name key (s.putAtVersion version cs) =
      (cs.filter (·.storeKey = name)).foldl (streamed key) (valueAt ts name key s) := by
  rw [valueAt, VersionDb.Store.records_putAtVersion, value_append hold _ hle, foldl_pairRecord hplain hname, valueAt]
  intro r hr
  obtain ⟨p, -, rfl⟩ := List.mem_map.mp hr
  exact timestamp_natCast hv

/-- No record has the timestamp zero. -/
theorem valueAt_zero (h : ∀ r ∈ R.records s.db, 0 < r.timestamp) (key : Bytes) : valueAt 0 name key s = none := by
  rw [valueAt, Option.map_eq_none_iff, Base.Timestamps.read, Option.bind_eq_none_iff]
  intro r hr
  obtain ⟨hmem, -, hle⟩ := newest_eq_some hr
  exact absurd (h r hmem) (not_lt.mpr hle)

/-- Reads at or above every timestamp find the same. -/
theorem valueAt_congr {ts' : ℕ} (h : ∀ r ∈ R.records s.db, r.timestamp ≤ ts) (hle : ts ≤ ts') (key : Bytes) :
    valueAt ts' name key s = valueAt ts name key s := by
  rw [valueAt, read_of_forall_le h hle, valueAt]

end Puts

/-! ### The block -/

/-- The writes of a store since the last flush. -/
def writesOf (name : Bytes) (stores : List (Bytes × ChangeSet)) : ChangeSet :=
  (stores.filter (·.1 = name)).flatMap Prod.snd

/-- What a key of a store holds once the writes are flushed. -/
def blockValue (name key : Bytes) (mtree : MultiTree Bytes) (stores : List (Bytes × ChangeSet)) : Option Bytes :=
  (writesOf name stores).foldl (pairAfter key) (lookupPair key (mtree.pairsOf name))

/-- What a key of a store holds once the pairs of its listener are added to a committed state. -/
def streamedValue (name key : Bytes) (last : MultiTree Bytes) (listeners : List (Bytes × List StoreKVPair)) :
    Option Bytes :=
  (listened name listeners).foldl (streamed key) (lookupPair key (last.pairsOf name))

section Block
variable {stores : List (Bytes × ChangeSet)} {mtree mtree' : MultiTree Bytes} {key : Bytes}

theorem writesOf_cons (name : Bytes) (w : Bytes × ChangeSet) (ws : List (Bytes × ChangeSet)) :
    writesOf name (w :: ws) = (if w.1 = name then w.2 else []) ++ writesOf name ws := by
  by_cases h : w.1 = name <;> simp [writesOf, h]

theorem writesOf_of_forall (h : ∀ w ∈ stores, w.1 = name → w.2 = []) : writesOf name stores = [] := by
  apply List.flatMap_eq_nil_iff.mpr
  intro w hw
  obtain ⟨hw, hname⟩ := List.mem_filter.mp hw
  exact h w hw (by simpa using hname)

theorem writesOf_of_not_mem (h : name ∉ stores.map Prod.fst) : writesOf name stores = [] :=
  writesOf_of_forall fun w hw hname => absurd (List.mem_map.mpr ⟨w, hw, hname⟩) h

theorem blockValue_of_cleared (h : ∀ w ∈ stores, w.2 = []) :
    blockValue name key mtree stores = lookupPair key (mtree.pairsOf name) := by
  rw [blockValue, writesOf_of_forall fun w hw _ => h w hw]
  rfl

theorem writesOf_addPair (hnd : (stores.map Prod.fst).Nodup) {name' : Bytes} (hmem : name' ∈ stores.map Prod.fst)
    (p : KVPair) :
    writesOf name (addPair name' p stores) = writesOf name stores ++ if name' = name then [p] else [] := by
  induction stores with
  | nil => cases hmem
  | cons w ws ih =>
    obtain ⟨hnot, hnd⟩ := List.nodup_cons.mp hnd
    rw [addPair, List.map_cons, writesOf_cons, writesOf_cons, ← addPair]
    by_cases hw : w.1 = name'
    · have hrest : addPair name' p ws = ws := by
        refine (List.map_congr_left fun v hv => if_neg fun heq => hnot ?_).trans (List.map_id ws)
        exact List.mem_map.mpr ⟨v, hv, heq.trans hw.symm⟩
      rw [hrest]
      by_cases hname : name' = name
      · have hnil : writesOf name ws = [] := writesOf_of_not_mem (by rw [← hname, ← hw]; exact hnot)
        simp [hw, hname, hnil]
      · simp [hw, hname]
    · rw [ih hnd ((List.mem_cons.mp hmem).resolve_left (Ne.symm hw)), if_neg hw, List.append_assoc]

/-- A write that its listener takes changes both sides alike. -/
theorem blockValue_addPair (hnd : (stores.map Prod.fst).Nodup) {name' : Bytes} (hmem : name' ∈ stores.map Prod.fst)
    (htidy : Tidy exposedKeys listeners) (hname : name ∈ exposedKeys) {last : MultiTree Bytes}
    (h : blockValue name key mtree stores = streamedValue name key last listeners) (k : Bytes) (value : Option Bytes)
    (delete : Bool) :
    blockValue name key mtree (addPair name' ⟨delete, k, value⟩ stores) =
      streamedValue name key last (onWrite name' k value delete listeners) := by
  rw [blockValue, writesOf_addPair hnd hmem, streamedValue, listened_onWrite htidy _ _ _ _ hname, List.foldl_append,
    List.foldl_append, ← blockValue, ← streamedValue, h]
  split_ifs <;> rfl

variable (name) in
/-- A flush leaves what the block comes to as it is. -/
theorem blockValue_flush (hstocked : mtree.Stocked) (hnames : ∀ name ∈ stores.map Prod.fst, name ∈ mtree.names) :
    (mtree.applyChangeSets (popChangeSets stores)).1.Stocked ∧ ∀ key,
      blockValue name key (mtree.applyChangeSets (popChangeSets stores)).1 (clearStores stores) =
        blockValue name key mtree stores := by
  have hpairs : pairsFor name (popChangeSets stores) = writesOf name stores := by
    rw [popChangeSets, Db.pairsFor_sortChangesets]
    clear hnames
    induction stores with
    | nil => rfl
    | cons w ws ih =>
      rw [writesOf_cons, ← ih]
      by_cases hw : w.2 = []
      · simp [hw]
      · simp [hw, pairsFor_cons]
  have hknown : ∀ c ∈ popChangeSets stores, c.name ∈ mtree.names := by
    intro c hc
    obtain ⟨w, hw, rfl⟩ := List.mem_map.mp ((List.mem_insertionSort _).mp hc)
    exact hnames w.1 (List.mem_map_of_mem (List.mem_of_mem_filter hw))
  rw [hstocked.coherent.applyChangeSets hknown]
  refine ⟨hstocked.applyAll fun n => pairsFor n (popChangeSets stores), fun key => ?_⟩
  have hmem : name ∈ mtree.names ∨ pairsFor name (popChangeSets stores) = [] := by
    rw [hpairs]
    by_cases hname : name ∈ stores.map Prod.fst
    · exact .inl (hnames name hname)
    · exact .inr (writesOf_of_not_mem hname)
  rw [blockValue_of_cleared (by simp [clearStores]), hstocked.lookup_applyAll _ hmem, hpairs, blockValue]

end Block

/-! ### The order of maps -/

theorem Tidy.perm (h : Tidy exposedKeys listeners) {listeners' : List (Bytes × List StoreKVPair)}
    (hp : listeners.Perm listeners') : Tidy exposedKeys listeners' :=
  ⟨(hp.map Prod.fst).nodup_iff.mp h.nodup, fun name => ((hp.map Prod.fst).mem_iff.symm).trans (h.mem name),
    fun l hl => h.storeKey l (hp.mem_iff.mpr hl)⟩

theorem popStateCache_of_perm (h : Tidy exposedKeys listeners) {listeners' : List (Bytes × List StoreKVPair)}
    (hp : listeners.Perm listeners') : (popStateCache listeners').1 = (popStateCache listeners).1 := by
  have hlistened : ∀ name, listened name listeners' = listened name listeners := by
    intro name
    rw [listened, ← filter_of_perm hp h.nodup name, listened]
  refine insertionSort_congr (f := StoreKVPair.storeKey) fun name => ?_
  exact (filter_flatMap (h.perm hp) name).trans ((hlistened name).trans (filter_flatMap h name).symm)

theorem popChangeSets_of_perm {stores stores' : List (Bytes × ChangeSet)} (hnd : (stores.map Prod.fst).Nodup)
    (hp : stores.Perm stores') : popChangeSets stores' = popChangeSets stores := by
  have hp' := ((hp.filter fun w => decide (w.2 ≠ [])).map fun w => (⟨w.1, w.2⟩ : NamedChangeSet Bytes))
  refine (insertionSort_of_perm hp' ?_).symm
  rw [List.map_map]
  exact (List.filter_sublist.map Prod.fst).nodup hnd

/-- What a commit flushes to the trees and what it streams do not depend on the order in which the
maps of stores and of listeners are gone through. -/
theorem commit_order_independent {stores stores' : List (Bytes × ChangeSet)}
    (hnd : (stores.map Prod.fst).Nodup) (hstores : stores.Perm stores') (htidy : Tidy exposedKeys listeners)
    {listeners' : List (Bytes × List StoreKVPair)} (hlisteners : listeners.Perm listeners') (db : Db.DB Bytes) :
    flush db stores' = flush db stores ∧ (popStateCache listeners').1 = (popStateCache listeners).1 := by
  refine ⟨?_, popStateCache_of_perm htidy hlisteners⟩
  rw [flush, popChangeSets_of_perm hnd hstores, flush]

/-- Two stores with a write each, gone through in both orders. -/
theorem commit_order_independent_two :
    let db : Db.DB Bytes := Db.newDB ⟨MultiTree.newEmptyMultiTree 0, Db.emptyEntry⟩ 0
    flush db [([98], [⟨true, [1], none⟩]), ([97], [⟨false, [1], some [10]⟩])] =
        flush db [([97], [⟨false, [1], some [10]⟩]), ([98], [⟨true, [1], none⟩])] ∧
      (popStateCache [([98], [⟨[98], true, [1], []⟩]), ([97], [⟨[97], false, [1], [10]⟩])]).1 =
        (popStateCache [([97], [⟨[97], false, [1], [10]⟩]), ([98], [⟨[98], true, [1], []⟩])]).1 := by
  have htidy : Tidy [[97], [98]] [([97], [⟨[97], false, [1], [10]⟩]), ([98], [⟨[98], true, [1], []⟩])] :=
    ⟨by decide, fun name => by simp, by simp⟩
  intro db
  exact commit_order_independent (by simp) (List.Perm.swap _ _ _) htidy (List.Perm.swap _ _ _) db

end IavlStore.Streaming
