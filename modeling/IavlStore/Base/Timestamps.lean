import IavlStore.Base.SortedPairs

/-! Timestamped records. A record puts or deletes a key at a timestamp, and of two records
with the same key and timestamp the later one counts. A read at a timestamp sees the record
with the greatest timestamp that is not above it. -/

namespace IavlStore.Base.Timestamps

open IavlStore.Base.SortedPairs

/-- No value stands for a deletion. -/
structure Record (K V : Type*) where
  key : K
  timestamp : ℕ
  value : Option V
  deriving DecidableEq

variable {K V : Type*} [LinearOrder K] {ts : ℕ} {k : K} {rs : List (Record K V)} {r : Record K V}

/-- The record that a read sees. -/
def newest (ts : ℕ) (k : K) : List (Record K V) → Option (Record K V)
  | [] => none
  | r :: rs =>
    match newest ts k rs with
    | none => if r.key = k ∧ r.timestamp ≤ ts then some r else none
    | some r' => if r.key = k ∧ r.timestamp ≤ ts ∧ r'.timestamp < r.timestamp then some r else some r'

/-- The value and the timestamp of a key, if it is not deleted. -/
def read (ts : ℕ) (k : K) (rs : List (Record K V)) : Option (V × ℕ) :=
  (newest ts k rs).bind fun r => r.value.map (·, r.timestamp)

/-- The keys that a read finds, in order. -/
def visible (ts : ℕ) (rs : List (Record K V)) : List (K × (V × ℕ)) :=
  ((rs.map Record.key).dedup.insertionSort (· ≤ ·)).filterMap fun k => (read ts k rs).map (k, ·)

/-! ### Reads -/

theorem newest_eq_some (h : newest ts k rs = some r) : r ∈ rs ∧ r.key = k ∧ r.timestamp ≤ ts := by
  induction rs with
  | nil => cases h
  | cons r₀ rs ih =>
    rw [newest] at h
    rcases hn : newest ts k rs with _ | r'
    · simp only [hn] at h
      split_ifs at h with hc
      cases h
      exact ⟨List.mem_cons_self, hc⟩
    · simp only [hn] at h
      split_ifs at h with hc
      · cases h
        exact ⟨List.mem_cons_self, hc.1, hc.2.1⟩
      · cases h
        exact (ih hn).imp_left (List.mem_cons_of_mem _)

/-- What is read was put. -/
theorem read_eq_some {v : V} {t : ℕ} (h : read ts k rs = some (v, t)) :
    t ≤ ts ∧ ⟨k, t, some v⟩ ∈ rs := by
  obtain ⟨⟨key, time, value⟩, hn, hv⟩ := Option.bind_eq_some_iff.mp h
  obtain ⟨hmem, rfl, hle⟩ := newest_eq_some hn
  obtain ⟨v', rfl, heq⟩ := Option.map_eq_some_iff.mp hv
  cases heq
  exact ⟨hle, hmem⟩

/-- Of records with one timestamp, a read finds the last. -/
theorem read_same_timestamp {ts t : ℕ} (h : t ≤ ts) (key : K) (entries : List (K × V)) :
    read ts key (entries.map fun p => ⟨p.1, t, some p.2⟩) = (lookupPair key entries.reverse).map (·, t) := by
  have hnewest : newest ts key (entries.map fun p => ⟨p.1, t, some p.2⟩) =
      (lookupPair key entries.reverse).map fun value => ⟨key, t, some value⟩ := by
    induction entries with
    | nil => rfl
    | cons p entries ih =>
      obtain ⟨k, value⟩ := p
      rw [List.map_cons, newest, ih, List.reverse_cons, lookupPair_append]
      cases lookupPair key entries.reverse with
      | some value' => simp
      | none =>
        by_cases hk : key = k
        · simp [lookupPair_cons, hk, h]
        · simp [lookupPair_cons, hk, Ne.symm hk]
  rw [Timestamps.read, hnewest]
  cases lookupPair key entries.reverse <;> rfl

/-! ### What is held at a timestamp -/

/-- The last record of a key at a timestamp. -/
def entryAt (k : K) (t : ℕ) : List (Record K V) → Option (Option V)
  | [] => none
  | r :: rs => (entryAt k t rs).or (if r.key = k ∧ r.timestamp = t then some r.value else none)

theorem entryAt_append (k : K) (t : ℕ) (rs rs' : List (Record K V)) :
    entryAt k t (rs ++ rs') = (entryAt k t rs').or (entryAt k t rs) := by
  induction rs with
  | nil => simp [entryAt]
  | cons r rs ih => rw [List.cons_append, entryAt, entryAt, ih, Option.or_assoc]

theorem mem_of_entryAt {t : ℕ} {v : Option V} (h : entryAt k t rs = some v) : ⟨k, t, v⟩ ∈ rs := by
  induction rs with
  | nil => cases h
  | cons r rs ih =>
    rw [entryAt] at h
    rcases Option.or_eq_some_iff.mp h with hrs | ⟨-, hhead⟩
    · exact List.mem_cons_of_mem _ (ih hrs)
    · split_ifs at hhead with hr
      obtain ⟨rfl, rfl⟩ := hr
      obtain rfl := Option.some.inj hhead
      exact List.mem_cons_self

theorem entryAt_ne_none (h : r ∈ rs) : entryAt r.key r.timestamp rs ≠ none := by
  induction rs with
  | nil => cases h
  | cons r' rs ih =>
    rw [entryAt]
    rcases List.mem_cons.mp h with rfl | h
    · simp
    · simp [ih h]

/-- Records that are not written twice may come in any order. -/
theorem entryAt_perm {rs' : List (Record K V)} (h : rs.Perm rs')
    (hnodup : (rs.map fun r => (r.key, r.timestamp)).Nodup) (k : K) (t : ℕ) : entryAt k t rs = entryAt k t rs' := by
  have hunique : ∀ v v', (⟨k, t, v⟩ : Record K V) ∈ rs → ⟨k, t, v'⟩ ∈ rs → v = v' := fun v v' hv hv' =>
    congrArg Record.value (List.inj_on_of_nodup_map hnodup hv hv' rfl)
  rcases hrs : entryAt k t rs with _ | v
  · rcases hrs' : entryAt k t rs' with _ | v'
    · rfl
    · exact absurd hrs (entryAt_ne_none (h.mem_iff.mpr (mem_of_entryAt hrs')))
  · rcases hrs' : entryAt k t rs' with _ | v'
    · exact absurd hrs' (entryAt_ne_none (h.mem_iff.mp (mem_of_entryAt hrs)))
    · rw [hunique v v' (mem_of_entryAt hrs) (h.mem_iff.mpr (mem_of_entryAt hrs'))]

/-- A read sees what is held at the greatest timestamp that holds something. -/
theorem newest_spec (ts : ℕ) (k : K) (rs : List (Record K V)) :
    (newest ts k rs = none → ∀ t ≤ ts, entryAt k t rs = none) ∧
    ∀ r, newest ts k rs = some r → entryAt k r.timestamp rs = some r.value ∧
      ∀ t, r.timestamp < t → t ≤ ts → entryAt k t rs = none := by
  induction rs with
  | nil => exact ⟨fun _ _ _ => rfl, fun _ h => by cases h⟩
  | cons r₀ rs ih =>
    obtain ⟨ihnone, ihsome⟩ := ih
    simp only [newest, entryAt]
    rcases hn : newest ts k rs with _ | r'
    · have hrs := ihnone hn
      by_cases hc : r₀.key = k ∧ r₀.timestamp ≤ ts
      · refine ⟨fun h => by simp [hc] at h, fun r h => ?_⟩
        simp only [hc, and_self, ↓reduceIte, Option.some.injEq] at h
        subst h
        refine ⟨by simp [hrs _ hc.2, hc.1], fun t hlt hle => ?_⟩
        simp [hrs t hle, hlt.ne]
      · refine ⟨fun _ t hle => ?_, fun r h => by simp [hc] at h⟩
        have hne : ¬(r₀.key = k ∧ r₀.timestamp = t) := fun h => hc ⟨h.1, h.2.trans_le hle⟩
        simp [hrs t hle, hne]
    · obtain ⟨hr', habove⟩ := ihsome r' hn
      by_cases hc : r₀.key = k ∧ r₀.timestamp ≤ ts ∧ r'.timestamp < r₀.timestamp
      · refine ⟨fun h => by simp [hc] at h, fun r h => ?_⟩
        simp only [hc, and_self, ↓reduceIte, Option.some.injEq] at h
        subst h
        refine ⟨by simp [habove _ hc.2.2 hc.2.1, hc.1], fun t hlt hle => ?_⟩
        simp [habove t (hc.2.2.trans hlt) hle, hlt.ne]
      · refine ⟨fun h => by simp [hc] at h, fun r h => ?_⟩
        simp only [hc, ↓reduceIte, Option.some.injEq] at h
        subst h
        refine ⟨by rw [hr', Option.some_or], fun t hlt hle => ?_⟩
        have hne : ¬(r₀.key = k ∧ r₀.timestamp = t) := fun h => hc ⟨h.1, h.2.trans_le hle, h.2 ▸ hlt⟩
        simp [habove t hlt hle, hne]

theorem read_exact_iff {t : ℕ} {v : V} : read t k rs = some (v, t) ↔ entryAt k t rs = some (some v) := by
  obtain ⟨hnone, hsome⟩ := newest_spec t k rs
  rw [Timestamps.read, Option.bind_eq_some_iff]
  constructor
  · rintro ⟨⟨key, time, value⟩, hn, hv⟩
    obtain ⟨v', rfl, heq⟩ := Option.map_eq_some_iff.mp hv
    cases heq
    exact (hsome _ hn).1
  · intro h
    rcases hn : newest t k rs with _ | r
    · rw [hnone hn t le_rfl] at h
      cases h
    · obtain ⟨hr, habove⟩ := hsome r hn
      obtain ⟨-, rfl, hle⟩ := newest_eq_some hn
      rcases hle.lt_or_eq with hlt | heq
      · rw [habove t hlt le_rfl] at h
        cases h
      · rw [← heq, hr] at h
        exact ⟨r, rfl, by rw [Option.some.inj h, heq]; rfl⟩

/-! ### Later records -/

/-- A record that is not older than the others is what a read sees from its timestamp on. -/
theorem newest_concat (h : ∀ r' ∈ rs, r'.timestamp ≤ r.timestamp) :
    newest ts k (rs ++ [r]) = if r.key = k ∧ r.timestamp ≤ ts then some r else newest ts k rs := by
  induction rs with
  | nil => rfl
  | cons r₀ rs ih =>
    have hle : ¬ r.timestamp < r₀.timestamp := not_lt.mpr (h r₀ (by simp))
    rw [List.cons_append, newest, ih fun r' hr' => h r' (by simp [hr'])]
    by_cases hr : r.key = k ∧ r.timestamp ≤ ts
    · simp [hr, hle]
    · simp only [hr, if_false]
      rfl

/-- The value of a key after a record of it or of another key. -/
def valueAfter (k : K) (old : Option V) (r : Record K V) : Option V := if r.key = k then r.value else old

/-- Records of one timestamp that is not below the others change the values from it on. -/
theorem value_append {t : ℕ} {rs' : List (Record K V)} (hold : ∀ r ∈ rs, r.timestamp ≤ t)
    (hnew : ∀ r ∈ rs', r.timestamp = t) (h : t ≤ ts) :
    (read ts k (rs ++ rs')).map Prod.fst = rs'.foldl (valueAfter k) ((read ts k rs).map Prod.fst) := by
  induction rs' generalizing rs with
  | nil => simp
  | cons r rs' ih =>
    have hr : r.timestamp = t := hnew r (by simp)
    have hstep : (read ts k (rs ++ [r])).map Prod.fst = valueAfter k ((read ts k rs).map Prod.fst) r := by
      rw [Timestamps.read, newest_concat (hr ▸ hold), valueAfter]
      by_cases hk : r.key = k
      · simp [hk, hr.trans_le h, Option.map_map, Function.comp_def]
      · simp [hk, Timestamps.read]
    have hold' : ∀ r' ∈ rs ++ [r], r'.timestamp ≤ t := by
      intro r' hr'
      rcases List.mem_append.mp hr' with hr' | hr'
      · exact hold r' hr'
      · exact (List.mem_singleton.mp hr' ▸ hr).le
    rw [List.append_cons, ih hold' fun r' hr' => hnew r' (by simp [hr']), hstep, List.foldl_cons]

/-- A read does not see what is above its timestamp. -/
theorem newest_filter {t : ℕ} (h : ts ≤ t) : newest ts k (rs.filter (·.timestamp ≤ t)) = newest ts k rs := by
  induction rs with
  | nil => rfl
  | cons r rs ih =>
    by_cases hr : r.timestamp ≤ t
    · rw [List.filter_cons_of_pos (by simpa using hr), newest, newest, ih]
    · have hnot : ¬ r.timestamp ≤ ts := fun hle => hr (hle.trans h)
      rw [List.filter_cons_of_neg (by simpa using hr), ih, newest]
      cases newest ts k rs <;> simp [hnot]

theorem read_filter {t : ℕ} (h : ts ≤ t) : read ts k (rs.filter (·.timestamp ≤ t)) = read ts k rs := by
  rw [Timestamps.read, newest_filter h, Timestamps.read]

theorem read_append_of_lt {rs' : List (Record K V)} (h : ∀ r ∈ rs', ts < r.timestamp) :
    read ts k (rs ++ rs') = read ts k rs := by
  have hnil : rs'.filter (·.timestamp ≤ ts) = [] :=
    List.filter_eq_nil_iff.mpr fun r hr => by simpa using h r hr
  rw [← read_filter (le_refl ts), List.filter_append, hnil, List.append_nil, read_filter le_rfl]

/-- Reads from the last timestamp on see the same. -/
theorem read_of_forall_le {ts' : ℕ} (h : ∀ r ∈ rs, r.timestamp ≤ ts) (hle : ts ≤ ts') :
    read ts' k rs = read ts k rs := by
  have hnewest : newest ts' k rs = newest ts k rs := by
    induction rs with
    | nil => rfl
    | cons r rs ih =>
      have hr : r.timestamp ≤ ts := h r (by simp)
      rw [newest, newest, ih fun r' hr' => h r' (by simp [hr'])]
      simp only [hr, hr.trans hle]
  rw [Timestamps.read, hnewest, Timestamps.read]

/-! ### Visible keys -/

theorem mem_visible {e : V × ℕ} : (k, e) ∈ visible ts rs ↔ read ts k rs = some e := by
  rw [visible, List.mem_filterMap]
  constructor
  · rintro ⟨k', -, h⟩
    obtain ⟨e', hr, heq⟩ := Option.map_eq_some_iff.mp h
    cases heq
    exact hr
  · intro h
    refine ⟨k, ?_, by rw [h]; rfl⟩
    rw [List.mem_insertionSort, List.mem_dedup]
    exact List.mem_map_of_mem (read_eq_some h).2

theorem sorted_visible (ts : ℕ) (rs : List (Record K V)) : Sorted (visible ts rs) := by
  have hsorted : ((rs.map Record.key).dedup.insertionSort (· ≤ ·)).Pairwise (· < ·) := by
    have hle := List.pairwise_insertionSort (· ≤ ·) (rs.map Record.key).dedup
    have hnd : ((rs.map Record.key).dedup.insertionSort (· ≤ ·)).Nodup :=
      (List.perm_insertionSort _ _).nodup_iff.mpr (List.nodup_dedup _)
    exact hle.imp₂ (fun _ _ hle hne => lt_of_le_of_ne hle hne) hnd
  refine List.Pairwise.filterMap _ (fun a b hab => ?_) hsorted
  intro p hp q hq
  obtain ⟨_, -, rfl⟩ := Option.map_eq_some_iff.mp hp
  obtain ⟨_, -, rfl⟩ := Option.map_eq_some_iff.mp hq
  exact hab

end IavlStore.Base.Timestamps
