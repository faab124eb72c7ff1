import IavlStore.Base.Encoding

/-! Repairing what was written at version zero under a key with its timestamp at the end. One pass over the
keys with a given beginning copies every such value to the key without the timestamp, at the timestamp.
A timestamp of zero makes the copy a value at version zero again, which the next pass repairs in its
turn. A number of passes leaves nothing to repair exactly if the values that were copied over are
themselves repaired. -/

namespace IavlStore.VersionDb

open IavlStore.Base.Encoding

/-- What is held of a key at a timestamp: nothing, a deletion or a value. -/
abbrev Contents := Bytes → ℕ → Option (Option Bytes)

/-- A value at version zero. -/
def Contents.Wrong (c : Contents) (key value : Bytes) : Prop := c key 0 = some (some value)

/-- One pass over the keys that begin with `p`. -/
def repair (p : Bytes) (c : Contents) : Contents := fun key t =>
  if p <+: key ∧ t < 2 ^ 64 then
    match c (key ++ putLE 8 t) 0 with
    | some (some value) => some (some value)
    | _ => c key t
  else c key t

def repairAll : List Bytes → Contents → Contents
  | [], c => c
  | p :: ps, c => repairAll ps (repair p c)

/-- Every value at version zero has a key with a timestamp at the end. -/
def Splits (p : Bytes) (c : Contents) : Prop := ∀ q value, c.Wrong (p ++ q) value → 8 ≤ q.length

def SplitsAll : List Bytes → Contents → Prop
  | [], _ => True
  | p :: ps, c => Splits p c ∧ SplitsAll ps (repair p c)

/-- The key has a timestamp at the end, and without it holds the value at the timestamp. -/
structure Repaired (p : Bytes) (c : Contents) (q value : Bytes) : Prop where
  length : 8 ≤ q.length
  held : c (p ++ q.take (q.length - 8)) (readLE (q.drop (q.length - 8))) = some (some value)

variable {p key value : Bytes} {t : ℕ} {ps : List Bytes} {c : Contents}

/-! ### One pass -/

theorem repair_of_wrong (hp : p <+: key) (ht : t < 2 ^ 64) (h : c.Wrong (key ++ putLE 8 t) value) :
    repair p c key t = some (some value) := by
  rw [Contents.Wrong] at h
  simp only [repair, hp, ht, and_self, ↓reduceIte, h]

theorem repair_of_not_wrong (h : ∀ value, ¬c.Wrong (key ++ putLE 8 t) value) : repair p c key t = c key t := by
  unfold repair
  split_ifs
  · split
    · next value hw => exact absurd hw (h value)
    · rfl
  · rfl

theorem repair_of_not_covered (h : ¬p <+: key) : repair p c key t = c key t := by
  rw [repair, if_neg fun hc => h hc.1]

/-- What is at version zero after a pass was there before, at this key or at the longer one. -/
theorem wrong_of_repair (h : (repair p c).Wrong key value) :
    c.Wrong key value ∨ c.Wrong (key ++ putLE 8 0) value := by
  by_cases hw : ∃ value', c.Wrong (key ++ putLE 8 0) value'
  · obtain ⟨value', hw⟩ := hw
    by_cases hp : p <+: key
    · rw [Contents.Wrong, repair_of_wrong hp (by norm_num) hw] at h
      cases h
      exact .inr hw
    · rw [Contents.Wrong, repair_of_not_covered hp] at h
      exact .inl h
  · rw [Contents.Wrong, repair_of_not_wrong (not_exists.mp hw)] at h
    exact .inl h

/-- Nothing disappears. -/
theorem Contents.Wrong.repair (h : c.Wrong key value) (p : Bytes) :
    ∃ value', (VersionDb.repair p c).Wrong key value' := by
  by_cases hw : p <+: key ∧ ∃ value', c.Wrong (key ++ putLE 8 0) value'
  · obtain ⟨hp, value', hw⟩ := hw
    exact ⟨value', repair_of_wrong hp (by norm_num) hw⟩
  · refine ⟨value, ?_⟩
    rw [not_and_or] at hw
    rcases hw with hp | hw
    · exact (repair_of_not_covered hp).trans h
    · exact (repair_of_not_wrong (not_exists.mp hw)).trans h

theorem Contents.Wrong.repairAll (h : c.Wrong key value) (ps : List Bytes) :
    ∃ value', (VersionDb.repairAll ps c).Wrong key value' := by
  induction ps generalizing c value with
  | nil => exact ⟨value, h⟩
  | cons p ps ih =>
    obtain ⟨value', h'⟩ := h.repair p
    exact ih h'

theorem repairAll_append (ps qs : List Bytes) (c : Contents) :
    repairAll (ps ++ qs) c = repairAll qs (repairAll ps c) := by
  induction ps generalizing c with
  | nil => rfl
  | cons p ps ih => exact ih _

/-! ### Keys whose value stays -/

/-- No pass changes what is held of the key at version zero. -/
def Steady (ps : List Bytes) (c : Contents) (key : Bytes) : Prop :=
  ∀ qs, qs <+: ps → repairAll qs c key 0 = c key 0

theorem Steady.cons (h : Steady (p :: ps) c key) :
    repair p c key 0 = c key 0 ∧ Steady ps (repair p c) key := by
  have h₁ : repair p c key 0 = c key 0 := h [p] (by simp)
  refine ⟨h₁, fun qs hqs => ?_⟩
  exact (h (p :: qs) (by simpa using hqs)).trans h₁.symm

/-- A key stays if the longer one never holds a value. -/
theorem steady_of_not_wrong (h : ∀ value, ¬(repairAll ps c).Wrong (key ++ putLE 8 0) value) :
    Steady ps c key := by
  induction ps generalizing c with
  | nil =>
    intro qs hqs
    rw [List.prefix_nil.mp hqs]
    rfl
  | cons p ps ih =>
    have h₀ : ∀ value, ¬c.Wrong (key ++ putLE 8 0) value := by
      intro value hw
      obtain ⟨value', hw'⟩ := hw.repairAll (p :: ps)
      exact h value' hw'
    have h₁ : repair p c key 0 = c key 0 := repair_of_not_wrong h₀
    intro qs hqs
    rcases List.prefix_cons_iff.mp hqs with rfl | ⟨tail, rfl, htail⟩
    · rfl
    · exact (ih h tail htail).trans h₁

/-- What a key gets from a longer one that stays. -/
theorem repairAll_of_steady (hs : Steady ps c (key ++ putLE 8 t)) (ht : t < 2 ^ 64)
    (hw : c.Wrong (key ++ putLE 8 t) value) (h : c key t = some (some value) ∨ ∃ p ∈ ps, p <+: key) :
    repairAll ps c key t = some (some value) := by
  induction ps generalizing c with
  | nil =>
    rcases h with h | ⟨p, hp, -⟩
    · exact h
    · cases hp
  | cons p ps ih =>
    obtain ⟨h₁, hs⟩ := hs.cons
    refine ih hs (h₁.trans hw) ?_
    by_cases hp : p <+: key
    · exact .inl (repair_of_wrong hp ht hw)
    · rcases h with h | ⟨p', hp', hkey⟩
      · exact .inl ((repair_of_not_covered hp).trans h)
      · rcases List.mem_cons.mp hp' with rfl | hp'
        · exact absurd hkey hp
        · exact .inr ⟨p', hp', hkey⟩

theorem repairAll_of_not_covered (h : ∀ p ∈ ps, ¬p <+: key) : repairAll ps c key t = c key t := by
  induction ps generalizing c with
  | nil => rfl
  | cons p ps ih =>
    rw [repairAll, ih fun p' hp' => h p' (by simp [hp']), repair_of_not_covered (h p (by simp))]

/-! ### Nothing left to repair -/

/-- The keys with values at version zero are not longer than `n`. -/
def Bounded (n : ℕ) (c : Contents) : Prop := ∀ key value, c.Wrong key value → key.length ≤ n

theorem Bounded.repairAll {n : ℕ} (h : Bounded n c) (ps : List Bytes) : Bounded n (repairAll ps c) := by
  induction ps generalizing c with
  | nil => exact h
  | cons p ps ih =>
    refine ih fun key value hw => ?_
    rcases wrong_of_repair hw with hw | hw
    · exact h key value hw
    · have hlen := h _ _ hw
      simp only [List.length_append] at hlen
      omega

/-- If the passes end with what was there at version zero, they never changed it. The induction goes from
the longest keys down. -/
theorem steady_of_fixed {n : ℕ} (hn : Bounded n c) (hfix : ∀ key, repairAll ps c key 0 = c key 0)
    (key : Bytes) : Steady ps c key := by
  suffices h : ∀ m key, n < key.length + m → Steady ps c key from h (n + 1) key (by omega)
  intro m
  induction m with
  | zero =>
    intro key hlen
    refine steady_of_not_wrong fun value hw => ?_
    have hle := hn.repairAll ps _ _ hw
    simp only [List.length_append] at hle
    omega
  | succ m ih =>
    intro key hlen
    have hlonger : Steady ps c (key ++ putLE 8 0) := ih _ (by
      rw [List.length_append, length_putLE]
      omega)
    intro qs hqs
    have hsteady : Steady qs c (key ++ putLE 8 0) := fun rs hrs => hlonger rs (hrs.trans hqs)
    by_cases hw : ∃ value, c.Wrong (key ++ putLE 8 0) value
    · obtain ⟨value, hw⟩ := hw
      by_cases hp : ∃ p ∈ qs, p <+: key
      · -- the value copied here is the one at the end, and that was there before
        have hend : repairAll ps c key 0 = some (some value) := by
          obtain ⟨p, hp, hkey⟩ := hp
          exact repairAll_of_steady hlonger (by norm_num) hw (.inr ⟨p, hqs.subset hp, hkey⟩)
        rw [repairAll_of_steady hsteady (by norm_num) hw (.inr hp), ← hend, hfix]
      · exact repairAll_of_not_covered fun p hp' hkey => hp ⟨p, hp', hkey⟩
    · refine steady_of_not_wrong (fun value hw' => hw ⟨value, ?_⟩) qs List.prefix_rfl
      rw [Contents.Wrong, ← hsteady qs List.prefix_rfl]
      exact hw'

/-- The key of a value that is repaired, and its timestamp. -/
theorem split_eq {q : Bytes} (h : 8 ≤ q.length) :
    q.take (q.length - 8) ++ putLE 8 (readLE (q.drop (q.length - 8))) = q ∧
      readLE (q.drop (q.length - 8)) < 2 ^ 64 := by
  have hlen : (q.drop (q.length - 8)).length = 8 := by
    rw [List.length_drop]
    omega
  have hput := putLE_readLE (q.drop (q.length - 8))
  have hlt := readLE_lt (q.drop (q.length - 8))
  rw [hlen] at hput hlt
  exact ⟨by rw [hput, List.take_append_drop], by norm_num at hlt ⊢; exact hlt⟩

theorem splitsAll_of_forall {ps : List Bytes} (h : ∀ p ∈ ps, Splits p c ∧ repair p c = c) : SplitsAll ps c := by
  induction ps with
  | nil => trivial
  | cons p ps ih =>
    obtain ⟨hsplits, hsame⟩ := h p (by simp)
    exact ⟨hsplits, by rw [hsame]; exact ih fun p' hp' => h p' (by simp [hp'])⟩

theorem repairAll_of_forall {ps : List Bytes} (h : ∀ p ∈ ps, repair p c = c) : repairAll ps c = c := by
  induction ps with
  | nil => rfl
  | cons p ps ih => rw [repairAll, h p (by simp), ih fun p' hp' => h p' (by simp [hp'])]

/-- A pass that finds every value repaired changes nothing. -/
theorem repair_of_repaired (h : ∀ q value, c.Wrong (p ++ q) value → Repaired p c q value) : repair p c = c := by
  funext key t
  unfold repair
  split_ifs with hc
  · obtain ⟨⟨k, rfl⟩, ht⟩ := hc
    split
    · next value hw =>
      rw [List.append_assoc] at hw
      have hheld := (h _ _ hw).held
      have hlen : (k ++ putLE 8 t).length - 8 = k.length := by simp
      rw [hlen, List.take_left' rfl, List.drop_left' rfl, readLE_putLE_of_lt (by norm_num; exact ht)] at hheld
      exact hheld.symm
    · rfl
  · rfl

theorem SplitsAll.length_le (h : SplitsAll ps c) (hp : p ∈ ps) {q : Bytes} (hw : c.Wrong (p ++ q) value) :
    8 ≤ q.length := by
  induction ps generalizing c value with
  | nil => cases hp
  | cons p' ps ih =>
    rcases List.mem_cons.mp hp with rfl | hp
    · exact h.1 q value hw
    · obtain ⟨value', hw'⟩ := hw.repair p'
      exact ih h.2 hp hw'

/-- A further run succeeds and changes nothing if and only if every value at version zero is repaired. -/
theorem fixed_iff {n : ℕ} (hn : Bounded n c) :
    SplitsAll ps c ∧ repairAll ps c = c ↔ ∀ p ∈ ps, ∀ q value, c.Wrong (p ++ q) value → Repaired p c q value := by
  constructor
  · rintro ⟨hsplits, hfix⟩ p hp q value hw
    have hlen := hsplits.length_le hp hw
    obtain ⟨hq, ht⟩ := split_eq hlen
    refine ⟨hlen, ?_⟩
    have hsteady := steady_of_fixed hn (fun key => congrFun (congrFun hfix key) 0) (p ++ q)
    rw [← hq, ← List.append_assoc] at hsteady hw
    have hheld := repairAll_of_steady hsteady ht hw (.inr ⟨p, hp, List.prefix_append _ _⟩)
    rwa [hfix] at hheld
  · intro h
    have hsame : ∀ p ∈ ps, repair p c = c := fun p hp => repair_of_repaired (h p hp)
    exact ⟨splitsAll_of_forall fun p hp => ⟨fun q value hw => (h p hp q value hw).length, hsame p hp⟩,
      repairAll_of_forall hsame⟩

/-- A value that nothing was copied over is repaired by the first run. -/
theorem repaired_of_first (hsplits : SplitsAll ps c) (hp : p ∈ ps) {q : Bytes}
    (hw : (repairAll ps c).Wrong (p ++ q) value)
    (hnot : ∀ value, ¬(repairAll ps c).Wrong (p ++ q ++ putLE 8 0) value) :
    Repaired p (repairAll ps c) q value ∧ c.Wrong (p ++ q) value := by
  have hsteady := steady_of_not_wrong hnot
  have hw₀ : c.Wrong (p ++ q) value := (hsteady ps List.prefix_rfl).symm.trans hw
  have hlen := hsplits.length_le hp hw₀
  obtain ⟨hq, ht⟩ := split_eq hlen
  refine ⟨⟨hlen, ?_⟩, hw₀⟩
  rw [← hq, ← List.append_assoc] at hsteady hw₀
  exact repairAll_of_steady hsteady ht hw₀ (.inr ⟨p, hp, List.prefix_append _ _⟩)

/-- Where a value and the one that was copied over it are both there after a run, it is repaired, and is the
value of before. -/
def CopiesRepaired (ps : List Bytes) (c c' : Contents) : Prop :=
  ∀ p ∈ ps, ∀ q value value', c'.Wrong (p ++ q) value → c'.Wrong (p ++ q ++ putLE 8 0) value' →
    Repaired p c' q value ∧ ∀ value₀, c.Wrong (p ++ q) value₀ → value₀ = value

/-- After a first run, a second one succeeds and changes nothing, and no value has changed at version zero,
if and only if the copies at version zero are repaired. -/
theorem second_run_iff {n : ℕ} (hn : Bounded n c) (hsplits : SplitsAll ps c) :
    ((SplitsAll ps (repairAll ps c) ∧ repairAll ps (repairAll ps c) = repairAll ps c) ∧
      ∀ p ∈ ps, ∀ q value₀ value, c.Wrong (p ++ q) value₀ → (repairAll ps c).Wrong (p ++ q) value →
        value₀ = value) ↔
    CopiesRepaired ps c (repairAll ps c) := by
  rw [fixed_iff (hn.repairAll ps)]
  constructor
  · rintro ⟨hrepaired, hsame⟩ p hp q value value' hw -
    exact ⟨hrepaired p hp q value hw, fun value₀ hw₀ => hsame p hp q value₀ value hw₀ hw⟩
  · intro h
    refine ⟨fun p hp q value hw => ?_, fun p hp q value₀ value hw₀ hw => ?_⟩
    · by_cases hcopied : ∃ value', (repairAll ps c).Wrong (p ++ q ++ putLE 8 0) value'
      · obtain ⟨value', hw'⟩ := hcopied
        exact (h p hp q value value' hw hw').1
      · exact (repaired_of_first hsplits hp hw (not_exists.mp hcopied)).1
    · by_cases hcopied : ∃ value', (repairAll ps c).Wrong (p ++ q ++ putLE 8 0) value'
      · obtain ⟨value', hw'⟩ := hcopied
        exact (h p hp q value value' hw hw').2 value₀ hw₀
      · have hw' := (repaired_of_first hsplits hp hw (not_exists.mp hcopied)).2
        exact Option.some.inj (Option.some.inj (hw₀.symm.trans hw'))

end IavlStore.VersionDb
