import IavlStore.Changeset.Verify

/-! What a replay does to the tree as a value. A file delivers its records one after the other;
files of consecutive versions lead from version to version as long as none is left out, and to
an error otherwise. -/

namespace IavlStore.Changeset

open IavlStore.Base.Encoding IavlStore.Base.Heaps IavlStore.Base.Parsers IavlStore.Heap IavlStore.Multi

/-! ### Delivering records -/

section
variable {S E : Type} {fn : ℤ → ChangeSet → S → S × Except (IterateError E) Bool}

/-- Records passed to the callback until it stops. -/
def deliver (fn : ℤ → ChangeSet → S → S × Except (IterateError E) Bool) :
    List (ℤ × ChangeSet) → S → S × Option (IterateError E)
  | [], s => (s, none)
  | r :: records, s =>
    match fn r.1 r.2 s with
    | (s, .error e) => (s, withoutEOF e)
    | (s, .ok true) => deliver fn records s
    | (s, .ok false) => (s, none)

theorem iterate_nil {rounds : ℕ} (offset : ℤ) (s : S) : iterate true fn rounds [] offset s = ⟨offset, s, none⟩ := by
  cases rounds with
  | zero => rfl
  | succ rounds =>
    have hread : readChangeSet true [] = .error (.read .eof) := rfl
    rw [iterate, hread]
    rfl

/-- A file delivers its records. -/
theorem iterate_deliver {records : List (ℤ × ChangeSet)} (hranges : ∀ r ∈ records, RecordRanges r)
    (hlen : (records.flatMap fun r => recordBytes r.1 r.2).length < 2 ^ 63) {rounds : ℕ}
    (hrounds : records.length ≤ rounds) (offset : ℤ) (s : S) :
    let r := iterate true fn rounds (records.flatMap fun r => recordBytes r.1 r.2) offset s
    (r.state, r.err) = deliver fn (recordsRead true records) s := by
  induction records generalizing rounds offset s with
  | nil =>
    dsimp only
    rw [List.flatMap_nil, iterate_nil]
    rfl
  | cons r records ih =>
    obtain ⟨rounds, rfl⟩ : ∃ k, rounds = k + 1 := ⟨rounds - 1, by rw [List.length_cons] at hrounds; omega⟩
    rw [List.flatMap_cons, List.length_append] at hlen
    rw [List.length_cons] at hrounds
    obtain ⟨hv, hslices⟩ := hranges r List.mem_cons_self
    have hread := (exact_readChangeSet hv hslices (by omega) true).reads (records.flatMap fun r => recordBytes r.1 r.2)
    have hrecords : ∀ q ∈ records, RecordRanges q := fun q hq => hranges q (List.mem_cons_of_mem r hq)
    rw [List.flatMap_cons, recordsRead, List.map_cons, deliver]
    rcases hfn : fn r.1 (r.2.map readBack) s with ⟨s', e | cont⟩
    · rw [iterate_fail hread hfn]
      simp only [if_true, hfn]
    · cases cont with
      | true =>
        rw [iterate_continue hread hfn]
        simp only [if_true, hfn]
        exact ih hrecords (by omega) (by omega) _ s'
      | false =>
        rw [iterate_stop hread hfn]
        simp only [if_true, hfn]

end

/-! ### Records on a tree -/

section
variable {sha256 : Bytes → Bytes} {content : ℕ → ChangeSet} {t : Tree} {target first count : ℕ}

/-- The next version. -/
def advance (content : ℕ → ChangeSet) (t : Tree) : Tree :=
  { t.applyChangeSet (content (t.version + 1)) with version := t.version + 1 }

/-- Consecutive versions. -/
def span (content : ℕ → ChangeSet) (first count : ℕ) : List (ℤ × ChangeSet) :=
  (List.range' first count).map fun v : ℕ => ((v : ℤ), content v)

@[simp] theorem version_advance (content : ℕ → ChangeSet) (t : Tree) : (advance content t).version = t.version + 1 := rfl

theorem version_iterate_advance (content : ℕ → ChangeSet) (t : Tree) (k : ℕ) :
    ((advance content)^[k] t).version = t.version + k := by
  induction k generalizing t with
  | zero => rfl
  | succ k ih =>
    rw [Function.iterate_succ_apply, ih, version_advance]
    omega

theorem version_valueTree (ht : t.version ≤ maxInt64) : (valueTree sha256).version t = some (t.version : ℤ) :=
  if_neg (not_lt.mpr ht)

theorem save_valueTree {cs : ChangeSet} (ht : t.version < maxInt64) :
    ((valueTree sha256).applyChangeSet cs t).bind (valueTree sha256).saveVersion =
      some (some (t.version + 1), { t.applyChangeSet cs with version := t.version + 1 }) := by
  have hnext : next (t.applyChangeSet cs).version = t.version + 1 := by
    rw [Tree.version_applyChangeSet, next_eq ht.le]
  have hsave : (t.applyChangeSet cs).saveVersion = some { t.applyChangeSet cs with version := t.version + 1 } := by
    rw [Tree.saveVersion, hnext, if_neg (by omega)]
  simp only [valueTree, Option.bind_some, hsave, Option.map_some, Option.getD_some]

theorem replayRecord_skip {version : ℕ} {cs : ChangeSet} (ht : t.version ≤ maxInt64) (hv : version ≤ t.version) :
    replayRecord (valueTree sha256) target version cs t = (t, .ok true) := by
  simp only [replayRecord, version_valueTree ht, Nat.cast_le, hv, if_true]

theorem replayRecord_next (ht : t.version < maxInt64) :
    replayRecord (valueTree sha256) target (t.version + 1 : ℕ) (content (t.version + 1)) t =
      (advance content t, .ok (target = 0 ∨ t.version + 1 < target)) := by
  have hlt : ¬ t.version + 1 ≤ t.version := by omega
  simp only [replayRecord, version_valueTree ht.le, Nat.cast_le, hlt, if_false, save_valueTree ht, ne_eq,
    not_true_eq_false, Nat.cast_eq_zero, Nat.cast_lt, advance]

theorem replayRecord_gap {version : ℕ} {cs : ChangeSet} (ht : t.version < maxInt64) (hv : t.version + 1 < version) :
    ∃ t', replayRecord (valueTree sha256) target version cs t =
      (t', .error (.callback (.versionMismatch (t.version + 1) version))) := by
  have hlt : ¬ version ≤ t.version := by omega
  have hne : t.version + 1 ≠ version := by omega
  refine ⟨{ t.applyChangeSet cs with version := t.version + 1 }, ?_⟩
  simp only [replayRecord, version_valueTree ht.le, Nat.cast_le, hlt, if_false, save_valueTree ht, ne_eq,
    Nat.cast_inj, hne, not_false_eq_true, if_true]

/-- Where a replay of versions up to `last` stops. -/
def stopAt (target last : ℕ) : ℕ := if target = 0 then last else min last target

/-- Consecutive versions that leave no gap lead to the last of them or to the target. -/
theorem deliver_span (hfirst : first ≤ t.version + 1) (ht : t.version ≤ maxInt64) (hlast : first + count ≤ maxInt64 + 1)
    (htarget : target = 0 ∨ t.version < target) :
    deliver (replayRecord (valueTree sha256) target) (span content first count) t =
      ((advance content)^[stopAt target (first + count - 1) - t.version] t, none) := by
  induction count generalizing first t with
  | zero =>
    have hstop : stopAt target (first + 0 - 1) - t.version = 0 := by
      unfold stopAt
      split_ifs <;> omega
    rw [hstop]
    rfl
  | succ count ih =>
    have hspan : span content first (count + 1) = ((first : ℤ), content first) :: span content (first + 1) count := rfl
    have hidx : first + (count + 1) - 1 = first + 1 + count - 1 := by omega
    rw [hspan, deliver, hidx]
    dsimp only
    by_cases hskip : first ≤ t.version
    · rw [replayRecord_skip ht hskip]
      exact ih (by omega) ht (by omega) htarget
    · obtain rfl : first = t.version + 1 := by omega
      have hlt : t.version < maxInt64 := by omega
      rw [replayRecord_next hlt]
      by_cases hcont : target = 0 ∨ t.version + 1 < target
      · rw [decide_eq_true hcont]
        dsimp only
        rw [ih (by simp) (by simp; omega) (by omega) (by simpa using hcont)]
        have hstop : stopAt target (t.version + 1 + 1 + count - 1) - t.version =
            stopAt target (t.version + 1 + 1 + count - 1) - (t.version + 1) + 1 := by
          unfold stopAt
          split_ifs <;> omega
        rw [hstop, Function.iterate_succ_apply, version_advance]
      · rw [decide_eq_false hcont]
        have hstop : stopAt target (t.version + 1 + 1 + count - 1) - t.version = 1 := by
          unfold stopAt
          split_ifs <;> omega
        rw [hstop]
        rfl

/-- A version after the next one is refused. -/
theorem deliver_gap (hfirst : t.version + 1 < first) (hlast : first ≤ maxInt64) :
    ∃ t', deliver (replayRecord (valueTree sha256) target) (span content first (count + 1)) t =
      (t', some (.callback (.versionMismatch (t.version + 1) first))) := by
  obtain ⟨t', h⟩ : ∃ t', replayRecord (valueTree sha256) target first (content first) t = (t', _) :=
    replayRecord_gap (by omega) hfirst
  refine ⟨t', ?_⟩
  have hspan : span content first (count + 1) = ((first : ℤ), content first) :: span content (first + 1) count := rfl
  rw [hspan, deliver]
  dsimp only
  rw [h]
  rfl

end

/-! ### Files on a tree -/

/-- The file holds these consecutive versions. -/
structure HoldsSpan (sha256 : Bytes → Bytes) (content : ℕ → ChangeSet) (f : FileWithVersion) (count : ℕ) : Prop where
  pos : 0 < count
  le : f.version + count ≤ maxInt64 + 1
  delivers : ∀ (target : ℕ) (t : Tree),
    let r := iterateChangeSets (replayRecord (valueTree sha256) target) f.file t
    (r.state, r.err) = deliver (replayRecord (valueTree sha256) target) (span content f.version count) t

section
variable {sha256 : Bytes → Bytes} {content : ℕ → ChangeSet} {t : Tree} {target last : ℕ} {f : FileWithVersion}
  {files : List FileWithVersion} {count : FileWithVersion → ℕ}

/-- One of the files holds the version. -/
def Covers (count : FileWithVersion → ℕ) (files : List FileWithVersion) (v : ℕ) : Prop :=
  ∃ f ∈ files, f.version ≤ v ∧ v < f.version + count f

/-- The files are in the order of their first versions. -/
def InOrder (files : List FileWithVersion) : Prop := files.Pairwise fun f g => f.version ≤ g.version

theorem HoldsSpan.version_le {count : ℕ} (h : HoldsSpan sha256 content f count) : f.version ≤ maxInt64 := by
  have hle := h.le
  have hpos := h.pos
  omega

theorem replayFiles_cons_gap (h : HoldsSpan sha256 content f (count f)) (hgap : t.version + 1 < f.version) :
    replayFiles (valueTree sha256) 0 (f :: files) t =
      .error (.replay (.callback (.versionMismatch (t.version + 1) f.version))) := by
  obtain ⟨k, hk⟩ : ∃ k, count f = k + 1 := ⟨count f - 1, by have := h.pos; omega⟩
  have hd := h.delivers 0 t
  have hle := h.le
  rw [hk] at hd hle
  obtain ⟨t', hgap'⟩ : ∃ t', deliver (replayRecord (valueTree sha256) (0 : ℕ)) (span content f.version (k + 1)) t = (t', _) :=
    deliver_gap hgap (by omega)
  rw [hgap'] at hd
  obtain ⟨hstate, herr⟩ := Prod.mk.inj hd
  rw [Nat.cast_zero] at herr
  simp only [replayFiles, lt_irrefl, false_and, if_false, herr]

/-- A file that leaves no gap leads to its last version or to the target. -/
theorem replayFiles_cons (h : HoldsSpan sha256 content f (count f)) (hfirst : f.version ≤ t.version + 1)
    (ht : t.version ≤ maxInt64) (htarget : target = 0 ∨ t.version < target) (hreach : target = 0 ∨ f.version ≤ target) :
    let t' := (advance content)^[stopAt target (f.version + count f - 1) - t.version] t
    replayFiles (valueTree sha256) target (f :: files) t =
      if 0 < target ∧ target ≤ t'.version then .ok t' else replayFiles (valueTree sha256) target files t' := by
  intro t'
  have hd := h.delivers target t
  have hle := h.le
  rw [deliver_span hfirst ht hle htarget] at hd
  obtain ⟨hstate, herr⟩ : (iterateChangeSets _ _ _).state = t' ∧ _ = none := Prod.mk.inj hd
  have hbreak : ¬ (0 < (target : ℤ) ∧ (target : ℤ) < f.version) := by omega
  have hversion : t'.version ≤ maxInt64 := by
    rw [version_iterate_advance]
    unfold stopAt
    split_ifs <;> omega
  simp only [replayFiles, hbreak, if_false, herr, hstate]
  rw [version_valueTree hversion]
  simp only [Nat.cast_pos, Nat.cast_le]

/-- Files without a gap lead to the last version. -/
theorem replayFiles_covered (horder : InOrder files) (hfiles : ∀ f ∈ files, HoldsSpan sha256 content f (count f))
    (ht : t.version ≤ last) (hlast : last ≤ maxInt64)
    (htarget : target = 0 ∧ (∀ f ∈ files, f.version + count f ≤ last + 1) ∨ target = last ∧ t.version < last)
    (hcovers : ∀ v, t.version < v → v ≤ last → Covers count files v) :
    replayFiles (valueTree sha256) target files t = .ok ((advance content)^[last - t.version] t) := by
  induction files generalizing t with
  | nil =>
    have hdone : last - t.version = 0 := by
      by_contra hne
      obtain ⟨f, hf, -⟩ := hcovers (t.version + 1) (by omega) (by omega)
      cases hf
    rw [hdone]
    rfl
  | cons f files ih =>
    obtain ⟨hleast, horder'⟩ := List.pairwise_cons.mp horder
    have hf := hfiles f List.mem_cons_self
    have hpos := hf.pos
    -- the next version is in a file, and this file does not start before `f`
    have hnext : t.version < last → f.version ≤ t.version + 1 := by
      intro hlt
      obtain ⟨g, hg, hle, -⟩ := hcovers (t.version + 1) (by omega) (by omega)
      rcases List.mem_cons.mp hg with rfl | hg
      · exact hle
      · exact (hleast g hg).trans hle
    have hfirst : f.version ≤ t.version + 1 := by
      rcases htarget with ⟨-, hend⟩ | ⟨-, hlt⟩
      · have := hend f List.mem_cons_self
        by_cases hlt : t.version < last
        · exact hnext hlt
        · omega
      · exact hnext hlt
    have hstop : stopAt target (f.version + count f - 1) ≤ last ∧
        ∀ v, stopAt target (f.version + count f - 1) < v → v ≤ last → f.version + count f ≤ v := by
      unfold stopAt
      rcases htarget with ⟨rfl, hend⟩ | ⟨rfl, hlt⟩
      · have := hend f List.mem_cons_self
        rw [if_pos rfl]
        exact ⟨by omega, fun v _ _ => by omega⟩
      · split_ifs
        · omega
        · exact ⟨by omega, fun v _ _ => by omega⟩
    rw [replayFiles_cons hf hfirst (by omega) (by omega) (by omega)]
    generalize stopAt target (f.version + count f - 1) = stop at hstop ⊢
    obtain ⟨hle, hafter⟩ := hstop
    have hversion := version_iterate_advance content t (stop - t.version)
    split_ifs with hdone
    · rw [show stop - t.version = last - t.version by omega]
    · rw [ih horder' (fun g hg => hfiles g (List.mem_cons_of_mem f hg)) (by omega) ?_ ?_, ← Function.iterate_add_apply]
      · rw [show last - _ + (stop - t.version) = last - t.version by omega]
      · exact htarget.imp (fun h => ⟨h.1, fun g hg => h.2 g (List.mem_cons_of_mem f hg)⟩) (fun h => by omega)
      · intro v hv hvl
        obtain ⟨g, hg, hgv⟩ := hcovers v (by omega) hvl
        rcases List.mem_cons.mp hg with rfl | hg
        · have := hafter v (by omega) hvl
          omega
        · exact ⟨g, hg, hgv⟩

/-- Either the replay goes on over all files, each version being in one of them, or a version is
missing. -/
theorem replayFiles_cases (hfiles : ∀ f ∈ files, HoldsSpan sha256 content f (count f)) (ht : t.version ≤ maxInt64) :
    (∃ t', replayFiles (valueTree sha256) 0 files t = .ok t' ∧ t.version ≤ t'.version ∧
        (∀ f ∈ files, f.version + count f ≤ t'.version + 1) ∧
        ∀ v, t.version < v → v ≤ t'.version → Covers count files v) ∨
      ∃ saved version, replayFiles (valueTree sha256) 0 files t =
        .error (.replay (.callback (.versionMismatch saved version))) := by
  induction files generalizing t with
  | nil => exact .inl ⟨t, rfl, le_rfl, by simp, fun v _ _ => by omega⟩
  | cons f files ih =>
    have hf := hfiles f List.mem_cons_self
    have hle := hf.le
    have hpos := hf.pos
    by_cases hgap : t.version + 1 < f.version
    · exact .inr ⟨_, _, replayFiles_cons_gap hf hgap⟩
    · have hversion := version_iterate_advance content t (f.version + count f - 1 - t.version)
      have hcons : replayFiles (valueTree sha256) (0 : ℕ) (f :: files) t = _ :=
        replayFiles_cons hf (not_lt.mp hgap) ht (.inl rfl) (.inl rfl)
      simp only [stopAt, if_true, lt_irrefl, false_and, if_false, Nat.cast_zero] at hcons
      rw [hcons]
      generalize (advance content)^[f.version + count f - 1 - t.version] t = u at hversion ⊢
      have hfiles' : ∀ g ∈ files, HoldsSpan sha256 content g (count g) := fun g hg => hfiles g (List.mem_cons_of_mem f hg)
      rcases ih (t := u) hfiles' (by omega) with ⟨t', hok, hmono, hends, hcovers⟩ | herr
      · refine .inl ⟨t', hok, by omega, List.forall_mem_cons.mpr ⟨by omega, hends⟩, fun v hv hvt => ?_⟩
        by_cases hin : v < f.version + count f
        · exact ⟨f, List.mem_cons_self, by omega, hin⟩
        · obtain ⟨g, hg, hgv⟩ := hcovers v (by omega) hvt
          exact ⟨g, List.mem_cons_of_mem f hg, hgv⟩
      · exact .inr herr

end

end IavlStore.Changeset
