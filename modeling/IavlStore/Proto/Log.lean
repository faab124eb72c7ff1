import IavlStore.Db.Model
import IavlStore.Proto.RoundTrip

/-! The log as it is on disk. The log library numbers byte strings and knows nothing of entries:
an entry is marshalled when it is added to a batch and unmarshalled when it is replayed. A log
of byte strings follows a log of entries through every batch and truncation, and replaying
it leads to the same multitree. So what is proved of a log of entries holds of the files. -/

namespace IavlStore.Proto

open IavlStore.Base.Encoding IavlStore.Base.Wire IavlStore.Multi

/-! ### A log of byte strings -/

section Bytes
variable (B : WalLog Bytes)

/-- An entry the log already has is marshalled too, but not added. -/
def writeEntry (lastIndex : ℕ) (batch : List (ℕ × Bytes)) (entry : ℕ × WALEntry Bytes) : Option (List (ℕ × Bytes)) := do
  let bz ← walEntry.marshal entry.2
  if entry.1 ≤ lastIndex then some batch else some (batch ++ [(entry.1, bz)])

def writeEntries (entries : List (ℕ × WALEntry Bytes)) (w : B.Log) : Option B.Log := do
  let batch ← entries.foldlM (writeEntry (B.lastIndex w)) []
  B.writeBatch w batch

variable (sha256 : Bytes → Bytes)

/-- Replay `count` records from an index on. -/
def catchupLoop (w : B.Log) : ℕ → ℕ → MultiTree Bytes → Option (MultiTree Bytes)
  | 0, _, t => some t
  | count + 1, i, t => do
    let bz ← B.read w i
    let entry ← (walEntry.unmarshalNew bz).toOption
    let t ← (t.applyWALEntry entry).toOption
    let t ← (t.saveVersion sha256 false).toOption
    catchupLoop w count (i + 1) t

def catchupWAL (w : B.Log) (endVersion : ℕ) (t : MultiTree Bytes) : Option (MultiTree Bytes) :=
  let lastIndex := B.lastIndex w
  let firstIndex := walIndex (nextVersion t.version t.initialVersion) t.initialVersion
  if lastIndex < firstIndex then some t
  else
    let endIndex := if endVersion = 0 then lastIndex else walIndex endVersion t.initialVersion
    if endIndex < firstIndex then none
    else
      (catchupLoop B sha256 w (min endIndex lastIndex + 1 - firstIndex) firstIndex t).map
        (MultiTree.updateCommitInfo sha256)

end Bytes

/-! ### Following a log of entries -/

/-- Its size is a number of 63 bits, and the old name of a renamed tree is not empty. -/
def Encodable (e : WALEntry Bytes) : Prop :=
  (∀ u ∈ e.upgrades, u.renameFrom ≠ some []) ∧ walEntry.size e < 2 ^ 63

instance (e : WALEntry Bytes) : Decidable (Encodable e) := inferInstanceAs (Decidable (_ ∧ _))

/-- The record of an entry. -/
def RecordOf (bz : Bytes) (e : WALEntry Bytes) : Prop :=
  walEntry.marshal e = some bz ∧ walEntry.unmarshalNew bz = .ok e.reread

theorem Encodable.exists_record {e : WALEntry Bytes} (h : Encodable e) : ∃ bz, RecordOf bz e := by
  obtain ⟨bz, hbz, -, hdec⟩ := (walEntry_codes h.1 walEntry.zero).marshal_eq h.2
  exact ⟨bz, hbz, hdec⟩

variable {B : RollbackLog Bytes} {R : RollbackLog (WALEntry Bytes)} {b : B.Log} {w : R.Log}

/-- The logs have dropped the same number of records, and the others correspond. -/
structure Records (b : B.Log) (w : R.Log) : Prop where
  dropped : B.dropped b = R.dropped w
  entries : List.Forall₂ RecordOf (B.entries b) (R.entries w)

namespace Records

theorem lastIndex (h : Records b w) : B.lastIndex b = R.lastIndex w := by
  rw [B.lastIndex_eq, R.lastIndex_eq, h.dropped, h.entries.length_eq]

theorem new : Records B.new R.new := by
  refine ⟨B.new_eq.1.trans R.new_eq.1.symm, ?_⟩
  rw [B.new_eq.2, R.new_eq.2]
  exact .nil

/-- The two logs have records at the same places. -/
theorem read (h : Records b w) (i : ℕ) : Option.Rel RecordOf (B.read b i) (R.read w i) := by
  rw [B.read_eq, R.read_eq, h.dropped]
  split_ifs with hi
  · rcases lt_or_ge (i - R.dropped w - 1) (B.entries b).length with hlt | hge
    · have hlt' := h.entries.length_eq ▸ hlt
      rw [List.getElem?_eq_getElem hlt, List.getElem?_eq_getElem hlt']
      exact .some (h.entries.get hlt hlt')
    · rw [List.getElem?_eq_none hge, List.getElem?_eq_none (h.entries.length_eq ▸ hge)]
      exact .none
  · exact .none

theorem truncateFront (h : Records b w) (i : ℕ) : Option.Rel Records (B.truncateFront b i) (R.truncateFront w i) := by
  by_cases hi : R.dropped w < i ∧ i ≤ R.lastIndex w
  · obtain ⟨w', hw', hd', he'⟩ := R.truncateFront_eq w i hi.1 hi.2
    obtain ⟨b', hb', hdb, heb⟩ := B.truncateFront_eq b i (h.dropped ▸ hi.1) (h.lastIndex ▸ hi.2)
    rw [hw', hb']
    refine .some ⟨hdb.trans hd'.symm, ?_⟩
    rw [heb, he', h.dropped]
    exact List.forall₂_drop _ h.entries
  · rw [R.truncateFront_out_of_range w i hi, B.truncateFront_out_of_range b i (by rwa [h.dropped, h.lastIndex])]
    exact .none

theorem truncateBack (h : Records b w) (i : ℕ) : Option.Rel Records (B.truncateBack b i) (R.truncateBack w i) := by
  by_cases hi : R.dropped w < i ∧ i ≤ R.lastIndex w
  · obtain ⟨w', hw', hd', he'⟩ := R.truncateBack_eq w i hi.1 hi.2
    obtain ⟨b', hb', hdb, heb⟩ := B.truncateBack_eq b i (h.dropped ▸ hi.1) (h.lastIndex ▸ hi.2)
    rw [hw', hb']
    refine .some ⟨hdb.trans (h.dropped.trans hd'.symm), ?_⟩
    rw [heb, he', h.dropped]
    exact List.forall₂_take _ h.entries
  · rw [R.truncateBack_out_of_range w i hi, B.truncateBack_out_of_range b i (by rwa [h.dropped, h.lastIndex])]
    exact .none

/-- A record with its number in a batch. -/
def BatchRecord (x : ℕ × Bytes) (y : ℕ × WALEntry Bytes) : Prop := x.1 = y.1 ∧ RecordOf x.2 y.2

/-- The batch holds the records of the entries the log does not have. -/
theorem foldlM_writeEntry (lastIndex : ℕ) {entries : List (ℕ × WALEntry Bytes)} (he : ∀ e ∈ entries, Encodable e.2)
    (batch : List (ℕ × Bytes)) :
    ∃ records, entries.foldlM (writeEntry lastIndex) batch = some (batch ++ records) ∧
      List.Forall₂ BatchRecord records (entries.filter fun e => lastIndex < e.1) := by
  induction entries generalizing batch with
  | nil => exact ⟨[], by simp, .nil⟩
  | cons e entries ih =>
    obtain ⟨bz, hbz⟩ := (he e List.mem_cons_self).exists_record
    have hrest := ih fun e' he' => he e' (List.mem_cons_of_mem e he')
    rw [List.foldlM_cons, writeEntry, hbz.1]
    by_cases hi : e.1 ≤ lastIndex
    · obtain ⟨records, hr, hf⟩ := hrest batch
      exact ⟨records, by simpa [hi] using hr, by simpa [hi] using hf⟩
    · obtain ⟨records, hr, hf⟩ := hrest (batch ++ [(e.1, bz)])
      refine ⟨(e.1, bz) :: records, by simpa [hi] using hr, ?_⟩
      rw [List.filter_cons_of_pos (by simpa using hi)]
      exact .cons ⟨rfl, hbz⟩ hf

theorem writeBatch (h : Records b w) {records : List (ℕ × Bytes)} {batch : List (ℕ × WALEntry Bytes)}
    (hbatch : List.Forall₂ BatchRecord records batch) :
    Option.Rel Records (B.writeBatch b records) (R.writeBatch w batch) := by
  have hfst : records.map Prod.fst = batch.map Prod.fst := by
    rw [← List.forall₂_eq_eq_eq, List.forall₂_map_left_iff, List.forall₂_map_right_iff]
    exact hbatch.imp fun _ _ hr => hr.1
  have hsnd : List.Forall₂ RecordOf (records.map Prod.snd) (batch.map Prod.snd) := by
    rw [List.forall₂_map_left_iff, List.forall₂_map_right_iff]
    exact hbatch.imp fun _ _ hr => hr.2
  have hiff : records.map Prod.fst = List.range' (B.lastIndex b + 1) records.length ↔
      batch.map Prod.fst = List.range' (R.lastIndex w + 1) batch.length := by
    rw [hfst, h.lastIndex, hbatch.length_eq]
  by_cases hnum : batch.map Prod.fst = List.range' (R.lastIndex w + 1) batch.length
  · obtain ⟨w', hw', hd', he'⟩ := R.writeBatch_eq w batch hnum
    obtain ⟨b', hb', hdb, heb⟩ := B.writeBatch_eq b records (hiff.mpr hnum)
    rw [hw', hb']
    refine .some ⟨hdb.trans (h.dropped.trans hd'.symm), ?_⟩
    rw [he', heb]
    exact List.rel_append h.entries hsnd
  · rw [R.writeBatch_out_of_order w batch hnum, B.writeBatch_out_of_order b records (mt hiff.mp hnum)]
    exact .none

theorem writeEntries (h : Records b w) {entries : List (ℕ × WALEntry Bytes)} (he : ∀ e ∈ entries, Encodable e.2) :
    Option.Rel Records (Proto.writeEntries B.toWalLog entries b) (Db.writeEntries entries w) := by
  obtain ⟨records, hr, hf⟩ := foldlM_writeEntry (R.lastIndex w) he []
  rw [Proto.writeEntries, h.lastIndex, hr]
  exact h.writeBatch hf

variable (sha256 : Bytes → Bytes)

theorem catchupLoop (h : Records b w) (count i : ℕ) (t : MultiTree Bytes) :
    Proto.catchupLoop B.toWalLog sha256 b count i t = MultiTree.catchupLoop sha256 R.toWalLog w count i t := by
  induction count generalizing i t with
  | zero => rfl
  | succ count ih =>
    rw [Proto.catchupLoop, MultiTree.catchupLoop]
    have hread := h.read i
    rcases hb : B.read b i with _ | bz <;> rcases hw : R.read w i with _ | e <;> rw [hb, hw] at hread
    · rfl
    · cases hread
    · cases hread
    · obtain ⟨-, hdec⟩ : RecordOf bz e := by cases hread; assumption
      simp only [Option.bind_eq_bind, Option.bind_some, hdec, Except.toOption]
      rcases t.applyWALEntry e.reread with err | t₁
      · rfl
      · simp only [Option.bind_some]
        rcases t₁.saveVersion sha256 false with err | t₂
        · rfl
        · exact ih (i + 1) t₂

theorem catchupWAL (h : Records b w) (endVersion : ℕ) (t : MultiTree Bytes) :
    Proto.catchupWAL B.toWalLog sha256 b endVersion t = MultiTree.catchupWAL sha256 R.toWalLog w endVersion t := by
  simp only [Proto.catchupWAL, MultiTree.catchupWAL, h.lastIndex, h.catchupLoop sha256]

end Records

/-! ### Runs -/

/-- What is done to the log: commits, pruning and rollbacks. -/
inductive LogEvent where
  | writeEntries (entries : List (ℕ × WALEntry Bytes))
  | truncateFront (index : ℕ)
  | truncateBack (index : ℕ)

def LogEvent.Encodable : LogEvent → Prop
  | .writeEntries entries => ∀ e ∈ entries, Proto.Encodable e.2
  | .truncateFront _ | .truncateBack _ => True

instance (e : LogEvent) : Decidable e.Encodable :=
  match e with
  | .writeEntries entries => inferInstanceAs (Decidable (∀ e ∈ entries, Proto.Encodable e.2))
  | .truncateFront _ | .truncateBack _ => isTrue trivial

def bytesStep (B : RollbackLog Bytes) (b : B.Log) : LogEvent → Option B.Log
  | .writeEntries entries => writeEntries B.toWalLog entries b
  | .truncateFront index => B.truncateFront b index
  | .truncateBack index => B.truncateBack b index

def entriesStep (R : RollbackLog (WALEntry Bytes)) (w : R.Log) : LogEvent → Option R.Log
  | .writeEntries entries => Db.writeEntries entries w
  | .truncateFront index => R.truncateFront w index
  | .truncateBack index => R.truncateBack w index

theorem Records.step (h : Records b w) {e : LogEvent} (he : e.Encodable) :
    Option.Rel Records (bytesStep B b e) (entriesStep R w e) := by
  cases e with
  | writeEntries entries => exact h.writeEntries he
  | truncateFront index => exact h.truncateFront index
  | truncateBack index => exact h.truncateBack index

theorem Records.run {events : List LogEvent} (he : ∀ e ∈ events, e.Encodable) (h : Records b w) :
    Option.Rel Records (events.foldlM (bytesStep B) b) (events.foldlM (entriesStep R) w) := by
  induction events generalizing b w with
  | nil => exact .some h
  | cons e events ih =>
    rw [List.foldlM_cons, List.foldlM_cons]
    have hstep := h.step (he e List.mem_cons_self)
    rcases hb : bytesStep B b e with _ | b' <;> rcases hw : entriesStep R w e with _ | w' <;> rw [hb, hw] at hstep
    · exact .none
    · cases hstep
    · cases hstep
    · cases hstep with
      | some h' => exact ih (fun e' he' => he e' (List.mem_cons_of_mem e he')) h'

theorem rel_imp {X Y : Type} {p q : X → Y → Prop} (himp : ∀ x y, p x y → q x y) {x : Option X} {y : Option Y}
    (h : Option.Rel p x y) : Option.Rel q x y := by
  cases h with
  | some h => exact .some (himp _ _ h)
  | none => exact .none

variable (B R) in
/-- Whatever is committed, pruned and rolled back, the log of byte strings fails where the log of entries
does, and replaying it, from any multitree and to any version, leads to the same multitree. -/
theorem catchupWAL_of_records (sha256 : Bytes → Bytes) {events : List LogEvent} (he : ∀ e ∈ events, e.Encodable) :
    Option.Rel (fun b w => ∀ endVersion t, catchupWAL B.toWalLog sha256 b endVersion t =
        MultiTree.catchupWAL sha256 R.toWalLog w endVersion t)
      (events.foldlM (bytesStep B) B.new) (events.foldlM (entriesStep R) R.new) :=
  rel_imp (fun _ _ h => h.catchupWAL sha256) (Records.run he Records.new)

/-- Two commits, one of them with an upgrade, and the second rolled back. -/
theorem catchupWAL_of_records_rollback :
    let entry : WALEntry Bytes := ⟨[⟨[97], [⟨false, [1], some []⟩]⟩], [⟨[97], none, false⟩]⟩
    let events : List LogEvent := [.writeEntries [(1, entry), (2, ⟨[], []⟩)], .truncateBack 1]
    Option.Rel (fun b w => ∀ endVersion t, catchupWAL (listLog Bytes) id b endVersion t =
        MultiTree.catchupWAL id (listLog (WALEntry Bytes)) w endVersion t)
      (events.foldlM (bytesStep (listRollbackLog Bytes)) (0, []))
      (events.foldlM (entriesStep (listRollbackLog (WALEntry Bytes))) (0, [])) :=
  catchupWAL_of_records (listRollbackLog Bytes) (listRollbackLog (WALEntry Bytes)) id (by decide +kernel)

end IavlStore.Proto
