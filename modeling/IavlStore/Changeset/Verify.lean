import IavlStore.Base.Heaps
import IavlStore.Changeset.RoundTrip
import IavlStore.Heap.Simulation
import IavlStore.Multi.MultiTree

/-! Replaying the change-set files of a store on a tree. Files are taken in the order of their
first versions, versions that the tree has are skipped, and each other version must be the next
one. The replay is the same on a tree over a heap, with nodes of a snapshot, and on the tree as
a value. -/

namespace IavlStore.Changeset

open IavlStore.Base.Encoding IavlStore.Base.Heaps IavlStore.Base.Parsers IavlStore.Heap IavlStore.Multi

/-! ### Files -/

structure FileWithVersion where
  file : Bytes
  version : ℕ

def readFirstVersion (file : Bytes) : Except ReadError ℕ := (readFull 8 file).map fun r => readLE r.1

/-- The files that are not empty, with their first versions. -/
def nonEmptyFiles : List Bytes → Except ReadError (List FileWithVersion)
  | [] => .ok []
  | file :: files =>
    match readFirstVersion file with
    | .error .eof => nonEmptyFiles files
    | .error e => .error e
    | .ok version => (nonEmptyFiles files).map (⟨file, version⟩ :: ·)

/-- `sort.Slice` on the files: equal versions may come in any order. -/
structure SortSlice where
  sort : List FileWithVersion → List FileWithVersion
  sort_spec : ∀ l, (sort l).Perm l ∧ Ascending (fun f g => decide (f.version < g.version)) (sort l)

def sortFilesByFirstVerson (sortSlice : SortSlice) (files : List Bytes) : Except ReadError (List FileWithVersion) :=
  (nonEmptyFiles files).map sortSlice.sort

/-- The file of a run, with the first version as it is read. -/
def fileOf (run : List (ℤ × ChangeSet)) : FileWithVersion :=
  ⟨run.flatMap fun r => recordBytes r.1 r.2, uint64 (run.headD (0, [])).1⟩

theorem readFirstVersion_recordBytes (version : ℤ) (cs : ChangeSet) (rest : Bytes) :
    readFirstVersion (recordBytes version cs ++ rest) = .ok (uint64 version) := by
  have hread := (exact_readFull (putLE 8 (uint64 version))).reads
    (putLE 8 (uint64 (payload cs).length) ++ (payload cs ++ rest))
  rw [length_putLE] at hread
  rw [readFirstVersion, recordBytes, List.append_assoc, List.append_assoc, hread, Except.map, readLE_putLE_uint64]

theorem nonEmptyFiles_eq (runs : List (List (ℤ × ChangeSet))) :
    nonEmptyFiles (runs.map fun run => run.flatMap fun r => recordBytes r.1 r.2) =
      .ok ((runs.filter (· ≠ [])).map fileOf) := by
  induction runs with
  | nil => rfl
  | cons run runs ih =>
    rw [List.map_cons]
    rcases run with _ | ⟨r, run⟩
    · exact ih
    · rw [nonEmptyFiles, List.flatMap_cons, readFirstVersion_recordBytes, ih]
      rfl

/-! ### Trees -/

/-- What the replay does with a tree. A nil dereference, or a version that is no signed number, is
`none`; an overflow on saving is reported in place of the version. -/
structure TreeOps (T : Type) where
  version : T → Option ℤ
  setInitialVersion : ℕ → T → T
  applyChangeSet : ChangeSet → T → Option T
  saveVersion : T → Option (Option ℕ × T)
  rootHash : T → Option (Bytes × T)

section
variable {C : Type} (K : Cache C) (sha256 : Bytes → Bytes)

/-- The tree over the heap. -/
def heapTree : TreeOps (HTree C × Mem) where
  version s := if maxInt64 < s.1.version then none else some s.1.version
  setInitialVersion initialVersion s :=
    (if 0 < s.1.version then s.1 else { s.1 with version := initialVersion - 1 }, s.2)
  applyChangeSet cs s := s.1.applyChangeSet K cs s.2
  saveVersion s := (s.1.saveVersion sha256 false s.2).map fun r => (r.1.map Prod.snd, r.2)
  rootHash s := (s.1.rootHash sha256 s.2).map fun r => (r.1, s.1, r.2)

/-- The tree as a value. -/
def valueTree : TreeOps Tree where
  version t := if maxInt64 < t.version then none else some t.version
  setInitialVersion := setInitialVersionTree
  applyChangeSet cs t := some (t.applyChangeSet cs)
  saveVersion t := some ((t.saveVersion).map Tree.version, t.saveVersion.getD t)
  rootHash t := some (t.rootHash sha256, t)

end

/-! ### Replay -/

inductive ReplayError where
  | panic
  | overflow
  | versionMismatch (saved : ℕ) (version : ℤ)
  deriving DecidableEq

inductive VerifyError where
  | firstVersion (err : ReadError)
  | negativeInitialVersion (version : ℤ)
  | replay (err : IterateError ReplayError)
  | panic
  deriving DecidableEq

structure CommitID where
  version : ℤ
  hash : Bytes
  deriving DecidableEq

variable {T : Type}

section
variable (ops : TreeOps T)

/-- One record: whether to go on. -/
def replayRecord (targetVersion : ℤ) (version : ℤ) (cs : ChangeSet) (tree : T) :
    T × Except (IterateError ReplayError) Bool :=
  match ops.version tree with
  | none => (tree, .error (.callback .panic))
  | some current =>
    if version ≤ current then (tree, .ok true)
    else
      match (ops.applyChangeSet cs tree).bind ops.saveVersion with
      | none => (tree, .error (.callback .panic))
      | some (none, tree) => (tree, .error (.callback .overflow))
      | some (some saved, tree) =>
        if (saved : ℤ) ≠ version then (tree, .error (.callback (.versionMismatch saved version)))
        else (tree, .ok (targetVersion = 0 ∨ (saved : ℤ) < targetVersion))

/-- The files one after the other, up to the target version if it is positive. -/
def replayFiles (targetVersion : ℤ) : List FileWithVersion → T → Except VerifyError T
  | [], tree => .ok tree
  | file :: files, tree =>
    if 0 < targetVersion ∧ targetVersion < file.version then .ok tree
    else
      let result := iterateChangeSets (replayRecord ops targetVersion) file.file tree
      match result.err, ops.version result.state with
      | some e, _ => .error (.replay e)
      | none, none => .error .panic
      | none, some version =>
        if 0 < targetVersion ∧ targetVersion ≤ version then .ok result.state
        else replayFiles targetVersion files result.state

/-- The version and the hash, in 32 bytes. -/
def lastCommitID (tree : T) : Option (CommitID × T) := do
  let (root, tree) ← ops.rootHash tree
  let version ← ops.version tree
  return (⟨version, root.take 32 ++ List.replicate (32 - root.length) 0⟩, tree)

/-- The commit of the store after the replay, and the tree. Without files, or if they all start
after the target version, there is none. -/
def verifyOneStore (sortSlice : SortSlice) (files : List Bytes) (targetVersion : ℤ) (tree : T) :
    Except VerifyError (Option CommitID × T) :=
  match sortFilesByFirstVerson sortSlice files with
  | .error e => .error (.firstVersion e)
  | .ok [] => .ok (none, tree)
  | .ok (first :: rest) =>
    if 0 < targetVersion ∧ targetVersion < first.version then .ok (none, tree)
    else if int64 first.version < 0 then .error (.negativeInitialVersion (int64 first.version))
    else
      match replayFiles ops targetVersion (first :: rest) (ops.setInitialVersion first.version tree) with
      | .error e => .error e
      | .ok tree =>
        match lastCommitID ops tree with
        | none => .error .panic
        | some (id, tree) => .ok (some id, tree)

end

/-! ### Related trees -/

/-- The operations keep trees related and return the same. -/
structure OpsRelated {T' : Type} (ops : TreeOps T) (ops' : TreeOps T') (R : T → T' → Prop) : Prop where
  version : ∀ {t t'}, R t t' → ops.version t = ops'.version t'
  setInitialVersion : ∀ {t t'} initialVersion, initialVersion ≤ maxInt64 → R t t' →
    R (ops.setInitialVersion initialVersion t) (ops'.setInitialVersion initialVersion t')
  applyChangeSet : ∀ {t t'} cs, R t t' → Option.Rel R (ops.applyChangeSet cs t) (ops'.applyChangeSet cs t')
  saveVersion : ∀ {t t'}, R t t' →
    Option.Rel (fun r r' => r.1 = r'.1 ∧ R r.2 r'.2) (ops.saveVersion t) (ops'.saveVersion t')
  rootHash : ∀ {t t'}, R t t' →
    Option.Rel (fun r r' => r.1 = r'.1 ∧ R r.2 r'.2) (ops.rootHash t) (ops'.rootHash t')

/-- Both fail alike, or succeed with related results. -/
inductive ExceptRel {E A B : Type} (P : A → B → Prop) : Except E A → Except E B → Prop where
  | ok {a : A} {b : B} (h : P a b) : ExceptRel P (.ok a) (.ok b)
  | error (e : E) : ExceptRel P (.error e) (.error e)

theorem ExceptRel.of_ok {E A B : Type} {P : A → B → Prop} {x : Except E A} {b : B} (h : ExceptRel P x (.ok b)) :
    ∃ a, x = .ok a ∧ P a b := by
  cases h with
  | ok h => exact ⟨_, rfl, h⟩

theorem ExceptRel.of_error {E A B : Type} {P : A → B → Prop} {x : Except E A} {e : E} (h : ExceptRel P x (.error e)) :
    x = .error e := by
  cases h
  rfl

section
variable {S S' E T' : Type} {R : S → S' → Prop} {Q : T → T' → Prop} {ops : TreeOps T} {ops' : TreeOps T'}

theorem iterate_related {fn : ℤ → ChangeSet → S → S × Except (IterateError E) Bool}
    {fn' : ℤ → ChangeSet → S' → S' × Except (IterateError E) Bool}
    (hfn : ∀ v cs s s', R s s' → R (fn v cs s).1 (fn' v cs s').1 ∧ (fn v cs s).2 = (fn' v cs s').2) {s : S} {s' : S'}
    (h : R s s') (parseChangeset : Bool) (rounds : ℕ) (bs : Bytes) (offset : ℤ) :
    R (iterate parseChangeset fn rounds bs offset s).state (iterate parseChangeset fn' rounds bs offset s').state ∧
      (iterate parseChangeset fn rounds bs offset s).err = (iterate parseChangeset fn' rounds bs offset s').err := by
  induction rounds generalizing bs offset s s' with
  | zero => exact ⟨h, rfl⟩
  | succ rounds ih =>
    rcases hread : readChangeSet parseChangeset bs with e | ⟨⟨version, n, cs⟩, rest⟩
    · simp only [iterate, hread]
      exact ⟨h, trivial⟩
    · obtain ⟨hstate, hres⟩ := hfn version cs s s' h
      rcases hs : fn version cs s with ⟨s₁, e | cont⟩ <;> rcases hs' : fn' version cs s' with ⟨s₁', r'⟩ <;>
        rw [hs, hs'] at hstate hres <;> dsimp only at hstate hres <;> subst hres <;>
        simp only [iterate, hread, hs, hs']
      · exact ⟨hstate, trivial⟩
      · cases cont with
        | true => exact ih hstate rest _
        | false => exact ⟨hstate, rfl⟩

theorem OpsRelated.replayRecord (h : OpsRelated ops ops' Q) (targetVersion version : ℤ) (cs : ChangeSet) (t : T) (t' : T')
    (ht : Q t t') :
    Q (replayRecord ops targetVersion version cs t).1 (replayRecord ops' targetVersion version cs t').1 ∧
      (replayRecord ops targetVersion version cs t).2 = (replayRecord ops' targetVersion version cs t').2 := by
  have hsaved : Option.Rel (fun r r' => r.1 = r'.1 ∧ Q r.2 r'.2) ((ops.applyChangeSet cs t).bind ops.saveVersion)
      ((ops'.applyChangeSet cs t').bind ops'.saveVersion) := by
    have happly := h.applyChangeSet cs ht
    rcases ha : ops.applyChangeSet cs t with _ | u <;> rcases ha' : ops'.applyChangeSet cs t' with _ | u' <;>
      rw [ha, ha'] at happly <;> cases happly
    · exact .none
    · exact h.saveVersion ‹_›
  unfold Changeset.replayRecord
  rw [h.version ht]
  rcases ops'.version t' with _ | current
  · exact ⟨ht, rfl⟩
  · dsimp only
    split_ifs with hskip
    · exact ⟨ht, rfl⟩
    · generalize (ops.applyChangeSet cs t).bind ops.saveVersion = r at hsaved ⊢
      generalize (ops'.applyChangeSet cs t').bind ops'.saveVersion = r' at hsaved ⊢
      cases hsaved with
      | none => exact ⟨ht, rfl⟩
      | @some r r' hr =>
        obtain ⟨saved, u⟩ := r
        obtain ⟨saved', u'⟩ := r'
        obtain ⟨rfl, hu⟩ := hr
        rcases saved with _ | saved
        · exact ⟨hu, rfl⟩
        · dsimp only
          split_ifs
          · exact ⟨hu, rfl⟩
          · exact ⟨hu, rfl⟩

theorem OpsRelated.replayFiles (h : OpsRelated ops ops' Q) (targetVersion : ℤ) (files : List FileWithVersion) {t : T}
    {t' : T'} (ht : Q t t') :
    ExceptRel Q (replayFiles ops targetVersion files t) (replayFiles ops' targetVersion files t') := by
  induction files generalizing t t' with
  | nil => exact .ok ht
  | cons file files ih =>
    unfold Changeset.replayFiles
    split_ifs
    · exact .ok ht
    · obtain ⟨hstate, herr⟩ := iterate_related (h.replayRecord targetVersion) ht true file.file.length file.file 0
      dsimp only [iterateChangeSets]
      rw [herr, h.version hstate]
      generalize (iterate true (Changeset.replayRecord ops' targetVersion) file.file.length file.file 0 t').err = e
      generalize ops'.version (iterate true (Changeset.replayRecord ops' targetVersion) file.file.length file.file 0 t').state = v
      rcases e with _ | e
      · rcases v with _ | v
        · exact .error _
        · dsimp only
          split_ifs
          · exact .ok hstate
          · exact ih hstate
      · exact .error _

theorem OpsRelated.lastCommitID (h : OpsRelated ops ops' Q) {t : T} {t' : T'} (ht : Q t t') :
    Option.Rel (fun r r' => r.1 = r'.1 ∧ Q r.2 r'.2) (lastCommitID ops t) (lastCommitID ops' t') := by
  have hroot := h.rootHash ht
  unfold Changeset.lastCommitID
  generalize ops.rootHash t = r at hroot ⊢
  generalize ops'.rootHash t' = r' at hroot ⊢
  cases hroot with
  | none => exact .none
  | @some r r' hr =>
    obtain ⟨root, u⟩ := r
    obtain ⟨root', u'⟩ := r'
    obtain ⟨rfl, hu⟩ := hr
    simp only [Option.bind_eq_bind, Option.bind_some, h.version hu]
    rcases ops'.version u' with _ | version
    · exact .none
    · exact .some ⟨rfl, hu⟩

theorem OpsRelated.verifyOneStore (h : OpsRelated ops ops' Q) {sortSlice : SortSlice} {files : List Bytes}
    {sorted : List FileWithVersion} (hsorted : sortFilesByFirstVerson sortSlice files = .ok sorted)
    (hle : ∀ f ∈ sorted, f.version ≤ maxInt64) (targetVersion : ℤ) {t : T} {t' : T'} (ht : Q t t') :
    ExceptRel (fun r r' => r.1 = r'.1 ∧ Q r.2 r'.2) (verifyOneStore ops sortSlice files targetVersion t)
      (verifyOneStore ops' sortSlice files targetVersion t') := by
  unfold Changeset.verifyOneStore
  rw [hsorted]
  rcases sorted with _ | ⟨first, rest⟩
  · exact .ok ⟨rfl, ht⟩
  · dsimp only
    split_ifs
    · exact .ok ⟨rfl, ht⟩
    · exact .error _
    · have hreplay := h.replayFiles targetVersion (first :: rest)
        (h.setInitialVersion first.version (hle first List.mem_cons_self) ht)
      generalize Changeset.replayFiles ops targetVersion (first :: rest) _ = r at hreplay ⊢
      generalize Changeset.replayFiles ops' targetVersion (first :: rest) _ = r' at hreplay ⊢
      cases hreplay with
      | error e => exact .error e
      | @ok u u' hu =>
        have hid := h.lastCommitID hu
        dsimp only
        generalize Changeset.lastCommitID ops u = i at hid ⊢
        generalize Changeset.lastCommitID ops' u' = i' at hid ⊢
        cases hid with
        | none => exact .error _
        | @some i i' hi => exact .ok ⟨congrArg some hi.1, hi.2⟩

end

/-- The tree over the heap does what the tree as a value does. -/
theorem heapTree_related {C : Type} (K : Cache C) (sha256 : Bytes → Bytes) :
    OpsRelated (heapTree K sha256) (valueTree sha256) (Simulates K sha256) where
  version := by
    rintro s t ⟨L, h⟩
    simp only [heapTree, valueTree, h.version]
  setInitialVersion := by
    rintro s t initialVersion hle ⟨L, h⟩
    refine ⟨L, ?_⟩
    simp only [heapTree, valueTree, setInitialVersionTree, h.version]
    split_ifs with hv
    · exact h
    · refine ⟨rfl, h.rep, h.nodup, fun n hn => (h.inv n hn).mono ?_, h.cache⟩
      have hnext : next (initialVersion - 1) = initialVersion - 1 + 1 := next_eq (by omega)
      rw [show t.version = 0 by omega, next_eq (Nat.zero_le _)]
      dsimp only
      omega
  applyChangeSet := by
    rintro s t cs ⟨L, h⟩
    obtain ⟨ht', m', L', happly, h', -⟩ := h.applyChangeSet cs
    simp only [heapTree, valueTree, happly]
    exact .some ⟨L', h'⟩
  saveVersion := by
    rintro s t ⟨L, h⟩
    obtain ⟨ht', m', result, hsave, hvalue, h', -⟩ := h.saveVersion false
    simp only [heapTree, valueTree, hsave, Option.map_some]
    rcases hs : t.saveVersion with _ | t' <;> simp only [valueStep, hs, Prod.mk.injEq, Output.saved.injEq, true_and] at hvalue h' <;>
      subst hvalue
    · exact .some ⟨rfl, L, h'⟩
    · exact .some ⟨rfl, L, h'⟩
  rootHash := by
    rintro s t ⟨L, h⟩
    obtain ⟨m', hroot, hm⟩ := h.rootHash
    simp only [heapTree, valueTree, hroot, Option.map_some]
    exact .some ⟨rfl, L, h.rehashed hm⟩

end IavlStore.Changeset
