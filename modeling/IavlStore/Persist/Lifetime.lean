import IavlStore.Base.Runs
import IavlStore.Persist.Export

/-! The life of an opened snapshot. The trees derived from it by copying read its mapped files through one
shared object, which counts them. Closing a tree drops its reference; the last one closes the files and empties
the shared object under whoever would still read it. The count is a signed number of 32 bits. -/

namespace IavlStore.Persist

open IavlStore.Base.Encoding IavlStore.Base.Runs

/-- A number wrapped to a signed one of 32 bits. -/
def int32 (x : ℤ) : ℤ := Int.bmod x (2 ^ 32)

/-- The object that derived trees share, with how often its files were closed. -/
structure SharedSnapshot where
  refCount : ℤ
  mapped : Bool
  closes : ℕ
  data : Snapshot

def newEmptySnapshot (version : ℕ) : Snapshot := ⟨[], [], [], version, none⟩

namespace SharedSnapshot

def opened (data : Snapshot) : SharedSnapshot := ⟨1, true, 0, data⟩

def retain (s : SharedSnapshot) : SharedSnapshot := { s with refCount := int32 (s.refCount + 1) }

/-- Without the files the object is that of an empty snapshot. -/
def close (s : SharedSnapshot) : SharedSnapshot :=
  if 0 < int32 (s.refCount - 1) then { s with refCount := int32 (s.refCount - 1) }
  else ⟨0, false, if s.mapped then s.closes + 1 else s.closes, newEmptySnapshot s.data.version⟩

end SharedSnapshot

/-- A derived tree, which holds the shared object until it is closed. -/
structure DerivedTree where
  version : ℕ
  root : Option PersistedNode
  snapshot : Bool

/-- The trees in the order they were made, closed ones included. -/
structure Family where
  snapshot : SharedSnapshot
  trees : List DerivedTree

inductive FamilyEvent where
  | copy (i : ℕ)
  | close (i : ℕ)
  deriving DecidableEq

namespace Family

/-- The family of the tree made from an opened snapshot. -/
def newFromSnapshot (data : Snapshot) : Family := ⟨.opened data, [⟨data.version, data.root, true⟩]⟩

def copy (s : Family) (t : DerivedTree) : Family :=
  ⟨if t.snapshot then s.snapshot.retain else s.snapshot, s.trees ++ [t]⟩

def close (s : Family) (i : ℕ) (t : DerivedTree) : Family :=
  ⟨if t.snapshot then s.snapshot.close else s.snapshot, s.trees.set i ⟨t.version, none, false⟩⟩

def step (s : Family) : FamilyEvent → Option (Family × Unit)
  | .copy i => s.trees[i]?.map fun t => (s.copy t, ())
  | .close i => s.trees[i]?.map fun t => (s.close i t, ())

/-- How many trees hold the shared object. -/
def holders (s : Family) : ℕ := s.trees.countP (·.snapshot)

/-- A tree as it reads through the shared object. -/
def contents (s : Family) (i : ℕ) : Option SnapshotTree :=
  s.trees[i]?.map fun t =>
    ⟨t.version, t.root.map (.persisted s.snapshot.data), if t.snapshot then some s.snapshot.data else none⟩

end Family

/-! ### The count -/

theorem int32_of_lt {n : ℕ} (h : n < 2 ^ 31) : int32 n = n := by
  unfold int32
  rw [Int.bmod_eq_of_le] <;> omega

/-- The count is that of the holders, whoever holds the object finds the files in it, and they have been
closed once where nobody holds it. -/
structure FamilyInv (data : Snapshot) (s : Family) : Prop where
  refCount : s.snapshot.refCount = s.holders
  held : 0 < s.holders → s.snapshot.mapped = true ∧ s.snapshot.closes = 0 ∧ s.snapshot.data = data
  left : s.holders = 0 → s.snapshot.closes = 1
  root : ∀ t ∈ s.trees, t.snapshot = false → t.root = none

variable {data : Snapshot} {s s' : Family} {t : DerivedTree} {i : ℕ}

theorem Family.holders_copy (s : Family) (t : DerivedTree) :
    (s.copy t).holders = s.holders + t.snapshot.toNat := by
  cases h : t.snapshot <;> simp [holders, copy, h]

theorem Family.holders_close (ht : s.trees[i]? = some t) :
    (s.close i t).holders + t.snapshot.toNat = s.holders := by
  obtain ⟨hi, rfl⟩ := List.getElem?_eq_some_iff.mp ht
  have hsplit : s.trees.take i ++ s.trees[i] :: s.trees.drop (i + 1) = s.trees := by simp
  have hcount := congrArg (List.countP (·.snapshot)) hsplit
  simp only [List.countP_append, List.countP_cons] at hcount
  simp only [holders, close, List.set_eq_take_append_cons_drop, hi, ↓reduceIte, List.countP_append,
    List.countP_cons]
  cases h : s.trees[i].snapshot <;> simp only [h] at hcount <;> simp at hcount ⊢ <;> omega

theorem FamilyInv.newFromSnapshot (data : Snapshot) : FamilyInv data (.newFromSnapshot data) where
  refCount := rfl
  held _ := ⟨rfl, rfl, rfl⟩
  left h := by cases h
  root t ht hs := by
    obtain rfl := List.mem_singleton.mp ht
    cases hs

theorem FamilyInv.copy (h : FamilyInv data s) (ht : t ∈ s.trees) (hlt : (s.copy t).holders < 2 ^ 31) :
    FamilyInv data (s.copy t) := by
  have hholders := s.holders_copy t
  have hroot : ∀ t' ∈ s.trees ++ [t], t'.snapshot = false → t'.root = none := by
    intro t' ht'
    rcases List.mem_append.mp ht' with ht' | ht'
    · exact h.root t' ht'
    · exact List.mem_singleton.mp ht' ▸ h.root t ht
  cases hs : t.snapshot with
  | false =>
    rw [hs, Bool.toNat_false, add_zero] at hholders
    have hsnap : (s.copy t).snapshot = s.snapshot := by simp [Family.copy, hs]
    exact ⟨by rw [hsnap, hholders]; exact h.refCount, by rw [hsnap, hholders]; exact h.held,
      by rw [hsnap, hholders]; exact h.left, hroot⟩
  | true =>
    rw [hs, Bool.toNat_true] at hholders
    have hpos : 0 < s.holders := List.countP_pos_iff.mpr ⟨t, ht, hs⟩
    have hsnap : (s.copy t).snapshot = s.snapshot.retain := by simp [Family.copy, hs]
    refine ⟨?_, fun _ => ?_, fun h0 => by omega, hroot⟩
    · have hcount : int32 (s.holders + 1 : ℕ) = (s.holders + 1 : ℕ) := int32_of_lt (by omega)
      rw [hsnap, hholders, ← hcount, Nat.cast_add_one, ← h.refCount]
      rfl
    · rw [hsnap]
      exact h.held hpos

/-- The last holder closes the files. -/
theorem FamilyInv.close (h : FamilyInv data s) (ht : s.trees[i]? = some t) (hlt : s.holders < 2 ^ 31) :
    FamilyInv data (s.close i t) := by
  have hholders := Family.holders_close ht
  have hroot : ∀ t' ∈ s.trees.set i ⟨t.version, none, false⟩, t'.snapshot = false → t'.root = none := by
    intro t' ht'
    rcases List.mem_or_eq_of_mem_set ht' with ht' | rfl
    · exact h.root t' ht'
    · exact fun _ => rfl
  cases hs : t.snapshot with
  | false =>
    rw [hs, Bool.toNat_false, add_zero] at hholders
    have hsnap : (s.close i t).snapshot = s.snapshot := by simp [Family.close, hs]
    exact ⟨by rw [hsnap, hholders]; exact h.refCount, by rw [hsnap, hholders]; exact h.held,
      by rw [hsnap, hholders]; exact h.left, hroot⟩
  | true =>
    rw [hs, Bool.toNat_true] at hholders
    obtain ⟨hmapped, hcloses, hdata⟩ := h.held (by omega)
    have hcount : int32 (s.snapshot.refCount - 1) = (s.close i t).holders := by
      rw [h.refCount, ← hholders]
      push_cast
      rw [add_sub_cancel_right]
      exact int32_of_lt (by omega)
    have hsnap : (s.close i t).snapshot = s.snapshot.close := by simp [Family.close, hs]
    unfold SharedSnapshot.close at hsnap
    rw [hcount] at hsnap
    split_ifs at hsnap with hpos
    · exact ⟨by rw [hsnap], fun _ => by rw [hsnap]; exact ⟨hmapped, hcloses, hdata⟩, fun h0 => by omega, hroot⟩
    · refine ⟨?_, fun hpos' => by omega, fun _ => by rw [hsnap, hcloses], hroot⟩
      rw [hsnap]
      dsimp only
      omega

theorem FamilyInv.step {e : FamilyEvent} (h : FamilyInv data s) (hlt : s.holders < 2 ^ 31)
    (hlt' : s'.holders < 2 ^ 31) (hs : s.step e = some (s', ())) : FamilyInv data s' := by
  cases e with
  | copy i =>
    obtain ⟨t, ht, heq⟩ := Option.map_eq_some_iff.mp hs
    cases heq
    exact h.copy (List.mem_of_getElem? ht) hlt'
  | close i =>
    obtain ⟨t, ht, heq⟩ := Option.map_eq_some_iff.mp hs
    cases heq
    exact h.close ht hlt

/-! ### What the trees read -/

theorem Family.length_le_step {e : FamilyEvent} (hs : s.step e = some (s', ())) :
    s.trees.length ≤ s'.trees.length := by
  cases e with
  | copy i =>
    obtain ⟨t, -, heq⟩ := Option.map_eq_some_iff.mp hs
    cases heq
    simp [copy]
  | close i =>
    obtain ⟨t, -, heq⟩ := Option.map_eq_some_iff.mp hs
    cases heq
    simp [close]

/-- A tree reads the same before and after a step that does not close it. -/
theorem FamilyInv.contents_eq {e : FamilyEvent} (h : FamilyInv data s) (h' : FamilyInv data s')
    (hs : s.step e = some (s', ())) (hi : i < s.trees.length) (hne : e ≠ .close i) :
    s'.contents i = s.contents i := by
  have htrees : s'.trees[i]? = s.trees[i]? := by
    cases e with
    | copy j =>
      obtain ⟨t, -, heq⟩ := Option.map_eq_some_iff.mp hs
      cases heq
      exact List.getElem?_append_left hi
    | close j =>
      obtain ⟨t, -, heq⟩ := Option.map_eq_some_iff.mp hs
      cases heq
      exact List.getElem?_set_ne fun hj => hne (by rw [hj])
  have hget : s.trees[i]? = some s.trees[i] := List.getElem?_eq_getElem hi
  simp only [Family.contents, htrees, hget, Option.map_some]
  cases ht : s.trees[i].snapshot with
  | false => simp [h.root _ (List.getElem_mem hi) ht]
  | true =>
    have hmem : s.trees[i] ∈ s'.trees := List.mem_of_getElem? (htrees.trans hget)
    rw [(h.held (List.countP_pos_iff.mpr ⟨_, List.getElem_mem hi, ht⟩)).2.2,
      (h'.held (List.countP_pos_iff.mpr ⟨_, hmem, ht⟩)).2.2]

/-- A run with few enough holders keeps the invariant, and what the trees read that it does not close. -/
theorem FamilyInv.exec {es : List FamilyEvent} {os : List Unit} (h : FamilyInv data s)
    (hlt : s.holders < 2 ^ 31)
    (ha : Along Family.step (fun s e => ∀ r ∈ s.step e, r.1.holders < 2 ^ 31) s es)
    (he : exec Family.step s es = some (s', os)) :
    FamilyInv data s' ∧ s'.holders < 2 ^ 31 ∧ s.trees.length ≤ s'.trees.length ∧
      ∀ i < s.trees.length, .close i ∉ es → s'.contents i = s.contents i := by
  induction es generalizing s os with
  | nil =>
    cases he
    exact ⟨h, hlt, le_rfl, fun _ _ _ => rfl⟩
  | cons e es ih =>
    obtain ⟨s₁, _, os', hs, hes, rfl⟩ := exec_cons he
    have hlt₁ : s₁.holders < 2 ^ 31 := ha.1 _ hs
    have h₁ := h.step hlt hlt₁ hs
    obtain ⟨h', hlt', hlen', hcontents⟩ := ih h₁ hlt₁ (ha.2 _ hs) hes
    have hlen := Family.length_le_step hs
    refine ⟨h', hlt', hlen.trans hlen', fun i hi hne => ?_⟩
    rw [List.mem_cons, not_or] at hne
    rw [hcontents i (by omega) hne.2, h.contents_eq h₁ hs hi (Ne.symm hne.1)]

/-- Through every run of copies and closes in which fewer than 2³¹ trees hold the snapshot at any time: the
count is that of the holders, the files are closed once when the last one has gone and not before, and a tree
reads at the end what it read at any earlier time after which it was not closed. -/
theorem snapshot_lifetime {data : Snapshot} {es es' : List FamilyEvent} {s s' : Family} {os os' : List Unit}
    (hfew : Along Family.step (fun s e => ∀ r ∈ s.step e, r.1.holders < 2 ^ 31) (.newFromSnapshot data)
      (es ++ es'))
    (he : exec Family.step (.newFromSnapshot data) es = some (s, os))
    (he' : exec Family.step s es' = some (s', os')) :
    s'.snapshot.refCount = s'.holders ∧ s'.snapshot.closes = (if s'.holders = 0 then 1 else 0) ∧
      ∀ i < s.trees.length, .close i ∉ es' → s'.contents i = s.contents i := by
  obtain ⟨ha, ha'⟩ := hfew.append he
  obtain ⟨h, hlt, -, -⟩ := (FamilyInv.newFromSnapshot data).exec (show 1 < 2 ^ 31 by decide) ha he
  obtain ⟨h', -, -, hcontents⟩ := h.exec hlt ha' he'
  refine ⟨h'.refCount, ?_, hcontents⟩
  split_ifs with h0
  · exact h'.left h0
  · exact (h'.held (Nat.pos_of_ne_zero h0)).2.1

/-- The opened tree is closed under its copy, again after it, and the copy is closed last. -/
theorem snapshot_lifetime_closed_twice :
    let data : Snapshot := ⟨[], List.replicate sizeLeaf 0, [], 1, some ⟨true, 0⟩⟩
    ∃ s s' os os', exec Family.step (.newFromSnapshot data) [.copy 0, .close 0] = some (s, os) ∧
      exec Family.step s [.close 0, .copy 0, .close 1] = some (s', os') ∧
      s'.snapshot.refCount = s'.holders ∧ s'.snapshot.closes = (if s'.holders = 0 then 1 else 0) ∧
      ∀ i < s.trees.length, .close i ∉ [FamilyEvent.close 0, .copy 0, .close 1] →
        s'.contents i = s.contents i := by
  intro data
  have hfew : Along Family.step (fun s e => ∀ r ∈ s.step e, r.1.holders < 2 ^ 31) (.newFromSnapshot data)
      ([.copy 0, .close 0] ++ [.close 0, .copy 0, .close 1]) := by
    decide +kernel
  exact ⟨_, _, _, _, rfl, rfl, snapshot_lifetime hfew rfl rfl⟩

/-! ### Too many copies -/

/-- The family after a number of copies. -/
def copies (data : Snapshot) (n : ℕ) : Family :=
  ⟨⟨int32 (n + 1), true, 0, data⟩, List.replicate (n + 1) ⟨data.version, data.root, true⟩⟩

theorem step_copies (data : Snapshot) (n : ℕ) :
    (copies data n).step (.copy 0) = some (copies data (n + 1), ()) := by
  have hcount : int32 (int32 (n + 1) + 1) = int32 ((n + 1 : ℕ) + 1) := by
    rw [int32, int32, Int.bmod_add_bmod, Nat.cast_add_one]
    rfl
  simp only [Family.step, copies, List.getElem?_replicate_of_lt (Nat.succ_pos n), Option.map_some, Family.copy,
    SharedSnapshot.retain, ↓reduceIte, hcount, List.replicate_succ' (n := n + 1)]

theorem exec_copies (data : Snapshot) (m n : ℕ) :
    exec Family.step (copies data m) (List.replicate n (.copy 0)) =
      some (copies data (m + n), List.replicate n ()) := by
  induction n generalizing m with
  | zero => rfl
  | succ n ih =>
    rw [List.replicate_succ]
    simp only [exec, step_copies, Option.bind_eq_bind, Option.bind_some, ih]
    rw [add_right_comm, add_assoc, List.replicate_succ]

theorem step_close_copies (data : Snapshot) {n : ℕ} (h : int32 (int32 (n + 1) - 1) ≤ 0) :
    ∃ s, (copies data n).step (.close 0) = some (s, ()) ∧ s.holders = n ∧ s.snapshot.refCount = 0 ∧
      s.snapshot.closes = 1 := by
  have hclose : (SharedSnapshot.mk (int32 (n + 1)) true 0 data).close =
      ⟨0, false, 1, newEmptySnapshot data.version⟩ := by
    simp only [SharedSnapshot.close, if_neg (Int.not_lt.mpr h), ↓reduceIte, zero_add]
  refine ⟨⟨⟨0, false, 1, newEmptySnapshot data.version⟩,
    ⟨data.version, none, false⟩ :: List.replicate n ⟨data.version, data.root, true⟩⟩, ?_, ?_, rfl, rfl⟩
  · simp only [Family.step, copies, List.replicate_succ, List.getElem?_cons_zero, Option.map_some, Family.close,
      ↓reduceIte, hclose, List.set_cons_zero]
  · simp [Family.holders, List.countP_replicate]

/-- The count of 2³¹ + 1 trees is negative: the first one to be closed closes the files of the others. -/
theorem files_closed_under_holders :
    ∃ s os, exec Family.step (.newFromSnapshot ⟨[], List.replicate sizeLeaf 0, [], 1, some ⟨true, 0⟩⟩)
        (List.replicate (2 ^ 31) (.copy 0) ++ [.close 0]) = some (s, os) ∧
      s.holders = 2 ^ 31 ∧ s.snapshot.refCount = 0 ∧ s.snapshot.closes = 1 := by
  obtain ⟨s, hs, hholders⟩ := step_close_copies ⟨[], List.replicate sizeLeaf 0, [], 1, some ⟨true, 0⟩⟩
    (n := 2 ^ 31) (by decide)
  have hrun := exec_copies ⟨[], List.replicate sizeLeaf 0, [], 1, some ⟨true, 0⟩⟩ 0 (2 ^ 31)
  rw [Nat.zero_add] at hrun
  exact ⟨s, _, exec_append hrun (by rw [exec, hs]; rfl), hholders⟩

end IavlStore.Persist
