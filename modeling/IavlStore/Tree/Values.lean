import IavlStore.Tree.Hash

/-! The tree as a value: a version and an optional root, changed by setting and
removing keys and by saving a version. Nodes are written with the version after
the saved one. The leaves of the tree are the finite map it stands for, and every
operation acts on that map as its name says. -/

namespace IavlStore

open IavlStore.Base.Encoding IavlStore.Base.SortedPairs IavlStore.Tree

/-- The largest version a tree can be saved at. -/
def maxInt64 : ℕ := 2 ^ 63 - 1

/-- The version after `version`, in 64-bit arithmetic. -/
def next (version : ℕ) : ℕ := (version + 1) % 2 ^ 64

theorem next_eq {version : ℕ} (h : version ≤ maxInt64) : next version = version + 1 :=
  Nat.mod_eq_of_lt (by unfold maxInt64 at h; omega)

/-- One change of a change set. A value is `none` where the source has nil. -/
structure KVPair where
  delete : Bool
  key : Bytes
  value : Option Bytes
  deriving DecidableEq

abbrev ChangeSet := List KVPair

structure Tree where
  version : ℕ
  root : Option (Node Bytes Bytes)
  deriving DecidableEq

namespace Tree

/-- Everything a subtree written no later than version `n` keeps. -/
structure Node.Inv (n : ℕ) (t : Node Bytes Bytes) : Prop where
  balanced : t.Balanced
  ordered : t.Ordered
  stamped : t.Stamped
  version_le : t.version ≤ n

theorem Node.Inv.mono {n n' : ℕ} {t : Node Bytes Bytes} (h : t.Inv n) (hn : n ≤ n') : t.Inv n' :=
  ⟨h.balanced, h.ordered, h.stamped, h.version_le.trans hn⟩

theorem Node.Inv.left {n h s v : ℕ} {k : Bytes} {l r : Node Bytes Bytes}
    (hi : (Node.branch h s v k l r).Inv n) : l.Inv n := by
  obtain ⟨⟨_, _, _, _, hbl, _⟩, ⟨_, _, hol, _⟩, ⟨hv, _, hsl, _⟩, hn⟩ := hi
  exact ⟨hbl, hol, hsl, hv.trans hn⟩

theorem Node.Inv.right {n h s v : ℕ} {k : Bytes} {l r : Node Bytes Bytes}
    (hi : (Node.branch h s v k l r).Inv n) : r.Inv n := by
  obtain ⟨⟨_, _, _, _, _, hbr⟩, ⟨_, _, _, hor⟩, ⟨_, hv, _, hsr⟩, hn⟩ := hi
  exact ⟨hbr, hor, hsr, hv.trans hn⟩

theorem Node.Inv.set {n : ℕ} {t : Node Bytes Bytes} (h : t.Inv n) (key value : Bytes) :
    (t.setRecursive key value n).1.Inv n := by
  have ho := t.setRecursive_order key value n h.ordered h.stamped h.version_le
  exact ⟨(t.setRecursive_shape key value n h.balanced).balanced, ho.ordered, ho.stamped,
    ho.version.le⟩

theorem Node.Inv.remove {n : ℕ} {t : Node Bytes Bytes} (h : t.Inv n) (key : Bytes) :
    ∀ t' ∈ (t.removeRecursive key n).node, t'.Inv n := by
  have ho := t.removeRecursive_order key n h.ordered h.stamped h.version_le
  exact fun t' ht' => ⟨(t.removeRecursive_shape key n h.balanced).balanced t' ht',
    ho.ordered t' ht', ho.stamped t' ht', ho.version t' ht'⟩

/-! ### Operations -/

/-- An empty tree at an arbitrary version. -/
def newEmptyTree (version : ℕ) : Tree := ⟨version, none⟩

def set (t : Tree) (key : Bytes) (value : Option Bytes) : Tree :=
  { t with root := match t.root with
      | none => some (.leaf (next t.version) key (value.getD []))
      | some n => some (n.setRecursive key (value.getD []) (next t.version)).1 }

def remove (t : Tree) (key : Bytes) : Tree :=
  { t with root := t.root.bind fun n => (n.removeRecursive key (next t.version)).node }

def applyPair (t : Tree) (p : KVPair) : Tree :=
  if p.delete then t.remove p.key else t.set p.key p.value

def applyChangeSet (t : Tree) (changeSet : ChangeSet) : Tree := changeSet.foldl applyPair t

/-- The next version, unless it overflows a signed number. -/
def saveVersion (t : Tree) : Option Tree :=
  if maxInt64 < next t.version then none else some { t with version := next t.version }

def rootHash (sha256 : Bytes → Bytes) (t : Tree) : Bytes :=
  match t.root with
  | none => emptyHash sha256
  | some n => n.hashNode sha256

/-- The pairs of the tree in key order. -/
def pairs (t : Tree) : List (Bytes × Bytes) :=
  match t.root with
  | none => []
  | some n => n.toList

/-- The root, if any, is well formed and written no later than the next version. -/
def Inv (t : Tree) : Prop := ∀ n ∈ t.root, n.Inv (next t.version)

/-! ### The operations keep the invariant and act on the pairs -/

@[simp] theorem version_set (t : Tree) (key : Bytes) (value : Option Bytes) :
    (t.set key value).version = t.version := rfl

@[simp] theorem version_remove (t : Tree) (key : Bytes) : (t.remove key).version = t.version := rfl

@[simp] theorem version_applyPair (t : Tree) (p : KVPair) : (t.applyPair p).version = t.version := by
  unfold applyPair
  split_ifs <;> rfl

@[simp] theorem version_applyChangeSet (t : Tree) (cs : ChangeSet) :
    (t.applyChangeSet cs).version = t.version := by
  induction cs generalizing t with
  | nil => rfl
  | cons p cs ih => exact (ih _).trans (t.version_applyPair p)

theorem applyChangeSet_append (t : Tree) (cs cs' : ChangeSet) :
    t.applyChangeSet (cs ++ cs') = (t.applyChangeSet cs).applyChangeSet cs' :=
  List.foldl_append

theorem newEmptyTree_inv (version : ℕ) : (newEmptyTree version).Inv := by
  simp [newEmptyTree, Inv]

theorem Inv.set {t : Tree} (h : t.Inv) (key : Bytes) (value : Option Bytes) :
    (t.set key value).Inv := by
  rintro n hn
  rcases hr : t.root with _ | m
  · simp only [Tree.set, hr, Option.mem_def, Option.some.injEq] at hn
    subst hn
    exact ⟨trivial, trivial, trivial, le_rfl⟩
  · simp only [Tree.set, hr, Option.mem_def, Option.some.injEq] at hn
    subst hn
    exact (h m hr).set key _

theorem Inv.remove {t : Tree} (h : t.Inv) (key : Bytes) : (t.remove key).Inv := by
  rintro n hn
  obtain ⟨m, hm, hn⟩ := Option.bind_eq_some_iff.mp hn
  exact (h m hm).remove key n hn

theorem Inv.applyPair {t : Tree} (h : t.Inv) (p : KVPair) : (t.applyPair p).Inv := by
  unfold Tree.applyPair
  split_ifs
  · exact h.remove p.key
  · exact h.set p.key p.value

theorem Inv.applyChangeSet {t : Tree} (h : t.Inv) (cs : ChangeSet) : (t.applyChangeSet cs).Inv := by
  induction cs generalizing t with
  | nil => exact h
  | cons p cs ih => exact ih (h.applyPair p)

theorem saveVersion_eq_some {t t' : Tree} (h : t.saveVersion = some t') :
    next t.version ≤ maxInt64 ∧ t' = { t with version := next t.version } := by
  unfold saveVersion at h
  split_ifs at h with hv
  exact ⟨not_lt.mp hv, (Option.some.inj h).symm⟩

/-- A saved tree holds no node above its version. -/
theorem Inv.saveVersion {t t' : Tree} (h : t.Inv) (hs : t.saveVersion = some t') :
    t'.Inv ∧ ∀ n ∈ t'.root, n.Inv t'.version := by
  obtain ⟨hv, rfl⟩ := saveVersion_eq_some hs
  exact ⟨fun n hn => (h n hn).mono (by simp only [next_eq hv]; omega), h⟩

theorem Inv.sorted {t : Tree} (h : t.Inv) : Sorted t.pairs := by
  unfold pairs
  rcases hr : t.root with _ | n
  · simp [Sorted]
  · exact (h n hr).ordered.sorted

theorem pairs_set {t : Tree} (h : t.Inv) (key : Bytes) (value : Option Bytes) :
    (t.set key value).pairs = insertPair key (value.getD []) t.pairs := by
  unfold pairs Tree.set
  rcases hr : t.root with _ | n
  · rfl
  · have hi := h n hr
    exact (n.setRecursive_order key _ _ hi.ordered hi.stamped hi.version_le).toList

theorem pairs_remove {t : Tree} (h : t.Inv) (key : Bytes) :
    (t.remove key).pairs = erasePair key t.pairs := by
  unfold pairs Tree.remove
  rcases hr : t.root with _ | n
  · rfl
  · have hi := h n hr
    have ho := n.removeRecursive_order key _ hi.ordered hi.stamped hi.version_le
    rw [Option.bind_some]
    rcases hn : (n.removeRecursive key (next t.version)).node with _ | n'
    · exact (ho.gone hn).symm
    · exact ho.toList n' hn

/-- Removing an absent key changes nothing. -/
theorem remove_of_lookup_none {t : Tree} (h : t.Inv) {key : Bytes}
    (hk : lookupPair key t.pairs = none) : t.remove key = t := by
  rcases t with ⟨v, _ | n⟩
  · rfl
  · have hi := h n rfl
    have ho := n.removeRecursive_order key (next v) hi.ordered hi.stamped hi.version_le
    have hv : (n.removeRecursive key (next v)).value = none := ho.value.trans hk
    simp only [Tree.remove, Option.bind_some, Node.removeRecursive_of_value_none hv]

end Tree

end IavlStore
