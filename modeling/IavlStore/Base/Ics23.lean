import IavlStore.Base.Encoding

/-! Commitment proofs of a binary Merkle tree in the form light clients check them. An
existence proof hashes its key and value with a leaf operation and then climbs to the
root with one inner operation for each level, innermost first. The root is what the
operations evaluate to. Which child an inner operation comes from is told from the
lengths of its fixed parts, and two paths are neighbours when they part at one node, to
the left and to the right child, and keep to the inner border below. -/

namespace IavlStore.Base.Ics23

open IavlStore.Base.Encoding

inductive HashOp where
  | noHash
  | sha256
  deriving DecidableEq

inductive LengthOp where
  | noPrefix
  | varProto
  deriving DecidableEq

structure LeafOp where
  hash : HashOp
  prehashKey : HashOp
  prehashValue : HashOp
  length : LengthOp
  pre : Bytes
  deriving DecidableEq

structure InnerOp where
  hash : HashOp
  pre : Bytes
  suffix : Bytes
  deriving DecidableEq

structure ExistenceProof where
  key : Bytes
  value : Bytes
  leaf : LeafOp
  path : List InnerOp
  deriving DecidableEq

structure NonExistenceProof where
  key : Bytes
  left : Option ExistenceProof
  right : Option ExistenceProof
  deriving DecidableEq

section Evaluation
variable (sha256 : Bytes → Bytes)

def doHash : HashOp → Bytes → Bytes
  | .noHash, data => data
  | .sha256, data => sha256 data

def doLength : LengthOp → Bytes → Bytes
  | .noPrefix, data => data
  | .varProto, data => putUvarint data.length ++ data

def prepareLeafData (hashOp : HashOp) (lengthOp : LengthOp) (data : Bytes) : Bytes :=
  doLength lengthOp (doHash sha256 hashOp data)

def LeafOp.digest (op : LeafOp) (key value : Bytes) : Bytes :=
  doHash sha256 op.hash (op.pre ++ prepareLeafData sha256 op.prehashKey op.length key ++
    prepareLeafData sha256 op.prehashValue op.length value)

def InnerOp.digest (op : InnerOp) (child : Bytes) : Bytes :=
  doHash sha256 op.hash (op.pre ++ child ++ op.suffix)

/-- The digest; an empty key or value is refused. -/
def LeafOp.apply (op : LeafOp) (key value : Bytes) : Option Bytes :=
  if key = [] ∨ value = [] then none else some (op.digest sha256 key value)

/-- The digest; an empty child is refused. -/
def InnerOp.apply (op : InnerOp) (child : Bytes) : Option Bytes :=
  if child = [] then none else some (op.digest sha256 child)

/-- The root a proof leads to, without any refusal. -/
def ExistenceProof.evaluate (p : ExistenceProof) : Bytes :=
  p.path.foldl (fun child op => op.digest sha256 child) (p.leaf.digest sha256 p.key p.value)

/-- The root a proof leads to. -/
def ExistenceProof.calculate (p : ExistenceProof) : Option Bytes := do
  p.path.foldlM (fun child op => op.apply sha256 child) (← p.leaf.apply sha256 p.key p.value)

variable {sha256}

/-- Where digests are not empty, refusals come from the key and the value only. -/
theorem calculate_eq_evaluate {p : ExistenceProof}
    (hleaf : p.leaf.digest sha256 p.key p.value ≠ [])
    (hpath : ∀ op ∈ p.path, ∀ child, op.digest sha256 child ≠ []) (hk : p.key ≠ [])
    (hv : p.value ≠ []) : p.calculate sha256 = some (p.evaluate sha256) := by
  have hfold (path : List InnerOp) (hpath : ∀ op ∈ path, ∀ child, op.digest sha256 child ≠ [])
      (child : Bytes) (hc : child ≠ []) :
      path.foldlM (fun child op => op.apply sha256 child) child =
        some (path.foldl (fun child op => op.digest sha256 child) child) := by
    induction path generalizing child with
    | nil => rfl
    | cons op path ih =>
      rw [List.foldlM_cons, List.foldl_cons, InnerOp.apply, if_neg hc]
      exact ih (fun op' h => hpath op' (by simp [h])) _ (hpath op (by simp) child)
  simp only [ExistenceProof.calculate, LeafOp.apply, hk, hv, or_self, if_false]
  exact hfold p.path hpath _ hleaf

end Evaluation

/-! ### Neighbouring paths -/

/-- The sizes of the parts of an inner node with two children. -/
structure InnerSpec where
  childSize : ℕ
  minPrefixLength : ℕ
  maxPrefixLength : ℕ
  deriving DecidableEq

/-- The first divergent steps are to the left and the right child, and the steps below
them, innermost first, keep to the right and to the left border. -/
def Neighbours (left right : InnerOp → Prop) (p q : List InnerOp) : Prop :=
  ∃ below₁ below₂ step₁ step₂ common,
    p = below₁ ++ step₁ :: common ∧ q = below₂ ++ step₂ :: common ∧
      left step₁ ∧ right step₂ ∧ (∀ op ∈ below₁, right op) ∧ ∀ op ∈ below₂, left op

namespace InnerSpec

variable (spec : InnerSpec)

/-- The fixed parts of an operation have the lengths they have next to child `branch` of
two. -/
def hasPadding (branch : ℕ) (op : InnerOp) : Bool :=
  decide (branch * spec.childSize + spec.minPrefixLength ≤ op.pre.length) &&
    decide (op.pre.length ≤ branch * spec.childSize + spec.maxPrefixLength) &&
    decide (op.suffix.length = (1 - branch) * spec.childSize)

def orderFromPadding (op : InnerOp) : Option ℕ :=
  if spec.hasPadding 0 op then some 0 else if spec.hasPadding 1 op then some 1 else none

def isLeftMost (path : List InnerOp) : Bool := path.all (spec.hasPadding 0)

def isRightMost (path : List InnerOp) : Bool := path.all (spec.hasPadding 1)

def isLeftStep (left right : InnerOp) : Bool :=
  match spec.orderFromPadding left, spec.orderFromPadding right with
  | some i, some j => decide (j = i + 1)
  | _, _ => false

/-- Drop the common steps next to the root; both paths are given outermost first. A path
that runs out is an error. -/
def isLeftNeighborFrom : List InnerOp → List InnerOp → Bool
  | topleft :: left, topright :: right =>
    if topleft.pre = topright.pre ∧ topleft.suffix = topright.suffix then
      isLeftNeighborFrom left right
    else spec.isLeftStep topleft topright && spec.isRightMost left && spec.isLeftMost right
  | _, _ => false

def isLeftNeighbor (left right : List InnerOp) : Bool :=
  spec.isLeftNeighborFrom left.reverse right.reverse

/-- The check of the paths of a non-existence proof. -/
def checkPaths (proof : NonExistenceProof) : Bool :=
  match proof.left, proof.right with
  | none, none => false
  | none, some right => spec.isLeftMost right.path
  | some left, none => spec.isRightMost left.path
  | some left, some right => spec.isLeftNeighbor left.path right.path

variable {spec}

/-- The check accepts neighbours whose steps have the lengths of their sides. -/
theorem isLeftNeighbor_of_neighbours {left right : InnerOp → Prop} {p q : List InnerOp}
    (h : Neighbours left right p q)
    (hl : ∀ op ∈ p ++ q, left op → spec.hasPadding 0 op = true)
    (hr : ∀ op ∈ p ++ q, right op → spec.hasPadding 1 op = true)
    (hsize : 0 < spec.childSize) : spec.isLeftNeighbor p q = true := by
  obtain ⟨below₁, below₂, step₁, step₂, common, rfl, rfl, h₁, h₂, hb₁, hb₂⟩ := h
  have hp₁ := hl step₁ (by simp) h₁
  have hp₂ := hr step₂ (by simp) h₂
  -- the suffix tells the two children apart
  have hs₁ : step₁.suffix.length = spec.childSize := by
    simp only [hasPadding, Bool.and_eq_true, decide_eq_true_eq] at hp₁
    omega
  have hs₂ : step₂.suffix.length = 0 := by
    simp only [hasPadding, Bool.and_eq_true, decide_eq_true_eq] at hp₂
    omega
  have hne : ¬ (step₁.pre = step₂.pre ∧ step₁.suffix = step₂.suffix) := by
    rintro ⟨-, he⟩
    rw [he] at hs₁
    omega
  have hn₂ : spec.hasPadding 0 step₂ = false := by
    simp only [hasPadding, Bool.and_eq_false_iff, decide_eq_false_iff_not]
    omega
  have hskip (c a b : List InnerOp) :
      spec.isLeftNeighborFrom (c ++ a) (c ++ b) = spec.isLeftNeighborFrom a b := by
    induction c with
    | nil => rfl
    | cons op c ih => simp [isLeftNeighborFrom, ih]
  rw [isLeftNeighbor, List.reverse_append, List.reverse_append, List.reverse_cons, List.reverse_cons,
    List.append_assoc, List.append_assoc, hskip]
  simp only [List.cons_append, List.nil_append, isLeftNeighborFrom, if_neg hne, Bool.and_eq_true]
  refine ⟨⟨?_, ?_⟩, ?_⟩
  · simp [isLeftStep, orderFromPadding, hp₁, hp₂, hn₂]
  · refine List.all_eq_true.mpr fun op hop => ?_
    have hop' := List.mem_reverse.mp hop
    exact hr op (by simp [hop']) (hb₁ op hop')
  · refine List.all_eq_true.mpr fun op hop => ?_
    have hop' := List.mem_reverse.mp hop
    exact hl op (by simp [hop']) (hb₂ op hop')

end InnerSpec

end IavlStore.Base.Ics23
