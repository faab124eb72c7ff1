import IavlStore.Base.Varint
import IavlStore.Tree.Values

/-! A root hash determines its tree. The bytes hashed for a node can be read back
unambiguously, a leaf starts with height zero and a branch does not, and the keys of
branches, which are not hashed, are the smallest keys of their right children. So two
trees with one root hash are equal, unless the digest function collides on bytes that
are hashed for one of them. -/

namespace IavlStore.Tree

open IavlStore.Base.Encoding IavlStore.Base.SortedPairs

variable {sha256 : Bytes → Bytes}

/-! ### Reading preimages back -/

theorem encodeBytes_append_inj {a b x y : Bytes} (ha : a.length < 2 ^ 64) (hb : b.length < 2 ^ 64)
    (h : encodeBytes a ++ x = encodeBytes b ++ y) : a = b ∧ x = y := by
  rw [encodeBytes, encodeBytes, List.append_assoc, List.append_assoc] at h
  obtain ⟨hlen, hrest⟩ := putUvarint_append_inj ha hb h
  exact List.append_inj hrest hlen

/-- The fields of a header are a byte, a signed and an unsigned 64-bit number. -/
structure HeaderRange (height size version : ℕ) : Prop where
  height : height < 2 ^ 8
  size : size < 2 ^ 63
  version : version < 2 ^ 64

theorem hashHeader_append_inj {h s v h' s' v' : ℕ} {x y : Bytes} (hr : HeaderRange h s v)
    (hr' : HeaderRange h' s' v') (he : hashHeader h s v ++ x = hashHeader h' s' v' ++ y) :
    h = h' ∧ s = s' ∧ v = v' ∧ x = y := by
  obtain ⟨h₁, h₂, h₃⟩ := hr
  obtain ⟨h₁', h₂', h₃'⟩ := hr'
  simp only [hashHeader, List.append_assoc] at he
  obtain ⟨heh, he⟩ := putVarint_append_inj (by omega) (by omega) he
  obtain ⟨hes, he⟩ := putVarint_append_inj (by omega) (by omega) he
  obtain ⟨hev, hxy⟩ := putVarint_append_inj (int64_range v) (int64_range v') he
  exact ⟨by omega, by omega, int64_inj h₃ h₃' hev, hxy⟩

theorem encodeBytes_inj {a b : Bytes} (ha : a.length = 32) (hb : b.length = 32)
    (h : encodeBytes a = encodeBytes b) : a = b := by
  rw [← List.append_nil (encodeBytes a), ← List.append_nil (encodeBytes b)] at h
  exact (encodeBytes_append_inj (by omega) (by omega) h).1

section
variable {h s v h' s' v' : ℕ} (hr : HeaderRange h s v) (hr' : HeaderRange h' s' v')
include hr hr'

theorem leafHashBytes_inj (hlen : ∀ bytes, (sha256 bytes).length = 32) {k x k' x' : Bytes}
    (hk : k.length < 2 ^ 63) (hk' : k'.length < 2 ^ 63)
    (he : leafHashBytes sha256 h s v k x = leafHashBytes sha256 h' s' v' k' x') :
    h = h' ∧ s = s' ∧ v = v' ∧ k = k' ∧ sha256 x = sha256 x' := by
  simp only [leafHashBytes, List.append_assoc] at he
  obtain ⟨rfl, rfl, rfl, hkeys⟩ := hashHeader_append_inj hr hr' he
  obtain ⟨rfl, hvalues⟩ :=
    encodeBytes_append_inj (hk.trans (by norm_num)) (hk'.trans (by norm_num)) hkeys
  exact ⟨rfl, rfl, rfl, rfl, encodeBytes_inj (hlen x) (hlen x') hvalues⟩

theorem branchHashBytes_inj {a b a' b' : Bytes} (ha : a.length = 32) (hb : b.length = 32)
    (ha' : a'.length = 32) (hb' : b'.length = 32)
    (he : branchHashBytes h s v a b = branchHashBytes h' s' v' a' b') :
    h = h' ∧ s = s' ∧ v = v' ∧ a = a' ∧ b = b' := by
  simp only [branchHashBytes, List.append_assoc] at he
  obtain ⟨rfl, rfl, rfl, hchildren⟩ := hashHeader_append_inj hr hr' he
  obtain ⟨rfl, hright⟩ := encodeBytes_append_inj (by omega) (by omega) hchildren
  exact ⟨rfl, rfl, rfl, rfl, encodeBytes_inj hb hb' hright⟩

/-- A leaf and a branch differ in the height they start with. -/
theorem leafHashBytes_ne_branchHashBytes {k x a b : Bytes} (hh : h ≠ h') :
    leafHashBytes sha256 h s v k x ≠ branchHashBytes h' s' v' a b := by
  intro he
  simp only [leafHashBytes, branchHashBytes, List.append_assoc] at he
  exact hh (hashHeader_append_inj hr hr' he).1

end

/-! ### Equal hashes, equal trees -/

namespace Node

/-- The fields are values of the types they have in the source. -/
def InTypes : Node Bytes Bytes → Prop
  | leaf v k _ => v < 2 ^ 64 ∧ k.length < 2 ^ 63
  | branch h s v _ l r => HeaderRange h s v ∧ l.InTypes ∧ r.InTypes

variable (sha256) in
/-- The bytes hashed for the nodes of a tree and for its values. -/
def preimages : Node Bytes Bytes → List Bytes
  | leaf v k x => [leafHashBytes sha256 0 1 v k x, x]
  | branch h s v _ l r =>
    branchHashBytes h s v (l.hashNode sha256) (r.hashNode sha256) :: (l.preimages ++ r.preimages)

variable (sha256) in
/-- The bytes hashed for the root. -/
def preimage : Node Bytes Bytes → Bytes
  | leaf v k x => leafHashBytes sha256 0 1 v k x
  | branch h s v _ l r => branchHashBytes h s v (l.hashNode sha256) (r.hashNode sha256)

theorem hashNode_eq (t : Node Bytes Bytes) : t.hashNode sha256 = sha256 (t.preimage sha256) := by
  cases t <;> rfl

theorem preimage_mem (t : Node Bytes Bytes) : t.preimage sha256 ∈ t.preimages sha256 := by
  cases t <;> simp [preimage, preimages]

theorem preimage_ne_nil (t : Node Bytes Bytes) : t.preimage sha256 ≠ [] := by
  have hne (h s v : ℕ) (x : Bytes) : hashHeader h s v ++ x ≠ [] := by
    have hpos : putVarint h ≠ [] := by
      unfold putVarint putUvarint putUvarintAux
      split_ifs <;> simp
    simp [hashHeader, hpos]
  cases t <;> simp only [preimage, leafHashBytes, branchHashBytes, List.append_assoc] <;>
    exact hne _ _ _ _

end Node

variable (sha256) in
/-- Among these inputs, different ones have different digests. -/
def CollisionFree (inputs : List Bytes) : Prop :=
  ∀ x ∈ inputs, ∀ y ∈ inputs, sha256 x = sha256 y → x = y

theorem CollisionFree.mono {l l' : List Bytes} (h : CollisionFree sha256 l) (hs : l' ⊆ l) :
    CollisionFree sha256 l' := fun x hx y hy => h x (hs hx) y (hs hy)

theorem Node.eq_of_hashNode_eq (hlen : ∀ bytes, (sha256 bytes).length = 32)
    {t t' : Node Bytes Bytes} (hb : t.Balanced) (hb' : t'.Balanced) (ho : t.Ordered)
    (ho' : t'.Ordered) (hty : t.InTypes) (hty' : t'.InTypes)
    (hcf : CollisionFree sha256 (t.preimages sha256 ++ t'.preimages sha256))
    (h : t.hashNode sha256 = t'.hashNode sha256) : t = t' := by
  induction t generalizing t' with
  | leaf v k x =>
    have hpre := hcf _ (List.mem_append_left _ (preimage_mem _)) _
      (List.mem_append_right _ (preimage_mem _)) (by rwa [hashNode_eq, hashNode_eq] at h)
    cases t' with
    | leaf v' k' x' =>
      obtain ⟨-, -, rfl, rfl, hx⟩ := leafHashBytes_inj ⟨by omega, by omega, hty.1⟩
        ⟨by omega, by omega, hty'.1⟩ hlen hty.2 hty'.2 hpre
      rw [hcf x (by simp [preimages]) x' (by simp [preimages]) hx]
    | branch h' s' v' k' l' r' =>
      have hpos := hb'.height_pos
      exact absurd hpre (leafHashBytes_ne_branchHashBytes ⟨by omega, by omega, hty.1⟩ hty'.1 (by omega))
  | branch ht s v k l r ihl ihr =>
    have hpre := hcf _ (List.mem_append_left _ (preimage_mem _)) _
      (List.mem_append_right _ (preimage_mem _)) (by rwa [hashNode_eq, hashNode_eq] at h)
    have hpos := hb.height_pos
    cases t' with
    | leaf v' k' x' =>
      exact absurd hpre.symm
        (leafHashBytes_ne_branchHashBytes ⟨by omega, by omega, hty'.1⟩ hty.1 (by omega))
    | branch h' s' v' k' l' r' =>
      obtain ⟨rfl, rfl, rfl, hl, hr⟩ := branchHashBytes_inj hty.1 hty'.1 (hashNode_length hlen l)
        (hashNode_length hlen r) (hashNode_length hlen l') (hashNode_length hlen r') hpre
      obtain ⟨-, -, -, -, hbl, hbr⟩ := hb
      obtain ⟨-, -, -, -, hbl', hbr'⟩ := hb'
      obtain ⟨-, hk, hol, hor⟩ := ho
      obtain ⟨-, hk', hol', hor'⟩ := ho'
      obtain rfl := ihl hbl hbl' hol hol' hty.2.1 hty'.2.1
        (hcf.mono fun x hx => by simp [preimages] at hx ⊢; tauto) hl
      obtain rfl := ihr hbr hbr' hor hor' hty.2.2 hty'.2.2
        (hcf.mono fun x hx => by simp [preimages] at hx ⊢; tauto) hr
      rw [hk, hk']

/-- The bytes hashed for a tree; an empty one has the digest of nothing. -/
def preimages (sha256 : Bytes → Bytes) (t : Tree) : List Bytes :=
  match t.root with
  | none => [[]]
  | some n => n.preimages sha256

/-- Two well-formed trees with one root hash are equal, if the digest function has no
collision among the bytes hashed for them. -/
theorem rootHash_binding (hlen : ∀ bytes, (sha256 bytes).length = 32) (t t' : Tree)
    (hinv : ∀ n ∈ t.root, n.Balanced ∧ n.Ordered ∧ n.InTypes)
    (hinv' : ∀ n ∈ t'.root, n.Balanced ∧ n.Ordered ∧ n.InTypes)
    (hcf : CollisionFree sha256 (t.preimages sha256 ++ t'.preimages sha256))
    (h : t.rootHash sha256 = t'.rootHash sha256) : t.root = t'.root := by
  rcases t with ⟨v, _ | n⟩ <;> rcases t' with ⟨v', _ | n'⟩
  · rfl
  · have hpre := hcf [] (by simp [preimages]) (n'.preimage sha256)
      (List.mem_append_right _ n'.preimage_mem) (h.trans n'.hashNode_eq)
    exact absurd hpre.symm n'.preimage_ne_nil
  · have hpre := hcf (n.preimage sha256) (List.mem_append_left _ n.preimage_mem) []
      (by simp [preimages]) (n.hashNode_eq.symm.trans h)
    exact absurd hpre n.preimage_ne_nil
  · obtain ⟨hb, ho, hty⟩ := hinv n rfl
    obtain ⟨hb', ho', hty'⟩ := hinv' n' rfl
    exact congrArg some (Node.eq_of_hashNode_eq hlen hb hb' ho ho' hty hty' hcf h)

/-- One root under two tree versions. -/
theorem rootHash_binding_two_leaves :
    let n : Node Bytes Bytes := .branch 1 2 4 [3] (.leaf 3 [1] [7]) (.leaf 4 [3] [8])
    let t : Tree := ⟨4, some n⟩
    let t' : Tree := ⟨9, some n⟩
    CollisionFree firstBytes (t.preimages firstBytes ++ t'.preimages firstBytes) ∧
      t.rootHash firstBytes = t'.rootHash firstBytes ∧ t.root = t'.root := by
  intro n t t'
  have hinv : ∀ n' ∈ some n, n'.Balanced ∧ n'.Ordered ∧ n'.InTypes := by
    rintro n' ⟨⟩
    refine ⟨⟨rfl, rfl, by decide, by decide, trivial, trivial⟩,
      ⟨by unfold Below; decide, rfl, trivial, trivial⟩, ?_⟩
    exact ⟨⟨by decide, by decide, by decide⟩, ⟨by decide, by decide⟩, by decide, by decide⟩
  have hcf : CollisionFree firstBytes (t.preimages firstBytes ++ t'.preimages firstBytes) := by
    unfold CollisionFree
    decide
  exact ⟨hcf, rfl, rootHash_binding length_firstBytes t t' hinv hinv hcf rfl⟩

end IavlStore.Tree
