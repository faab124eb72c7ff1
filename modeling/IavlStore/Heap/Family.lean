import IavlStore.Heap.Contents

/-! A family of trees that share nodes. Copies are made of trees without changes since
their last saved version, and any member may then be changed, saved, hashed and copied
again. Two members share only nodes at or below the copy-on-write versions of both, so
no call on one member is seen through another. -/

namespace IavlStore.Heap

open IavlStore.Base.Encoding IavlStore.Tree Rep

variable {C : Type} (K : Cache C) (sha256 : Bytes → Bytes)

/-- A tree of the family, and whether it has changes since its last saved version. -/
structure Member (C : Type) where
  tree : HTree C
  dirty : Bool

structure Family (C : Type) where
  mem : Mem
  members : List (Member C)

/-- A member after a call. A successful save takes its changes over into the version; a
call that leaves the tree as it was makes no change. -/
def Member.after (x : Member C) (m : Mem) (e : Event) (tree : HTree C) (m' : Mem) (o : Output) :
    Member C where
  tree := tree
  dirty := match e, o with
    | .saveVersion _, .saved (some _) => false
    | _, _ => x.dirty || tree.load m' ≠ x.tree.load m

/-- A call on the member with the given index. A copy joins the family at the end, and
no caller copies a tree with unsaved changes. -/
def Family.step (f : Family C) (i : ℕ) (e : Event) : Option (Family C) := do
  let x ← f.members[i]?
  match e with
  | .copy cacheSize _ =>
    if x.dirty then none
    else
      let (old, new) := x.tree.copy K cacheSize
      some { f with members := f.members.set i ⟨old, false⟩ ++ [⟨new, false⟩] }
  | e =>
    let ((tree, m), o) ← Heap.step K sha256 (x.tree, f.mem) e
    some ⟨m, f.members.set i (x.after f.mem e tree m o)⟩

def Family.run (f : Family C) : List (ℕ × Event) → Option (Family C)
  | [] => some f
  | (i, e) :: calls => do (← f.step K sha256 i e).run calls

/-- What is seen through a member: contents, structure and node versions, and the
result of `RootHash`. -/
def Family.observe (f : Family C) (j : ℕ) : Option (Tree × Bytes) := do
  let x ← f.members[j]?
  let t ← x.tree.load f.mem
  let (h, _) ← x.tree.rootHash sha256 f.mem
  some (t, h)

variable {K sha256}

/-- All addresses of a tree are at or below the version of its root. -/
theorem Rep.frozen {m : Mem} {r : Ref} {t : Node Bytes Bytes} {L : List ℕ}
    (h : Rep sha256 m r t L) (hs : t.Stamped) {v : ℕ} (hv : t.version ≤ v) :
    ∀ a ∈ L, Frozen m v a := by
  induction h with
  | persisted => simp
  | leaf a n x cell =>
    intro b hb n' hn'
    obtain rfl := List.mem_singleton.mp hb
    obtain rfl := Option.some.inj (hn'.symm.trans cell)
    exact hv
  | branch a n l r tl tr Ll Lr cell _ _ _ _ _ _ ihl ihr =>
    obtain ⟨h1, h2, hsl, hsr⟩ := hs
    intro b hb
    rcases List.mem_cons.mp hb with rfl | hb
    · intro n' hn'
      obtain rfl := Option.some.inj (hn'.symm.trans cell)
      exact hv
    · exact (List.mem_append.mp hb).elim (ihl hsl (h1.trans hv) b) (ihr hsr (h2.trans hv) b)

theorem RepOpt.imp {m m' : Mem} {r : Option Ref} {t : Option (Node Bytes Bytes)} {L : List ℕ}
    (h : RepOpt sha256 m r t L)
    (hr : ∀ r t, Rep sha256 m r t L → Rep sha256 m' r t L) : RepOpt sha256 m' r t L := by
  rcases r with _ | r <;> rcases t with _ | t <;> simp only [RepOpt] at h ⊢
  · exact h
  · exact hr r t h

/-- The invariant of a family, with the value and the addresses of each member. -/
structure FamilyInv (K : Cache C) (sha256 : Bytes → Bytes) (f : Family C) (ts : ℕ → Tree)
    (Ls : ℕ → List ℕ) : Prop where
  sim : ∀ i x, f.members[i]? = some x → Sim K sha256 f.mem x.tree (ts i) (Ls i)
  clean : ∀ i x, f.members[i]? = some x → x.dirty = false →
    ∀ n ∈ (ts i).root, n.version ≤ (ts i).version
  apart : ∀ i j x y, f.members[i]? = some x → f.members[j]? = some y → i ≠ j →
    ∀ a ∈ Ls i, a ∈ Ls j → Frozen f.mem x.tree.cowVersion a

namespace FamilyInv

variable {f f' : Family C} {ts : ℕ → Tree} {Ls : ℕ → List ℕ} {i : ℕ} {e : Event} {x : Member C}

/-- The addresses of a member without changes are at or below its version. -/
theorem frozen (h : FamilyInv K sha256 f ts Ls) (hx : f.members[i]? = some x)
    (hd : x.dirty = false) : ∀ a ∈ Ls i, Frozen f.mem x.tree.version a := by
  have hs := h.sim i x hx
  rcases hs.root_cases with ⟨-, -, hL⟩ | ⟨r, n, -, hn, rep, hi⟩
  · simp [hL]
  · exact rep.frozen hi.stamped (hs.version ▸ h.clean i x hx hd n hn)

/-- Another member keeps its value through a call on member `i`. -/
theorem sim_of_frames (h : FamilyInv K sha256 f ts Ls) {y : Member C} {j : ℕ} {m' : Mem}
    {L' : List ℕ} (hx : f.members[i]? = some x) (hy : f.members[j]? = some y) (hij : i ≠ j)
    (hf : Frames sha256 x.tree.cowVersion f.mem (Ls i) m' L') :
    Sim K sha256 m' y.tree (ts j) (Ls j) := by
  have hs := h.sim j y hy
  exact ⟨hs.version, hs.rep.imp fun r t hr => hf.rep r t (Ls j) hr
    fun a haj hai => h.apart i j x y hx hy hij a hai haj, hs.nodup, hs.inv, hs.cache⟩

/-- A call other than a copy. -/
theorem call (h : FamilyInv K sha256 f ts Ls) (hx : f.members[i]? = some x)
    (he : ∀ size follow, e ≠ .copy size follow) :
    ∃ tree m' o L', Heap.step K sha256 (x.tree, f.mem) e = some ((tree, m'), o) ∧
      Frames sha256 x.tree.cowVersion f.mem (Ls i) m' L' ∧
      FamilyInv K sha256 ⟨m', f.members.set i (x.after f.mem e tree m' o)⟩
        (Function.update ts i (valueStep sha256 (ts i) e).1) (Function.update Ls i L') := by
  have hs := h.sim i x hx
  obtain ⟨tree, m', L', hstep, hs', hf, hc⟩ := hs.step e
  obtain ⟨hi, -⟩ := List.getElem?_eq_some_iff.mp hx
  have hget (j : ℕ) (y : Member C) : (f.members.set i (x.after f.mem e tree m'
      (valueStep sha256 (ts i) e).2))[j]? = some y ↔
      (j = i ∧ y = x.after f.mem e tree m' (valueStep sha256 (ts i) e).2) ∨
        (j ≠ i ∧ f.members[j]? = some y) := by
    by_cases hj : j = i
    · subst hj; simp [hi, eq_comm]
    · simp [List.getElem?_set_ne (Ne.symm hj), hj]
  -- a node another member reaches is not written
  have hkeep (j : ℕ) (y : Member C) (hy : f.members[j]? = some y) (hji : j ≠ i) (a : ℕ)
      (ha : a ∈ Ls j) (c : ℕ) (hfr : Frozen f.mem c a) : Frozen m' c a :=
    hf.frozen a ((h.sim j y hy).lt_length a ha)
      (fun hai => h.apart i j x y hx hy hji.symm a hai ha) c hfr
  have hold (j : ℕ) (y : Member C) (hy : f.members[j]? = some y) (a : ℕ) (ha : a ∈ L')
      (haj : a ∈ Ls j) : a ∈ Ls i :=
    (hf.subset a ha).resolve_right (not_le.mpr ((h.sim j y hy).lt_length a haj))
  refine ⟨tree, m', _, L', hstep, hf, fun j y hy => ?_, fun j y hy hd => ?_,
    fun j k y z hy hz hjk a haj hak => ?_⟩
  · rcases (hget j y).mp hy with ⟨rfl, rfl⟩ | ⟨hj, hy⟩
    · simpa [Member.after] using hs'
    · simpa [Function.update_of_ne hj] using h.sim_of_frames hx hy hj.symm hf
  · rcases (hget j y).mp hy with ⟨rfl, rfl⟩ | ⟨hj, hy⟩
    · rw [Function.update_self]
      -- either the version was just saved, or nothing has changed
      by_cases hsave : ∃ u, e = .saveVersion u
      · obtain ⟨u, rfl⟩ := hsave
        simp only [valueStep] at hs' hd ⊢
        rcases hv : (ts j).saveVersion with _ | t'
        · simp only [hv, Member.after, Bool.or_eq_false_iff] at hd ⊢
          exact h.clean j x hx hd.1
        · exact fun n hn => ((hs.inv.saveVersion hv).2 n hn).version_le
      · have hd' : x.dirty = false ∧ tree.load m' = x.tree.load f.mem := by
          cases e <;> simp_all [Member.after]
        have hsame : (valueStep sha256 (ts j) e).1 = ts j := by
          have := hs'.load.symm.trans (hd'.2.trans hs.load)
          exact Option.some.inj this
        rw [hsame]
        exact h.clean j x hx hd'.1
    · rw [Function.update_of_ne hj]
      exact h.clean j y hy hd
  · rcases (hget j y).mp hy with ⟨rfl, rfl⟩ | ⟨hj, hy'⟩ <;>
      rcases (hget k z).mp hz with ⟨rfl, rfl⟩ | ⟨hk, hz'⟩
    · exact absurd rfl hjk
    · rw [Function.update_self] at haj
      rw [Function.update_of_ne hk] at hak
      rcases hc he with hc | rfl
      · have hai := hold k z hz' a haj hak
        exact hkeep k z hz' hk a hak _ (hc ▸ h.apart j k x z hx hz' hjk a hai hak)
      · simp at haj
    · rw [Function.update_of_ne hj] at haj
      rw [Function.update_self] at hak
      exact hkeep j y hy' hj a haj _ (h.apart j k y x hy' hx hjk a haj (hold j y hy' a hak haj))
    · rw [Function.update_of_ne hj] at haj
      rw [Function.update_of_ne hk] at hak
      exact hkeep j y hy' hj a haj _ (h.apart j k y z hy' hz' hjk a haj hak)

/-- A copy protects all in-memory nodes of the tree. -/
theorem copy_frozen {m : Mem} {t : HTree C} {v : Tree} {L : List ℕ} (hs : Sim K sha256 m t v L)
    (cacheSize : ℤ) (hf : ∀ a ∈ L, Frozen m t.version a) :
    ∀ a ∈ L, Frozen m (t.copy K cacheSize).1.cowVersion a := by
  rcases hs.root_cases with ⟨-, -, rfl⟩ | ⟨r, n, hr, -, rep, -⟩
  · simp
  · cases r with
    | mem a => simpa [HTree.copy, hr] using hf
    | persisted p => cases rep; simp

/-- A copy of a member without changes. -/
theorem copy (h : FamilyInv K sha256 f ts Ls) (hx : f.members[i]? = some x)
    (hd : x.dirty = false) (cacheSize : ℤ) :
    FamilyInv K sha256 { f with members := f.members.set i ⟨(x.tree.copy K cacheSize).1, false⟩ ++
        [⟨(x.tree.copy K cacheSize).2, false⟩] }
      (Function.update ts f.members.length (ts i)) (Function.update Ls f.members.length (Ls i)) := by
  have hs := h.sim i x hx
  obtain ⟨hi, -⟩ := List.getElem?_eq_some_iff.mp hx
  have hcow := copy_frozen hs cacheSize (h.frozen hx hd)
  -- every new member stands for an old one, with the same nodes
  have hget (j : ℕ) (y : Member C) (hy : (f.members.set i ⟨(x.tree.copy K cacheSize).1, false⟩ ++
      [⟨(x.tree.copy K cacheSize).2, false⟩])[j]? = some y) :
      (j = i ∨ j = f.members.length) ∧ y.dirty = false ∧
        Sim K sha256 f.mem y.tree (ts i) (Ls i) ∧
        y.tree.cowVersion = (x.tree.copy K cacheSize).1.cowVersion ∨
      (j ≠ i ∧ j < f.members.length ∧ f.members[j]? = some y) := by
    by_cases hj : j < f.members.length
    · rw [List.getElem?_append_left (by simpa using hj)] at hy
      by_cases hji : j = i
      · subst hji
        simp only [List.getElem?_set_self hj, Option.some.injEq] at hy
        subst hy
        exact .inl ⟨.inl rfl, rfl, (hs.copy cacheSize).1, rfl⟩
      · rw [List.getElem?_set_ne (Ne.symm hji)] at hy
        exact .inr ⟨hji, hj, hy⟩
    · rw [List.getElem?_append_right (by simpa using hj)] at hy
      have hj' : j = f.members.length := by
        have := (List.getElem?_eq_some_iff.mp hy).1
        simp at this
        omega
      subst hj'
      simp only [List.length_set, Nat.sub_self, List.getElem?_cons_zero, Option.some.injEq] at hy
      subst hy
      exact .inl ⟨.inr rfl, rfl, (hs.copy cacheSize).2, rfl⟩
  have hts (j : ℕ) (hj : j = i ∨ j = f.members.length) :
      Function.update ts f.members.length (ts i) j = ts i ∧
        Function.update Ls f.members.length (Ls i) j = Ls i := by
    rcases hj with rfl | rfl
    · simp [Function.update_of_ne hi.ne]
    · simp
  refine ⟨fun j y hy => ?_, fun j y hy hdy => ?_, fun j k y z hy hz hjk a haj hak => ?_⟩
  · rcases hget j y hy with ⟨hj, -, hsim, -⟩ | ⟨-, hj, hy⟩
    · rwa [(hts j hj).1, (hts j hj).2]
    · simpa [Function.update_of_ne hj.ne] using h.sim j y hy
  · rcases hget j y hy with ⟨hj, -, -, -⟩ | ⟨-, hj, hy⟩
    · rw [(hts j hj).1]
      exact h.clean i x hx hd
    · rw [Function.update_of_ne hj.ne]
      exact h.clean j y hy hdy
  · rcases hget j y hy with ⟨hj, -, -, hc⟩ | ⟨hji, hj, hy⟩
    · rw [(hts j hj).2] at haj
      rw [hc]
      exact hcow a haj
    · rw [Function.update_of_ne hj.ne] at haj
      rcases hget k z hz with ⟨hk, -, -, -⟩ | ⟨-, hk, hz⟩
      · rw [(hts k hk).2] at hak
        exact h.apart j i y x hy hx hji a haj hak
      · rw [Function.update_of_ne hk.ne] at hak
        exact h.apart j k y z hy hz hjk a haj hak

end FamilyInv

/-- The effect of one call on the invariant and on what the other members show. -/
theorem FamilyInv.step {f f' : Family C} {ts : ℕ → Tree} {Ls : ℕ → List ℕ} {i : ℕ} {e : Event}
    (h : FamilyInv K sha256 f ts Ls) (hstep : f.step K sha256 i e = some f') :
    (∃ ts' Ls', FamilyInv K sha256 f' ts' Ls' ∧ ∀ j < f.members.length, j ≠ i → ts' j = ts j) ∧
      f.members.length ≤ f'.members.length := by
  obtain ⟨x, hx, hstep⟩ := Option.bind_eq_some_iff.mp hstep
  by_cases hcopy : ∃ size follow, e = .copy size follow
  · obtain ⟨size, follow, rfl⟩ := hcopy
    simp only at hstep
    split_ifs at hstep with hd
    obtain rfl := Option.some.inj hstep
    refine ⟨⟨_, _, h.copy hx (by simpa using hd) size, fun j hj hji => ?_⟩, by simp⟩
    rw [Function.update_of_ne hj.ne]
  · push Not at hcopy
    obtain ⟨tree, m', o, L', he, -, hinv⟩ := h.call hx hcopy
    have hf' : f' = ⟨m', f.members.set i (x.after f.mem e tree m' o)⟩ := by
      cases e <;> simp_all
    subst hf'
    refine ⟨⟨_, _, hinv, fun j _ hji => ?_⟩, by simp⟩
    rw [Function.update_of_ne hji]

theorem FamilyInv.observe {f : Family C} {ts : ℕ → Tree} {Ls : ℕ → List ℕ} {j : ℕ}
    (h : FamilyInv K sha256 f ts Ls) (hj : j < f.members.length) :
    f.observe sha256 j = some (ts j, (ts j).rootHash sha256) := by
  have hs := h.sim j _ (List.getElem?_eq_getElem hj)
  obtain ⟨m', e, -⟩ := hs.rootHash
  simp [Family.observe, List.getElem?_eq_getElem hj, hs.load, e]

/-- A single tree over the snapshot of a value without unsaved changes. -/
def Family.start (K : Cache C) (sha256 : Bytes → Bytes) (t : Tree) (cacheSize : ℤ) (m : Mem) :
    Family C := ⟨m, [⟨openTree K sha256 t cacheSize, false⟩]⟩

theorem FamilyInv.start {t : Tree} (h : t.Inv) (hc : ∀ n ∈ t.root, n.version ≤ t.version)
    (cacheSize : ℤ) (m : Mem) :
    ∃ Ls, FamilyInv K sha256 (Family.start K sha256 t cacheSize m) (fun _ => t) Ls := by
  obtain ⟨L, hs⟩ := openTree_simulates K sha256 h cacheSize m
  refine ⟨fun _ => L, fun i x hx => ?_, fun i x hx _ => hc, fun i j x y hx hy hij => ?_⟩
  · have hi := (List.getElem?_eq_some_iff.mp hx).1
    obtain rfl : i = 0 := by simpa [Family.start] using hi
    obtain rfl : x = ⟨openTree K sha256 t cacheSize, false⟩ := by simpa [Family.start] using hx.symm
    exact hs
  · have hi := (List.getElem?_eq_some_iff.mp hx).1
    have hj := (List.getElem?_eq_some_iff.mp hy).1
    simp [Family.start] at hi hj
    omega

theorem FamilyInv.run {f f' : Family C} {ts : ℕ → Tree} {Ls : ℕ → List ℕ}
    (h : FamilyInv K sha256 f ts Ls) (calls : List (ℕ × Event))
    (hrun : f.run K sha256 calls = some f') : ∃ ts' Ls', FamilyInv K sha256 f' ts' Ls' := by
  induction calls generalizing f ts Ls with
  | nil =>
    obtain rfl := Option.some.inj hrun
    exact ⟨ts, Ls, h⟩
  | cons c calls ih =>
    obtain ⟨f₁, hf₁, hrun⟩ := Option.bind_eq_some_iff.mp hrun
    obtain ⟨⟨ts₁, Ls₁, h₁, -⟩, -⟩ := h.step hf₁
    exact ih h₁ hrun

/-- No call gets stuck, apart from the copies that no caller makes. -/
theorem FamilyInv.step_isSome {f : Family C} {ts : ℕ → Tree} {Ls : ℕ → List ℕ} {i : ℕ} {e : Event}
    {x : Member C} (h : FamilyInv K sha256 f ts Ls) (hx : f.members[i]? = some x)
    (hcopy : ∀ size follow, e = .copy size follow → x.dirty = false) :
    ∃ f', f.step K sha256 i e = some f' := by
  by_cases hc : ∃ size follow, e = .copy size follow
  · obtain ⟨size, follow, rfl⟩ := hc
    have hd := hcopy size follow rfl
    exact ⟨{ f with members := f.members.set i ⟨(x.tree.copy K size).1, false⟩ ++
      [⟨(x.tree.copy K size).2, false⟩] }, by simp [Family.step, hx, hd]⟩
  · push Not at hc
    obtain ⟨tree, m', o, L', he, -⟩ := h.call hx hc
    refine ⟨⟨m', f.members.set i (x.after f.mem e tree m' o)⟩, ?_⟩
    cases e <;> simp_all [Family.step]

/-- After any calls on a family that started from one tree, every further call on a
member `i` goes through, and nothing that is seen through another member `j` changes. -/
theorem copy_isolation (K : Cache C) (sha256 : Bytes → Bytes) (t₀ : Tree) (h₀ : t₀.Inv)
    (hclean : ∀ n ∈ t₀.root, n.version ≤ t₀.version) (cacheSize : ℤ) (m : Mem)
    (calls : List (ℕ × Event)) (f : Family C)
    (hrun : (Family.start K sha256 t₀ cacheSize m).run K sha256 calls = some f) (i : ℕ) (x : Member C)
    (hx : f.members[i]? = some x) (e : Event)
    (hcopy : ∀ size follow, e = .copy size follow → x.dirty = false) :
    ∃ f', f.step K sha256 i e = some f' ∧
      ∀ j < f.members.length, j ≠ i →
        (f.observe sha256 j).isSome ∧ f'.observe sha256 j = f.observe sha256 j := by
  obtain ⟨Ls₀, start⟩ := FamilyInv.start (K := K) h₀ hclean cacheSize m
  obtain ⟨ts, Ls, inv⟩ := start.run calls hrun
  obtain ⟨f', hstep⟩ := inv.step_isSome hx hcopy
  obtain ⟨⟨ts', Ls', inv', hts⟩, hlen⟩ := inv.step hstep
  refine ⟨f', hstep, fun j hj hji => ?_⟩
  rw [inv'.observe (hj.trans_le hlen), inv.observe hj, hts j hj hji]
  exact ⟨rfl, rfl⟩

/-- A tree is set, saved and copied; setting the key again is not seen in the copy. -/
theorem copy_isolation_of_update :
    ∃ f f', (Family.start lruCache (fun _ => [0]) (Tree.newEmptyTree 0) 0 []).run lruCache
        (fun _ => [0]) [(0, .set [1] (some [5])), (0, .saveVersion true), (0, .copy 0 false)] = some f ∧
      f.step lruCache (fun _ => [0]) 0 (.set [1] (some [6])) = some f' ∧
      ∀ j < f.members.length, j ≠ 0 → (f.observe (fun _ => [0]) j).isSome ∧
        f'.observe (fun _ => [0]) j = f.observe (fun _ => [0]) j := by
  have hfirst : (((Family.start lruCache (fun _ => [0]) (Tree.newEmptyTree 0) 0 []).run lruCache
      (fun _ => [0]) [(0, .set [1] (some [5])), (0, .saveVersion true), (0, .copy 0 false)]).bind
      fun f => f.members[0]?).isSome := by decide
  obtain ⟨x, hx⟩ := Option.isSome_iff_exists.mp hfirst
  obtain ⟨f, hrun, hx⟩ := Option.bind_eq_some_iff.mp hx
  obtain ⟨f', hstep, hobs⟩ := copy_isolation lruCache (fun _ => [0]) (Tree.newEmptyTree 0)
    (newEmptyTree_inv 0) (by simp [Tree.newEmptyTree]) 0 [] _ f hrun 0 x hx (.set [1] (some [6]))
    (by simp)
  exact ⟨f, f', hrun, hstep, hobs⟩

end IavlStore.Heap
