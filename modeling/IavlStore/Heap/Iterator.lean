import IavlStore.Base.Ranges
import IavlStore.Heap.Trees

/-! Iterators over a tree on the heap. The nodes still to be visited are on a stack;
`Next` takes nodes off it until a leaf of the range turns up, and leaves out the
children that a separator key puts outside of the range. What the iterator has yet to
produce is read off the stack, and one call of `Next` takes the first pair of it. -/

namespace IavlStore.Heap

open IavlStore.Base.Encoding IavlStore.Base.Ranges IavlStore.Base.SortedPairs IavlStore.Tree Rep

/-- The pair at hand and the nodes to visit, the next one first. A bound is `none` where
the source has nil. -/
structure Iterator where
  start : Option Bytes
  stop : Option Bytes
  ascending : Bool
  key : Bytes
  value : Option Bytes
  valid : Bool
  stack : List Ref
  deriving DecidableEq

namespace Iterator

/-- The children of a branch to visit, the next one first. -/
def children {α : Type} (ascending afterStart beforeEnd : Bool) (left right : α) : List α :=
  let lefts := if afterStart then [left] else []
  let rights := if beforeEnd then [right] else []
  if ascending then lefts ++ rights else rights ++ lefts

def afterStart (iter : Iterator) (key : Bytes) : Bool :=
  iter.start.isNone || decide (iter.start.getD [] < key)

def startOrAfter (iter : Iterator) (key : Bytes) : Bool :=
  iter.afterStart key || decide (iter.start.getD [] = key)

def beforeEnd (iter : Iterator) (key : Bytes) : Bool :=
  iter.stop.isNone || decide (key < iter.stop.getD [])

/-- Advance to the next pair. The fuel bounds the number of nodes taken off the stack. -/
def next (m : Mem) : ℕ → Iterator → Option Iterator
  | 0, _ => none
  | fuel + 1, iter =>
    match iter.stack with
    | [] => some { iter with valid := false }
    | node :: stack => do
      let n ← node.view m
      let leaf ← node.isLeaf m
      if leaf then
        if iter.startOrAfter n.key && iter.beforeEnd n.key then
          some { iter with key := n.key, value := n.value, stack := stack }
        else next m fuel { iter with stack := stack }
      else
        let pushed := children iter.ascending (iter.afterStart n.key) (iter.beforeEnd n.key)
          (← n.left) (← n.right)
        next m fuel { iter with stack := pushed ++ stack }

def newIterator (start stop : Option Bytes) (ascending : Bool) (root : Option Ref) (m : Mem)
    (fuel : ℕ) : Option Iterator :=
  next m fuel ⟨start, stop, ascending, [], none, true, root.toList⟩

/-- The pairs an iterator shows until it is no longer valid. -/
def collect (m : Mem) : ℕ → Iterator → Option (List (Bytes × Option Bytes))
  | 0, _ => none
  | fuel + 1, iter =>
    if iter.valid then do
      let rest ← collect m fuel (← next m (fuel + 1) iter)
      some ((iter.key, iter.value) :: rest)
    else some []

end Iterator

namespace HTree

/-- The pairs of a fresh iterator over the tree. -/
def iterate {C : Type} (t : HTree C) (start stop : Option Bytes) (ascending : Bool) (m : Mem)
    (fuel : ℕ) : Option (List (Bytes × Option Bytes)) := do
  Iterator.collect m fuel (← Iterator.newIterator start stop ascending t.root m fuel)

end HTree

/-! ### What an iterator has yet to produce -/

/-- The number of nodes of a tree. -/
def weight : Node Bytes Bytes → ℕ
  | .leaf _ _ _ => 1
  | .branch _ _ _ _ l r => weight l + weight r + 1

namespace Iterator

variable {sha256 : Bytes → Bytes} {m : Mem} (iter : Iterator) {stack : List Ref}
  {ts : List (Node Bytes Bytes)} {fuel : ℕ}

/-- The pairs of the range in a tree, in the order of the iterator. -/
def shown (t : Node Bytes Bytes) : List (Bytes × Bytes) :=
  directed iter.ascending (rangePairs iter.start iter.stop t.toList)

/-- The nodes on the stack stand for the trees. -/
def Stands (sha256 : Bytes → Bytes) (m : Mem) (stack : List Ref) (ts : List (Node Bytes Bytes)) : Prop :=
  List.Forall₂ (fun r t => (∃ L, Rep sha256 m r t L) ∧ t.Ordered) stack ts

theorem inRange_iff (k : Bytes) :
    InRange iter.start iter.stop k ↔ (iter.startOrAfter k && iter.beforeEnd k) = true := by
  rcases hs : iter.start with _ | s <;> rcases he : iter.stop with _ | e <;>
    simp [InRange, startOrAfter, afterStart, beforeEnd, hs, he, le_iff_lt_or_eq]

/-- A left child that is left out has nothing in the range. -/
theorem range_left {l : List (Bytes × Bytes)} {k : Bytes} (h : iter.afterStart k = false)
    (hl : Below l k) : rangePairs iter.start iter.stop l = [] := by
  rcases hs : iter.start with _ | s
  · simp [afterStart, hs] at h
  · exact rangePairs_of_below hl (by simpa [afterStart, hs] using h)

theorem range_right {r : List (Bytes × Bytes)} {k : Bytes} (h : iter.beforeEnd k = false)
    (hr : AtLeast r k) : rangePairs iter.start iter.stop r = [] := by
  rcases he : iter.stop with _ | e
  · simp [beforeEnd, he] at h
  · exact rangePairs_of_atLeast hr (by simpa [beforeEnd, he] using h)

/-- A branch shows what its pushed children show. -/
theorem shown_branch {h s v : ℕ} {k : Bytes} {l r : Node Bytes Bytes}
    (ho : (Node.branch h s v k l r).Ordered) :
    iter.shown (.branch h s v k l r) =
      (children iter.ascending (iter.afterStart k) (iter.beforeEnd k) l r).flatMap iter.shown := by
  have ha := ho.atLeast
  obtain ⟨hb, -, -, -⟩ := ho
  have hl : iter.afterStart k = false → rangePairs iter.start iter.stop l.toList = [] :=
    (range_left iter · hb)
  have hr : iter.beforeEnd k = false → rangePairs iter.start iter.stop r.toList = [] :=
    (range_right iter · ha)
  rcases hasc : iter.ascending <;> rcases has : iter.afterStart k <;>
    rcases hbe : iter.beforeEnd k <;>
    simp_all [shown, directed, children, Node.toList]

theorem weight_children (asc s e : Bool) (l r : Node Bytes Bytes) :
    ((children asc s e l r).map weight).sum ≤ weight l + weight r := by
  rcases asc <;> rcases s <;> rcases e <;> simp [children]
  omega

theorem Stands.children (asc s e : Bool) {left right : Ref} {l r : Node Bytes Bytes}
    (hl : Stands sha256 m [left] [l]) (hr : Stands sha256 m [right] [r]) :
    Stands sha256 m (children asc s e left right) (children asc s e l r) := by
  unfold Stands at *
  rcases asc <;> rcases s <;> rcases e <;> simp_all [Iterator.children]

/-- A leaf shows its pair when it is in the range. -/
theorem shown_leaf (v : ℕ) (k x : Bytes) :
    iter.shown (.leaf v k x) =
      if iter.startOrAfter k && iter.beforeEnd k then [(k, x)] else [] := by
  have hr := iter.inRange_iff k
  by_cases hin : InRange iter.start iter.stop k
  · rw [if_pos (hr.mp hin)]
    simp [shown, directed, rangePairs, Node.toList, hin]
  · rw [if_neg fun h => hin (hr.mpr h)]
    simp [shown, directed, rangePairs, Node.toList, hin]

/-- One call takes the first pair that is yet to be produced, or ends the iteration. -/
theorem next_spec (h : Stands sha256 m stack ts) (hfuel : (ts.map weight).sum < fuel) :
    (ts.flatMap iter.shown = [] ∧
      next m fuel { iter with stack := stack } = some { iter with valid := false, stack := [] }) ∨
    ∃ k x stack' ts',
      next m fuel { iter with stack := stack } =
        some { iter with key := k, value := some x, stack := stack' } ∧
      Stands sha256 m stack' ts' ∧ ts.flatMap iter.shown = (k, x) :: ts'.flatMap iter.shown ∧
      (ts'.map weight).sum < (ts.map weight).sum := by
  induction fuel generalizing stack ts with
  | zero => omega
  | succ fuel ih =>
    cases h with
    | nil => exact .inl ⟨rfl, rfl⟩
    | @cons node t stack ts hnode hrest =>
      obtain ⟨⟨L, hrep⟩, ho⟩ := hnode
      cases t with
      | leaf v k x =>
        obtain ⟨n, hview, hleaf, -, -, -, rfl, hval, -⟩ := hrep.leaf_view
        simp only [List.map_cons, List.sum_cons, weight] at hfuel
        simp only [next, hview, hleaf, Option.bind_eq_bind, Option.bind_some, ↓reduceIte,
          List.flatMap_cons, shown_leaf, List.map_cons, List.sum_cons, weight]
        by_cases hin : (iter.startOrAfter n.key && iter.beforeEnd n.key) = true
        · exact .inr ⟨n.key, x, stack, ts, by rw [← hval]; exact if_pos hin, hrest, by simp [hin],
            by omega⟩
        · rcases ih hrest (by omega) with ⟨he, hn⟩ | ⟨k', x', stack', ts', hn, hs, he, hw⟩
          · exact .inl ⟨by simp [hin, he], (if_neg hin).trans hn⟩
          · exact .inr ⟨k', x', stack', ts', (if_neg hin).trans hn, hs, by simp [hin, he], by omega⟩
      | branch h s v k l r =>
        obtain ⟨n, left, right, Ll, Lr, hview, hleaf, -, -, -, rfl, hl, hr, repl, repr, -⟩ :=
          hrep.branch_view
        have hshown := iter.shown_branch ho
        obtain ⟨-, -, hol, hor⟩ := ho
        let pushed {α : Type} (left right : α) : List α :=
          children iter.ascending (iter.afterStart n.key) (iter.beforeEnd n.key) left right
        have hkids : Stands sha256 m (pushed left right ++ stack) (pushed l r ++ ts) :=
          List.rel_append (Stands.children _ _ _ (.cons ⟨⟨Ll, repl⟩, hol⟩ .nil)
            (.cons ⟨⟨Lr, repr⟩, hor⟩ .nil)) hrest
        have hw : ((pushed l r).map weight).sum ≤ weight l + weight r := weight_children ..
        have hstep : next m (fuel + 1) { iter with stack := node :: stack } =
            next m fuel { iter with stack := pushed left right ++ stack } := by
          simp [next, hview, hleaf, hl, hr, afterStart, beforeEnd, pushed]
        simp only [List.map_cons, List.sum_cons, weight] at hfuel
        rw [hstep, List.flatMap_cons, hshown, ← List.flatMap_append]
        simp only [List.map_cons, List.sum_cons, weight]
        rcases ih hkids (by simp only [List.map_append, List.sum_append]; omega) with
          hend | ⟨k', x', stack', ts', hn, hs, he, hlt⟩
        · exact .inl hend
        · refine .inr ⟨k', x', stack', ts', hn, hs, he, ?_⟩
          simp only [List.map_append, List.sum_append] at hlt
          omega

/-- Repeated calls produce what the stack holds, and end. -/
theorem collect_spec (hv : iter.valid = true) (h : Stands sha256 m iter.stack ts)
    (hfuel : (ts.map weight).sum + 1 < fuel) :
    collect m fuel iter = some ((iter.key, iter.value) ::
      (ts.flatMap iter.shown).map fun p => (p.1, some p.2)) := by
  induction fuel generalizing iter ts with
  | zero => omega
  | succ fuel ih =>
    simp only [collect, hv, ↓reduceIte, Option.bind_eq_bind]
    rcases iter.next_spec h (show _ < fuel + 1 by omega) with
      ⟨he, hn⟩ | ⟨k, x, stack', ts', hn, hs, he, hlt⟩
    · obtain ⟨fuel, rfl⟩ : ∃ f, fuel = f + 1 := ⟨fuel - 1, by omega⟩
      rw [show next m (fuel + 1 + 1) iter = _ from hn, he]
      rfl
    · rw [show next m (fuel + 1) iter = _ from hn, he, Option.bind_some, 
        ih { iter with key := k, value := some x, stack := stack' } hv hs (by omega)]
      rfl

end Iterator

variable {C : Type}

/-- An iterator over an ordered tree shows exactly the pairs of the range, in key order
or in the reverse order, and then ends. -/
theorem iterate_exact {sha256 : Bytes → Bytes} {m : Mem} (ht : HTree C) {t : Option (Node Bytes Bytes)}
    {L : List ℕ} (hrep : RepOpt sha256 m ht.root t L) (ho : ∀ n ∈ t, n.Ordered)
    (start stop : Option Bytes) (ascending : Bool) :
    ∃ enough, ∀ fuel ≥ enough, ht.iterate start stop ascending m fuel =
      some ((directed ascending (rangePairs start stop (t.elim [] Node.toList))).map
        fun p => (p.1, some p.2)) := by
  obtain ⟨ts, hts, hs⟩ : ∃ ts, t.toList = ts ∧ Iterator.Stands sha256 m ht.root.toList ts := by
    rcases hr : ht.root with _ | r <;> rcases t with _ | n <;> simp only [hr, RepOpt] at hrep
    · exact ⟨_, rfl, .nil⟩
    · exact ⟨_, rfl, .cons ⟨⟨L, hrep⟩, ho n rfl⟩ .nil⟩
  refine ⟨(ts.map weight).sum + 2, fun fuel hfuel => ?_⟩
  let iter : Iterator := ⟨start, stop, ascending, [], none, true, ht.root.toList⟩
  have hall : directed ascending (rangePairs start stop (t.elim [] Node.toList)) =
      ts.flatMap iter.shown := by
    subst hts
    cases t <;> simp [Iterator.shown, iter, rangePairs, directed]
  unfold HTree.iterate Iterator.newIterator
  rw [hall]
  rcases iter.next_spec hs (show _ < fuel by omega) with
    ⟨he, hn⟩ | ⟨k, x, stack', ts', hn, hs', he, hlt⟩
  · obtain ⟨fuel, rfl⟩ : ∃ f, fuel = f + 1 := ⟨fuel - 1, by omega⟩
    rw [he, show Iterator.next m (fuel + 1) iter = _ from hn]
    rfl
  · rw [he, show Iterator.next m fuel iter = _ from hn]
    exact Iterator.collect_spec _ rfl hs' (by omega)

/-! A small tree with a snapshot branch and a leaf in memory below a branch in memory. -/

def mixedTree : Node Bytes Bytes :=
  .branch 2 3 5 [3] (.branch 1 2 4 [2] (.leaf 4 [1] [7]) (.leaf 3 [2] [8])) (.leaf 5 [3] [9])

def mixedHeap (sha256 : Bytes → Bytes) : Mem :=
  [⟨2, 3, 5, [3], none,
      some (.persisted (Node.stored sha256 (.branch 1 2 4 [2] (.leaf 4 [1] [7]) (.leaf 3 [2] [8])))),
      some (.mem 1), none⟩,
    newLeafNode [3] [9] 5]

theorem mixedTree_ordered : mixedTree.Ordered :=
  ⟨by unfold Below; decide, rfl, ⟨by unfold Below; decide, rfl, trivial, trivial⟩, trivial⟩

theorem mixedTree_balanced : mixedTree.Balanced :=
  ⟨rfl, rfl, by decide, by decide, ⟨rfl, rfl, by decide, by decide, trivial, trivial⟩, trivial⟩

theorem rep_mixedTree (sha256 : Bytes → Bytes) :
    Rep sha256 (mixedHeap sha256) (.mem 0) mixedTree [0, 1] := by
  obtain ⟨-, -, hold, -⟩ := mixedTree_ordered
  have hleft := Rep.persisted (m := mixedHeap sha256) _ (Node.hashOk_stored sha256 hold)
  rw [Node.toNode_stored sha256 hold] at hleft
  have hright : Rep sha256 (mixedHeap sha256) (.mem 1) (.leaf 5 [3] [9]) [1] :=
    .leaf 1 (newLeafNode [3] [9] 5) [9] rfl rfl rfl rfl (by simp [newLeafNode])
  exact .branch 0 _ _ _ _ _ [] [1] rfl two_pos rfl rfl (by simp) hleft hright

/-- The small tree read backwards from the end. -/
theorem iterate_exact_mixed :
    ∃ enough, ∀ fuel ≥ enough,
      (⟨4, 0, some (.mem 0), none⟩ : HTree Unit).iterate (some [2]) none false
        (mixedHeap fun bytes => bytes) fuel = some [([3], some [9]), ([2], some [8])] :=
  iterate_exact ⟨4, 0, some (.mem 0), none⟩ (t := some _) (rep_mixedTree fun bytes => bytes)
    (by simpa using mixedTree_ordered) (some [2]) none false

end IavlStore.Heap
