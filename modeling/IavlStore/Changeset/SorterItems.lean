import IavlStore.Base.ByteOrder
import IavlStore.Base.Heaps
import IavlStore.Changeset.RoundTrip

/-! Pairs as items of the external sorter: the key, the version, a flag, the value if there is one, and the
length of the key at the end. They are compared by their keys, and for one key the newest version
comes first. An item is decoded to the pair it was made of. -/

namespace IavlStore.Changeset

open IavlStore.Base.Encoding IavlStore.Base.Heaps

def sizeKeyLength : ℕ := 4

def sizeOfSorterItem (pair : KVPair) : ℕ :=
  let size := pair.key.length + 8 + 1 + sizeKeyLength
  if pair.delete then size else size + valueLen pair

def encodeSorterItem (version : ℕ) (pair : KVPair) : Option Bytes := do
  let item := List.replicate (sizeOfSorterItem pair) 0
  let item ← copyAt item 0 pair.key
  let offset := pair.key.length
  let item ← putAt item offset (putLE 8 version)
  let offset := offset + 8
  let keyLen := putLE 4 (pair.key.length % 2 ^ 32)
  if pair.delete then do
    let item ← putAt item offset [1]
    putAt item (offset + 1) keyLen
  else do
    let item ← copyAt item (offset + 1) (pair.value.getD [])
    putAt item (offset + (valueLen pair + 1)) keyLen

/-- Part of a slice; `none` where the bounds are out of range. -/
def slice (bs : Bytes) (lo hi : ℕ) : Option Bytes :=
  if lo ≤ hi ∧ hi ≤ bs.length then some ((bs.take hi).drop lo) else none

/-- The length of the key, at the end of an item. -/
def itemKeyLen (item : Bytes) : ℕ := readLE (item.drop (item.length - sizeKeyLength))

/-- The version and the pair of an item; `none` where a bound is out of range. Offsets have 32 bits. -/
def decodeSorterItem (item : Bytes) : Option (Bytes × KVPair) :=
  if item.length < sizeKeyLength then none
  else do
    let keyLen := itemKeyLen item
    let key ← slice item 0 keyLen
    let offset := (keyLen + 8) % 2 ^ 32
    let version ← slice item keyLen offset
    let flag ← item[offset]?
    if flag = 1 then some (version, ⟨true, key, none⟩)
    else do
      let value ← slice item ((offset + 1) % 2 ^ 32) (item.length - sizeKeyLength)
      some (version, ⟨false, key, some value⟩)

/-- Whether an item comes before another. Bounds that are out of range, where the source panics, do not occur
in encoded items. -/
def compareSorterItem (a b : Bytes) : Bool :=
  let aKey := a.take (itemKeyLen a)
  let bKey := b.take (itemKeyLen b)
  if aKey ≠ bKey then decide (aKey < bKey)
  else decide (readLE ((b.drop (itemKeyLen b)).take 8) < readLE ((a.drop (itemKeyLen a)).take 8))

/-! ### The order -/

/-- What items are sorted by. -/
def sortKey (item : Bytes) : Bytes ×ₗ ℕᵒᵈ :=
  toLex (item.take (itemKeyLen item), .toDual (readLE ((item.drop (itemKeyLen item)).take 8)))

theorem compareSorterItem_eq : compareSorterItem = byKey sortKey := by
  funext a b
  unfold compareSorterItem byKey sortKey
  dsimp only
  split_ifs with h
  · simp [Prod.Lex.toLex_lt_toLex, h]
  · rw [not_not] at h
    simp [Prod.Lex.toLex_lt_toLex, h]

instance strictWeakOrderSorterItem : IsStrictWeakOrder Bytes fun a b => compareSorterItem a b = true := by
  rw [compareSorterItem_eq]
  exact strictWeakOrder_byKey sortKey

/-! ### Encoded items -/

/-- The layout of an item. -/
def sorterItem (version : ℕ) (pair : KVPair) : Bytes :=
  pair.key ++ putLE 8 version ++ (if pair.delete then [1] else [0] ++ pair.value.getD []) ++ putLE 4 pair.key.length

variable {version : ℕ} {pair : KVPair}

theorem length_sorterItem (version : ℕ) (pair : KVPair) : (sorterItem version pair).length = sizeOfSorterItem pair := by
  unfold sorterItem sizeOfSorterItem valueLen sizeKeyLength
  cases pair.delete
  · simp
    omega
  · simp

theorem putLE_mod (n : ℕ) : putLE 4 (n % 2 ^ 32) = putLE 4 n := by
  have h := putLE_readLE (putLE 4 n)
  rwa [length_putLE, readLE_putLE, show 256 ^ 4 = 2 ^ 32 by norm_num] at h

theorem encodeSorterItem_eq (version : ℕ) (pair : KVPair) :
    encodeSorterItem version pair = some (sorterItem version pair) := by
  have hkey (k : ℕ) := copyAt_room [] pair.key k
  have hversion (k : ℕ) := putAt_room pair.key (putLE 8 version) k
  have hkeyLen (done : Bytes) := putAt_room done (putLE 4 pair.key.length) 0
  simp only [List.nil_append, List.length_nil, length_putLE, Nat.add_zero, List.replicate_zero,
    List.append_nil] at hkey hversion hkeyLen
  rw [encodeSorterItem, sizeOfSorterItem, sorterItem, sizeKeyLength, putLE_mod]
  cases hd : pair.delete with
  | true =>
    have hflag := putAt_room (pair.key ++ putLE 8 version) [1] 4
    have hend := hkeyLen (pair.key ++ putLE 8 version ++ [1])
    simp only [List.length_append, List.length_singleton, length_putLE] at hflag hend
    simp only [if_true, Nat.add_assoc, hkey, Option.bind_eq_bind, Option.bind_some]
    simp only [hversion, Option.bind_some, hflag]
    exact hend
  | false =>
    have hvalue := copyAt_room (pair.key ++ putLE 8 version ++ [0]) (pair.value.getD []) 4
    have hend := hkeyLen (pair.key ++ putLE 8 version ++ [0] ++ pair.value.getD [])
    simp only [List.length_append, List.length_singleton, length_putLE] at hvalue hend
    have hroom : pair.key ++ putLE 8 version ++ List.replicate (1 + (4 + valueLen pair)) 0 =
        pair.key ++ putLE 8 version ++ [0] ++ List.replicate ((pair.value.getD []).length + 4) 0 := by
      rw [Nat.add_comm 1, Nat.add_comm 4, List.replicate_succ]
      simp [valueLen]
    simp only [Bool.false_eq_true, if_false, Nat.add_assoc, hkey, Option.bind_eq_bind, Option.bind_some]
    simp only [hversion, Option.bind_some, hroom]
    simp only [hvalue, Option.bind_some]
    rw [← List.append_assoc, ← hend, valueLen]
    congr 1
    omega

theorem itemKeyLen_sorterItem (h : pair.key.length < 2 ^ 32) : itemKeyLen (sorterItem version pair) = pair.key.length := by
  have hlen : (sorterItem version pair).length - sizeKeyLength =
      (pair.key ++ putLE 8 version ++ (if pair.delete then [1] else [0] ++ pair.value.getD [])).length := by
    rw [sorterItem, List.length_append, length_putLE, sizeKeyLength, Nat.add_sub_cancel]
  rw [itemKeyLen, hlen, sorterItem, List.drop_left, readLE_putLE_of_lt (by norm_num; exact h)]

theorem sortKey_sorterItem (h : pair.key.length < 2 ^ 32) (hv : version < 2 ^ 64) :
    sortKey (sorterItem version pair) = toLex (pair.key, .toDual version) := by
  rw [sortKey, itemKeyLen_sorterItem h, sorterItem]
  simp only [List.append_assoc]
  rw [List.take_left, List.drop_left, List.take_left' (length_putLE 8 version), readLE_putLE_of_lt (by norm_num; exact hv)]

theorem length_key_le (pair : KVPair) : pair.key.length + 13 ≤ sizeOfSorterItem pair := by
  simp only [sizeOfSorterItem, sizeKeyLength]
  split_ifs <;> omega

theorem slice_append (a b c : Bytes) : slice (a ++ (b ++ c)) a.length (a.length + b.length) = some b := by
  rw [slice, if_pos (by simp), ← List.append_assoc, ← List.length_append, List.take_left, List.drop_left]

/-- An item that the sorter takes is decoded as the pair would be read. -/
theorem decodeSorterItem_sorterItem (h : sizeOfSorterItem pair < 2 ^ 32) :
    decodeSorterItem (sorterItem version pair) = some (putLE 8 version, readBack pair) := by
  have hmin := length_key_le pair
  have hsize := length_sorterItem version pair
  have hkeyLen : itemKeyLen (sorterItem version pair) = pair.key.length := itemKeyLen_sorterItem (by omega)
  have hoffset : (pair.key.length + 8) % 2 ^ 32 = pair.key.length + 8 := Nat.mod_eq_of_lt (by omega)
  have hnext : (pair.key.length + 8 + 1) % 2 ^ 32 = pair.key.length + 8 + 1 := Nat.mod_eq_of_lt (by omega)
  have hkey (rest : Bytes) : slice (pair.key ++ rest) 0 pair.key.length = some pair.key := by
    simpa using slice_append [] pair.key rest
  have hversion (rest : Bytes) : slice (pair.key ++ (putLE 8 version ++ rest)) pair.key.length (pair.key.length + 8) =
      some (putLE 8 version) := by
    simpa using slice_append pair.key (putLE 8 version) rest
  have hflag (flag : UInt8) (rest : Bytes) :
      (pair.key ++ (putLE 8 version ++ (flag :: rest)))[pair.key.length + 8]? = some flag := by
    rw [List.getElem?_append_right (by omega), List.getElem?_append_right (by simp)]
    simp
  rw [decodeSorterItem, if_neg (by rw [hsize, sizeKeyLength]; omega)]
  dsimp only
  rw [hkeyLen, hoffset, hnext, readBack]
  cases hd : pair.delete with
  | true =>
    simp only [sorterItem, hd, if_true, List.append_assoc, List.singleton_append, hkey, hversion, hflag,
      Option.bind_eq_bind, Option.bind_some]
  | false =>
    have hvalue := slice_append (pair.key ++ (putLE 8 version ++ [0])) (pair.value.getD []) (putLE 4 pair.key.length)
    have hend : (sorterItem version pair).length - sizeKeyLength = pair.key.length + 8 + 1 + valueLen pair := by
      rw [hsize, sizeOfSorterItem, hd, sizeKeyLength]
      simp
      omega
    simp only [List.length_append, length_putLE, List.length_singleton, List.append_assoc, List.singleton_append,
      ← Nat.add_assoc] at hvalue
    have hzero : ¬(0 : UInt8) = 1 := by decide
    rw [hend, valueLen, sorterItem, hd]
    simp only [Bool.false_eq_true, if_false, List.append_assoc, List.cons_append, List.nil_append, hkey, hversion,
      hflag, hzero, hvalue, Option.bind_eq_bind, Option.bind_some]

end IavlStore.Changeset
