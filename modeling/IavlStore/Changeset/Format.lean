import IavlStore.Base.Parsers
import IavlStore.Tree.Values
import Mathlib.Data.Nat.Log

/-! Change-set files: for each version a header with the version and the size of the payload, and
the pairs of the change set with variable-length sizes. Files are read record by record, either
with their pairs or skipping them, and the offset after the last complete record is reported. -/

namespace IavlStore.Changeset

open IavlStore.Base.Encoding IavlStore.Base.Parsers

/-! ### Writing -/

/-- The number of bits of a number. -/
def len64 (num : ℕ) : ℕ := if num = 0 then 0 else num.log2 + 1

/-- The number of bytes `PutUvarint` writes for a number. -/
def uvarintSize (num : ℕ) : ℕ :=
  let q := len64 num / 7
  let r := len64 num % 7
  if 0 < r ∨ q = 0 then q + 1 else q

/-- The length of the value; nil has none. -/
def valueLen (pair : KVPair) : ℕ := (pair.value.getD []).length

def encodedSizeOfKVPair (pair : KVPair) : ℕ :=
  let size := 1 + uvarintSize pair.key.length + pair.key.length
  if pair.delete then size else size + uvarintSize (valueLen pair) + valueLen pair

/-- Bytes put in a buffer; `none` where the buffer is too short for them. -/
def putAt (buf : Bytes) (offset : ℕ) (bs : Bytes) : Option Bytes :=
  if offset + bs.length ≤ buf.length then
    some (buf.take offset ++ bs ++ buf.drop (offset + bs.length))
  else none

/-- As many bytes as there is room for copied to a buffer; `none` for an offset outside of it. -/
def copyAt (buf : Bytes) (offset : ℕ) (bs : Bytes) : Option Bytes :=
  if offset ≤ buf.length then putAt buf offset (bs.take (buf.length - offset)) else none

/-- The buffer after all writes; `none` where one of them is out of range. -/
def encodeKVPair (pair : KVPair) : Option Bytes := do
  let buf := List.replicate (encodedSizeOfKVPair pair) 0
  let keyLen := putUvarint pair.key.length
  let buf ← putAt buf 1 keyLen
  let buf ← copyAt buf (1 + keyLen.length) pair.key
  if pair.delete then putAt buf 0 [1]
  else do
    let offset := 1 + keyLen.length + pair.key.length
    let size := putUvarint (valueLen pair)
    let buf ← putAt buf offset size
    copyAt buf (offset + size.length) (pair.value.getD [])

/-- The bits of a signed number. -/
def uint64 (n : ℤ) : ℕ := (n % 2 ^ 64).toNat

/-- The sum in 64 bits. -/
def addInt64 (a b : ℤ) : ℤ := int64 (uint64 (a + b))

def writeChangeSet (version : ℤ) (cs : ChangeSet) : Option Bytes := do
  let items ← cs.mapM encodeKVPair
  let size := (items.map List.length).sum
  return putLE 8 (uint64 version) ++ putLE 8 (uint64 size) ++ items.flatten

/-- A file with one record after the other. -/
def writeChangeSets (records : List (ℤ × ChangeSet)) : Option Bytes := do
  let written ← records.mapM fun r => writeChangeSet r.1 r.2
  return written.flatten

theorem natCast_uint64 (n : ℤ) : ((uint64 n : ℕ) : ℤ) = n % (2 ^ 64 : ℕ) :=
  Int.toNat_of_nonneg (Int.emod_nonneg n (Int.natCast_ne_zero.mpr (Nat.two_pow_pos 64).ne'))

theorem int64_uint64 {n : ℤ} (h : -2 ^ 63 ≤ n ∧ n < 2 ^ 63) : int64 (uint64 n) = n :=
  calc int64 (uint64 n) = Int.bmod (n % (2 ^ 64 : ℕ)) (2 ^ 64) := congrArg (Int.bmod · (2 ^ 64)) (natCast_uint64 n)
    _ = Int.bmod n (2 ^ 64) := Int.emod_bmod n (2 ^ 64)
    _ = n := Int.bmod_eq_of_le (by omega) (by omega)

theorem uint64_int64 {n : ℕ} (h : n < 2 ^ 64) : uint64 (int64 n) = n := by
  have hmod : int64 n % 2 ^ 64 = n :=
    Int.bmod_emod.trans (Int.emod_eq_of_lt (Int.natCast_nonneg n) (Int.ofNat_lt.mpr h))
  rw [uint64, hmod, Int.toNat_natCast]

theorem uint64_lt (n : ℤ) : uint64 n < 2 ^ 64 := by
  have hlt := Int.emod_lt_of_pos n (Int.natCast_pos.mpr (Nat.two_pow_pos 64))
  rw [← natCast_uint64] at hlt
  exact Int.ofNat_lt.mp hlt

theorem readLE_putLE_uint64 (n : ℤ) : readLE (putLE 8 (uint64 n)) = uint64 n :=
  readLE_putLE_of_lt (uint64_lt n)

theorem addInt64_of_lt {a b : ℕ} (h : a + b < 2 ^ 63) : addInt64 a b = (a + b : ℕ) := by
  rw [addInt64, int64_uint64 (by omega), Nat.cast_add]

theorem uvarintSize_small {num : ℕ} (h : num < 128) : uvarintSize num = 1 := by
  have hlen : len64 num ≤ 7 := by
    unfold len64
    split_ifs with h0
    · omega
    · exact (Nat.log2_lt h0).mpr h
  unfold uvarintSize
  dsimp only
  split_ifs with hr <;> omega

theorem uvarintSize_div {num : ℕ} (h : 128 ≤ num) : uvarintSize num = uvarintSize (num / 128) + 1 := by
  have hlog : (num / 128).log2 = num.log2 - 7 := by
    rw [Nat.log2_eq_log_two, Nat.log2_eq_log_two]
    exact Nat.log_div_base_pow 2 num 7
  have hge : 7 ≤ num.log2 := (Nat.le_log2 (by omega)).mpr h
  have hlen : len64 num = len64 (num / 128) + 7 := by
    rw [len64, len64, if_neg (by omega), if_neg (by omega), hlog]
    omega
  have hpos : len64 (num / 128) ≠ 0 := by
    rw [len64, if_neg (by omega)]
    omega
  unfold uvarintSize
  dsimp only
  split_ifs <;> omega

/-- A number takes the bytes that `uvarintSize` counts. -/
theorem length_putUvarintAux {size num : ℕ} (h : num < 128 ^ (size + 1)) :
    (putUvarintAux (size + 1) num).length = uvarintSize num := by
  induction size generalizing num with
  | zero =>
    have hsmall : num < 128 := by simpa using h
    rw [putUvarintAux, if_pos hsmall, uvarintSize_small hsmall, List.length_singleton]
  | succ size ih =>
    by_cases hsmall : num < 128
    · rw [putUvarintAux, if_pos hsmall, uvarintSize_small hsmall, List.length_singleton]
    · have hdiv : num / 128 < 128 ^ (size + 1) := Nat.div_lt_of_lt_mul (by rwa [pow_succ'] at h)
      rw [putUvarintAux, if_neg hsmall, uvarintSize_div (by omega), List.length_cons, ih hdiv]

theorem length_putUvarint {num : ℕ} (h : num < 2 ^ 64) : (putUvarint num).length = uvarintSize num :=
  length_putUvarintAux (h.trans (by decide))

/-- What follows the deletion flag. -/
def layout (pair : KVPair) : Bytes :=
  putUvarint pair.key.length ++ pair.key ++
    if pair.delete then [] else putUvarint (valueLen pair) ++ pair.value.getD []

/-- Both slices of the pair have a length that an `int` holds. -/
def SliceLengths (pair : KVPair) : Prop := pair.key.length < 2 ^ 63 ∧ valueLen pair < 2 ^ 63

theorem length_layout {pair : KVPair} (h : SliceLengths pair) :
    (layout pair).length + 1 = encodedSizeOfKVPair pair := by
  obtain ⟨hkey, hvalue⟩ := h
  have hk := length_putUvarint (hkey.trans (by decide))
  have hv := length_putUvarint (hvalue.trans (by decide))
  unfold layout encodedSizeOfKVPair
  split_ifs
  · simp only [List.length_append, List.length_nil, hk]
    omega
  · have hdef : (pair.value.getD []).length = valueLen pair := rfl
    simp only [List.length_append, hk, hv, hdef]
    omega

theorem putAt_room (done bs : Bytes) (k : ℕ) :
    putAt (done ++ List.replicate (bs.length + k) 0) done.length bs = some (done ++ bs ++ List.replicate k 0) := by
  rw [putAt, if_pos (by simp), List.take_left, List.drop_append]
  simp

theorem copyAt_room (done bs : Bytes) (k : ℕ) :
    copyAt (done ++ List.replicate (bs.length + k) 0) done.length bs = some (done ++ bs ++ List.replicate k 0) := by
  rw [copyAt, if_pos (by simp), List.take_of_length_le (by simp), putAt_room]

/-- The writes fill the buffer: nothing is out of range, cut off or left over. -/
theorem encodeKVPair_eq {pair : KVPair} (h : SliceLengths pair) :
    encodeKVPair pair = some ((if pair.delete then 1 else 0) :: layout pair) := by
  have hsize := length_layout h
  have hroom (k : ℕ) : List.replicate (k + 1) (0 : UInt8) = [0] ++ List.replicate k 0 := List.replicate_succ
  have hkeyLen (k : ℕ) := putAt_room [0] (putUvarint pair.key.length) k
  have hkey (k : ℕ) := copyAt_room ([0] ++ putUvarint pair.key.length) pair.key k
  have hvalueLen (k : ℕ) :=
    putAt_room ([0] ++ putUvarint pair.key.length ++ pair.key) (putUvarint (valueLen pair)) k
  have hvalue :=
    copyAt_room ([0] ++ putUvarint pair.key.length ++ pair.key ++ putUvarint (valueLen pair)) (pair.value.getD []) 0
  simp only [List.length_append, List.length_singleton] at hkeyLen hkey hvalueLen hvalue
  rw [encodeKVPair, ← hsize, hroom, layout]
  cases hd : pair.delete with
  | true =>
    have hkey := hkey 0
    rw [Nat.add_zero] at hkey
    simp only [if_true, List.append_nil, List.length_append, hkeyLen, hkey, Option.bind_eq_bind, Option.bind_some,
      List.replicate_zero]
    rfl
  | false =>
    have hlen : (putUvarint pair.key.length ++ pair.key ++ (putUvarint (valueLen pair) ++ pair.value.getD [])).length =
        (putUvarint pair.key.length).length +
          (pair.key.length + ((putUvarint (valueLen pair)).length + ((pair.value.getD []).length + 0))) := by
      simp only [List.length_append, Nat.add_zero, Nat.add_assoc]
    simp only [Bool.false_eq_true, if_false, hlen, hkeyLen, hkey, hvalueLen, hvalue, Option.bind_eq_bind,
      Option.bind_some]
    simp

/-! ### Reading -/

inductive ReadChangeSetError where
  | read (err : ReadError)
  /-- A length for which no slice can be made. -/
  | makeSlice
  | beyondPayload (size offset : ℤ)
  deriving DecidableEq

/-- A new slice, filled from the reader. -/
def readSlice (len : ℕ) : Parser UInt8 ReadChangeSetError Bytes :=
  if 2 ^ 63 ≤ len then throw .makeSlice else lift .read (readFull len)

def readKVPair : Parser UInt8 ReadChangeSetError KVPair := do
  let deletion ← lift .read readByte
  let keyLen ← lift .read readUvarint
  let key ← readSlice keyLen
  if deletion = 1 then pure ⟨true, key, none⟩
  else do
    let valueLen ← lift .read readUvarint
    let value ← readSlice valueLen
    pure ⟨false, key, some value⟩

/-- The pairs from an offset to the size of the payload, and the offset after them. Every pair
counts at least one byte, so that `size` rounds are enough. All pairs are kept in memory, so that
their sizes do not overflow. -/
def readPairs (size : ℤ) : ℕ → ℤ → Parser UInt8 ReadChangeSetError (ChangeSet × ℤ)
  | 0, offset => pure ([], offset)
  | rounds + 1, offset =>
    if offset < size then do
      let pair ← readKVPair
      let (pairs, last) ← readPairs size rounds (offset + encodedSizeOfKVPair pair)
      pure (pair :: pairs, last)
    else pure ([], offset)

/-- What `io.CopyN` leaves of the input: nothing is read for a negative number of bytes. -/
def discard (n : ℤ) : Parser UInt8 ReadChangeSetError Unit := fun bs =>
  if bs.length < n then .error (.read .eof) else .ok ((), bs.drop n.toNat)

/-- The version, the number of bytes read and the pairs of the next record. -/
def readChangeSet (parseChangeset : Bool) : Parser UInt8 ReadChangeSetError (ℤ × ℤ × ChangeSet) := do
  let versionHeader ← lift .read (readFull 16)
  let version := int64 (readLE (versionHeader.take 8))
  let size := int64 (readLE (versionHeader.drop 8))
  if size = 0 then pure (version, 16, [])
  else if parseChangeset then do
    let (pairs, offset) ← readPairs size size.toNat 0
    if offset ≠ size then throw (.beyondPayload size offset)
    else pure (version, addInt64 size 16, pairs)
  else do
    discard size
    pure (version, addInt64 size 16, [])

/-- An error of the reader or of the callback. -/
inductive IterateError (E : Type) where
  | read (err : ReadChangeSetError)
  | callback (err : E)
  deriving DecidableEq

structure IterateResult (S E : Type) where
  lastCompleteOffset : ℤ
  state : S
  err : Option (IterateError E)
  deriving DecidableEq

/-- The end of the input is no error. -/
def withoutEOF {E : Type} : IterateError E → Option (IterateError E)
  | .read (.read .eof) => none
  | e => some e

variable {S E : Type}

/-- Records are read and passed to a callback with a state until it stops or an error occurs. Every
record takes some of the input, so that after as many rounds as bytes the input has ended. -/
def iterate (parseChangeset : Bool) (fn : ℤ → ChangeSet → S → S × Except (IterateError E) Bool) :
    ℕ → Bytes → ℤ → S → IterateResult S E
  | 0, _, offset, s => ⟨offset, s, none⟩
  | rounds + 1, bs, offset, s =>
    match readChangeSet parseChangeset bs with
    | .error e => ⟨offset, s, withoutEOF (.read e)⟩
    | .ok ((version, n, cs), rest) =>
      match fn version cs s with
      | (s, .error e) => ⟨offset, s, withoutEOF e⟩
      | (s, .ok true) => iterate parseChangeset fn rounds rest (addInt64 offset n) s
      | (s, .ok false) => ⟨addInt64 offset n, s, none⟩

def iterateChangeSets (fn : ℤ → ChangeSet → S → S × Except (IterateError E) Bool) (bs : Bytes) (s : S) :
    IterateResult S E :=
  iterate true fn bs.length bs 0 s

def iterateVersions (fn : ℤ → S → S × Except (IterateError E) Bool) (bs : Bytes) (s : S) : IterateResult S E :=
  iterate false (fun version _ => fn version) bs.length bs 0 s

end IavlStore.Changeset
