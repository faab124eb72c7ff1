import IavlStore.Base.Parsers
import IavlStore.Extsort.Merge

/-! Chunk files: the items of a sorted chunk, each with its length, or with the number of bytes
it shares with the item before and the rest. A file yields the items that were written to it. -/

namespace IavlStore.Extsort

open IavlStore.Base.Encoding IavlStore.Base.Parsers

/-- The number of bytes two strings share from the start. -/
def diffOffset : Bytes → Bytes → ℕ
  | a :: as, b :: bs => if a = b then diffOffset as bs + 1 else 0
  | _, _ => 0

/-- What the delta encoder writes for a key after the key before. -/
def deltaWrite (last key : Bytes) : Bytes :=
  let shared := diffOffset last key
  putUvarint shared ++ putUvarint (key.length - shared) ++ key.drop shared

def plainWrite (item : Bytes) : Bytes := putUvarint item.length ++ item

inductive StreamError where
  | read (err : ReadError)
  /-- A slice that cannot be made, or does not have these bytes. -/
  | outOfRange
  deriving DecidableEq

/-- The delta decoder, after the item before. -/
def deltaRead (last : Bytes) : Parser UInt8 StreamError Bytes := do
  let shared ← lift .read readUvarint
  let nonShared ← lift .read readUvarint
  let len := (shared + nonShared) % 2 ^ 64
  if 2 ^ 63 ≤ len ∨ len < shared ∨ last.length < shared then throw .outOfRange
  else do
    let tail ← lift .read (readFull (len - shared))
    pure (last.take shared ++ tail)

/-- The rest of an item whose size was read. -/
def plainRead (size : ℕ) : Parser UInt8 StreamError Bytes :=
  if 2 ^ 63 ≤ size then throw .outOfRange else lift .read (readFull size)

/-- A chunk file that is being read. -/
structure ChunkStream where
  deltaEncoding : Bool
  reader : Bytes
  last : Bytes

/-- The next item, or nil at the end of the file. -/
def ChunkStream.next (s : ChunkStream) : Except StreamError (Option Bytes × ChunkStream) :=
  if s.deltaEncoding then
    match deltaRead s.last s.reader with
    | .error (.read .eof) => .ok (none, { s with reader := [] })
    | .error e => .error e
    | .ok (item, rest) => .ok (some item, { s with reader := rest, last := item })
  else
    match readUvarint s.reader with
    | .error .eof => .ok (none, s)
    | .error e => .error (.read e)
    | .ok (size, rest) =>
      match plainRead size rest with
      | .error e => .error e
      | .ok (item, rest) => .ok (some item, { s with reader := rest })

/-- The items of a chunk, one after the other. -/
def writeItems (deltaEncoding : Bool) : Bytes → List Bytes → Bytes
  | _, [] => []
  | last, item :: items =>
    (if deltaEncoding then deltaWrite last item else plainWrite item) ++ writeItems deltaEncoding item items

/-! ### Reading what was written -/

theorem diffOffset_le (a b : Bytes) : diffOffset a b ≤ a.length ∧ diffOffset a b ≤ b.length := by
  induction a generalizing b with
  | nil => simp [diffOffset]
  | cons x a ih =>
    rcases b with _ | ⟨y, b⟩
    · simp [diffOffset]
    · have h := ih b
      simp only [diffOffset, List.length_cons]
      split_ifs <;> omega

theorem take_diffOffset (a b : Bytes) : a.take (diffOffset a b) = b.take (diffOffset a b) := by
  induction a generalizing b with
  | nil => simp [diffOffset]
  | cons x a ih =>
    rcases b with _ | ⟨y, b⟩
    · simp [diffOffset]
    · rw [diffOffset]
      split_ifs with hxy
      · rw [List.take_succ_cons, List.take_succ_cons, ih b, hxy]
      · rfl

theorem exact_deltaRead (last : Bytes) {key : Bytes} (hkey : key.length < 2 ^ 63) :
    Exact (deltaRead last) key (deltaWrite last key) := by
  obtain ⟨hlast, hle⟩ := diffOffset_le last key
  have htail := exact_readFull (key.drop (diffOffset last key))
  rw [List.length_drop] at htail
  have hshared := exact_readUvarint (show diffOffset last key < 2 ^ 64 by omega)
  have hrest := exact_readUvarint (show key.length - diffOffset last key < 2 ^ 64 by omega)
  have hlen : (diffOffset last key + (key.length - diffOffset last key)) % 2 ^ 64 = key.length := by
    rw [Nat.add_sub_cancel' hle, Nat.mod_eq_of_lt (by omega)]
  rw [deltaWrite, List.append_assoc]
  refine hshared.lift.bind (hrest.lift.bind ?_)
  dsimp only
  rw [hlen, if_neg (by omega)]
  refine htail.lift.bind_pure ?_
  rw [take_diffOffset, List.take_append_drop]

theorem exact_plainRead {item : Bytes} (h : item.length < 2 ^ 63) : Exact (plainRead item.length) item item := by
  rw [plainRead, if_neg (not_le.mpr h)]
  exact (exact_readFull item).lift

/-- A file yields its items and then nil. Only the delta decoder looks at the item before. -/
theorem yields_writeItems {deltaEncoding : Bool} {last last' : Bytes} (hlast : deltaEncoding = true → last' = last)
    {items : List Bytes} (h : ∀ item ∈ items, item.length < 2 ^ 63) :
    Yields ChunkStream.next ⟨deltaEncoding, writeItems deltaEncoding last items, last'⟩ items := by
  induction items generalizing last last' with
  | nil =>
    cases deltaEncoding with
    | true => exact .nil rfl
    | false => exact .nil rfl
  | cons item items ih =>
    have hitem := h item List.mem_cons_self
    have hitems : ∀ i ∈ items, i.length < 2 ^ 63 := fun i hi => h i (List.mem_cons_of_mem item hi)
    cases deltaEncoding with
    | true =>
      obtain rfl := hlast rfl
      have hread := (exact_deltaRead last' hitem).reads (writeItems true item items)
      have hnext : ChunkStream.next ⟨true, writeItems true last' (item :: items), last'⟩ =
          .ok (some item, ⟨true, writeItems true item items, item⟩) := by
        simp only [ChunkStream.next, writeItems, if_true, hread]
      exact .cons hnext (ih (fun _ => rfl) hitems)
    | false =>
      have hsize := readUvarint_put (show item.length < 2 ^ 64 by omega) (item ++ writeItems false item items)
      have hread := (exact_plainRead hitem).reads (writeItems false item items)
      have hnext : ChunkStream.next ⟨false, writeItems false last (item :: items), last'⟩ =
          .ok (some item, ⟨false, writeItems false item items, last'⟩) := by
        simp only [ChunkStream.next, writeItems, Bool.false_eq_true, if_false, plainWrite, List.append_assoc, hsize,
          hread]
      exact .cons hnext (ih (fun h => by cases h) hitems)

end IavlStore.Extsort
