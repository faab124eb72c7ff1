import IavlStore.Base.Wire
import Mathlib.Data.Nat.Bitwise

/-! Messages written from the back to the front of a buffer of the right size. A write takes the
buffer and the place before which it is free, and fails where it would be out of range. What a
sequence of writes leaves in the buffer is the concatenation of what they write, last write first. -/

namespace IavlStore.Base.Wire

open IavlStore.Base.Encoding

/-! ### Writes -/

/-- One byte of a buffer. -/
def setByte (dAtA : Bytes) (offset : ℕ) (b : UInt8) : Option Bytes :=
  if offset < dAtA.length then some (dAtA.set offset b) else none

/-- As many bytes as there is room for. -/
def copyTo (dAtA : Bytes) (offset : ℕ) (data : Bytes) : Option Bytes :=
  if offset ≤ dAtA.length then
    some (dAtA.take offset ++ data.take (dAtA.length - offset) ++ dAtA.drop (offset + data.length))
  else none

/-- The number of bytes of a number; one more than the logarithm is the number of bits. -/
def sov (v : ℕ) : ℕ := ((v ||| 1).log2 + 1 + 6) / 7

def encodeVarintLoop : ℕ → Bytes → ℕ → ℕ → Option Bytes
  | 0, _, _, _ => none
  | fuel + 1, dAtA, offset, v =>
    if v < 128 then setByte dAtA offset (UInt8.ofNat v)
    else do
      let dAtA ← setByte dAtA offset (UInt8.ofNat (v % 128 + 128))
      encodeVarintLoop fuel dAtA (offset + 1) (v / 128)

/-- A number of 64 bits takes ten bytes at most. -/
def encodeVarint (v : ℕ) (dAtA : Bytes) (i : ℕ) : Option (Bytes × ℕ) :=
  if i < sov v then none
  else do
    let dAtA ← encodeVarintLoop 10 dAtA (i - sov v) v
    return (dAtA, i - sov v)

/-- A write into a buffer that is free before a place. -/
abbrev Write := Bytes × ℕ → Option (Bytes × ℕ)

def putByte (b : UInt8) : Write := fun (dAtA, i) =>
  if i = 0 then none else (setByte dAtA (i - 1) b).map fun dAtA => (dAtA, i - 1)

def putVarintField (tag : UInt8) (v : ℕ) : Write := fun (dAtA, i) => do
  putByte tag (← encodeVarint v dAtA i)

def putBytesField (tag : UInt8) (data : Bytes) : Write := fun (dAtA, i) =>
  if i < data.length then none
  else do
    let i := i - data.length
    let dAtA ← copyTo dAtA i data
    putByte tag (← encodeVarint data.length dAtA i)

/-- A message inside of another is written to the free part; the length follows. -/
def putMessageField (tag : UInt8) (marshalToSizedBuffer : Bytes → Option (Bytes × ℕ)) : Write := fun (dAtA, i) => do
  let (sub, size) ← marshalToSizedBuffer (dAtA.take i)
  putByte tag (← encodeVarint size (sub ++ dAtA.drop i) (i - size))

/-- A field that may be left out. -/
def putIf (c : Prop) [Decidable c] (w : Write) : Write := if c then w else some

/-- From the end of the buffer; the number of bytes written is returned. -/
def toSizedBuffer (w : Write) (dAtA : Bytes) : Option (Bytes × ℕ) :=
  (w (dAtA, dAtA.length)).map fun r => (r.1, dAtA.length - r.2)

/-- The message in a new buffer of its size. -/
def marshal (size : ℕ) (marshalToSizedBuffer : Bytes → Option (Bytes × ℕ)) : Option Bytes := do
  let (dAtA, n) ← marshalToSizedBuffer (List.replicate size 0)
  return dAtA.take n

/-! ### What is written -/

/-- A field with a number. -/
def varintField (tag : UInt8) (v : ℕ) : Bytes := tag :: putUvarint v

/-- A field with bytes, their length first. -/
def bytesField (tag : UInt8) (data : Bytes) : Bytes := varintField tag data.length ++ data

/-- The write fills the end of the free part and leaves the rest of the buffer as it is. -/
def Writes (w : Write) (enc : Bytes) : Prop :=
  ∀ free room post : Bytes, room.length = enc.length →
    w (free ++ (room ++ post), free.length + room.length) = some (free ++ (enc ++ post), free.length)

/-- The message is at the end of the buffer, and its size is returned. -/
def Fills (marshalToSizedBuffer : Bytes → Option (Bytes × ℕ)) (enc : Bytes) : Prop :=
  ∀ free room : Bytes, room.length = enc.length →
    marshalToSizedBuffer (free ++ room) = some (free ++ enc, enc.length)

theorem putUvarintAux_length_le_iff (size : ℕ) {v s : ℕ} (hv : v < 128 ^ (size + 1)) (hs : 0 < s) :
    (putUvarintAux (size + 1) v).length ≤ s ↔ v < 128 ^ s := by
  induction size generalizing v s with
  | zero =>
    have hlt : v < 128 := by simpa using hv
    have hpow : 128 ^ 1 ≤ 128 ^ s := Nat.pow_le_pow_right (by omega) hs
    rw [putUvarintAux, if_pos hlt, List.length_singleton]
    constructor <;> intro <;> omega
  | succ size ih =>
    rw [putUvarintAux]
    split_ifs with hlt
    · have hpow : 128 ^ 1 ≤ 128 ^ s := Nat.pow_le_pow_right (by omega) hs
      rw [List.length_singleton]
      constructor <;> intro <;> omega
    · have hdiv : v / 128 < 128 ^ (size + 1) := Nat.div_lt_of_lt_mul (by rwa [pow_succ'] at hv)
      obtain ⟨s, rfl⟩ := Nat.exists_eq_add_of_le' hs
      rcases Nat.eq_zero_or_pos s with rfl | hs'
      · have hpos : 0 < (putUvarintAux (size + 1) (v / 128)).length := by
          rw [putUvarintAux]
          split_ifs <;> simp
        rw [List.length_cons, zero_add, pow_one]
        constructor <;> intro <;> omega
      · rw [List.length_cons, Nat.add_le_add_iff_right, ih hdiv hs', Nat.div_lt_iff_lt_mul (by omega), pow_succ]

theorem sov_le_iff {v s : ℕ} (hs : 0 < s) : sov v ≤ s ↔ v < 128 ^ s := by
  have hor : v ||| 1 < 2 ^ (7 * s) ↔ v < 2 ^ (7 * s) := by
    constructor
    · exact fun h => Nat.left_le_or.trans_lt h
    · exact fun h => Nat.or_lt_two_pow h (Nat.one_lt_two_pow (by omega))
  have hne : v ||| 1 ≠ 0 := by simp
  rw [show (128 : ℕ) = 2 ^ 7 by rfl, ← pow_mul, ← hor, ← Nat.log2_lt hne, sov]
  omega

/-- The room reserved for a number is what the number takes. -/
theorem length_putUvarint {v : ℕ} (hv : v < 2 ^ 64) : (putUvarint v).length = sov v := by
  have hpos : 0 < (putUvarint v).length := by
    rw [putUvarint, putUvarintAux]
    split_ifs <;> simp
  have hsov : 0 < sov v := by
    unfold sov
    omega
  have hiff {s : ℕ} (hs : 0 < s) : (putUvarint v).length ≤ s ↔ sov v ≤ s := by
    rw [putUvarint, putUvarintAux_length_le_iff 9 (by omega) hs, sov_le_iff hs]
  exact le_antisymm ((hiff hsov).mpr le_rfl) ((hiff hpos).mp le_rfl)

theorem encodeVarintLoop_eq (fuel : ℕ) {v : ℕ} (hv : v < 128 ^ (fuel + 1)) (done : Bytes) {room : Bytes}
    (hroom : room.length = (putUvarintAux (fuel + 1) v).length) (post : Bytes) :
    encodeVarintLoop (fuel + 1) (done ++ (room ++ post)) done.length v =
      some (done ++ (putUvarintAux (fuel + 1) v ++ post)) := by
  have hset (b r : UInt8) (rest done : Bytes) :
      setByte (done ++ r :: rest) done.length b = some (done ++ b :: rest) := by
    simp [setByte]
  induction fuel generalizing v done room with
  | zero =>
    have hlt : v < 128 := by simpa using hv
    rw [putUvarintAux, if_pos hlt] at hroom ⊢
    obtain ⟨r, rfl⟩ := List.length_eq_one_iff.mp hroom
    rw [encodeVarintLoop, if_pos hlt]
    exact hset _ _ _ _
  | succ fuel ih =>
    rw [putUvarintAux] at hroom ⊢
    rw [encodeVarintLoop]
    split_ifs at hroom ⊢ with hlt
    · obtain ⟨r, rfl⟩ := List.length_eq_one_iff.mp hroom
      exact hset _ _ _ _
    · have hdiv : v / 128 < 128 ^ (fuel + 1) := Nat.div_lt_of_lt_mul (by rwa [pow_succ'] at hv)
      obtain _ | ⟨r, room⟩ := room
      · simp at hroom
      have hnext := ih hdiv (done ++ [UInt8.ofNat (v % 128 + 128)]) (Nat.succ.inj hroom)
      simp only [List.append_assoc, List.singleton_append, List.length_append, List.length_singleton] at hnext
      rw [List.cons_append, hset, Option.bind_eq_bind, Option.bind_some, hnext]
      rfl

theorem encodeVarint_eq {v : ℕ} (hv : v < 2 ^ 64) {free room post : Bytes} (hroom : room.length = (putUvarint v).length) :
    encodeVarint v (free ++ (room ++ post)) (free.length + room.length) =
      some (free ++ (putUvarint v ++ post), free.length) := by
  have hsov : room.length = sov v := hroom.trans (length_putUvarint hv)
  rw [encodeVarint, if_neg (by omega), hsov, Nat.add_sub_cancel, encodeVarintLoop_eq 9 (by omega) free hroom]
  rfl

/-! ### Sequences of writes -/

theorem writes_skip : Writes some [] := by
  intro free room post hroom
  obtain rfl := List.eq_nil_of_length_eq_zero hroom
  rfl

theorem exists_split {room : Bytes} {a b : ℕ} (h : room.length = a + b) :
    ∃ r₁ r₂ : Bytes, room = r₁ ++ r₂ ∧ r₁.length = a ∧ r₂.length = b := by
  refine ⟨room.take a, room.drop a, (List.take_append_drop a room).symm, ?_, ?_⟩
  · rw [List.length_take]
    omega
  · rw [List.length_drop]
    omega

/-- The second write goes before the first. -/
theorem Writes.bind {w₁ w₂ : Write} {e₁ e₂ : Bytes} (h₁ : Writes w₁ e₁) (h₂ : Writes w₂ e₂) :
    Writes (w₁ >=> w₂) (e₂ ++ e₁) := by
  intro free room post hroom
  obtain ⟨r₂, r₁, rfl, hr₂, hr₁⟩ := exists_split (hroom.trans List.length_append)
  have hfirst := h₁ (free ++ r₂) r₁ post hr₁
  have hsecond := h₂ free r₂ (e₁ ++ post) hr₂
  simp only [List.append_assoc, List.length_append, Nat.add_assoc] at hfirst hsecond ⊢
  show w₁ _ >>= w₂ = _
  rw [hfirst]
  exact hsecond

theorem writes_putByte (b : UInt8) : Writes (putByte b) [b] := by
  intro free room post hroom
  obtain ⟨r, rfl⟩ := List.length_eq_one_iff.mp hroom
  simp [putByte, setByte]

theorem writes_encodeVarint {v : ℕ} (hv : v < 2 ^ 64) :
    Writes (fun b => encodeVarint v b.1 b.2) (putUvarint v) := by
  intro free room post hroom
  exact encodeVarint_eq hv hroom

theorem writes_putVarintField (tag : UInt8) {v : ℕ} (hv : v < 2 ^ 64) :
    Writes (putVarintField tag v) (varintField tag v) :=
  (writes_encodeVarint hv).bind (writes_putByte tag)

theorem copyTo_eq (free : Bytes) {room data : Bytes} (hroom : room.length = data.length) (post : Bytes) :
    copyTo (free ++ (room ++ post)) free.length data = some (free ++ (data ++ post)) := by
  have hdrop : (free ++ (room ++ post)).drop (free.length + data.length) = post := by
    rw [← hroom, ← List.append_assoc, ← List.length_append, List.drop_left]
  have htake : data.take ((free ++ (room ++ post)).length - free.length) = data := by
    apply List.take_of_length_le
    simp only [List.length_append]
    omega
  rw [copyTo, if_pos (by simp), List.take_left, htake, hdrop, List.append_assoc]

theorem writes_putBytesField (tag : UInt8) {data : Bytes} (hdata : data.length < 2 ^ 64) :
    Writes (putBytesField tag data) (bytesField tag data) := by
  intro free room post hroom
  obtain ⟨r₂, r₁, rfl, hr₂, hr₁⟩ := exists_split (hroom.trans List.length_append)
  have hlength := writes_putVarintField tag hdata free r₂ (data ++ post) hr₂
  have hcopy := copyTo_eq (free ++ r₂) hr₁ post
  have hfree : free.length + (r₂ ++ r₁).length - data.length = free.length + r₂.length := by
    rw [List.length_append]
    omega
  simp only [List.append_assoc, List.length_append] at hcopy hfree ⊢
  simp only [putBytesField, if_neg (show ¬ free.length + (r₂.length + r₁.length) < data.length by omega), hfree, hcopy]
  rw [bytesField, List.append_assoc]
  exact hlength

/-- The size of the message inside is the length written before it. -/
theorem writes_putMessageField (tag : UInt8) {marshalToSizedBuffer : Bytes → Option (Bytes × ℕ)} {enc : Bytes}
    (henc : enc.length < 2 ^ 64) (h : Fills marshalToSizedBuffer enc) :
    Writes (putMessageField tag marshalToSizedBuffer) (bytesField tag enc) := by
  intro free room post hroom
  obtain ⟨r₂, r₁, rfl, hr₂, hr₁⟩ := exists_split (hroom.trans List.length_append)
  have hlength := writes_putVarintField tag henc free r₂ (enc ++ post) hr₂
  have hsub := h (free ++ r₂) r₁ hr₁
  have hfree : free.length + (r₂ ++ r₁).length - enc.length = free.length + r₂.length := by
    rw [List.length_append]
    omega
  have htake : (free ++ (r₂ ++ r₁ ++ post)).take (free.length + (r₂ ++ r₁).length) = free ++ r₂ ++ r₁ := by
    simp only [← List.append_assoc, ← List.length_append, List.take_left]
  have hdrop : (free ++ (r₂ ++ r₁ ++ post)).drop (free.length + (r₂ ++ r₁).length) = post := by
    simp only [← List.append_assoc, ← List.length_append, List.drop_left]
  simp only [putMessageField, htake, hsub, hdrop, Option.bind_eq_bind, Option.bind_some, hfree]
  rw [bytesField, List.append_assoc, List.append_assoc, List.append_assoc]
  exact hlength

theorem Writes.fills {w : Write} {enc : Bytes} (h : Writes w enc) : Fills (toSizedBuffer w) enc := by
  intro free room hroom
  have hw := h free room [] hroom
  rw [List.append_nil, List.append_nil, ← List.length_append] at hw
  simp only [toSizedBuffer, hw, Option.map_some]
  rw [List.length_append, Nat.add_sub_cancel_left, hroom]

/-! ### Sizes -/

/-- The size counted in advance is the number of bytes written. -/
structure Encodes (size : ℕ) (w : Write) (enc : Bytes) : Prop where
  length : enc.length = size
  writes : Writes w enc

section Encodes
variable {n n₁ n₂ : ℕ} {w w₁ w₂ : Write} {enc e₁ e₂ : Bytes}

theorem Encodes.bind (h₁ : Encodes n₁ w₁ e₁) (h₂ : Encodes n₂ w₂ e₂) :
    Encodes (n₂ + n₁) (w₁ >=> w₂) (e₂ ++ e₁) :=
  ⟨by rw [List.length_append, h₁.length, h₂.length], h₁.writes.bind h₂.writes⟩

theorem encodes_skip : Encodes 0 some [] := ⟨rfl, writes_skip⟩

theorem encodes_putByte (b : UInt8) : Encodes 1 (putByte b) [b] := ⟨rfl, writes_putByte b⟩

theorem encodes_putVarintField (tag : UInt8) {v : ℕ} (hv : v < 2 ^ 64) :
    Encodes (1 + sov v) (putVarintField tag v) (varintField tag v) := by
  refine ⟨?_, writes_putVarintField tag hv⟩
  rw [varintField, List.length_cons, length_putUvarint hv, Nat.add_comm]

theorem encodes_putBytesField (tag : UInt8) {data : Bytes} (hdata : data.length < 2 ^ 64) :
    Encodes (1 + data.length + sov data.length) (putBytesField tag data) (bytesField tag data) := by
  refine ⟨?_, writes_putBytesField tag hdata⟩
  rw [bytesField, List.length_append, (encodes_putVarintField tag hdata).length, Nat.add_right_comm]

theorem Encodes.messageField (tag : UInt8) (h : Encodes n w enc) (hn : n < 2 ^ 64) :
    Encodes (1 + n + sov n) (putMessageField tag (toSizedBuffer w)) (bytesField tag enc) := by
  obtain ⟨rfl, hw⟩ := h
  exact ⟨(encodes_putBytesField tag hn).length, writes_putMessageField tag hn hw.fills⟩

/-- A message is written as a whole into a buffer of its size. -/
theorem Encodes.marshal_eq (h : Encodes n w enc) : marshal n (toSizedBuffer w) = some enc := by
  obtain ⟨rfl, hw⟩ := h
  have hfill := hw.fills [] (List.replicate enc.length 0) (by simp)
  rw [List.nil_append, List.nil_append] at hfill
  simp [marshal, hfill]

end Encodes

end IavlStore.Base.Wire
