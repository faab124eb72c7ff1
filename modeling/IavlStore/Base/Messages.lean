import IavlStore.Base.SizedBuffers

/-! Messages that are written and decoded field by field. A message is described by its size, the
write of its fields, last field first, and what each field does to a message when it is decoded.
The rules follow the shape of the write: what it says about a message is that it fits the size
counted in advance, and which message the bytes are decoded to. -/

namespace IavlStore.Base.Wire

open IavlStore.Base.Encoding

structure Message (M : Type) where
  size : M → ℕ
  write : M → Write
  fields : ℤ → Option (FieldDecoder M)
  /-- The message that is decoded into, with all fields unset. -/
  zero : M

namespace Message
variable {M : Type} (c : Message M)

def marshalToSizedBuffer (m : M) : Bytes → Option (Bytes × ℕ) := toSizedBuffer (c.write m)

def marshal (m : M) : Option Bytes := Wire.marshal (c.size m) (c.marshalToSizedBuffer m)

def unmarshal (dAtA : Bytes) (m : M) : Except DecodeError M := Wire.unmarshal c.fields dAtA m

/-- A new element of a list. -/
def unmarshalNew (dAtA : Bytes) : Except DecodeError M := c.unmarshal dAtA c.zero

end Message

/-! ### Reading fields -/

section Fields
variable {M : Type} {fields : ℤ → Option (FieldDecoder M)} {m m' : M}

theorem unmarshal_of_field {bs : Bytes} (hne : bs ≠ [])
    (h : unmarshalField fields bs.length bs m = .ok (m', [])) : unmarshal fields bs m = .ok m' := by
  obtain ⟨n, hn⟩ := Nat.exists_eq_add_of_le' (List.length_pos_iff.mpr hne)
  rw [unmarshal, hn, unmarshalLoop, if_neg hne, ← hn]
  simp only [h, bind, Except.bind]
  cases n <;> rfl

theorem int32_tag {wire : ℕ} (hwire : wire < 128) : int32 (wire / 8) = (wire / 8 : ℕ) :=
  Int.bmod_eq_of_le (by omega) (by omega)

/-- A field whose number and wire type fit in a byte. -/
theorem unmarshal_varintField {wire v : ℕ} (hwire : 8 ≤ wire ∧ wire < 128 ∧ wire % 8 = 0) (hv : v < 2 ^ 64)
    {set : ℕ → M → M} (hfield : fields (wire / 8 : ℕ) = some (.varint set)) :
    unmarshal fields (varintField (UInt8.ofNat wire) v) m = .ok (set v m) := by
  obtain ⟨hpos, hlt, hmod⟩ := hwire
  have hread := readVarint_put hv []
  rw [List.append_nil] at hread
  apply unmarshal_of_field (by simp [varintField])
  simp only [unmarshalField, varintField, readVarint_byte hlt, bind, Except.bind, int32_tag hlt]
  rw [if_neg (by omega), if_neg (by omega), hfield]
  simp only [hmod, ne_eq, not_true_eq_false, if_false, hread]

theorem unmarshal_bytesField {wire : ℕ} {data : Bytes} (hwire : 8 ≤ wire ∧ wire < 128 ∧ wire % 8 = 2)
    (hmax : (bytesField (UInt8.ofNat wire) data).length < 2 ^ 63) {set : Bytes → M → Except DecodeError M}
    (hfield : fields (wire / 8 : ℕ) = some (.bytes set)) (hset : set data m = .ok m') :
    unmarshal fields (bytesField (UInt8.ofNat wire) data) m = .ok m' := by
  obtain ⟨hpos, hlt, hmod⟩ := hwire
  have hlen : (bytesField (UInt8.ofNat wire) data).length = 1 + (putUvarint data.length ++ (data ++ [])).length := by
    simp [bytesField, varintField, Nat.add_comm 1]
  have hdata : data.length < 2 ^ 63 := by
    simp only [List.length_append] at hlen
    omega
  have hread : readBytes (bytesField (UInt8.ofNat wire) data).length (putUvarint data.length ++ (data ++ [])) =
      .ok (data, []) := readBytes_put hdata (by omega) hmax
  rw [List.append_nil] at hread
  apply unmarshal_of_field (by simp [bytesField, varintField])
  simp only [unmarshalField, bytesField, varintField, List.cons_append, readVarint_byte hlt, bind, Except.bind,
    int32_tag hlt] at hread ⊢
  rw [if_neg (by omega), if_neg (by omega), hfield]
  simp only [hmod, ne_eq, not_true_eq_false, if_false, hread, hset]

/-! ### Rules -/

/-- What is written has the size `n`, and it takes the message `m` to `m'` when it is decoded. -/
def Codes (fields : ℤ → Option (FieldDecoder M)) (n : ℕ) (w : Write) (m m' : M) : Prop :=
  n < 2 ^ 63 → ∃ enc, Encodes n w enc ∧ unmarshal fields enc m = .ok m'

variable {n n₁ n₂ : ℕ} {w w₁ w₂ : Write} {m₁ m₂ : M}

theorem codes_skip : Codes fields 0 some m m := fun _ => ⟨[], encodes_skip, rfl⟩

/-- What is written last is decoded first. -/
theorem Codes.bind (h₁ : Codes fields n₁ w₁ m₁ m₂) (h₂ : Codes fields n₂ w₂ m m₁) :
    Codes fields (n₂ + n₁) (w₁ >=> w₂) m m₂ := by
  intro hn
  obtain ⟨e₁, henc₁, hdec₁⟩ := h₁ (by omega)
  obtain ⟨e₂, henc₂, hdec₂⟩ := h₂ (by omega)
  have henc := henc₁.bind henc₂
  exact ⟨e₂ ++ e₁, henc, unmarshal_append hdec₂ hdec₁ (henc.length.trans_lt hn)⟩

/-- A field that is left out has to be unset already. -/
theorem Codes.optional {c : Prop} [Decidable c] (h : c → Codes fields n w m m') (hskip : ¬ c → m = m') :
    Codes fields (if c then n else 0) (putIf c w) m m' := by
  by_cases hc : c
  · simpa only [putIf, if_pos hc] using h hc
  · simpa only [putIf, if_neg hc, hskip hc] using codes_skip

/-- A list is written from the last element to the first and decoded in its order. -/
theorem Codes.elements {X Y : Type} (put : List Y → M) {size : X → ℕ} {w : X → Write} {f : X → Y} {xs : List X}
    (h : ∀ x ∈ xs, ∀ ys, Codes fields (size x) (w x) (put ys) (put (ys ++ [f x]))) (ys : List Y) :
    Codes fields (xs.map size).sum (fun b => xs.foldrM w b) (put ys) (put (ys ++ xs.map f)) := by
  induction xs generalizing ys with
  | nil =>
    rw [List.map_nil, List.map_nil, List.append_nil]
    exact codes_skip
  | cons x xs ih =>
    have hrest := ih (fun y hy => h y (List.mem_cons_of_mem x hy)) (ys ++ [f x])
    have hloop : (fun b => (x :: xs).foldrM w b) = (fun b => xs.foldrM w b) >=> w x := by
      funext b
      rw [List.foldrM_cons]
      rfl
    rw [List.append_assoc, List.singleton_append] at hrest
    rw [hloop]
    exact hrest.bind (h x List.mem_cons_self ys)

theorem codes_varintField (wire : ℕ) {v : ℕ} (hwire : 8 ≤ wire ∧ wire < 128 ∧ wire % 8 = 0) (hv : v < 2 ^ 64)
    {set : ℕ → M → M} (hfield : fields (wire / 8 : ℕ) = some (.varint set)) (hset : set v m = m') :
    Codes fields (1 + sov v) (putVarintField (UInt8.ofNat wire) v) m m' :=
  fun _ => ⟨_, encodes_putVarintField _ hv, hset ▸ unmarshal_varintField hwire hv hfield⟩

/-- A boolean is written as the byte one, and only when it holds. -/
theorem codes_boolField (wire : ℕ) (hwire : 8 ≤ wire ∧ wire < 128 ∧ wire % 8 = 0)
    {set : ℕ → M → M} (hfield : fields (wire / 8 : ℕ) = some (.varint set)) (hset : set 1 m = m') :
    Codes fields 2 (putByte 1 >=> putByte (UInt8.ofNat wire)) m m' := by
  intro _
  have hdec : unmarshal fields (varintField (UInt8.ofNat wire) 1) m = .ok (set 1 m) :=
    unmarshal_varintField hwire (by norm_num) hfield
  exact ⟨_, (encodes_putByte 1).bind (encodes_putByte _), hset ▸ hdec⟩

theorem codes_bytesField (wire : ℕ) {data : Bytes} (hwire : 8 ≤ wire ∧ wire < 128 ∧ wire % 8 = 2)
    {set : Bytes → M → Except DecodeError M} (hfield : fields (wire / 8 : ℕ) = some (.bytes set))
    (hset : set data m = .ok m') :
    Codes fields (1 + data.length + sov data.length) (putBytesField (UInt8.ofNat wire) data) m m' := by
  intro hn
  have hdata : data.length < 2 ^ 64 := by omega
  have henc := encodes_putBytesField (UInt8.ofNat wire) hdata
  exact ⟨_, henc, unmarshal_bytesField hwire (henc.length.trans_lt hn) hfield hset⟩

/-- A string or slice that is left out when it is empty. -/
theorem codes_optionalBytes (wire : ℕ) {data : Bytes} (hwire : 8 ≤ wire ∧ wire < 128 ∧ wire % 8 = 2)
    {set : Bytes → M → Except DecodeError M} (hfield : fields (wire / 8 : ℕ) = some (.bytes set))
    (hset : data ≠ [] → set data m = .ok m') (hskip : data = [] → m = m') :
    Codes fields (if 0 < data.length then 1 + data.length + sov data.length else 0)
      (putIf (0 < data.length) (putBytesField (UInt8.ofNat wire) data)) m m' := by
  apply Codes.optional
  · exact fun hpos => codes_bytesField wire hwire hfield (hset (List.length_pos_iff.mp hpos))
  · exact fun hpos => hskip (by simpa using hpos)

/-- A message `s` inside of `m`, with fields of its own, that is decoded to `s'`. -/
theorem Codes.messageField (wire : ℕ) {S : Type} {fields' : ℤ → Option (FieldDecoder S)} {s s' : S}
    (h : Codes fields' n w s s') (hwire : 8 ≤ wire ∧ wire < 128 ∧ wire % 8 = 2)
    {set : Bytes → M → Except DecodeError M} (hfield : fields (wire / 8 : ℕ) = some (.bytes set))
    (hset : ∀ data, unmarshal fields' data s = .ok s' → set data m = .ok m') :
    Codes fields (1 + n + sov n) (putMessageField (UInt8.ofNat wire) (toSizedBuffer w)) m m' := by
  intro hn
  obtain ⟨enc, henc, hdec⟩ := h (by omega)
  have hmsg := henc.messageField (UInt8.ofNat wire) (by omega)
  exact ⟨_, hmsg, unmarshal_bytesField hwire (hmsg.length.trans_lt hn) hfield (hset enc hdec)⟩

/-- A whole message. -/
theorem Codes.marshal_eq {c : Message M} {x : M} (h : Codes c.fields (c.size x) (c.write x) c.zero m')
    (hsize : c.size x < 2 ^ 63) :
    ∃ enc, c.marshal x = some enc ∧ enc.length = c.size x ∧ c.unmarshalNew enc = .ok m' := by
  obtain ⟨enc, henc, hdec⟩ := h hsize
  exact ⟨enc, henc.marshal_eq, henc.length, hdec⟩

end Fields

end IavlStore.Base.Wire
