import IavlStore.Base.Framing
import IavlStore.Base.Varint

/-! Repair of the last file of the log. Entries are skipped until the file ends or no complete
entry follows; the file is then cut after the last complete entry. Whether to cut is decided by
comparing the number of bytes skipped with the number of bytes left, so that a file whose
complete part is as long as the rest is not cut. -/

namespace IavlStore.Db

open IavlStore.Base.Encoding IavlStore.Base.Framing

/-- The log format, with what is known of the parser of lines: whether the `data` field of a line is
a string. -/
inductive LogFormat where
  | binary
  | json (dataIsString : Bytes → Bool)

/-- The size of the data and the data. -/
def loadNextBinaryEntry (data : Bytes) : Option ℕ :=
  match uvarint data with
  | none => none
  | some (size, n) => if data.length - n < size then none else some (n + size)

/-- A line. -/
def loadNextJSONEntry (dataIsString : Bytes → Bool) (data : Bytes) : Option ℕ :=
  match data.findIdx? (· = 10) with
  | none => none
  | some idx => if dataIsString (data.take idx) then some (idx + 1) else none

def loadNextEntry : LogFormat → Bytes → Option ℕ
  | .binary => loadNextBinaryEntry
  | .json dataIsString => loadNextJSONEntry dataIsString

/-- The file after the repair. -/
def truncateCorruptedTail (format : LogFormat) (fuel : ℕ) (file : Bytes) : Option Bytes :=
  match skipEntries (loadNextEntry format) fuel file 0 with
  | none => none
  | some (data, pos) => if pos ≠ data.length then some (file.take pos) else some file

/-! ### Entries -/

theorem loadNextBinaryEntry_eq_some {data : Bytes} {k : ℕ} (h : loadNextBinaryEntry data = some k) :
    ∃ pre rest size, data = pre ++ rest ∧ 0 < pre.length ∧ readUvarintAux 10 data = .ok (size, rest) ∧
      size ≤ rest.length ∧ k = pre.length + size := by
  unfold loadNextBinaryEntry uvarint at h
  rcases hr : readUvarintAux 10 data with e | ⟨size, rest⟩
  · simp [hr] at h
  · obtain ⟨pre, rfl, hpos, -⟩ := readUvarintAux_eq_ok hr
    simp only [hr, List.length_append, Nat.add_sub_cancel_right, Nat.add_sub_cancel_left] at h
    split_ifs at h with hlt
    exact ⟨pre, rest, size, rfl, hpos, rfl, not_lt.mp hlt, (Option.some.inj h).symm⟩

theorem delimits_binary : Delimits loadNextBinaryEntry where
  pos h := by
    obtain ⟨pre, rest, size, -, hpos, -, -, rfl⟩ := loadNextBinaryEntry_eq_some h
    omega
  le h := by
    obtain ⟨pre, rest, size, rfl, -, -, hle, rfl⟩ := loadNextBinaryEntry_eq_some h
    rw [List.length_append]
    omega
  take {data k} h more := by
    obtain ⟨pre, rest, size, rfl, -, hr, hle, rfl⟩ := loadNextBinaryEntry_eq_some h
    have htake : (pre ++ rest).take (pre.length + size) = pre ++ rest.take size := by
      rw [List.take_append, List.take_of_length_le (by omega), Nat.add_sub_cancel_left]
    have hr' := readUvarintAux_replace hr (rest.take size ++ more)
    rw [htake, List.append_assoc, loadNextBinaryEntry, uvarint, hr']
    simp only [List.length_append, Nat.add_sub_cancel_right, Nat.add_sub_cancel_left, List.length_take_of_le hle]
    rw [if_neg (by omega)]

theorem loadNextJSONEntry_line {dataIsString : Bytes → Bool} {line : Bytes} (hline : 10 ∉ line)
    (hs : dataIsString line = true) (rest : Bytes) :
    loadNextJSONEntry dataIsString (line ++ 10 :: rest) = some (line.length + 1) := by
  have hidx : (line ++ 10 :: rest).findIdx? (· = 10) = some line.length := by
    rw [List.findIdx?_append, List.findIdx?_eq_none_iff.mpr fun x hx => by
      simpa using ne_of_mem_of_not_mem hx hline]
    simp [List.findIdx?_cons]
  simp [loadNextJSONEntry, hidx, hs]

theorem loadNextJSONEntry_eq_some {dataIsString : Bytes → Bool} {data : Bytes} {k : ℕ}
    (h : loadNextJSONEntry dataIsString data = some k) :
    ∃ line rest, data = line ++ 10 :: rest ∧ 10 ∉ line ∧ dataIsString line = true ∧ k = line.length + 1 := by
  unfold loadNextJSONEntry at h
  rcases hi : data.findIdx? (· = 10) with _ | idx
  · simp [hi] at h
  · simp only [hi] at h
    split_ifs at h with hs
    obtain ⟨hlt, hat, hbefore⟩ := List.findIdx?_eq_some_iff_getElem.mp hi
    have hsplit := List.take_append_drop idx data
    rw [List.drop_eq_getElem_cons hlt, of_decide_eq_true hat] at hsplit
    refine ⟨data.take idx, data.drop (idx + 1), hsplit.symm, fun hmem => ?_, hs, ?_⟩
    · obtain ⟨j, hj, hget⟩ := List.mem_iff_getElem.mp hmem
      have hjlt : j < idx := by
        rw [List.length_take] at hj
        omega
      rw [List.getElem_take] at hget
      simpa [hget] using hbefore j hjlt
    · rw [List.length_take_of_le hlt.le, Option.some.inj h]

theorem delimits_json (dataIsString : Bytes → Bool) : Delimits (loadNextJSONEntry dataIsString) where
  pos h := by
    obtain ⟨line, rest, -, -, -, rfl⟩ := loadNextJSONEntry_eq_some h
    omega
  le h := by
    obtain ⟨line, rest, rfl, -, -, rfl⟩ := loadNextJSONEntry_eq_some h
    simp
  take h more := by
    obtain ⟨line, rest, rfl, hline, hs, rfl⟩ := loadNextJSONEntry_eq_some h
    have htake : (line ++ 10 :: rest).take (line.length + 1) = line ++ [10] := by
      rw [List.take_append, List.take_of_length_le (by omega), Nat.add_sub_cancel_left]
      rfl
    rw [htake, List.append_assoc]
    exact loadNextJSONEntry_line hline hs more

theorem delimits_loadNextEntry (format : LogFormat) : Delimits (loadNextEntry format) := by
  cases format with
  | binary => exact delimits_binary
  | json dataIsString => exact delimits_json dataIsString

/-! ### The repair -/

/-- The complete part is all that is kept, unless it is as long as the rest. -/
theorem truncateCorruptedTail_eq {format : LogFormat} {p rest : Bytes}
    (h : LongestComplete (loadNextEntry format) (p ++ rest) p) {fuel : ℕ} (hfuel : (p ++ rest).length < fuel) :
    truncateCorruptedTail format fuel (p ++ rest) = some (if p.length ≠ rest.length then p else p ++ rest) := by
  simp only [truncateCorruptedTail, h.skipEntries (delimits_loadNextEntry format) hfuel, Nat.zero_add,
    List.take_left]
  split_ifs
  · rfl
  · rfl

/-- The repair ends, changes nothing the second time, and leaves the longest part that consists
of complete entries exactly if the file is empty or that part is not half of the file. -/
theorem truncateCorruptedTail_iff (format : LogFormat) (file : Bytes) :
    ∃ p, LongestComplete (loadNextEntry format) file p ∧ ∀ fuel, file.length < fuel →
      ∃ file', truncateCorruptedTail format fuel file = some file' ∧
        truncateCorruptedTail format fuel file' = some file' ∧
        (file' = p ↔ file = [] ∨ 2 * p.length ≠ file.length) := by
  obtain ⟨p, h⟩ := exists_longestComplete (delimits_loadNextEntry format) file
  obtain ⟨rest, rfl⟩ := h.isPart
  refine ⟨p, h, fun fuel hfuel => ?_⟩
  have hcut := truncateCorruptedTail_eq h hfuel
  rw [List.length_append] at hfuel ⊢
  by_cases hhalf : p.length = rest.length
  · rw [if_neg (not_not.mpr hhalf)] at hcut
    refine ⟨p ++ rest, hcut, hcut, ?_⟩
    rw [List.append_right_eq_self, List.append_eq_nil_iff, ← List.length_eq_zero_iff, ← List.length_eq_zero_iff]
    omega
  · rw [if_pos hhalf] at hcut
    refine ⟨p, hcut, ?_, iff_of_true rfl (.inr (by omega))⟩
    -- the complete part is followed by nothing the second time
    have hself : LongestComplete (loadNextEntry format) (p ++ []) p := by
      rw [List.append_nil]
      exact h.complete.longestComplete
    have hagain := truncateCorruptedTail_eq hself (show _ < fuel by rw [List.append_nil]; omega)
    rwa [List.append_nil, ite_self] at hagain

/-- One complete entry and one byte of another: nothing is cut. -/
theorem truncateCorruptedTail_keeps_half :
    truncateCorruptedTail .binary 3 [0, 5] = some [0, 5] ∧
      LongestComplete (loadNextEntry .binary) [0, 5] [0] := by
  have hentry : Complete (loadNextEntry .binary) ([0] ++ []) := .cons (by decide) .nil
  have hnone : loadNextEntry .binary [5] = none := by decide
  exact ⟨by decide, longestComplete_of_skip delimits_binary rfl hentry (.inr hnone)⟩

end IavlStore.Db
