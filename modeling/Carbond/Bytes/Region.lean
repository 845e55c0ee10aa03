import Mathlib.Data.List.Basic

/-! Byte sequences addressed by position, as the contents of a regular file: a read past the
end is short, a write past the end leaves a hole of zero bytes. -/
namespace Carbond.Bytes

def readAt (bytes : List UInt8) (pos count : Nat) : List UInt8 := (bytes.drop pos).take count

/-- An empty write has no effect, even past the end. -/
def writeAt (bytes : List UInt8) (pos : Nat) (data : List UInt8) : List UInt8 :=
  if data = [] then bytes
  else bytes.take pos ++ List.replicate (pos - bytes.length) 0 ++ data ++
    bytes.drop (pos + data.length)

theorem readAt_length (bytes : List UInt8) (pos count : Nat) :
    (readAt bytes pos count).length = min count (bytes.length - pos) := by
  simp [readAt]

theorem readAt_getElem? (bytes : List UInt8) (pos count i : Nat) :
    (readAt bytes pos count)[i]? = if i < count then bytes[pos + i]? else none := by
  simp [readAt, List.getElem?_take]

theorem readAt_take (bytes : List UInt8) (pos count most : Nat) :
    (readAt bytes pos count).take most = readAt bytes pos (min most count) := by
  rw [readAt, readAt, List.take_take]

theorem readAt_past {bytes : List UInt8} (past : bytes.length ≤ pos) :
    readAt bytes pos count = [] := by
  simp [readAt, List.drop_eq_nil_of_le past]

theorem readAt_append_left (front back : List UInt8) :
    readAt (front ++ back) 0 front.length = front := by
  simp [readAt]

theorem readAt_append_right {front : List UInt8} (sized : front.length = pos) :
    readAt (front ++ back) (pos + i) count = readAt back i count := by
  subst pos
  have past : front.drop (front.length + i) = [] := List.drop_eq_nil_of_le (by omega)
  simp [readAt, List.drop_append, past]

/-- A region read in two pieces. -/
theorem readAt_split (bytes : List UInt8) (pos first second : Nat) :
    readAt bytes pos (first + second) =
      readAt bytes pos first ++ readAt bytes (pos + first) second := by
  simp only [readAt, List.take_add, List.drop_drop]

/-- Equal contents over a range give equal reads inside it. -/
theorem readAt_congr {before after : List UInt8}
    (same : ∀ i, pos ≤ i → i < pos + count → before[i]? = after[i]?) :
    readAt before pos count = readAt after pos count := by
  apply List.ext_getElem?
  intro i
  simp only [readAt_getElem?]
  split
  · exact same _ (by omega) (by omega)
  · rfl

/-- Equal reads give equal contents over the range read. -/
theorem getElem?_of_readAt {before after : List UInt8}
    (same : readAt before pos count = readAt after pos count)
    (low : pos ≤ i) (high : i < pos + count) : before[i]? = after[i]? := by
  have h := congrArg (·[i - pos]?) same
  simpa only [readAt_getElem?, show i - pos < count by omega, if_true,
    show pos + (i - pos) = i by omega] using h

theorem writeAt_nil (bytes : List UInt8) (pos : Nat) : writeAt bytes pos [] = bytes := rfl

theorem writeAt_length (bytes : List UInt8) (pos : Nat) {data : List UInt8} (some : data ≠ []) :
    (writeAt bytes pos data).length = max bytes.length (pos + data.length) := by
  simp only [writeAt, if_neg some, List.length_append, List.length_take, List.length_replicate,
    List.length_drop]
  omega

theorem writeAt_length_within {bytes data : List UInt8} (within : pos + data.length ≤ bytes.length) :
    (writeAt bytes pos data).length = bytes.length := by
  by_cases empty : data = []
  · simp [writeAt, empty]
  · rw [writeAt_length bytes pos empty]
    omega

theorem writeAt_length_le (bytes : List UInt8) (pos : Nat) (data : List UInt8) :
    bytes.length ≤ (writeAt bytes pos data).length := by
  by_cases empty : data = []
  · simp [writeAt, empty]
  · rw [writeAt_length bytes pos empty]
    omega

/-- Every position after a write, position by position. -/
theorem writeAt_getElem? (bytes : List UInt8) (pos : Nat) {data : List UInt8} (some : data ≠ [])
    (i : Nat) : (writeAt bytes pos data)[i]? =
      if i < pos then (if i < bytes.length then bytes[i]? else .some 0)
      else if i < pos + data.length then data[i - pos]? else bytes[i]? := by
  have front : (bytes.take pos ++ List.replicate (pos - bytes.length) 0).length = pos := by
    simp only [List.length_append, List.length_take, List.length_replicate]
    omega
  simp only [writeAt, if_neg some]
  rw [List.append_assoc, List.getElem?_append, front]
  by_cases before : i < pos
  · rw [if_pos before, if_pos before, List.getElem?_append, List.length_take]
    by_cases present : i < bytes.length
    · rw [if_pos (by omega), if_pos present, List.getElem?_take_of_lt before]
    · rw [if_neg (by omega), if_neg present, List.getElem?_replicate]
      simp only [show i - min pos bytes.length < pos - bytes.length by omega, if_true]
  · rw [if_neg before, if_neg before, List.getElem?_append]
    by_cases inside : i < pos + data.length
    · rw [if_pos (by omega), if_pos inside]
    · rw [if_neg (by omega), if_neg inside, List.getElem?_drop]
      congr 1
      omega

theorem writeAt_getElem?_inside {bytes data : List UInt8} (low : pos ≤ i)
    (high : i < pos + data.length) : (writeAt bytes pos data)[i]? = data[i - pos]? := by
  have some : data ≠ [] := by
    rintro rfl
    simp only [List.length_nil] at high
    omega
  rw [writeAt_getElem? bytes pos some, if_neg (by omega), if_pos high]

/-- A write changes no position outside its own range and inside the old contents. -/
theorem writeAt_getElem?_outside {bytes data : List UInt8} (present : i < bytes.length)
    (outside : i < pos ∨ pos + data.length ≤ i) : (writeAt bytes pos data)[i]? = bytes[i]? := by
  by_cases empty : data = []
  · simp [writeAt, empty]
  · rw [writeAt_getElem? bytes pos empty]
    split_ifs with before
    · rfl
    · omega
    · rfl

/-- Beyond the written range a write leaves the old contents, present or absent. -/
theorem writeAt_getElem?_after {bytes data : List UInt8} (after : pos + data.length ≤ i) :
    (writeAt bytes pos data)[i]? = bytes[i]? := by
  by_cases empty : data = []
  · simp [writeAt, empty]
  · rw [writeAt_getElem? bytes pos empty, if_neg (by omega), if_neg (by omega)]

theorem readAt_writeAt_same (bytes : List UInt8) (pos : Nat) (data : List UInt8) :
    readAt (writeAt bytes pos data) pos data.length = data := by
  apply List.ext_getElem?
  intro i
  rw [readAt_getElem?]
  split
  · rw [writeAt_getElem?_inside (by omega) (by omega), Nat.add_sub_cancel_left]
  · exact (List.getElem?_eq_none (by omega)).symm

/-- A read inside a range just written finds the data. -/
theorem readAt_writeAt_inside (bytes : List UInt8) (pos : Nat) {data : List UInt8}
    (within : i + count ≤ data.length) :
    readAt (writeAt bytes pos data) (pos + i) count = readAt data i count := by
  apply List.ext_getElem?
  intro k
  simp only [readAt_getElem?]
  split
  · rw [writeAt_getElem?_inside (by omega) (by omega)]
    congr 1
    omega
  · rfl

/-- Frame rule: a read of old contents that the write does not overlap is unchanged. -/
theorem readAt_writeAt_disjoint {bytes data : List UInt8} (present : at' + count ≤ bytes.length)
    (disjoint : at' + count ≤ pos ∨ pos + data.length ≤ at') :
    readAt (writeAt bytes pos data) at' count = readAt bytes at' count :=
  readAt_congr fun i low high => writeAt_getElem?_outside (by omega) (by omega)

/-- Writes of disjoint ranges inside the contents commute. -/
theorem writeAt_comm {bytes first second : List UInt8}
    (fits : pos + first.length ≤ bytes.length) (fits' : pos' + second.length ≤ bytes.length)
    (disjoint : pos + first.length ≤ pos' ∨ pos' + second.length ≤ pos) :
    writeAt (writeAt bytes pos first) pos' second =
      writeAt (writeAt bytes pos' second) pos first := by
  have length₁ := writeAt_length_within fits
  have length₂ := writeAt_length_within fits'
  apply List.ext_getElem?
  intro i
  by_cases present : i < bytes.length
  · by_cases inFirst : pos ≤ i ∧ i < pos + first.length
    · rw [writeAt_getElem?_outside (by omega) (by omega),
        writeAt_getElem?_inside inFirst.1 inFirst.2, writeAt_getElem?_inside inFirst.1 inFirst.2]
    · by_cases inSecond : pos' ≤ i ∧ i < pos' + second.length
      · rw [writeAt_getElem?_inside inSecond.1 inSecond.2,
          writeAt_getElem?_outside (by omega) (by omega),
          writeAt_getElem?_inside inSecond.1 inSecond.2]
      · rw [writeAt_getElem?_outside (by omega) (by omega),
          writeAt_getElem?_outside present (by omega),
          writeAt_getElem?_outside (by omega) (by omega),
          writeAt_getElem?_outside present (by omega)]
  · rw [writeAt_getElem?_after (by omega), writeAt_getElem?_after (by omega),
      writeAt_getElem?_after (by omega), writeAt_getElem?_after (by omega)]

/-- Appending at the end of the contents. -/
theorem writeAt_end (bytes data : List UInt8) : writeAt bytes bytes.length data = bytes ++ data := by
  by_cases empty : data = []
  · simp [writeAt, empty]
  · simp [writeAt, empty]

end Carbond.Bytes
