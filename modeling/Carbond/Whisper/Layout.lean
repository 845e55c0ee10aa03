import Carbond.Whisper.Create

/-! The contents of a new file: the metadata, one archive info for each retention, and zeros for
the points of every archive. -/
namespace Carbond.Whisper
open Bytes
variable {ret rest : List Retention} {agg : PatternAggregation}

def pointCount (cur : Retention) : UInt32 := cur.timeToStore / cur.timePerPoint

/-- The size of the points of these archives in the file, each a 32-bit product. -/
def emptySize (ret : List Retention) : ℕ := (ret.map fun cur => (pointCount cur * 12).toNat).sum

def headersEnd (ret : List Retention) : UInt32 := ret.foldl (fun offset _ => offset + 12) 16

def archiveOffset (ret : List Retention) (idRet : ℕ) : UInt32 :=
  (ret.take idRet).foldl (fun offset cur => offset + pointCount cur * 12) (headersEnd ret)

def archiveOf (ret : List Retention) (idRet : ℕ) (cur : Retention) : ArchiveInfo :=
  ⟨archiveOffset ret idRet, cur.timePerPoint, pointCount cur⟩

def newMetadata (ret : List Retention) (agg : PatternAggregation) : Metadata :=
  ⟨agg.method.code, maxRetention ret, agg.xff, archiveCount ret⟩

def infoBytes (ret : List Retention) : List Retention → ℕ → List UInt8
  | [], _ => []
  | cur :: next, idRet => (htonArchiveInfo (archiveOf ret idRet cur)).bytes ++
      infoBytes ret next (idRet + 1)

def newContents (ret : List Retention) (agg : PatternAggregation) : List UInt8 :=
  (htonWhisperMetadata (newMetadata ret agg)).bytes ++ infoBytes ret ret 0 ++
    List.replicate (emptySize ret) 0

/-- A new file with ten points of one second, and ten of two. -/
def twoArchives (xff : UInt32) : List UInt8 :=
  newContents [⟨1, 10⟩, ⟨2, 20⟩] ⟨[], xff, .average⟩

/-- The first of the retentions left, and those behind it. -/
theorem retention_next (suffix : ret.drop idRet = cur :: next) :
    ret[idRet]? = some cur ∧ ret.drop (idRet + 1) = next := by
  constructor
  · rw [← List.head?_drop, suffix, List.head?_cons]
  · rw [← List.tail_drop, suffix, List.tail_cons]

theorem positive_next (before : ∀ r ∈ ret.take idRet, r.timePerPoint ≠ 0)
    (found : ret[idRet]? = some cur) (step : cur.timePerPoint ≠ 0) :
    ∀ r ∈ ret.take (idRet + 1), r.timePerPoint ≠ 0 := by
  intro r member
  rw [List.take_add_one, found] at member
  rcases List.mem_append.mp member with old | new
  · exact before r old
  · obtain rfl := List.mem_singleton.mp new
    exact step

@[simp] theorem archiveOf_offset (ret : List Retention) (idRet : ℕ) (cur : Retention) :
    (archiveOf ret idRet cur).offset = archiveOffset ret idRet := rfl

@[simp] theorem archiveOf_secondsPerPoint (ret : List Retention) (idRet : ℕ) (cur : Retention) :
    (archiveOf ret idRet cur).secondsPerPoint = cur.timePerPoint := rfl

@[simp] theorem archiveOf_points (ret : List Retention) (idRet : ℕ) (cur : Retention) :
    (archiveOf ret idRet cur).points = pointCount cur := rfl

@[simp] theorem emptySize_nil : emptySize [] = 0 := rfl

@[simp] theorem emptySize_cons : emptySize (cur :: next) =
    (pointCount cur * 12).toNat + emptySize next := rfl

theorem emptySize_append (first second : List Retention) :
    emptySize (first ++ second) = emptySize first + emptySize second := by
  simp [emptySize]

@[simp] theorem infoBytes_length : (infoBytes ret rest idRet).length = 12 * rest.length := by
  induction rest generalizing idRet with
  | nil => rfl
  | cons cur next ih =>
    rw [infoBytes, List.length_append, ih, ArchiveInfo.bytes_length, List.length_cons]
    omega

theorem newContents_length :
    (newContents ret agg).length = 16 + 12 * ret.length + emptySize ret := by
  simp [newContents, Nat.add_assoc]

/-! ### What the readers find -/

theorem metadataIn_newContents : metadataIn (newContents ret agg) = newMetadata ret agg := by
  have header : readAt (newContents ret agg) 0 whisperHeaderSize =
      (htonWhisperMetadata (newMetadata ret agg)).bytes := by
    have sized := Metadata.bytes_length (htonWhisperMetadata (newMetadata ret agg))
    rw [newContents, List.append_assoc, whisperHeaderSize, ← sized, readAt_append_left]
  rw [metadataIn, header, Metadata.ofBytes_bytes, ntoh_hton_metadata]

theorem readAt_infoBytes (found : rest[i]? = some cur) (back : List UInt8) :
    readAt (infoBytes ret rest idRet ++ back) (12 * i) 12 =
      (htonArchiveInfo (archiveOf ret (idRet + i) cur)).bytes := by
  induction rest generalizing idRet i with
  | nil => contradiction
  | cons first next ih =>
    have sized := ArchiveInfo.bytes_length (htonArchiveInfo (archiveOf ret idRet first))
    rw [infoBytes, List.append_assoc]
    cases i with
    | zero =>
      obtain rfl := Option.some.inj found
      rw [Nat.mul_zero, ← sized, readAt_append_left]
      rfl
    | succ i =>
      rw [List.getElem?_cons_succ] at found
      rw [show 12 * (i + 1) = 12 + 12 * i by omega, readAt_append_right sized, ih found,
        Nat.add_right_comm, Nat.add_assoc]

theorem archiveInfoIn_newContents (found : ret[i]? = some cur) :
    archiveInfoIn (newContents ret agg) i = archiveOf ret i cur := by
  have info : readAt (newContents ret agg) (whisperHeaderSize + i * whisperArchiveSize)
      whisperArchiveSize = (htonArchiveInfo (archiveOf ret i cur)).bytes := by
    rw [newContents, List.append_assoc, whisperHeaderSize, whisperArchiveSize,
      readAt_append_right (Metadata.bytes_length _), Nat.mul_comm, readAt_infoBytes found,
      Nat.zero_add]
  rw [archiveInfoIn, info, ArchiveInfo.ofBytes_bytes, ntoh_hton_archiveInfo]

theorem pointIn_newContents (behind : 16 + 12 * ret.length ≤ pos)
    (within : pos + whisperPointSize ≤ 16 + 12 * ret.length + emptySize ret) :
    pointIn (newContents ret agg) pos = ⟨0, 0⟩ := by
  obtain ⟨i, rfl⟩ := Nat.exists_eq_add_of_le behind
  apply pointIn_zeros
  have sized : ((htonWhisperMetadata (newMetadata ret agg)).bytes ++ infoBytes ret ret 0).length =
      16 + 12 * ret.length := by simp
  rw [newContents, readAt_append_right sized, readAt, List.drop_replicate, List.take_replicate]
  congr 1
  omega

/-! ### Offsets without wrap -/

theorem foldl_offset_toNat (start : UInt32) (fits : start.toNat + emptySize rest < 2 ^ 32) :
    (rest.foldl (fun offset cur => offset + pointCount cur * 12) start).toNat =
      start.toNat + emptySize rest := by
  induction rest generalizing start with
  | nil => rfl
  | cons cur next ih =>
    rw [emptySize_cons] at fits
    have sum : (start + pointCount cur * 12).toNat = start.toNat + (pointCount cur * 12).toNat := by
      rw [UInt32.toNat_add]
      omega
    rw [List.foldl_cons, ih _ (by omega), sum, emptySize_cons]
    omega

theorem foldl_header_toNat (start : UInt32) (fits : start.toNat + 12 * rest.length < 2 ^ 32) :
    (rest.foldl (fun offset _ => offset + 12) start).toNat = start.toNat + 12 * rest.length := by
  induction rest generalizing start with
  | nil => rfl
  | cons cur next ih =>
    rw [List.length_cons] at fits
    have sum : (start + 12).toNat = start.toNat + 12 := by
      rw [UInt32.toNat_add]
      simp only [UInt32.reduceToNat]
      omega
    rw [List.foldl_cons, ih _ (by omega), sum, List.length_cons]
    omega

theorem foldl_count_toNat (count : UInt32) (rest : List Retention)
    (fits : count.toNat + rest.length < 2 ^ 32) :
    (rest.foldl (fun count _ => count + 1) count).toNat = count.toNat + rest.length := by
  induction rest generalizing count with
  | nil => rfl
  | cons cur next ih =>
    rw [List.length_cons] at fits
    have more : (count + 1).toNat = count.toNat + 1 := by
      rw [UInt32.toNat_add]
      simp only [UInt32.reduceToNat]
      omega
    rw [List.foldl_cons, ih _ (by omega), more, List.length_cons]
    omega

theorem archiveCount_toNat (fits : ret.length < 2 ^ 32) :
    (archiveCount ret).toNat = ret.length := by
  rw [archiveCount, foldl_count_toNat]
  · exact Nat.zero_add _
  · simpa using fits

theorem emptySize_take_le (ret : List Retention) (i : ℕ) : emptySize (ret.take i) ≤ emptySize ret := by
  have split := emptySize_append (ret.take i) (ret.drop i)
  rw [List.take_append_drop] at split
  omega

theorem emptySize_take_mono (ret : List Retention) (le : i ≤ j) :
    emptySize (ret.take i) ≤ emptySize (ret.take j) := by
  have shorter := emptySize_take_le (ret.take j) i
  rwa [List.take_take, Nat.min_eq_left le] at shorter

theorem archiveOffset_toNat (fits : 16 + 12 * ret.length + emptySize (ret.take i) < 2 ^ 32) :
    (archiveOffset ret i).toNat = 16 + 12 * ret.length + emptySize (ret.take i) := by
  have headers : (headersEnd ret).toNat = 16 + 12 * ret.length :=
    foldl_header_toNat 16 (by simp only [UInt32.reduceToNat]; omega)
  rw [archiveOffset, foldl_offset_toNat _ (by omega), headers]

/-- Each archive begins where the archives before it end. -/
theorem emptySize_take_succ (found : ret[i]? = some cur) :
    emptySize (ret.take (i + 1)) = emptySize (ret.take i) + (pointCount cur * 12).toNat := by
  rw [List.take_add_one, found, emptySize_append]
  rfl

end Carbond.Whisper
