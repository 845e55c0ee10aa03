import Carbond.Whisper.CreateProofs
import Mathlib.Algebra.Order.BigOperators.Group.List
import Mathlib.Algebra.Order.Ring.Nat
import Mathlib.Data.List.GetD

/-! A new file reads back as configured, and its archives tile it. -/
namespace Carbond.Whisper
open Bytes Posix Text
variable {w : World Globals} {ret : List Retention} {agg : PatternAggregation}

/-- The number of points a retention asks for. -/
def pointsStored (cur : Retention) : ℕ := cur.timeToStore.toNat / cur.timePerPoint.toNat

/-- What the readers say about an open file of this size. -/
structure ReadsBack (w : World Globals) (fd size : ℕ) (ret : List Retention)
    (agg : PatternAggregation) (archive : ℕ → ArchiveInfo) : Prop where
  metadata : ∃ md w', Yields (whisperReadMetadata (some fd)) w (some md) w' ∧
    md.aggregationType = agg.method.code ∧
    md.maxRetention.toNat = (ret.map fun cur => cur.timeToStore.toNat).foldr max 0 ∧
    md.xFilesFactor = agg.xff ∧ md.archiveCount.toNat = ret.length
  info : ∀ i cur, ret[i]? = some cur →
    (∃ w', Yields (whisperReadArchiveInfo (some fd) i) w (some (archive i)) w') ∧
    (archive i).secondsPerPoint = cur.timePerPoint ∧ (archive i).points.toNat = pointsStored cur
  first : 0 < ret.length → (archive 0).offset.toNat = 16 + 12 * ret.length
  next : ∀ i, i + 1 < ret.length → (archive (i + 1)).offset = archiveOffsetEnd (archive i)
  last : ∀ i, i + 1 = ret.length → (archiveOffsetEnd (archive i)).toNat = size
  empty : ∀ i j, i < ret.length → j < (archive i).points.toNat →
    ∃ w' w'', Yields (whisperSeek (some fd) (Int32.ofNat ((archive i).offset.toNat + 12 * j))) w
      exitSuccess w' ∧ Yields (whisperReadArchivePoint (some fd)) w' (some ⟨0, 0⟩) w''

theorem pointCount_toNat (cur : Retention) : (pointCount cur).toNat = pointsStored cur :=
  UInt32.toNat_div _ _

theorem foldl_longest_toNat (longest : UInt32) (rest : List Retention) :
    (rest.foldl (fun longest cur =>
      if cur.timeToStore > longest then cur.timeToStore else longest) longest).toNat =
      max longest.toNat ((rest.map fun cur => cur.timeToStore.toNat).foldr max 0) := by
  induction rest generalizing longest with
  | nil => simp
  | cons cur next ih =>
    rw [List.foldl_cons, ih, List.map_cons, List.foldr_cons, ← Nat.max_assoc]
    congr 1
    split
    · rename_i larger
      have := UInt32.lt_iff_toNat_lt.mp larger
      omega
    · rename_i smaller
      have := UInt32.lt_iff_toNat_lt.not.mp smaller
      omega

theorem maxRetention_toNat (ret : List Retention) :
    (maxRetention ret).toNat = (ret.map fun cur => cur.timeToStore.toNat).foldr max 0 := by
  rw [maxRetention, foldl_longest_toNat]
  exact Nat.zero_max _

theorem size_toNat (cur : Retention) (fits : 12 * pointsStored cur < 2 ^ 32) :
    (pointCount cur * 12).toNat = 12 * pointsStored cur := by
  rw [UInt32.toNat_mul, pointCount_toNat]
  simp only [UInt32.reduceToNat]
  omega

theorem emptySize_eq (fits : 12 * (ret.map pointsStored).sum < 2 ^ 32) :
    emptySize ret = 12 * (ret.map pointsStored).sum := by
  induction ret with
  | nil => rfl
  | cons cur next ih =>
    rw [List.map_cons, List.sum_cons] at fits ⊢
    rw [emptySize_cons, size_toNat cur (by omega), ih (by omega)]
    omega

/-- Created files read back as configured and their archives tile the file. -/
theorem whisperCreateFile_reads_back [Platform] {conf : CarbonConf}
    (found : whisperFindRetention metric conf.schema = ret)
    (aggregated : whisperFindAggregation metric conf.aggregation = some agg)
    (positive : ∀ cur ∈ ret, cur.timePerPoint ≠ 0)
    (fits : 16 + 12 * ret.length + 12 * (ret.map pointsStored).sum < 2 ^ 31)
    (creatable : Creatable w conf.storageDir metric) :
    ∃ fd w' c pos archive, Yields (whisperCreateFile conf metric) w (some fd) w' ∧
      Opened w' fd (whisperMetricFilename conf.storageDir metric) c pos ∧
      ReadsBack w' fd c.length ret agg archive := by
  obtain ⟨fd, w', run, opened⟩ := whisperCreateFile_yields found aggregated positive creatable
  have sum : emptySize ret = 12 * (ret.map pointsStored).sum := emptySize_eq (by omega)
  have part (i : ℕ) := emptySize_take_le ret i
  have offset (i : ℕ) : (archiveOffset ret i).toNat = 16 + 12 * ret.length + emptySize (ret.take i) :=
    archiveOffset_toNat (by have := part i; omega)
  have ends (i : ℕ) (cur : Retention) (known : ret[i]? = some cur) :
      (archiveOffsetEnd (archiveOf ret i cur)).toNat =
        16 + 12 * ret.length + emptySize (ret.take (i + 1)) := by
    have next := emptySize_take_succ known
    have bound := part (i + 1)
    rw [archiveOffsetEnd_toNat, archiveSize_toNat, archiveOf_offset, archiveOf_points, offset i]
    omega
  have known (i : ℕ) (inside : i < ret.length) : ret[i]? = some (ret.getD i ⟨0, 0⟩) := by
    rw [List.getD_eq_getElem ret _ inside, List.getElem?_eq_getElem inside]
  refine ⟨fd, w', _, _, fun i => archiveOf ret i (ret.getD i ⟨0, 0⟩), run, opened, ?_⟩
  constructor
  · obtain ⟨pos', read⟩ := whisperReadMetadata_yields opened
    rw [metadataIn_newContents] at read
    exact ⟨_, _, read, rfl, maxRetention_toNat ret, rfl, archiveCount_toNat (by omega)⟩
  · intro i cur found
    have inside : i < ret.length := (List.getElem?_eq_some_iff.mp found).1
    have header : whisperHeaderSize + i * whisperArchiveSize < 2 ^ 31 := by
      simp only [whisperHeaderSize, whisperArchiveSize]
      omega
    obtain ⟨pos', read⟩ := whisperReadArchiveInfo_yields opened _ header
    rw [archiveInfoIn_newContents found] at read
    obtain rfl := Option.some.inj (found.symm.trans (known i inside))
    exact ⟨⟨_, read⟩, rfl, pointCount_toNat _⟩
  · intro _
    rw [archiveOf_offset, offset 0]
    rfl
  · intro i inside
    apply UInt32.toNat_inj.mp
    rw [ends i _ (known i (by omega)), archiveOf_offset, offset (i + 1)]
  · intro i final
    rw [ends i _ (known i (by omega)), newContents_length, final, List.take_length]
  · intro i j inside below
    have here := emptySize_take_succ (known i inside)
    have bound := part (i + 1)
    have single : pointsStored (ret.getD i ⟨0, 0⟩) ≤ (ret.map pointsStored).sum :=
      List.single_le_sum (fun _ _ => Nat.zero_le _) _
        (List.mem_map_of_mem (List.mem_of_getElem? (known i inside)))
    rw [size_toNat _ (by omega)] at here
    rw [archiveOf_points, pointCount_toNat] at below
    rw [archiveOf_offset, offset i]
    have place : (Int32.ofNat (16 + 12 * ret.length + emptySize (ret.take i) + 12 * j)).toInt =
        ((16 + 12 * ret.length + emptySize (ret.take i) + 12 * j : ℕ) : ℤ) :=
      Int32.toInt_ofNat_of_lt (by omega)
    have sought := whisperSeek_yields opened _ (by rw [place]; omega)
    rw [place, Int.toNat_natCast] at sought
    obtain ⟨pos', read⟩ := whisperReadArchivePoint_yields (opened.moved (newContents ret agg)
      (16 + 12 * ret.length + emptySize (ret.take i) + 12 * j))
    rw [pointIn_newContents (by omega) (by rw [whisperPointSize]; omega)] at read
    exact ⟨_, _, sought, read⟩

/-- Two archives of one and two minutes per point. -/
theorem whisperCreateFile_reads_back_witness :
    ∃ fd w' c pos archive, Yields (@whisperCreateFile matchesAll
        (soleRule [⟨60, 180⟩, ⟨120, 480⟩] ⟨[], 0x3f000000, .sum⟩) "a.b".toList)
        emptyWorld (some fd) w' ∧
      Opened w' fd "/b/a/b.wsp".toList c pos ∧
      ReadsBack w' fd c.length [⟨60, 180⟩, ⟨120, 480⟩] ⟨[], 0x3f000000, .sum⟩ archive := by
  have creatable : Creatable emptyWorld "/b".toList "a.b".toList :=
    ⟨rfl, by decide, rfl, fun _ _ _ => by simp [emptyWorld]⟩
  exact @whisperCreateFile_reads_back emptyWorld [⟨60, 180⟩, ⟨120, 480⟩] ⟨[], 0x3f000000, .sum⟩
    "a.b".toList matchesAll (soleRule [⟨60, 180⟩, ⟨120, 480⟩] ⟨[], 0x3f000000, .sum⟩) rfl rfl
    (by decide) (by decide) creatable

end Carbond.Whisper
