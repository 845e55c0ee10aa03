import Carbond.Bytes.Below
import Carbond.Whisper.Interval

/-! The headers of any whisper file, whole or cut short: a write behind them leaves what the
readers find in them. -/
namespace Carbond.Whisper
open Bytes Posix
variable {c c' : List UInt8} {bound pos : ℕ}

/-- The archives the metadata promises. -/
def archivesOf (c : List UInt8) : ℕ := (metadataIn c).archiveCount.toNat

/-- Where the archive infos end. -/
def infosEnd (c : List UInt8) : ℕ := 16 + 12 * archivesOf c

/-- The readers find the same headers. -/
structure SameHeaders (c c' : List UInt8) : Prop where
  metadata : metadataIn c' = metadataIn c
  info : ∀ k < archivesOf c, archiveInfoIn c' k = archiveInfoIn c k

/-- The archives lie behind the headers, below 4 GiB. -/
def Behind (c : List UInt8) : Prop :=
  ∀ k < archivesOf c, infosEnd c ≤ (archiveInfoIn c k).offset.toNat ∧
    (archiveInfoIn c k).offset.toNat + ((archiveInfoIn c k).points * 12).toNat ≤ 2 ^ 32

/-! ### What the readers find below a bound -/

theorem wordAt_below (same : SameBelow bound c c') (within : pos + 4 ≤ bound) :
    wordAt c' pos = wordAt c pos := by
  rw [wordAt, wordAt, same.number_readAt within]

theorem doubleWordAt_below (same : SameBelow bound c c') (within : pos + 8 ≤ bound) :
    doubleWordAt c' pos = doubleWordAt c pos := by
  rw [doubleWordAt, doubleWordAt, same.number_readAt within]

theorem pointIn_below (same : SameBelow bound c c') (within : pos + 12 ≤ bound) :
    pointIn c' pos = pointIn c pos := by
  rw [pointIn, pointIn, wordAt_below same (by omega), doubleWordAt_below same (by omega)]

theorem metadataIn_below (same : SameBelow bound c c') (within : 16 ≤ bound) :
    metadataIn c' = metadataIn c := by
  have words (bytes : List UInt8) (inner : ℕ) (small : inner + 4 ≤ whisperHeaderSize) :
      wordAt (readAt bytes 0 whisperHeaderSize) inner = wordAt bytes inner := by
    rw [wordAt_readAt small, Nat.zero_add]
  have equal (inner : ℕ) (small : inner + 4 ≤ whisperHeaderSize) : wordAt c' inner = wordAt c inner :=
    wordAt_below same (Nat.le_trans small within)
  simp only [metadataIn, Metadata.ofBytes, words _ 0 (by decide), words _ 4 (by decide),
    words _ 8 (by decide), words _ 12 (by decide), equal 0 (by decide), equal 4 (by decide),
    equal 8 (by decide), equal 12 (by decide)]

theorem archiveInfoIn_below (same : SameBelow bound c c') (within : 16 + 12 * (k + 1) ≤ bound) :
    archiveInfoIn c' k = archiveInfoIn c k := by
  have words (bytes : List UInt8) (inner : ℕ) (small : inner + 4 ≤ whisperArchiveSize) :=
    @wordAt_readAt (whisperHeaderSize + k * whisperArchiveSize) bytes inner whisperArchiveSize small
  have equal (inner : ℕ) (small : inner + 4 ≤ whisperArchiveSize) :
      wordAt c' (whisperHeaderSize + k * whisperArchiveSize + inner) =
        wordAt c (whisperHeaderSize + k * whisperArchiveSize + inner) := by
    apply wordAt_below same
    simp only [whisperHeaderSize, whisperArchiveSize] at small ⊢
    omega
  simp only [archiveInfoIn, ArchiveInfo.ofBytes, words _ 0 (by decide), words _ 4 (by decide),
    words _ 8 (by decide), equal 0 (by decide), equal 4 (by decide), equal 8 (by decide)]

namespace SameHeaders

theorem refl (c : List UInt8) : SameHeaders c c := ⟨rfl, fun _ _ => rfl⟩

theorem below (same : SameBelow bound c c') (within : infosEnd c ≤ bound) : SameHeaders c c' := by
  simp only [infosEnd] at within
  exact ⟨metadataIn_below same (by omega), fun k inside => archiveInfoIn_below same (by omega)⟩

theorem trans (first : SameHeaders c c') (second : SameHeaders c' c'') : SameHeaders c c'' := by
  refine ⟨second.metadata.trans first.metadata, fun k inside => ?_⟩
  rw [second.info k (by rwa [archivesOf, first.metadata]), first.info k inside]

/-- Points go behind the headers. -/
theorem writePoint (same : SameHeaders c c') (behind : Behind c) (inside : k < archivesOf c)
    (sized : firstTimestamp c' (archiveInfoIn c k) = 0 ∨ (archiveInfoIn c k).points * 12 ≠ 0)
    (timestamp : UInt32) (point : ArchivePoint) :
    SameHeaders c (Whisper.writePoint c' (archiveInfoIn c k) timestamp point) := by
  obtain ⟨start, room⟩ := behind k inside
  have after := Nat.le_trans start (le_targetOffset _ timestamp _ sized room)
  have end' : infosEnd c' = infosEnd c := by
    rw [infosEnd, archivesOf, same.metadata]
    rfl
  exact same.trans (.below (SameBelow.writeAt c' point.bytes after) (Nat.le_of_eq end'))

end SameHeaders
end Carbond.Whisper
