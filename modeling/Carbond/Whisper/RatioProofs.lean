import Carbond.Ieee.Format
import Carbond.Whisper.Interval
import Carbond.Whisper.Layout
import Carbond.Whisper.WindowProofs

/-! The decision to propagate. The known points are divided by the points there could be in
integers, so the ratio compared with the x-files factor is 0 until all points are known. -/
namespace Carbond.Whisper
open Bytes Posix Ieee
variable {w : World Globals} {higher lower : ArchiveInfo}

/-- The number in a float. -/
def floatValue (bits : UInt32) : ℚ := single.value bits.toNat

/-- Counts that a float holds exactly are compared with finite floats as numbers are. -/
def ComparesExactly [Platform] : Prop :=
  ∀ count x : UInt32, count.toNat ≤ 2 ^ 24 → single.Finite x.toNat →
    (Platform.atLeast count x = true ↔ floatValue x ≤ count.toNat)

/-- An x-files factor in [0, 1]. -/
structure IsFactor (x : UInt32) : Prop where
  finite : single.Finite x.toNat
  nonneg : 0 ≤ floatValue x
  le_one : floatValue x ≤ 1

/-- From this state the program goes on, and one point is written, at this timestamp, into this
archive. -/
def Receives (program : Action Nat) (w : World Globals) (fd : ℕ) (path : Path) (c : List UInt8)
    (archive : ArchiveInfo) (timestamp : UInt32) : Prop :=
  ∃ r w' value pos', Yields program w r w' ∧
    w'.globals.writes = w.globals.writes ++
      [pointWrite c archive timestamp (htonArchivePoint ⟨timestamp, value⟩)] ∧
    Opened w' fd path (writePoint c archive timestamp (htonArchivePoint ⟨timestamp, value⟩)) pos'

/-- From this state the program goes on, and the file is left as it was. -/
def Leaves (program : Action Nat) (w : World Globals) (fd : ℕ) (path : Path) (c : List UInt8) :
    Prop := ∃ r w', Yields program w r w' ∧ Kept fd path c w.globals.writes w'

/-- The program writes the point exactly if the ratio of known points reaches the factor, and
does nothing to the file otherwise. -/
structure DecidesByRatio (program : Action Nat) (w : World Globals) (fd : ℕ) (path : Path)
    (c : List UInt8) (archive : ArchiveInfo) (timestamp : UInt32) (ratio x : ℚ) : Prop where
  receives : Receives program w fd path c archive timestamp ↔ x ≤ ratio
  leaves : ¬ x ≤ ratio → Leaves program w fd path c

/-- A point can be written into the archive: it can be sought to, and has a size. -/
def Reachable (archive : ArchiveInfo) (c : List UInt8) : Prop :=
  archive.offset.toNat < 2 ^ 31 ∧ Writable archive (firstTimestamp c archive)

/-! ### The decision -/

/-- Of a factor in [0, 1], the integer quotient only tells 0, or whether all points are known. -/
theorem le_quotient_iff {x : ℚ} (nonneg : 0 ≤ x) (le_one : x ≤ 1) (positive : 0 < count)
    (most : known ≤ count) : x ≤ (known / count : ℕ) ↔ known = count ∨ x = 0 := by
  rcases Nat.lt_or_eq_of_le most with less | rfl
  · rw [Nat.div_eq_of_lt less, Nat.cast_zero]
    constructor
    · intro below
      exact .inr (le_antisymm below nonneg)
    · rintro (rfl | zero)
      · exact absurd less (Nat.lt_irrefl _)
      · exact zero.le
  · rw [Nat.div_self positive, Nat.cast_one]
    exact ⟨fun _ => .inl rfl, fun _ => le_one⟩

theorem atLeast_iff [Platform] (compares : ComparesExactly) (factor : IsFactor x)
    (positive : 0 < count.toNat) (most : known ≤ count.toNat) :
    Platform.atLeast (UInt32.ofNat known / count) x = true ↔
      known = count.toNat ∨ floatValue x = 0 := by
  have small : (UInt32.ofNat known).toNat = known := by
    have := count.toNat_lt
    rw [UInt32.toNat_ofNat', Nat.mod_eq_of_lt (by omega)]
  have quotient : (UInt32.ofNat known / count).toNat = known / count.toNat := by
    rw [UInt32.toNat_div, small]
  have bound : known / count.toNat ≤ 1 := by
    rw [← Nat.div_self positive]
    exact Nat.div_le_div_right most
  rw [compares _ x (by rw [quotient]; omega) factor.finite, quotient]
  exact le_quotient_iff factor.nonneg factor.le_one positive most

/-- The exact ratio is reached whenever the integer quotient is. -/
theorem le_ratio {x : ℚ} {known count : ℕ} (positive : 0 < count) (le_one : x ≤ 1)
    (decided : known = count ∨ x = 0) : x ≤ known / count := by
  rcases decided with rfl | zero
  · rw [div_self]
    · exact le_one
    · exact Nat.cast_ne_zero.mpr (Nat.ne_of_gt positive)
  · rw [zero]
    exact div_nonneg (Nat.cast_nonneg _) (Nat.cast_nonneg _)

/-! ### The second half of a propagation -/

theorem Leaves.not_receives (leaves : Leaves program w fd path c) :
    ¬ Receives program w fd path c' archive timestamp := by
  obtain ⟨r, w', run, _, same⟩ := leaves
  rintro ⟨r', w'', value, _, run', more, _⟩
  obtain ⟨_, rfl⟩ := run.unique run'
  rw [same] at more
  have longer := congrArg List.length more
  rw [List.length_append, List.length_singleton] at longer
  omega

/-- What is read first changes nothing. -/
theorem receives_congr {program program' : Action Nat} (same : program w = program' w₁)
    (log : w₁.globals.writes = w.globals.writes) :
    Receives program w fd path c archive timestamp ↔
      Receives program' w₁ fd path c archive timestamp := by
  simp only [Receives, Yields, same, log]

theorem leaves_congr {program program' : Action Nat} (same : program w = program' w₁)
    (log : w₁.globals.writes = w.globals.writes) :
    Leaves program w fd path c ↔ Leaves program' w₁ fd path c := by
  simp only [Leaves, Yields, same, log]

section
variable [Platform] {wspMd : Metadata} {known : List UInt64} {count : UInt32}

/-- A point that is due is written whatever comes of it. -/
theorem propagateKnown_eq (fd : Fd) (timestamp : UInt32) (lower : ArchiveInfo) (positive : count ≠ 0)
    (decided : Platform.atLeast (UInt32.ofNat known.length / count) wspMd.xFilesFactor = true) :
    propagateKnown fd timestamp wspMd lower count known w = (do
      let _ ← whisperWritePoint fd lower timestamp (htonArchivePoint ⟨timestamp,
        whisperAggregateValues known (UInt32.ofNat known.length) wspMd.aggregationType⟩)
      return exitSuccess) w := by
  refine ((divide32_yields _ positive).rest_eq _).trans ?_
  rw [if_pos decided]

/-- All points the file has room for are received, and no others. -/
theorem propagateKnown_receives_iff (opened : Opened w fd path c pos) (positive : count ≠ 0)
    (step : lower.secondsPerPoint ≠ 0) (timestamp : UInt32)
    (decided : Platform.atLeast (UInt32.ofNat known.length / count) wspMd.xFilesFactor = true) :
    Receives (propagateKnown (some fd) timestamp wspMd lower count known) w fd path c lower
      timestamp ↔ Reachable lower c := by
  let value := whisperAggregateValues known (UInt32.ofNat known.length) wspMd.aggregationType
  rw [receives_congr (propagateKnown_eq (some fd) timestamp lower positive decided) rfl]
  constructor
  · rintro ⟨r, w', value', pos', run, more, _⟩
    by_contra unreachable
    by_cases seekable : lower.offset.toNat < 2 ^ 31
    · -- The archive has no size, and the distance to its first point is divided by it.
      obtain ⟨used, unsized⟩ := not_or.mp fun writable => unreachable ⟨seekable, writable⟩
      have none : archiveSize lower = 0 := by
        by_contra sized
        exact unsized ⟨step, sized⟩
      have stopped : Ends w (do
          let _ ← whisperWritePoint (some fd) lower timestamp (htonArchivePoint ⟨timestamp, value⟩)
          return exitSuccess) (fun _ _ => False) _ :=
        .bind (whisperWritePoint_unsized opened timestamp _ seekable step used none)
          fun _ _ => False.elim
      exact stopped.returns r w' run
    · have refused := whisperWritePoint_refused opened timestamp
        (htonArchivePoint ⟨timestamp, value⟩) seekable
      have left : Leaves (do
          let _ ← whisperWritePoint (some fd) lower timestamp (htonArchivePoint ⟨timestamp, value⟩)
          return exitSuccess) w fd path c :=
        ⟨_, w, .bind refused (.pure _ _), .of_opened opened⟩
      exact left.not_receives ⟨r, w', value', pos', run, more, ‹_›⟩
  · rintro ⟨seekable, writable⟩
    obtain ⟨pos', run⟩ := whisperWritePoint_yields opened timestamp
      (htonArchivePoint ⟨timestamp, value⟩) seekable writable
    exact ⟨_, _, value, pos', .bind run (.pure _ _), rfl, (opened.moved _ pos').withGlobals⟩

theorem propagateKnown_leaves (opened : Opened w fd path c pos) (positive : count ≠ 0)
    (timestamp : UInt32) (lower : ArchiveInfo)
    (decided : Platform.atLeast (UInt32.ofNat known.length / count) wspMd.xFilesFactor ≠ true) :
    Leaves (propagateKnown (some fd) timestamp wspMd lower count known) w fd path c := by
  have run : propagateKnown (some fd) timestamp wspMd lower count known w = .ok exitSuccess w := by
    refine ((divide32_yields _ positive).rest_eq _).trans ?_
    rw [if_neg decided]
    rfl
  exact ⟨_, w, run, .of_opened opened⟩

end

/-- A platform that compares numbers. -/
@[reducible] def comparesNumbers : Platform where
  pcre := matchesAll.pcre
  add := matchesAll.add
  divide := matchesAll.divide
  atLeast count x := decide (floatValue x ≤ count.toNat)
  strtod := matchesAll.strtod
  strtof := matchesAll.strtof
  uninitialised := matchesAll.uninitialised
  stray := matchesAll.stray

theorem comparesNumbers_exactly : @ComparesExactly comparesNumbers :=
  fun _ _ _ _ => decide_eq_true_iff

theorem isFactor_half : IsFactor 0x3f000000 :=
  ⟨by decide +kernel, by decide +kernel, by decide +kernel⟩

end Carbond.Whisper
