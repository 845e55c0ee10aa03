import Carbond.Whisper.Interval
import Carbond.Whisper.Layout

/-! When the reads planned for a propagation stay inside the higher archive and its buffer. The
end of the interval is an offset in the file taken modulo the size of the archive, so this depends
on how the offset of the archive compares with its size. -/
namespace Carbond.Whisper
open Bytes Posix
variable {higher lower : ArchiveInfo} {offset size start : ℕ}

/-- The lengths are not negative, add up to these many points, which fit into the buffer, and only
bytes of the archive are read. -/
structure StaysInside (archive : ArchiveInfo) (count : ℕ) (plan : List PlannedRead) : Prop where
  lengths : ∀ planned ∈ plan, 0 ≤ planned.length
  total : (plan.map PlannedRead.length).sum = (whisperPointSize * count : ℕ)
  buffer : whisperPointSize * count ≤ (archiveSize archive).toNat
  behind : ∀ planned ∈ plan, (archive.offset.toNat : Int) ≤ planned.seek.toInt
  inside : ∀ planned ∈ plan, planned.seek.toInt + planned.length ≤
    (archive.offset.toNat + (archiveSize archive).toNat : ℕ)

/-- The interval ends with the archive, and the archive begins before its own size; or it goes on
at the beginning, and what it lacks happens to be what is read. -/
def EndsWell (offset size stop : ℕ) : Prop :=
  offset + stop < 2 ^ 32 ∧
      (stop = size ∧ offset < size ∨ 2 * stop = 3 * size ∧ size ≤ 2 * offset ∧ 2 * offset < 3 * size) ∨
    2 ^ 32 ≤ offset + stop ∧ 2 * stop = size + 2 ^ 32

/-- An interval of these many points that lies before the archive's size, counted from the
beginning of the file, or that is read in two pieces and ends well. -/
structure Readable (offset size start count : ℕ) : Prop where
  buffer : whisperPointSize * count ≤ size
  seekable : offset + start < 2 ^ 31
  closes : offset + (start + whisperPointSize * count) < size ∨
    size - start < 2 ^ 31 ∧ EndsWell offset size (start + whisperPointSize * count)

/-! ### Ends of the interval -/

/-- A remainder between two multiples. -/
theorem mod_eq_sub (low : size * q ≤ n) (high : n < size * q + size) : n % size = n - size * q := by
  obtain ⟨rest, rfl⟩ := Nat.exists_eq_add_of_le low
  rw [Nat.mul_add_mod, Nat.mod_eq_of_lt (by omega), Nat.add_sub_cancel_left]

/-- Without overflow the interval ends after one round, or in the middle of the second. -/
theorem end_meets_iff (short : stop < 2 * size) :
    (offset + stop) % size ≤ offset ∧ (offset + stop) % size + stop = offset + size ↔
      stop = size ∧ offset < size ∨ 2 * stop = 3 * size ∧ size ≤ 2 * offset ∧ 2 * offset < 3 * size := by
  constructor
  · rintro ⟨before, meets⟩
    have parts := Nat.div_add_mod (offset + stop) size
    have rest := Nat.mod_lt (offset + stop) (show 0 < size by omega)
    have twice : 2 * stop = size * ((offset + stop) / size + 1) := by
      rw [Nat.mul_add, Nat.mul_one]
      omega
    have rounds : (offset + stop) / size < 3 := by
      by_contra many
      have := Nat.mul_le_mul_left size (show 4 ≤ (offset + stop) / size + 1 by omega)
      omega
    generalize (offset + stop) / size = q at parts twice rounds
    match q, rounds with
    | 0, _ => omega
    | 1, _ => exact .inl (by omega)
    | 2, _ => exact .inr (by omega)
  · rintro (⟨rfl, low⟩ | ⟨middle, low, high⟩)
    · rw [Nat.add_mod_right, Nat.mod_eq_of_lt low]
      exact ⟨Nat.le_refl _, rfl⟩
    · rw [mod_eq_sub (q := 2) (by omega) (by omega)]
      omega

/-- The second piece makes up what the first one lacks exactly if the interval ends well. -/
theorem endsWell_iff (inside : start < size) (small : size < 2 ^ 32)
    (seekable : offset + start < 2 ^ 31) (short : count ≤ size) :
    (offset + (start + count)) % 2 ^ 32 % size ≤ offset ∧
      (offset + (start + count)) % 2 ^ 32 % size + (start + count) = offset + size ↔
    EndsWell offset size (start + count) := by
  generalize stops : start + count = stop
  have twice : stop < 2 * size := by omega
  by_cases fits : offset + stop < 2 ^ 32
  · rw [Nat.mod_eq_of_lt fits, end_meets_iff twice, EndsWell]
    constructor
    · exact fun meets => .inl ⟨fits, meets⟩
    · rintro (⟨_, meets⟩ | ⟨wraps, _⟩)
      · exact meets
      · omega
  · have wrapped : (offset + stop) % 2 ^ 32 = offset + stop - 2 ^ 32 :=
      mod_eq_sub (q := 1) (by omega) (by omega)
    rw [wrapped, EndsWell]
    constructor
    · rintro ⟨before, meets⟩
      have parts := Nat.div_add_mod (offset + stop - 2 ^ 32) size
      rcases Nat.eq_zero_or_pos ((offset + stop - 2 ^ 32) / size) with zero | positive
      · rw [zero, Nat.mul_zero] at parts
        exact .inr (by omega)
      · have round := Nat.le_mul_of_pos_right size positive
        omega
    · rintro (⟨less, _⟩ | ⟨wraps, meets⟩)
      · omega
      · rw [Nat.mod_eq_of_lt (by omega)]
        omega

/-- In one piece, these many bytes are read exactly if the interval lies before the size. -/
theorem closes_single (inside : start < size) (small : size < 2 ^ 32)
    (seekable : offset + start < 2 ^ 31) (short : count ≤ size)
    (stops : stop = (offset + (start + count)) % 2 ^ 32 % size) (ahead : offset + start < stop) :
    stop - (offset + start) = count ∧ start + count ≤ size ↔
      offset + (start + count) < size ∨ size - start < 2 ^ 31 ∧ EndsWell offset size (start + count) := by
  have ends := endsWell_iff inside small seekable short
  rw [← stops] at ends
  constructor
  · rintro ⟨length, _⟩
    left
    have below : stop < size := stops ▸ Nat.mod_lt _ (by omega)
    omega
  · rintro (before | ⟨_, well⟩)
    · rw [Nat.mod_eq_of_lt (lt_trans before small), Nat.mod_eq_of_lt before] at stops
      omega
    · have back := (ends.mpr well).1
      omega

/-- In two pieces, the lengths are right exactly if the first is a proper int and the interval
ends well. -/
theorem closes_double {rdLen rdLen2 : UInt32} (inside : start < size) (small : size < 2 ^ 32)
    (seekable : offset + start < 2 ^ 31) (some : 0 < count) (short : count ≤ size)
    (stops : stop = (offset + (start + count)) % 2 ^ 32 % size) (back : stop ≤ offset + start)
    (first : rdLen.toNat = size - start) (second : rdLen2.toNat = (2 ^ 32 - stop + offset) % 2 ^ 32) :
    0 ≤ rdLen.toInt32.toInt ∧ 0 ≤ rdLen2.toInt32.toInt ∧
        rdLen.toInt32.toInt + rdLen2.toInt32.toInt = count ∧ start + rdLen.toInt32.toInt ≤ size ↔
      offset + (start + count) < size ∨ size - start < 2 ^ 31 ∧ EndsWell offset size (start + count) := by
  have ends := endsWell_iff inside small seekable short
  rw [← stops] at ends
  rw [toInt_toInt32_eq, toInt_toInt32_eq, first, second]
  constructor
  · rintro ⟨positive, positive₂, total, _⟩
    have below : stop < size := stops ▸ Nat.mod_lt _ (by omega)
    clear stops
    refine .inr ⟨by omega, ends.mp ?_⟩
    omega
  · rintro (before | ⟨near, well⟩)
    · rw [Nat.mod_eq_of_lt (lt_trans before small), Nat.mod_eq_of_lt before] at stops
      omega
    · obtain ⟨early, meets⟩ := ends.mpr well
      clear stops ends well
      omega

/-! ### Plans -/

/-- The first seek goes to where the interval starts, as an int. -/
theorem StaysInside.seekable
    (stays : StaysInside higher count (plannedReads higher lower timestamp first)) :
    higher.offset.toNat + placeOfStart higher lower timestamp first < 2 ^ 31 := by
  have sought : (higher.offset.toNat : Int) ≤
      (higherStartOffset higher lower timestamp first).toInt32.toInt := by
    have behind := stays.behind
    simp only [plannedReads, readPlan] at behind
    split at behind
    · have first := behind _ List.mem_cons_self
      exact first
    · have first := behind _ List.mem_cons_self
      exact first
  have place := placeOfStart_lt_word higher lower timestamp first
  rw [toInt_toInt32_eq, higherStartOffset_toNat] at sought
  split at sought
  · omega
  · omega

/-- In one piece, the interval is read as it is. -/
theorem staysInside_single {startOffset : UInt32}
    (plan : plannedReads higher lower timestamp first = [⟨startOffset.toInt32, 0, length⟩])
    (starts : startOffset.toNat = higher.offset.toNat + placeOfStart higher lower timestamp first)
    (seekable : startOffset.toNat < 2 ^ 31) :
    StaysInside higher count (plannedReads higher lower timestamp first) ↔
      whisperPointSize * count ≤ (archiveSize higher).toNat ∧
      length = (whisperPointSize * count : ℕ) ∧
      placeOfStart higher lower timestamp first + whisperPointSize * count ≤
        (archiveSize higher).toNat := by
  have seek : startOffset.toInt32.toInt = startOffset.toNat := toInt_toInt32 seekable
  rw [plan]
  constructor
  · rintro ⟨_, total, buffer, _, inside⟩
    have stop := inside _ List.mem_cons_self
    simp only [List.map_cons, List.map_nil, List.sum_cons, List.sum_nil] at total
    simp only [seek] at stop
    exact ⟨buffer, by omega, by omega⟩
  · rintro ⟨buffer, rfl, fits⟩
    constructor
    · simp only [List.mem_singleton, forall_eq]
      exact Int.natCast_nonneg _
    · simp
    · exact buffer
    · simp only [List.mem_singleton, forall_eq, seek]
      omega
    · simp only [List.mem_singleton, forall_eq, seek]
      omega

/-- In two pieces, the archive is read to its end and then from its beginning. -/
theorem staysInside_double {startOffset : UInt32}
    (plan : plannedReads higher lower timestamp first =
      [⟨startOffset.toInt32, 0, rdLen⟩, ⟨higher.offset.toInt32, rdLen, rdLen2⟩])
    (starts : startOffset.toNat = higher.offset.toNat + placeOfStart higher lower timestamp first)
    (seekable : startOffset.toNat < 2 ^ 31) :
    StaysInside higher count (plannedReads higher lower timestamp first) ↔
      whisperPointSize * count ≤ (archiveSize higher).toNat ∧ 0 ≤ rdLen ∧ 0 ≤ rdLen2 ∧
      rdLen + rdLen2 = (whisperPointSize * count : ℕ) ∧
      placeOfStart higher lower timestamp first + rdLen ≤ (archiveSize higher).toNat := by
  have seek : startOffset.toInt32.toInt = startOffset.toNat := toInt_toInt32 seekable
  have back : higher.offset.toInt32.toInt = higher.offset.toNat := toInt_toInt32 (by omega)
  rw [plan]
  constructor
  · rintro ⟨lengths, total, buffer, _, inside⟩
    have positive := lengths _ List.mem_cons_self
    have positive₂ := lengths _ (List.mem_cons_of_mem _ List.mem_cons_self)
    have stop := inside _ List.mem_cons_self
    simp only [List.map_cons, List.map_nil, List.sum_cons, List.sum_nil] at total
    simp only [seek] at stop
    exact ⟨buffer, positive, positive₂, by omega, by omega⟩
  · rintro ⟨buffer, positive, positive₂, total, fits⟩
    constructor
    · simp only [List.mem_cons, List.not_mem_nil, or_false, forall_eq_or_imp, forall_eq]
      exact ⟨positive, positive₂⟩
    · simp only [List.map_cons, List.map_nil, List.sum_cons, List.sum_nil]
      omega
    · exact buffer
    · simp only [List.mem_cons, List.not_mem_nil, or_false, forall_eq_or_imp, forall_eq, seek, back]
      omega
    · simp only [List.mem_cons, List.not_mem_nil, or_false, forall_eq_or_imp, forall_eq, seek, back]
      omega

theorem plannedReads_staysInside_iff (timestamp first : UInt32)
    (some : 0 < (nbHigherPoints higher lower).toNat) :
    StaysInside higher (nbHigherPoints higher lower).toNat
        (plannedReads higher lower timestamp first) ↔
      Readable higher.offset.toNat (archiveSize higher).toNat
        (placeOfStart higher lower timestamp first) (nbHigherPoints higher lower).toNat := by
  by_cases fits : whisperPointSize * (nbHigherPoints higher lower).toNat ≤ (archiveSize higher).toNat ∧
      higher.offset.toNat + placeOfStart higher lower timestamp first < 2 ^ 31
  · obtain ⟨buffer, seekable⟩ := fits
    have sized : 0 < (archiveSize higher).toNat :=
      lt_of_lt_of_le (Nat.mul_pos (by decide) some) buffer
    have inside := placeOfStart_lt lower timestamp first sized
    have small := archiveSize_lt higher
    have starts := higherStartOffset_toNat higher lower timestamp first
    rw [Nat.mod_eq_of_lt (by omega)] at starts
    have stops := higherEndOffset_toNat higher lower
      (higherStartOffset higher lower timestamp first)
    rw [starts, Nat.add_assoc] at stops
    have points := Nat.mul_pos (show 0 < whisperPointSize by decide) some
    by_cases single : higherStartOffset higher lower timestamp first <
        higherEndOffset higher lower (higherStartOffset higher lower timestamp first)
    · have ahead := UInt32.lt_iff_toNat_lt.mp single
      have plan : plannedReads higher lower timestamp first = _ := if_pos single
      have closes := closes_single inside small seekable buffer stops (starts ▸ ahead)
      rw [staysInside_single plan starts (by omega), UInt32.toNat_sub_of_le _ _ (Nat.le_of_lt ahead),
        starts, Int.natCast_inj, closes]
      exact ⟨fun ⟨_, well⟩ => ⟨buffer, seekable, well⟩, fun readable => ⟨buffer, readable.closes⟩⟩
    · have back := Nat.not_lt.mp fun ahead => single (UInt32.lt_iff_toNat_lt.mpr ahead)
      have plan : plannedReads higher lower timestamp first = _ := if_neg single
      have closes := closes_double inside small seekable points buffer stops (starts ▸ back)
        (rdLen_eq starts inside) (UInt32.toNat_sub _ _)
      rw [staysInside_double plan starts (by omega), closes]
      exact ⟨fun ⟨_, well⟩ => ⟨buffer, seekable, well⟩, fun readable => ⟨buffer, readable.closes⟩⟩
  · constructor
    · exact fun stays => absurd ⟨stays.buffer, stays.seekable⟩ fits
    · exact fun readable => absurd ⟨readable.buffer, readable.seekable⟩ fits

/-- Any two archives, any timestamp in slot 0 and any point of the lower archive: the plan stays
inside exactly if the interval is readable. -/
theorem readPlan_staysInside_iff (step : higher.secondsPerPoint ≠ 0)
    (multiple : lower.secondsPerPoint.toNat = n * higher.secondsPerPoint.toNat) (some : 1 ≤ n)
    (timestamp first : UInt32) :
    StaysInside higher n (plannedReads higher lower timestamp first) ↔
      Readable higher.offset.toNat (archiveSize higher).toNat
        (placeOfStart higher lower timestamp first) n := by
  have positive : 0 < higher.secondsPerPoint.toNat :=
    Nat.pos_of_ne_zero fun zero => step (UInt32.toNat_inj.mp zero)
  have count : (nbHigherPoints higher lower).toNat = n := by
    rw [nbHigherPoints, UInt32.toNat_div, multiple, Nat.mul_div_cancel _ positive]
  have planned := plannedReads_staysInside_iff timestamp first (count.symm ▸ some)
  rwa [count] at planned

/-- Ten points of one second and ten of two. The interval of the point at 4 begins at slot 2. -/
theorem readPlan_staysInside_iff_witness :
    StaysInside (archiveOf [⟨1, 10⟩, ⟨2, 20⟩] 0 ⟨1, 10⟩) 2
      (plannedReads (archiveOf [⟨1, 10⟩, ⟨2, 20⟩] 0 ⟨1, 10⟩)
        (archiveOf [⟨1, 10⟩, ⟨2, 20⟩] 1 ⟨2, 20⟩) 4 1) :=
  (readPlan_staysInside_iff (by decide) (by decide) (by decide) 4 1).mpr
    ⟨by decide, by decide, .inl (by decide)⟩

/-- The same file, with the interval of the point at 8 in the slots 6 and 7: its 24 bytes are read
as 48 and 24 bytes. -/
theorem interval_read_in_excess :
    plannedReads (archiveOf [⟨1, 10⟩, ⟨2, 20⟩] 0 ⟨1, 10⟩)
        (archiveOf [⟨1, 10⟩, ⟨2, 20⟩] 1 ⟨2, 20⟩) 8 1 = [⟨112, 0, 48⟩, ⟨40, 48, 24⟩] ∧
    ¬ StaysInside (archiveOf [⟨1, 10⟩, ⟨2, 20⟩] 0 ⟨1, 10⟩) 2
      (plannedReads (archiveOf [⟨1, 10⟩, ⟨2, 20⟩] 0 ⟨1, 10⟩)
        (archiveOf [⟨1, 10⟩, ⟨2, 20⟩] 1 ⟨2, 20⟩) 8 1) := by
  have plan : plannedReads (archiveOf [⟨1, 10⟩, ⟨2, 20⟩] 0 ⟨1, 10⟩)
      (archiveOf [⟨1, 10⟩, ⟨2, 20⟩] 1 ⟨2, 20⟩) 8 1 = [⟨112, 0, 48⟩, ⟨40, 48, 24⟩] := by
    decide
  refine ⟨plan, fun stays => ?_⟩
  have total := stays.total
  rw [plan] at total
  revert total
  decide

end Carbond.Whisper
