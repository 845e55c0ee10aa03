import Carbond.Whisper.RingProofs

/-! Runs of point writes in time order, through any number of wraps. -/
namespace Carbond.Whisper
open Bytes Posix
variable {w : World Globals} {archive : ArchiveInfo}

/-- Point writes one after the other, each with its point in network order. -/
def whisperWritePoints (fd : Fd) (archive : ArchiveInfo) : List (UInt32 × UInt64) → Action Unit
  | [] => return ()
  | (timestamp, value) :: rest => do
    let _ ← whisperWritePoint fd archive timestamp (htonArchivePoint ⟨timestamp, value⟩)
    whisperWritePoints fd archive rest

/-- The contents of the file after a sequence of point writes. -/
def writePoints (archive : ArchiveInfo) (c : List UInt8) (calls : List (UInt32 × UInt64)) :
    List UInt8 :=
  calls.foldl (fun c call => writePoint c archive call.1 (htonArchivePoint ⟨call.1, call.2⟩)) c

theorem writePoints_cons (archive : ArchiveInfo) (c : List UInt8) (timestamp : UInt32)
    (value : UInt64) (rest : List (UInt32 × UInt64)) :
    writePoints archive c ((timestamp, value) :: rest) = writePoints archive
      (writePoint c archive timestamp (htonArchivePoint ⟨timestamp, value⟩)) rest := List.foldl_cons ..

theorem whisperWritePoints_yields (fits : archive.Fits) (opened : Opened w fd path c pos)
    (calls : List (UInt32 × UInt64)) :
    ∃ w' pos', Yields (whisperWritePoints (some fd) archive calls) w () w' ∧
      Opened w' fd path (writePoints archive c calls) pos' := by
  induction calls generalizing w c pos with
  | nil => exact ⟨w, pos, .pure _ _, opened⟩
  | cons call rest ih =>
    obtain ⟨timestamp, value⟩ := call
    obtain ⟨pos₁, written⟩ := whisperWritePoint_yields opened timestamp
      (htonArchivePoint ⟨timestamp, value⟩) (by have := fits.bound; omega) fits.writable
    obtain ⟨w', pos', run, final⟩ := ih (Opened.put opened.quiet).withGlobals
    rw [writePoints_cons]
    exact ⟨w', pos', .bind written run, final⟩

/-- The log of a sequence of calls. -/
def logOf (calls : List (UInt32 × UInt64)) : List (ℕ × UInt64) :=
  calls.map fun call => (call.1.toNat, call.2)

theorem writePoint_length (within : slotPos archive archive.points.toNat ≤ c.length) :
    slotPos archive archive.points.toNat ≤ (writePoint c archive timestamp point).length :=
  within.trans (writeAt_length_le _ _ _)

theorem writePoints_length (within : slotPos archive archive.points.toNat ≤ c.length)
    (calls : List (UInt32 × UInt64)) :
    slotPos archive archive.points.toNat ≤ (writePoints archive c calls).length := by
  induction calls generalizing c with
  | nil => exact within
  | cons call rest ih =>
    obtain ⟨timestamp, value⟩ := call
    rw [writePoints_cons]
    exact ih (writePoint_length within)

/-- The base in slot 0 is an entry of the log. -/
theorem firstTimestamp_between (slots : 0 < archive.points.toNat)
    (holds : Ring.Represents shape first last log (cells c archive))
    (used : firstTimestamp c archive ≠ 0) :
    first ≤ (firstTimestamp c archive).toNat ∧ (firstTimestamp c archive).toNat ≤ last := by
  have entry := (holds.placed _ _ _ (cells_zero_used slots used)).1
  obtain ⟨after, before, _⟩ := holds.bounded _ _ entry
  exact ⟨after, before⟩

/-- One write in time order, to the right slot. -/
theorem represents_writePoint (addressable : archive.Addressable)
    (within : slotPos archive archive.points.toNat ≤ c.length)
    (holds : Ring.Represents addressable.shape first last log (cells c archive))
    (nonzero : timestamp ≠ 0) (multiple : archive.secondsPerPoint.toNat ∣ timestamp.toNat - first)
    (later : last ≤ timestamp.toNat)
    (right : RightPlace archive timestamp (firstTimestamp c archive)) (value : UInt64) :
    Ring.Represents addressable.shape first timestamp.toNat (log ++ [(timestamp.toNat, value)])
      (cells (writePoint c archive timestamp (htonArchivePoint ⟨timestamp, value⟩)) archive) := by
  have ahead : (firstTimestamp c archive).toNat ≤ timestamp.toNat := by
    by_cases empty : firstTimestamp c archive = 0
    · rw [empty]
      exact Nat.zero_le _
    · exact (firstTimestamp_between addressable.slots holds empty).2.trans later
  rw [cells_writePoint addressable within nonzero ahead right]
  exact holds.write later multiple value

/-- Every write of the sequence goes to its own slot. -/
def Placed (archive : ArchiveInfo) : List UInt8 → List (UInt32 × UInt64) → Prop
  | _, [] => True
  | c, (timestamp, value) :: rest =>
    RightPlace archive timestamp (firstTimestamp c archive) ∧
      Placed archive (writePoint c archive timestamp (htonArchivePoint ⟨timestamp, value⟩)) rest

instance decidePlaced (archive : ArchiveInfo) :
    (c : List UInt8) → (calls : List (UInt32 × UInt64)) → Decidable (Placed archive c calls)
  | _, [] => .isTrue trivial
  | c, (timestamp, value) :: rest =>
    @instDecidableAnd _ _ _ (decidePlaced archive
      (writePoint c archive timestamp (htonArchivePoint ⟨timestamp, value⟩)) rest)

/-- The ring represents the log after every prefix of the calls. -/
theorem represents_writePoints (addressable : archive.Addressable)
    (within : slotPos archive archive.points.toNat ≤ c.length)
    (holds : Ring.Represents addressable.shape first last log (cells c archive))
    (aligned : ∀ call ∈ calls, call.1 ≠ 0 ∧ archive.secondsPerPoint.toNat ∣ call.1.toNat - first)
    (late : ∀ call ∈ calls, last ≤ call.1.toNat)
    (ordered : calls.Pairwise fun a b => a.1.toNat ≤ b.1.toNat) (placed : Placed archive c calls) :
    Ring.Represents addressable.shape first ((calls.map fun call => call.1.toNat).getLastD last)
      (log ++ logOf calls) (cells (writePoints archive c calls) archive) := by
  induction calls generalizing c last log with
  | nil => simpa [writePoints, logOf] using holds
  | cons call rest ih =>
    obtain ⟨timestamp, value⟩ := call
    obtain ⟨nonzero, multiple⟩ := aligned (timestamp, value) List.mem_cons_self
    have later : last ≤ timestamp.toNat := late (timestamp, value) List.mem_cons_self
    obtain ⟨before, ordered⟩ := List.pairwise_cons.mp ordered
    obtain ⟨right, placed⟩ := placed
    have step := represents_writePoint addressable within holds nonzero multiple later right value
    have run := ih (writePoint_length within) step
      (fun call member => aligned call (List.mem_cons_of_mem _ member)) before ordered placed
    rw [writePoints_cons]
    simpa only [List.append_assoc, logOf, List.map_cons, List.singleton_append,
      List.getLastD_cons] using run

theorem cells_zeros (zeros : readAt c archive.offset.toNat (12 * archive.points.toNat) =
    List.replicate (12 * archive.points.toNat) 0) (i : ℕ) : cells c archive i = none := by
  by_cases inside : i < archive.points.toNat
  · have empty : pointIn c (slotPos archive i) = ⟨0, 0⟩ := by
      apply pointIn_zeros
      have part := readAt_readAt c archive.offset.toNat
        (show 12 * i + whisperPointSize ≤ 12 * archive.points.toNat by
          simp only [whisperPointSize]
          omega)
      rw [slotPos, ← part, zeros]
      simp only [readAt, List.drop_replicate, List.take_replicate, whisperPointSize]
      congr 1
      omega
    simp [cells, empty]
  · simp [cells, inside]

/-- Whatever a non-empty cell says, the slot in the file says. -/
theorem slot_of_cells (found : cells c archive i = some (timestamp.toNat, value)) :
    pointIn c (slotPos archive i) = ⟨timestamp, value⟩ := by
  simp only [cells] at found
  split at found
  · simp only [Option.some.injEq, Prod.mk.injEq] at found
    cases point : pointIn c (slotPos archive i) with
    | mk stored value' =>
      simp only [point] at found
      rw [UInt32.toNat_inj.mp found.1, found.2]
  · contradiction

theorem within_of_zeros (slots : 0 < archive.points.toNat)
    (zeros : readAt c archive.offset.toNat (12 * archive.points.toNat) =
      List.replicate (12 * archive.points.toNat) 0) :
    slotPos archive archive.points.toNat ≤ c.length := by
  have sized := congrArg List.length zeros
  rw [readAt_length, List.length_replicate] at sized
  rw [slotPos]
  omega

theorem le_last {calls : List (UInt32 × UInt64)}
    (ordered : calls.Pairwise fun a b => a.1.toNat ≤ b.1.toNat)
    (ends : calls.getLast? = some last) : ∀ call ∈ calls, call.1.toNat ≤ last.1.toNat := by
  obtain ⟨earlier, rfl⟩ := List.getLast?_eq_some_iff.mp ends
  intro call member
  rcases List.mem_append.mp member with before | here
  · exact (List.pairwise_append.mp ordered).2.2 call before last (by simp)
  · exact (List.mem_singleton.mp here) ▸ le_rfl

/-- An archive without points, and a sequence that does not begin at time 0. -/
theorem represents_from (addressable : archive.Addressable)
    (within : slotPos archive archive.points.toNat ≤ c.length)
    (free : ∀ i, cells c archive i = none) (nonzero : timestamp ≠ 0)
    (ends : ((timestamp, value) :: rest).getLast? = some last)
    (aligned : ∀ call ∈ (timestamp, value) :: rest, archive.secondsPerPoint.toNat ∣ call.1.toNat)
    (ordered : ((timestamp, value) :: rest).Pairwise fun a b => a.1.toNat ≤ b.1.toNat)
    (placed : Placed archive
      (writePoint c archive timestamp (htonArchivePoint ⟨timestamp, value⟩)) rest) :
    Ring.Represents addressable.shape timestamp.toNat last.1.toNat (logOf ((timestamp, value) :: rest))
      (cells (writePoints archive c ((timestamp, value) :: rest)) archive) := by
  have empty := firstTimestamp_free addressable.slots (free 0)
  have start := Ring.Represents.start addressable.shape free timestamp.toNat value
  rw [← cells_writePoint addressable within nonzero (by rw [empty]; exact Nat.zero_le _)
    (.inl empty)] at start
  obtain ⟨before, ordered⟩ := List.pairwise_cons.mp ordered
  have multiple := aligned (timestamp, value) List.mem_cons_self
  have final : (rest.map fun call => call.1.toNat).getLastD timestamp.toNat = last.1.toNat := by
    rw [List.getLast?_cons] at ends
    rw [← Option.some.inj ends, List.getLastD_eq_getLast?, List.getLast?_map]
    cases rest.getLast? with
    | none => rfl
    | some call => rfl
  have run := represents_writePoints addressable (writePoint_length within) start
    (fun call member => by
      have later := before call member
      refine ⟨fun zero => nonzero ?_, Nat.dvd_sub
        (aligned call (List.mem_cons_of_mem _ member)) multiple⟩
      rw [zero, UInt32.toNat_zero] at later
      exact UInt32.toNat_inj.mp (Nat.le_zero.mp later))
    before ordered placed
  rw [final] at run
  rw [writePoints_cons]
  exact run

/-- An archive without points represents the log of any sequence in time order. Points at time 0
come first and leave it empty. -/
theorem represents_calls (addressable : archive.Addressable)
    (within : slotPos archive archive.points.toNat ≤ c.length)
    (free : ∀ i, cells c archive i = none) (ends : calls.getLast? = some last) (used : last.1 ≠ 0)
    (aligned : ∀ call ∈ calls, archive.secondsPerPoint.toNat ∣ call.1.toNat)
    (ordered : calls.Pairwise fun a b => a.1.toNat ≤ b.1.toNat) (placed : Placed archive c calls) :
    ∃ first, (∀ call ∈ calls, call.1 ≠ 0 → first ≤ call.1.toNat) ∧
      Ring.Represents addressable.shape first last.1.toNat
        (logOf (calls.filter fun call => call.1 ≠ 0)) (cells (writePoints archive c calls) archive) := by
  induction calls generalizing c with
  | nil => contradiction
  | cons call rest ih =>
    obtain ⟨timestamp, value⟩ := call
    obtain ⟨before, ordered'⟩ := List.pairwise_cons.mp ordered
    by_cases zero : timestamp = 0
    · subst zero
      have ends' : rest.getLast? = some last := by
        cases rest with
        | nil =>
          obtain rfl := Option.some.inj ends
          contradiction
        | cons next rest => exact List.getLast?_cons_cons.symm.trans ends
      obtain ⟨first, early, holds⟩ := ih (writePoint_length within)
        (cells_writePoint_zero addressable.slots within free value) ends'
        (fun call member => aligned call (List.mem_cons_of_mem _ member)) ordered' placed.2
      refine ⟨first, fun call member nonzero => ?_, ?_⟩
      · rcases List.mem_cons.mp member with rfl | later
        · contradiction
        · exact early call later nonzero
      · rw [List.filter_cons_of_neg (by simp), writePoints_cons]
        exact holds
    · have later : ∀ call ∈ (timestamp, value) :: rest, call.1 ≠ 0 := by
        intro call member empty
        rcases List.mem_cons.mp member with rfl | behind
        · exact zero empty
        · have late := before call behind
          rw [empty, UInt32.toNat_zero] at late
          exact zero (UInt32.toNat_inj.mp (Nat.le_zero.mp late))
      refine ⟨timestamp.toNat, fun call member _ => ?_, ?_⟩
      · rcases List.mem_cons.mp member with rfl | behind
        · exact Nat.le_refl _
        · exact before call behind
      · rw [List.filter_eq_self.mpr fun call member => decide_eq_true (later call member)]
        exact represents_from addressable within free zero ends aligned ordered placed.2

/-- Writes whose distances to the first call are short go to their own slots. -/
theorem placed_of_short (addressable : archive.Addressable)
    (within : slotPos archive archive.points.toNat ≤ c.length)
    (holds : Ring.Represents addressable.shape first last log (cells c archive))
    (aligned : ∀ call ∈ calls, call.1 ≠ 0 ∧ archive.secondsPerPoint.toNat ∣ call.1.toNat - first)
    (late : ∀ call ∈ calls, last ≤ call.1.toNat)
    (ordered : calls.Pairwise fun a b => a.1.toNat ≤ b.1.toNat)
    (short : ∀ call ∈ calls, (call.1.toNat - first) / archive.secondsPerPoint.toNat * 12 < 2 ^ 32) :
    Placed archive c calls := by
  induction calls generalizing c last log with
  | nil => trivial
  | cons call rest ih =>
    obtain ⟨timestamp, value⟩ := call
    obtain ⟨nonzero, multiple⟩ := aligned (timestamp, value) List.mem_cons_self
    have later : last ≤ timestamp.toNat := late (timestamp, value) List.mem_cons_self
    obtain ⟨before, ordered⟩ := List.pairwise_cons.mp ordered
    have close := short (timestamp, value) List.mem_cons_self
    have right : RightPlace archive timestamp (firstTimestamp c archive) := by
      by_cases empty : firstTimestamp c archive = 0
      · exact .inl empty
      · obtain ⟨after, before⟩ := firstTimestamp_between addressable.slots holds empty
        have monotone : (timestamp.toNat - (firstTimestamp c archive).toNat) /
            archive.secondsPerPoint.toNat ≤ (timestamp.toNat - first) / archive.secondsPerPoint.toNat :=
          Nat.div_le_div_right (by omega)
        exact rightPlace_of_short (by omega)
          (lt_of_le_of_lt (Nat.mul_le_mul_right 12 monotone) close)
    have step := represents_writePoint addressable within holds nonzero multiple later right value
    exact ⟨right, ih (writePoint_length within) step
      (fun call member => aligned call (List.mem_cons_of_mem _ member)) before ordered
      (fun call member => short call (List.mem_cons_of_mem _ member))⟩

theorem represents_short (fits : archive.Fits)
    (zeros : readAt c archive.offset.toNat (12 * archive.points.toNat) =
      List.replicate (12 * archive.points.toNat) 0)
    (starts : calls.head? = some first) (ends : calls.getLast? = some last)
    (aligned : ∀ call ∈ calls, call.1 ≠ 0 ∧ archive.secondsPerPoint.toNat ∣ call.1.toNat)
    (ordered : calls.Pairwise fun a b => a.1.toNat ≤ b.1.toNat)
    (short : (last.1.toNat - first.1.toNat) / archive.secondsPerPoint.toNat * 12 < 2 ^ 32) :
    Ring.Represents fits.shape first.1.toNat last.1.toNat (logOf calls)
      (cells (writePoints archive c calls) archive) := by
  cases calls with
  | nil => contradiction
  | cons call rest =>
    obtain rfl := Option.some.inj starts
    obtain ⟨timestamp, value⟩ := call
    obtain ⟨nonzero, multiple⟩ := aligned (timestamp, value) List.mem_cons_self
    obtain ⟨before, ordered'⟩ := List.pairwise_cons.mp ordered
    have within := within_of_zeros fits.slots zeros
    have free := cells_zeros zeros
    have empty := firstTimestamp_free fits.slots (free 0)
    have start := Ring.Represents.start fits.addressable.shape free timestamp.toNat value
    rw [← cells_writePoint fits.addressable within nonzero (by rw [empty]; exact Nat.zero_le _)
      (.inl empty)] at start
    apply represents_from fits.addressable within free nonzero ends
      (fun call member => (aligned call member).2) ordered
    apply placed_of_short fits.addressable (writePoint_length within) start
    · intro call member
      have later := aligned call (List.mem_cons_of_mem _ member)
      exact ⟨later.1, Nat.dvd_sub later.2 multiple⟩
    · exact before
    · exact ordered'
    · intro call member
      have early := le_last ordered ends call (List.mem_cons_of_mem _ member)
      have monotone := Nat.div_le_div_right (c := archive.secondsPerPoint.toNat)
        (Nat.sub_le_sub_right early timestamp.toNat)
      exact lt_of_le_of_lt (Nat.mul_le_mul_right 12 monotone) short

/-- In order, the archive is a sliding window: it holds the last point received for each
timestamp of the last `points` intervals, in the slot counted from the first timestamp. -/
theorem writePoints_sliding_window (fits : archive.Fits) (opened : Opened w fd path c pos)
    (zeros : readAt c archive.offset.toNat (12 * archive.points.toNat) =
      List.replicate (12 * archive.points.toNat) 0)
    (starts : calls.head? = some first) (ends : calls.getLast? = some last)
    (aligned : ∀ call ∈ calls, call.1 ≠ 0 ∧ archive.secondsPerPoint.toNat ∣ call.1.toNat)
    (ordered : calls.Pairwise fun a b => a.1.toNat ≤ b.1.toNat)
    (short : (last.1.toNat - first.1.toNat) / archive.secondsPerPoint.toNat * 12 < 2 ^ 32) :
    ∃ w' c' pos', Yields (whisperWritePoints (some fd) archive calls) w () w' ∧
      Opened w' fd path c' pos' ∧
      ∀ t : UInt32, t ≠ 0 → archive.secondsPerPoint.toNat ∣ t.toNat → t.toNat ≤ last.1.toNat →
        last.1.toNat < t.toNat + archive.points.toNat * archive.secondsPerPoint.toNat →
        (∀ earlier value later, calls = earlier ++ (t, value) :: later →
          (∀ call ∈ later, call.1 ≠ t) →
          pointIn c' (slotPos archive ((t.toNat - first.1.toNat) /
            archive.secondsPerPoint.toNat % archive.points.toNat)) = ⟨t, value⟩) ∧
        ((∀ call ∈ calls, call.1 ≠ t) →
          ∀ i < archive.points.toNat, (pointIn c' (slotPos archive i)).timestamp ≠ t) := by
  obtain ⟨w', pos', run, final⟩ := whisperWritePoints_yields fits opened calls
  have holds := represents_short fits zeros starts ends aligned ordered short
  refine ⟨w', _, pos', run, final, ?_⟩
  intro t nonzero _ _ recent
  constructor
  · intro earlier value later split absent
    have newest : Ring.latest (logOf calls) t.toNat = some value := by
      rw [split, logOf, List.map_append, List.map_cons]
      apply Ring.latest_split
      intro entry member same
      obtain ⟨call, known, rfl⟩ := List.mem_map.mp member
      exact absent call known (UInt32.toNat_inj.mp same)
    exact slot_of_cells (holds.current t.toNat value newest recent)
  · intro absent i inside same
    have stored : cells (writePoints archive c calls) archive i =
        some (t.toNat, (pointIn (writePoints archive c calls) (slotPos archive i)).value) := by
      simp [cells, inside, same, nonzero]
    obtain ⟨call, member, logged⟩ := List.mem_map.mp (holds.placed i _ _ stored).1
    exact absent call member (UInt32.toNat_inj.mp (congrArg Prod.fst logged))

/-- A gap, a wrap over slot 0 and a point counted from the new base. -/
theorem writePoints_sliding_window_witness :
    ∃ w' c' pos', Yields (whisperWritePoints (some 0) ⟨0, 60, 2⟩ [(60, 1), (180, 2), (240, 3)])
        (worldWith "/m.wsp".toList (List.replicate 24 0)) () w' ∧
      Opened w' 0 "/m.wsp".toList c' pos' ∧ pointIn c' 0 = ⟨180, 2⟩ ∧ pointIn c' 12 = ⟨240, 3⟩ := by
  have fits : ArchiveInfo.Fits ⟨0, 60, 2⟩ := ⟨by decide, by decide, by decide⟩
  have starts : [(60, 1), (180, 2), (240, 3)].head? = some ((60, 1) : UInt32 × UInt64) := rfl
  obtain ⟨w', c', pos', run, final, window⟩ := writePoints_sliding_window fits
    (worldWith_opened "/m.wsp".toList (List.replicate 24 0)) (by decide) starts rfl (by decide)
    (by decide) (by decide)
  have older := (window 180 (by decide) (by decide) (by decide) (by decide)).1
    [(60, 1)] 2 [(240, 3)] rfl (by decide)
  have newer := (window 240 (by decide) (by decide) (by decide) (by decide)).1
    [(60, 1), (180, 2)] 3 [] rfl (by simp)
  exact ⟨w', c', pos', run, final, older, newer⟩

end Carbond.Whisper
