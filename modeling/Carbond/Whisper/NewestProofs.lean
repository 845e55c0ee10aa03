import Carbond.Whisper.ArrivalProofs
import Carbond.Whisper.SuccessProofs

/-! Runs of `whisper_write_value` in time order: whatever the propagations do, the first archive of
the file is a sliding window over the points of the calls. -/
namespace Carbond.Whisper
open Bytes Posix Text
variable {w : World Globals} {ret : List Retention} {agg : PatternAggregation} {cur : Retention}
variable {conf : CarbonConf} {metric : CString} {path : Path} {c : List UInt8} {fd pos : ℕ}

/-- Archives in order of precision, in a file below 2 GiB, and the first of them. -/
structure Ordinary (ret : List Retention) (cur : Retention) : Prop where
  small : Small ret
  graded : Graded ret
  first : ret[0]? = some cur

/-- The first archive of a file with these retentions. -/
abbrev firstArchive (ret : List Retention) (cur : Retention) : ArchiveInfo := archiveOf ret 0 cur

namespace Ordinary

theorem placeable (ordinary : Ordinary ret cur) : Placeable ret := by
  have fits := ordinary.small.fits
  exact ⟨ordinary.graded.1, ordinary.small.positive, by omega⟩

theorem fits (ordinary : Ordinary ret cur) : (firstArchive ret cur).Fits := by
  have small := ordinary.small
  have member := List.mem_of_getElem? ordinary.first
  have bound := small.fits
  have offset := (small.laid.archive_offset ordinary.first).1
  have part : pointsStored cur ≤ (ret.map pointsStored).sum :=
    List.single_le_sum (fun _ _ => Nat.zero_le _) _ (List.mem_map_of_mem member)
  rw [List.take_zero, emptySize_nil] at offset
  refine ⟨Nat.pos_of_ne_zero fun zero => small.positive cur member (UInt32.toNat_inj.mp zero), ?_, ?_⟩
  · rw [archiveOf_points, pointCount_toNat]
    exact small.points cur member
  · rw [offset, archiveOf_points, pointCount_toNat]
    omega

theorem valid (ordinary : Ordinary ret cur) (intact : Intact ret agg c) : ValidFile c := by
  have headers : NewHeaders ret agg ret.length c :=
    ⟨intact.metadata, fun _ _ _ found => intact.info found⟩
  exact headers.valid ordinary.placeable

theorem firstEnd_eq (ordinary : Ordinary ret cur) (intact : Intact ret agg c) :
    firstEnd c = slotPos (firstArchive ret cur) (firstArchive ret cur).points.toNat := by
  rw [firstEnd, intact.info ordinary.first, slotPos]

theorem within (ordinary : Ordinary ret cur) (intact : Intact ret agg c) :
    slotPos (firstArchive ret cur) (firstArchive ret cur).points.toNat ≤ c.length := by
  have small := ordinary.small
  have stop := (small.laid.archive_offset ordinary.first).2
  have size := small.size (List.mem_of_getElem? ordinary.first)
  have part := emptySize_take_le ret (0 + 1)
  have long := intact.long
  rw [slotPos, firstArchive, archiveOf_points, pointCount_toNat]
  omega

/-- The slots of the first archive are decided in front of its end. -/
theorem cells_below (ordinary : Ordinary ret cur) (intact : Intact ret agg c)
    (same : SameBelow (firstEnd c) c' c'') :
    cells c'' (firstArchive ret cur) = cells c' (firstArchive ret cur) := by
  rw [ordinary.firstEnd_eq intact] at same
  funext i
  by_cases inside : i < (firstArchive ret cur).points.toNat
  · have point : pointIn c'' (slotPos (firstArchive ret cur) i) =
        pointIn c' (slotPos (firstArchive ret cur) i) := by
      apply pointIn_below same
      simp only [slotPos]
      omega
    simp only [cells, point]
  · simp only [cells, inside, false_and, if_false]

theorem cells_newContents (ordinary : Ordinary ret cur) (agg : PatternAggregation) (i : ℕ) :
    cells (newContents ret agg) (firstArchive ret cur) i = none := by
  have small := ordinary.small
  obtain ⟨start, stop⟩ := small.laid.archive_offset ordinary.first
  have size := small.size (List.mem_of_getElem? ordinary.first)
  have part := emptySize_take_le ret (0 + 1)
  by_cases inside : i < (firstArchive ret cur).points.toNat
  · have slot : pointIn (newContents ret agg) (slotPos (firstArchive ret cur) i) = ⟨0, 0⟩ := by
      rw [firstArchive, archiveOf_points, pointCount_toNat] at inside
      apply pointIn_newContents
      · rw [slotPos, firstArchive]
        omega
      · rw [slotPos, firstArchive, whisperPointSize]
        omega
    simp [cells, slot]
  · simp only [cells, inside, false_and, if_false]

end Ordinary

/-- Nothing stops a run on such a file. -/
theorem Ordinary.not_stops (ordinary : Ordinary ret cur) : ¬ Stops ret agg e w := by
  intro stops
  have fits := ordinary.small.fits
  rcases stops.cause with arithmetic | ⟨_, long⟩
  · exact stops.flaw arithmetic ⟨ordinary.graded, ordinary.small.sized⟩
  · omega

/-- The propagations do not reach the first archive. -/
theorem Ordinary.afterPoint [Platform] (ordinary : Ordinary ret cur) (intact : Intact ret agg c)
    (opened : Opened w fd path c pos) (alignedTimestamp : UInt32) (higher : ArchiveInfo) :
    Ends w (do
        propagateLoop (some fd) alignedTimestamp (newMetadata ret agg)
          ((newMetadata ret agg).archiveCount.toNat - 1) 1 higher
        close (some fd)
        return exitSuccess)
      (fun _ w' => ∃ c', w'.nodes path = some (.file c') ∧
        cells c' (firstArchive ret cur) = cells c (firstArchive ret cur)) (fun _ _ => True) := by
  have valid := ordinary.valid intact
  have positive := valid.some
  have count : archivesOf c = (newMetadata ret agg).archiveCount.toNat := by
    rw [archivesOf, intact.metadata]
  have holding : Holding w w.outcomes fd path c pos := ⟨rfl, opened.descriptor, opened.node⟩
  have loop : Preserves (Framed fd path c) (propagateLoop (some fd) alignedTimestamp
      (newMetadata ret agg) ((newMetadata ret agg).archiveCount.toNat - 1) 1 higher) :=
    propagateLoop_framed valid alignedTimestamp (newMetadata ret agg)
      ((newMetadata ret agg).archiveCount.toNat - 1) 1 Nat.one_pos (by omega) higher
  refine .bind (loop w ⟨c, pos, holding, .refl _ _⟩) ?_
  rintro _ w₁ ⟨c', pos', there, same⟩
  refine .bind (close_ends _ w₁) fun _ w₂ kept => .pure ⟨c', ?_, ordinary.cells_below intact same⟩
  rw [kept]
  exact there.node

/-- The point goes into the first archive, and what follows does not reach it. -/
theorem Ordinary.writeOpened [Platform] (ordinary : Ordinary ret cur)
    (opened : Opened w fd path c pos) (intact : Intact ret agg c)
    (log : ∀ entry ∈ w.globals.writes, Written ret agg entry) (timestamp : UInt32) (value : UInt64) :
    Ends w (whisperWriteOpened (some fd) timestamp value)
      (fun _ w' => Settled ret agg path w' ∧ ∃ c', w'.nodes path = some (.file c') ∧
        cells c' (firstArchive ret cur) = cells (writePoint c (firstArchive ret cur)
          (alignedTo cur timestamp) (htonArchivePoint ⟨alignedTo cur timestamp, value⟩))
          (firstArchive ret cur)) (fun _ _ => False) := by
  have stable : Stable ret agg fd path w := ⟨c, pos, opened, intact, log⟩
  have whole := stable.writeOpened ordinary.small.laid timestamp value
  have step := ordinary.small.positive cur (List.mem_of_getElem? ordinary.first)
  obtain ⟨pos₁, same⟩ := writeOpened_eq opened intact ordinary.first step timestamp value
  have seekable : (firstArchive ret cur).offset.toNat < 2 ^ 31 := by
    have bound := ordinary.fits.bound
    omega
  obtain ⟨pos₂, written⟩ := whisperWritePoint_yields (opened.moved c pos₁)
    (alignedTo cur timestamp) (htonArchivePoint ⟨alignedTo cur timestamp, value⟩) seekable
    ordinary.fits.writable
  have next : Intact ret agg (writePoint c (firstArchive ret cur) (alignedTo cur timestamp)
      (htonArchivePoint ⟨alignedTo cur timestamp, value⟩)) :=
    intact.write ordinary.graded.1 (ordinary.small.laid.target_behind_headers ordinary.first
      (.inr (ordinary.small.sized cur (List.mem_of_getElem? ordinary.first)))) _
  have run := Ends.of_eq same (.after written (ordinary.afterPoint next
    ((opened.moved c pos₁).moved _ pos₂).withGlobals (alignedTo cur timestamp) (firstArchive ret cur)))
  exact ⟨fun r w' ran => ⟨(whole.returns r w' ran).2, run.returns r w' ran⟩,
    fun e w' stopped => ordinary.not_stops (whole.stops e w' stopped)⟩

/-! ### Runs -/

/-- The first archive of the file is the window over these points. -/
structure Windowed (ordinary : Ordinary ret cur) (agg : PatternAggregation) (path : Path)
    (first last : ℕ) (log : List (ℕ × UInt64)) (w : World Globals) : Prop where
  settled : Settled ret agg path w
  window : ∃ c, w.nodes path = some (.file c) ∧ Ring.Represents ordinary.fits.addressable.shape
    first last log (cells c (firstArchive ret cur))

/-- The points of a run, as the first archive takes them. -/
def alignedCalls (cur : Retention) (calls : List (UInt32 × UInt64)) : List (UInt32 × UInt64) :=
  calls.map fun call => (alignedTo cur call.1, call.2)

/-- For each timestamp of the archive's retention, it has the last value of the calls in the slot
counted from the first timestamp, or the timestamp in no slot. -/
def HoldsNewest (archive : ArchiveInfo) (calls : List (UInt32 × UInt64)) (first last : UInt32)
    (c : List UInt8) : Prop :=
  ∀ t : UInt32, t ≠ 0 → last.toNat < t.toNat + archive.points.toNat * archive.secondsPerPoint.toNat →
    (∀ earlier value later, calls = earlier ++ (t, value) :: later → (∀ call ∈ later, call.1 ≠ t) →
      pointIn c (slotPos archive ((t.toNat - first.toNat) / archive.secondsPerPoint.toNat %
        archive.points.toNat)) = ⟨t, value⟩) ∧
    ((∀ call ∈ calls, call.1 ≠ t) →
      ∀ i < archive.points.toNat, (pointIn c (slotPos archive i)).timestamp ≠ t)

/-- What the ring of an archive says, its slots say. -/
theorem holdsNewest_of_represents {archive : ArchiveInfo} {addressable : archive.Addressable}
    {calls : List (UInt32 × UInt64)} {first last : UInt32}
    (holds : Ring.Represents addressable.shape first.toNat last.toNat (logOf calls) (cells c archive)) :
    HoldsNewest archive calls first last c := by
  intro t nonzero recent
  constructor
  · intro earlier value later split absent
    have newest : Ring.latest (logOf calls) t.toNat = some value := by
      rw [split, logOf, List.map_append, List.map_cons]
      apply Ring.latest_split
      intro entry member same
      obtain ⟨call, known, rfl⟩ := List.mem_map.mp member
      exact absent call known (UInt32.toNat_inj.mp same)
    exact slot_of_cells (holds.current t.toNat value newest recent)
  · intro absent i inside same
    have stored : cells c archive i = some (t.toNat, (pointIn c (slotPos archive i)).value) := by
      simp [cells, inside, same, nonzero]
    obtain ⟨call, member, logged⟩ := List.mem_map.mp (holds.placed i _ _ stored).1
    exact absent call member (UInt32.toNat_inj.mp (congrArg Prod.fst logged))

section
variable [Platform] {ordinary : Ordinary ret cur} {log : List (ℕ × UInt64)} {first last : ℕ}

/-- One more call in time order. -/
theorem Windowed.writeValue
    (windowed : Windowed ordinary agg (whisperMetricFilename conf.storageDir metric) first last log w)
    (timestamp : UInt32) (value : UInt64) (nonzero : alignedTo cur timestamp ≠ 0)
    (multiple : cur.timePerPoint.toNat ∣ (alignedTo cur timestamp).toNat - first)
    (later : last ≤ (alignedTo cur timestamp).toNat)
    (short : ((alignedTo cur timestamp).toNat - first) / cur.timePerPoint.toNat * 12 < 2 ^ 32) :
    Ends w (whisperWriteValue conf metric timestamp value)
      (fun _ w' => Windowed ordinary agg (whisperMetricFilename conf.storageDir metric) first
        (alignedTo cur timestamp).toNat (log ++ [((alignedTo cur timestamp).toNat, value)]) w')
      (fun _ _ => False) := by
  obtain ⟨⟨quiet, ⟨c, file, intact⟩, writes⟩, c', file', holds⟩ := windowed
  obtain rfl : c = c' := by simpa using file.symm.trans file'
  obtain ⟨w₁, run, opened, same⟩ := openFile_yields quiet file false
  refine .after run ((ordinary.writeOpened opened intact (same ▸ writes) timestamp value).imply ?_)
  rintro _ w₂ ⟨settled, c', node, kept⟩
  refine ⟨settled, c', node, ?_⟩
  rw [kept]
  have slots := ordinary.fits.addressable.slots
  have right : RightPlace (firstArchive ret cur) (alignedTo cur timestamp)
      (firstTimestamp c (firstArchive ret cur)) := by
    by_cases empty : firstTimestamp c (firstArchive ret cur) = 0
    · exact .inl empty
    · obtain ⟨after, before⟩ := firstTimestamp_between slots holds empty
      have monotone : ((alignedTo cur timestamp).toNat -
          (firstTimestamp c (firstArchive ret cur)).toNat) / cur.timePerPoint.toNat ≤
            ((alignedTo cur timestamp).toNat - first) / cur.timePerPoint.toNat :=
        Nat.div_le_div_right (by omega)
      exact rightPlace_of_short (before.trans later)
        (lt_of_le_of_lt (Nat.mul_le_mul_right 12 monotone) short)
  exact represents_writePoint ordinary.fits.addressable (ordinary.within intact) holds nonzero
    multiple later right value

/-- The first call creates the file. -/
theorem Ordinary.firstValue (ordinary : Ordinary ret cur)
    (found : whisperFindRetention metric conf.schema = ret)
    (aggregated : whisperFindAggregation metric conf.aggregation = some agg)
    (creatable : Creatable w conf.storageDir metric) (clean : w.globals.writes = [])
    (timestamp : UInt32) (value : UInt64) (nonzero : alignedTo cur timestamp ≠ 0) :
    Ends w (whisperWriteValue conf metric timestamp value)
      (fun _ w' => Windowed ordinary agg (whisperMetricFilename conf.storageDir metric)
        (alignedTo cur timestamp).toNat (alignedTo cur timestamp).toNat
        [((alignedTo cur timestamp).toNat, value)] w') (fun _ _ => False) := by
  obtain ⟨fd, w₁, opened, same, created⟩ := whisperCreateFile_opens aggregated creatable
  rw [found] at created
  have made : Yields (whisperCreateFile conf metric) w (some fd) _ :=
    created.trans (writeNewFile_yields ordinary.small.positive opened)
  have whole := opened.moved (newContents ret agg) (newContents ret agg).length
  have written := ordinary.writeOpened whole intact_newContents
    (fun entry logged => by
      rw [World.put_globals, same, clean] at logged
      exact absurd logged List.not_mem_nil) timestamp value
  refine .after (openFile_absent creatable.quiet creatable.fresh (.inl rfl)) (.after made
    (written.imply ?_))
  rintro _ w₂ ⟨settled, c', node, kept⟩
  refine ⟨settled, c', node, ?_⟩
  have free := ordinary.cells_newContents agg
  have empty := firstTimestamp_free ordinary.fits.addressable.slots (free 0)
  have start := Ring.Represents.start ordinary.fits.addressable.shape free
    (alignedTo cur timestamp).toNat value
  rw [kept, cells_writePoint ordinary.fits.addressable (ordinary.within intact_newContents) nonzero
    (by rw [empty]; exact Nat.zero_le _) (.inl empty)]
  exact start

theorem Windowed.writeValues
    (windowed : Windowed ordinary agg (whisperMetricFilename conf.storageDir metric) first last log w)
    (calls : List (UInt32 × UInt64))
    (aligned : ∀ call ∈ alignedCalls cur calls, call.1 ≠ 0 ∧
      cur.timePerPoint.toNat ∣ call.1.toNat - first ∧
        (call.1.toNat - first) / cur.timePerPoint.toNat * 12 < 2 ^ 32)
    (late : ∀ call ∈ alignedCalls cur calls, last ≤ call.1.toNat)
    (ordered : (alignedCalls cur calls).Pairwise fun a b => a.1.toNat ≤ b.1.toNat) :
    Ends w (whisperWriteValues conf metric calls)
      (fun _ w' => Windowed ordinary agg (whisperMetricFilename conf.storageDir metric) first
        (((alignedCalls cur calls).map fun call => call.1.toNat).getLastD last)
        (log ++ logOf (alignedCalls cur calls)) w') (fun _ _ => False) := by
  induction calls generalizing w last log with
  | nil =>
    refine .pure ?_
    simpa [alignedCalls, logOf] using windowed
  | cons call rest ih =>
    obtain ⟨timestamp, value⟩ := call
    obtain ⟨nonzero, multiple, short⟩ := aligned _ List.mem_cons_self
    obtain ⟨before, ordered⟩ := List.pairwise_cons.mp ordered
    refine .bind (windowed.writeValue timestamp value nonzero multiple (late _ List.mem_cons_self)
      short) fun _ w₁ windowed => ?_
    have run := ih windowed (fun call member => aligned call (List.mem_cons_of_mem _ member)) before
      ordered
    simpa only [List.append_assoc, logOf, alignedCalls, List.map_cons, List.singleton_append,
      List.getLastD_cons] using run

theorem Ordinary.windowedRun (ordinary : Ordinary ret cur)
    (found : whisperFindRetention metric conf.schema = ret)
    (aggregated : whisperFindAggregation metric conf.aggregation = some agg)
    (creatable : Creatable w conf.storageDir metric) (clean : w.globals.writes = [])
    {first last : UInt32 × UInt64} (starts : (alignedCalls cur calls).head? = some first)
    (ends : (alignedCalls cur calls).getLast? = some last)
    (nonzero : ∀ call ∈ alignedCalls cur calls, call.1 ≠ 0)
    (ordered : (alignedCalls cur calls).Pairwise fun a b => a.1.toNat ≤ b.1.toNat)
    (short : (last.1.toNat - first.1.toNat) / cur.timePerPoint.toNat * 12 < 2 ^ 32) :
    Ends w (whisperWriteValues conf metric calls)
      (fun _ w' => Windowed ordinary agg (whisperMetricFilename conf.storageDir metric) first.1.toNat
        last.1.toNat (logOf (alignedCalls cur calls)) w') (fun _ _ => False) := by
  cases calls with
  | nil => contradiction
  | cons call rest =>
    obtain ⟨timestamp, value⟩ := call
    obtain rfl := Option.some.inj starts
    have early := le_last ordered ends
    obtain ⟨before, ordered⟩ := List.pairwise_cons.mp ordered
    have aligned : ∀ call ∈ alignedCalls cur rest, call.1 ≠ 0 ∧
        cur.timePerPoint.toNat ∣ call.1.toNat - (alignedTo cur timestamp).toNat ∧
        (call.1.toNat - (alignedTo cur timestamp).toNat) / cur.timePerPoint.toNat * 12 < 2 ^ 32 := by
      intro call member
      refine ⟨nonzero call (List.mem_cons_of_mem _ member), ?_, ?_⟩
      · obtain ⟨original, _, rfl⟩ := List.mem_map.mp member
        exact Nat.dvd_sub (alignedTo_dvd cur original.1) (alignedTo_dvd cur timestamp)
      · have within := early call (List.mem_cons_of_mem _ member)
        have monotone := Nat.div_le_div_right (c := cur.timePerPoint.toNat)
          (Nat.sub_le_sub_right within (alignedTo cur timestamp).toNat)
        exact lt_of_le_of_lt (Nat.mul_le_mul_right 12 monotone) short
    have final : ((alignedCalls cur rest).map fun call => call.1.toNat).getLastD
        (alignedTo cur timestamp).toNat = last.1.toNat := by
      rw [alignedCalls, List.map_cons, List.getLast?_cons] at ends
      rw [← Option.some.inj ends, List.getLastD_eq_getLast?, List.getLast?_map, alignedCalls]
      cases (rest.map fun call => (alignedTo cur call.1, call.2)).getLast? with
      | none => rfl
      | some call => rfl
    rw [← final]
    exact .bind (ordinary.firstValue found aggregated creatable clean timestamp value
      (nonzero _ List.mem_cons_self)) fun _ w₁ windowed =>
        windowed.writeValues rest aligned before ordered

end

theorem ordinary_two : Ordinary [⟨60, 120⟩, ⟨120, 240⟩] ⟨60, 120⟩ where
  small := ⟨by decide, by decide, by decide⟩
  graded := by
    refine ⟨List.cons_ne_nil _ _, fun i higher lower above below => ?_⟩
    cases i with
    | zero =>
      cases above
      cases below
      decide
    | succ i => cases below
  first := rfl

end Carbond.Whisper
