import Carbond.Whisper.CreateProofs
import Carbond.Whisper.Interval

/-! Whole runs of `whisper_write_value` on one metric, from before its file exists. No write
reaches the header or the archive infos, so every write is done with the archives as configured. -/
namespace Carbond.Whisper
open Bytes Posix Text
variable {w : World Globals} {ret : List Retention} {agg : PatternAggregation} {fd : ℕ} {path : Path}

/-- Retentions whose archives lie behind each other below 4 GiB. -/
structure Laid (ret : List Retention) : Prop where
  positive : ∀ cur ∈ ret, cur.timePerPoint ≠ 0
  starts : ∀ i < ret.length, 16 + 12 * ret.length + emptySize (ret.take i) < 2 ^ 32
  room : 16 + 12 * ret.length + emptySize ret ≤ 2 ^ 32

/-- Every archive has a size, in 32 bits. -/
def Sized (ret : List Retention) : Prop := ∀ cur ∈ ret, pointCount cur * 12 ≠ 0

/-- The headers of a new file are still there. -/
structure Intact (ret : List Retention) (agg : PatternAggregation) (c : List UInt8) : Prop where
  long : 16 + 12 * ret.length + emptySize ret ≤ c.length
  headers : readAt c 0 (16 + 12 * ret.length) = readAt (newContents ret agg) 0 (16 + 12 * ret.length)
  bare : ret = [] → c = newContents ret agg

/-- A write in an archive of the file, at the offset computed for it. -/
structure Written (ret : List Retention) (agg : PatternAggregation) (entry : PointWrite) : Prop where
  archive : ∃ i cur, ret[i]? = some cur ∧ entry.archive = archiveOf ret i cur
  before : Intact ret agg entry.before
  target : entry.writeOffset = targetOffset entry.archive entry.timestamp
    (firstTimestamp entry.before entry.archive)
  after : entry.after = writeAt entry.before entry.writeOffset.toNat entry.point.bytes

/-- The file is open and intact, and all writes so far were done in it. -/
def Stable (ret : List Retention) (agg : PatternAggregation) (fd : ℕ) (path : Path)
    (w : World Globals) : Prop :=
  ∃ c pos, Opened w fd path c pos ∧ Intact ret agg c ∧ ∀ entry ∈ w.globals.writes, Written ret agg entry

/-- A division by zero, or the assertion that stands in its place. -/
def Arithmetic (e : Fault) : Prop := e = .divideByZero ∨ e = .assertionFailed

/-- There are archives, and none is more precise than the one before it. -/
def Graded (ret : List Retention) : Prop :=
  ret ≠ [] ∧ ∀ i higher lower, ret[i]? = some higher → ret[i + 1]? = some lower →
    higher.timePerPoint.toNat ≤ lower.timePerPoint.toNat

/-- Where a run stops short: at a division by zero, or far down a very long list of archives. -/
structure Stops (ret : List Retention) (agg : PatternAggregation) (e : Fault) (w : World Globals) :
    Prop where
  log : ∀ entry ∈ w.globals.writes, Written ret agg entry
  flaw : Arithmetic e → ¬ (Graded ret ∧ Sized ret)
  cause : Arithmetic e ∨ e = .nullDereference ∧ 2 ^ 31 ≤ 16 + 12 * ret.length

/-! ### The archives of the file -/

theorem Laid.archive_offset (laid : Laid ret) (found : ret[i]? = some cur) :
    (archiveOf ret i cur).offset.toNat = 16 + 12 * ret.length + emptySize (ret.take i) ∧
    (archiveOf ret i cur).offset.toNat + (pointCount cur * 12).toNat =
      16 + 12 * ret.length + emptySize (ret.take (i + 1)) := by
  have inside : i < ret.length := (List.getElem?_eq_some_iff.mp found).1
  have next := emptySize_take_succ found
  have offset := archiveOffset_toNat (laid.starts i inside)
  rw [archiveOf_offset]
  omega

theorem Laid.archive_room (laid : Laid ret) (found : ret[i]? = some cur) :
    (archiveOf ret i cur).offset.toNat + (pointCount cur * 12).toNat ≤ 2 ^ 32 := by
  have bound := emptySize_take_le ret (i + 1)
  have room := laid.room
  rw [(laid.archive_offset found).2]
  omega

theorem Laid.target_behind_headers (laid : Laid ret) (found : ret[i]? = some cur)
    (sized : first = 0 ∨ pointCount cur * 12 ≠ 0) :
    16 + 12 * ret.length ≤ (targetOffset (archiveOf ret i cur) timestamp first).toNat := by
  have start := (laid.archive_offset found).1
  have behind := le_targetOffset (archiveOf ret i cur) timestamp first sized
    (laid.archive_room found)
  omega

theorem intact_newContents : Intact ret agg (newContents ret agg) :=
  ⟨Nat.le_of_eq newContents_length.symm, rfl, fun _ => rfl⟩

namespace Intact
variable {c : List UInt8}

theorem metadata (intact : Intact ret agg c) : metadataIn c = newMetadata ret agg := by
  have same := congrArg (fun bytes => readAt bytes 0 whisperHeaderSize) intact.headers
  simp only [readAt_readAt _ _ (show 0 + whisperHeaderSize ≤ 16 + 12 * ret.length by
    rw [whisperHeaderSize]; omega)] at same
  rw [← metadataIn_newContents, metadataIn, same, metadataIn]

theorem info (intact : Intact ret agg c) (found : ret[i]? = some cur) :
    archiveInfoIn c i = archiveOf ret i cur := by
  have inside : i < ret.length := (List.getElem?_eq_some_iff.mp found).1
  have same := congrArg (fun bytes =>
    readAt bytes (whisperHeaderSize + i * whisperArchiveSize) whisperArchiveSize) intact.headers
  simp only [readAt_readAt _ _ (show whisperHeaderSize + i * whisperArchiveSize +
    whisperArchiveSize ≤ 16 + 12 * ret.length by
      rw [whisperHeaderSize, whisperArchiveSize]; omega), Nat.zero_add] at same
  rw [← archiveInfoIn_newContents found, archiveInfoIn, same, archiveInfoIn]

theorem write (intact : Intact ret agg c) (some : ret ≠ []) (behind : 16 + 12 * ret.length ≤ pos)
    (data : List UInt8) : Intact ret agg (writeAt c pos data) := by
  refine ⟨Nat.le_trans intact.long (writeAt_length_le _ _ _), ?_, fun none => absurd none some⟩
  have long := intact.long
  rw [readAt_writeAt_disjoint (by omega) (by omega), intact.headers]

/-- Without retentions the first archive info is read past the end of the file. -/
theorem info_bare (intact : Intact [] agg c) : (archiveInfoIn c 0).secondsPerPoint = 0 := by
  have length : (newContents [] agg).length = 16 := newContents_length
  rw [archiveInfoIn, intact.bare rfl, readAt_past (by rw [length]; decide)]
  decide

end Intact
/-! ### Reads keep the file -/

theorem Stable.of_kept (kept : Kept fd path c writes w) (intact : Intact ret agg c)
    (log : ∀ entry ∈ writes, Written ret agg entry) : Stable ret agg fd path w := by
  obtain ⟨⟨pos, opened⟩, rfl⟩ := kept
  exact ⟨c, pos, opened, intact, log⟩

theorem Stable.readMetadata (stable : Stable ret agg fd path w) :
    Ends w (whisperReadMetadata (some fd))
      (fun md w' => md = some (newMetadata ret agg) ∧ Stable ret agg fd path w') (Stops ret agg) := by
  obtain ⟨c, pos, opened, intact, log⟩ := stable
  obtain ⟨pos', read⟩ := whisperReadMetadata_yields opened
  rw [intact.metadata] at read
  exact .of_yields read ⟨rfl, c, pos', opened.moved c pos', intact, log⟩

/-- An archive info that is read is the one configured. Far down a very long list the int offset
of the source is negative, and the seek fails. -/
theorem Stable.readArchiveInfo (stable : Stable ret agg fd path w) (laid : Laid ret)
    (found : ret[i]? = some cur) : Ends w (whisperReadArchiveInfo (some fd) i)
      (fun info w' => (info = some (archiveOf ret i cur) ∨
        info = none ∧ 2 ^ 31 ≤ 16 + 12 * ret.length) ∧ Stable ret agg fd path w')
      (Stops ret agg) := by
  obtain ⟨c, pos, opened, intact, log⟩ := stable
  have inside : i < ret.length := (List.getElem?_eq_some_iff.mp found).1
  by_cases fits : whisperHeaderSize + i * whisperArchiveSize < 2 ^ 31
  · obtain ⟨pos', read⟩ := whisperReadArchiveInfo_yields opened _ fits
    rw [intact.info found] at read
    exact .of_yields read ⟨.inl rfl, c, pos', opened.moved c pos', intact, log⟩
  · have room := laid.room
    have word : whisperHeaderSize + i * whisperArchiveSize < 2 ^ 32 := by
      simp only [whisperHeaderSize, whisperArchiveSize]
      omega
    have read := whisperReadArchiveInfo_negative opened (Nat.le_of_not_lt fits) word
    simp only [whisperHeaderSize, whisperArchiveSize] at fits
    exact .of_yields read ⟨.inr ⟨rfl, by omega⟩, c, pos, opened, intact, log⟩

/-! ### Divisions -/

theorem Stable.throws (stable : Stable ret agg fd path w) (flaw : ¬ (Graded ret ∧ Sized ret))
    (arithmetic : Arithmetic e) : Stops ret agg e w := by
  obtain ⟨_, _, _, _, log⟩ := stable
  exact ⟨log, fun _ => flaw, .inl arithmetic⟩

theorem Stable.divide (stable : Stable ret agg fd path w) (a : UInt32)
    (flaw : b = 0 → ¬ (Graded ret ∧ Sized ret)) :
    Ends w (divide32 a b) (fun q w' => q = a / b ∧ b ≠ 0 ∧ Stable ret agg fd path w')
      (Stops ret agg) := by
  by_cases zero : b = 0
  · rw [divide32, if_pos zero]
    exact .throw (stable.throws (flaw zero) (.inl rfl))
  · exact .of_yields (divide32_yields a zero) ⟨rfl, zero, stable⟩

theorem Stable.remainder (stable : Stable ret agg fd path w) (a : UInt32)
    (flaw : b = 0 → ¬ (Graded ret ∧ Sized ret)) :
    Ends w (modulo32 a b) (fun r w' => r = a % b ∧ b ≠ 0 ∧ Stable ret agg fd path w')
      (Stops ret agg) := by
  by_cases zero : b = 0
  · rw [modulo32, if_pos zero]
    exact .throw (stable.throws (flaw zero) (.inl rfl))
  · exact .of_yields (modulo32_yields a zero) ⟨rfl, zero, stable⟩

/-! ### Point writes -/

theorem written_pointWrite (found : ret[i]? = some cur) (intact : Intact ret agg c)
    (timestamp : UInt32) (point : ArchivePoint) :
    Written ret agg (pointWrite c (archiveOf ret i cur) timestamp point) := by
  constructor
  · exact ⟨i, cur, found, rfl⟩
  · exact intact
  · simp only [pointWrite]
  · simp only [pointWrite, writePoint]

theorem Stable.writePoint (stable : Stable ret agg fd path w) (laid : Laid ret)
    (found : ret[i]? = some cur) (timestamp : UInt32) (point : ArchivePoint) :
    Ends w (whisperWritePoint (some fd) (archiveOf ret i cur) timestamp point)
      (fun _ w' => Stable ret agg fd path w') (Stops ret agg) := by
  have ⟨c, pos, opened, intact, log⟩ := stable
  have member := List.mem_of_getElem? found
  by_cases seekable : (archiveOf ret i cur).offset.toNat < 2 ^ 31
  · by_cases sized : firstTimestamp c (archiveOf ret i cur) = 0 ∨ pointCount cur * 12 ≠ 0
    · have writable : Writable (archiveOf ret i cur) (firstTimestamp c (archiveOf ret i cur)) :=
        sized.imp_right fun some =>
          ⟨laid.positive cur member, fun zero => some (UInt32.toUInt64_inj.mp zero)⟩
      obtain ⟨pos', run⟩ := whisperWritePoint_yields opened timestamp point seekable writable
      refine .of_yields run ⟨_, pos', (opened.moved _ pos').withGlobals, intact.write
        (List.ne_nil_of_mem member) (laid.target_behind_headers found sized) _, ?_⟩
      intro entry logged
      rcases List.mem_append.mp logged with old | new
      · exact log entry old
      · obtain rfl := List.mem_singleton.mp new
        exact written_pointWrite found intact timestamp point
    · -- The distance to slot 0 is taken modulo the size of the archive, which is zero.
      obtain ⟨used, unsized⟩ := not_or.mp sized
      have none := not_not.mp unsized
      refine (whisperWritePoint_unsized opened timestamp point seekable (laid.positive cur member)
        used (congrArg UInt32.toUInt64 none)).weaken (fun _ _ impossible => impossible.elim) ?_
      rintro _ w₁ ⟨rfl, same⟩
      exact ⟨same ▸ log, fun _ sound => sound.2 cur member none, .inl (.inl rfl)⟩
  · exact .of_yields (whisperWritePoint_refused opened timestamp point seekable) stable

/-! ### Propagation -/

/-- A propagation from this archive to the next one has a size to divide by, and points to
aggregate. -/
def Propagable (ret : List Retention) (i : ℕ) : Prop :=
  ∀ higher lower, ret[i]? = some higher → ret[i + 1]? = some lower →
    pointCount higher * 12 ≠ 0 ∧ lower.timePerPoint / higher.timePerPoint ≠ 0

theorem Stable.collect [Platform] (stable : Stable ret agg fd path w) (laid : Laid ret)
    (above : ret[i]? = some higher) (timestamp : UInt32) (lower : ArchiveInfo) :
    Ends w (collect (some fd) timestamp (archiveOf ret i higher) lower)
      (fun found w' => found.1 = nbHigherPoints (archiveOf ret i higher) lower ∧
        pointCount higher * 12 ≠ 0 ∧ Stable ret agg fd path w') (Stops ret agg) := by
  have member := List.mem_of_getElem? above
  obtain ⟨c, pos, opened, intact, log⟩ := stable
  refine ((Kept.of_opened opened).collect timestamp (archiveOf ret i higher) lower).weaken ?_ ?_
  · rintro found w' ⟨count, _, sized, kept⟩
    exact ⟨count, fun zero => sized (congrArg UInt32.toUInt64 zero), .of_kept kept intact log⟩
  · rintro _ w' ⟨rfl, zero, kept⟩
    refine Stable.throws (.of_kept kept intact log) ?_ (.inl rfl)
    rintro ⟨_, sized⟩
    obtain step | size := zero
    · exact laid.positive higher member step
    · exact sized higher member (UInt32.toUInt64_inj.mp size)

theorem Stable.propagate [Platform] (stable : Stable ret agg fd path w) (laid : Laid ret)
    (above : ret[i]? = some higher) (below : ret[i + 1]? = some lower) (timestamp : UInt32)
    (wspMd : Metadata) :
    Ends w (whisperWritePropagate (some fd) timestamp wspMd (archiveOf ret i higher)
      (archiveOf ret (i + 1) lower)) (fun _ w' => Propagable ret i ∧ Stable ret agg fd path w')
      (Stops ret agg) := by
  rw [whisperWritePropagate_eq]
  refine .bind (stable.collect laid above timestamp _) ?_
  rintro ⟨_, known⟩ w₁ ⟨rfl, sized, kept⟩
  -- A lower archive that is more precise gets its points from none of the higher ones.
  have coarser : lower.timePerPoint / higher.timePerPoint = 0 → ¬ (Graded ret ∧ Sized ret) := by
    rintro zero ⟨graded, _⟩
    have quotient := congrArg UInt32.toNat zero
    rw [UInt32.toNat_div, UInt32.toNat_zero] at quotient
    have positive := Nat.pos_of_ne_zero fun empty =>
      laid.positive higher (List.mem_of_getElem? above) (UInt32.toNat_inj.mp empty)
    have ordered := graded.2 i higher lower above below
    exact Nat.ne_of_gt (Nat.div_pos ordered positive) quotient
  refine .bind (kept.divide _ coarser) ?_
  rintro _ w₂ ⟨rfl, counted, kept⟩
  have propagable : Propagable ret i := by
    intro higher' lower' above' below'
    obtain rfl := Option.some.inj (above.symm.trans above')
    obtain rfl := Option.some.inj (below.symm.trans below')
    exact ⟨sized, counted⟩
  split
  · refine .bind (kept.writePoint laid below _ _) fun _ _ kept => ?_
    exact .pure ⟨propagable, kept⟩
  · exact .pure ⟨propagable, kept⟩

/-- The archive infos are read from a file of at least this size. -/
theorem Stable.null (stable : Stable ret agg fd path w) (long : 2 ^ 31 ≤ 16 + 12 * ret.length) :
    Stops ret agg .nullDereference w := by
  obtain ⟨_, _, _, _, log⟩ := stable
  refine ⟨log, ?_, .inr ⟨rfl, long⟩⟩
  rintro (zero | failed)
  · contradiction
  · contradiction

/-- Every archive is reached from timestamp 0, which all resolutions divide. -/
theorem Stable.propagateLoop [Platform] (stable : Stable ret agg fd path w) (laid : Laid ret)
    (alignedTimestamp : UInt32) (wspMd : Metadata) (counted : i + 1 + remaining ≤ ret.length)
    (found : ret[i]? = some cur) :
    Ends w (propagateLoop (some fd) alignedTimestamp wspMd remaining (i + 1) (archiveOf ret i cur))
      (fun _ w' => (alignedTimestamp = 0 → 16 + 12 * ret.length < 2 ^ 31 →
        ∀ j, i ≤ j → j < i + remaining → Propagable ret j) ∧ Stable ret agg fd path w')
      (Stops ret agg) := by
  induction remaining generalizing w i cur with
  | zero => exact .pure ⟨fun _ _ j _ _ => by omega, stable⟩
  | succ remaining ih =>
    have below : ret[i + 1]? = some ret[i + 1] := List.getElem?_eq_getElem (by omega)
    refine .bind (stable.readArchiveInfo laid below) ?_
    rintro _ w₁ ⟨rfl | ⟨rfl, long⟩, kept⟩
    · have step := laid.positive _ (List.mem_of_getElem? below)
      dsimp only
      rw [if_neg (show ¬ (archiveOf ret (i + 1) ret[i + 1]).secondsPerPoint = 0 from step)]
      refine .bind (kept.remainder _ fun zero => absurd zero step) ?_
      rintro _ w₂ ⟨rfl, _, kept⟩
      split
      case isTrue =>
        refine .bind (kept.propagate laid found below _ _) ?_
        rintro _ w₃ ⟨here, kept⟩
        refine (ih kept (by omega) below).weaken ?_ fun _ _ stops => stops
        rintro _ w₄ ⟨further, kept⟩
        refine ⟨fun aligned short j le lt => ?_, kept⟩
        by_cases same : j = i
        · rwa [same]
        · exact further aligned short j (by omega) (by omega)
      case isFalse rest =>
        refine .pure ⟨fun aligned _ _ _ _ => ?_, kept⟩
        rw [aligned, UInt32.zero_mod] at rest
        contradiction
    · exact .throw (kept.null long)

/-! ### Runs -/

/-- The file is there and intact, and all writes so far were done in it. -/
def Settled (ret : List Retention) (agg : PatternAggregation) (path : Path) (w : World Globals) :
    Prop :=
  w.outcomes = [] ∧ (∃ c, w.nodes path = some (.file c) ∧ Intact ret agg c) ∧
    ∀ entry ∈ w.globals.writes, Written ret agg entry

theorem Stable.settled (stable : Stable ret agg fd path w) : Settled ret agg path w := by
  obtain ⟨c, pos, opened, intact, log⟩ := stable
  exact ⟨opened.quiet, ⟨c, opened.node, intact⟩, log⟩

theorem Settled.close (settled : Settled ret agg path w) (fd : Fd) :
    Ends w (close fd) (fun _ w' => Settled ret agg path w') (Stops ret agg) := by
  obtain ⟨quiet, file, log⟩ := settled
  obtain ⟨descriptors, closed⟩ := close_yields quiet fd
  exact .of_yields closed ⟨quiet, file, log⟩

/-- Without retentions the first archive info has no resolution. -/
theorem Stable.readFirstInfo (stable : Stable ret agg fd path w) (laid : Laid ret) :
    Ends w (whisperReadArchiveInfo (some fd) 0)
      (fun info w' => (∃ archive, info = some archive ∧ (archive.secondsPerPoint = 0 ∧ ret = [] ∨
        ∃ cur, ret[0]? = some cur ∧ archive = archiveOf ret 0 cur)) ∧ Stable ret agg fd path w')
      (Stops ret agg) := by
  obtain ⟨c, pos, opened, intact, log⟩ := stable
  obtain ⟨pos', read⟩ := whisperReadArchiveInfo_yields opened 0
    (show whisperHeaderSize + 0 * whisperArchiveSize < 2 ^ 31 by decide)
  refine .of_yields read ⟨⟨_, rfl, ?_⟩, c, pos', opened.moved c pos', intact, log⟩
  cases ret with
  | nil => exact .inl ⟨intact.info_bare, rfl⟩
  | cons first rest => exact .inr ⟨first, rfl, intact.info rfl⟩

/-- A call up to its point write in the first archive. -/
theorem writeOpened_eq [Platform] (opened : Opened w fd path c pos) (intact : Intact ret agg c)
    (found : ret[0]? = some cur) (step : cur.timePerPoint ≠ 0) (timestamp : UInt32)
    (value : UInt64) : ∃ pos', whisperWriteOpened (some fd) timestamp value w = (do
      let _ ← whisperWritePoint (some fd) (archiveOf ret 0 cur)
        (timestamp - timestamp % cur.timePerPoint)
        (htonArchivePoint ⟨timestamp - timestamp % cur.timePerPoint, value⟩)
      propagateLoop (some fd) (timestamp - timestamp % cur.timePerPoint) (newMetadata ret agg)
        ((newMetadata ret agg).archiveCount.toNat - 1) 1 (archiveOf ret 0 cur)
      close (some fd)
      return exitSuccess) (w.put fd path c pos') := by
  obtain ⟨pos₁, metadata⟩ := whisperReadMetadata_yields opened
  obtain ⟨pos₂, info⟩ := whisperReadArchiveInfo_yields (opened.moved c pos₁) 0
    (by decide)
  rw [intact.metadata] at metadata
  rw [intact.info found, World.put_put] at info
  refine ⟨pos₂, (metadata.rest_eq _).trans ((info.rest_eq _).trans ?_)⟩
  exact (modulo32_yields timestamp step).rest_eq _

theorem Stable.writeOpened [Platform] (stable : Stable ret agg fd path w) (laid : Laid ret)
    (timestamp : UInt32) (value : UInt64) :
    Ends w (whisperWriteOpened (some fd) timestamp value)
      (fun _ w' => (ret ≠ [] ∧ (timestamp = 0 → 16 + 12 * ret.length < 2 ^ 31 →
        ∀ j, Propagable ret j)) ∧ Settled ret agg path w') (Stops ret agg) := by
  refine .bind stable.readMetadata ?_
  rintro md w₁ ⟨rfl, kept⟩
  refine .bind (kept.readFirstInfo laid) ?_
  rintro info w₂ ⟨⟨wspArch, rfl, known⟩, kept⟩
  have flaw : wspArch.secondsPerPoint = 0 → ¬ (Graded ret ∧ Sized ret) := by
    rintro zero ⟨graded, _⟩
    obtain ⟨_, none⟩ | ⟨cur, found, rfl⟩ := known
    · exact graded.1 none
    · exact laid.positive cur (List.mem_of_getElem? found) zero
  refine .bind (kept.remainder _ flaw) ?_
  rintro _ w₃ ⟨rfl, step, kept⟩
  obtain ⟨zero, _⟩ | ⟨cur, found, rfl⟩ := known
  · exact absurd zero step
  · have some : 0 < ret.length := (List.getElem?_eq_some_iff.mp found).1
    have counted : (newMetadata ret agg).archiveCount.toNat = ret.length :=
      archiveCount_toNat (by have := laid.room; omega)
    refine .bind (kept.writePoint laid found _ _) fun _ w₄ kept => ?_
    refine .bind (kept.propagateLoop laid _ _ (by omega) found) ?_
    rintro _ w₅ ⟨reached, kept⟩
    refine .bind (kept.settled.close _) fun _ w₆ kept => .pure ⟨⟨List.length_pos_iff.mp some, ?_⟩, kept⟩
    rintro rfl short j higher lower above below
    have inside := (List.getElem?_eq_some_iff.mp below).1
    refine reached ?_ short j (Nat.zero_le j) (by omega) higher lower above below
    rw [UInt32.zero_mod, UInt32.sub_zero]

/-- There is no file yet, and nothing was written. -/
def Absent (path : Path) (w : World Globals) : Prop :=
  w.outcomes = [] ∧ w.nodes path = none ∧ w.globals.writes = []

/-- Where the creation of the directories stops: at something else under the name of one. -/
def Exits (path : Path) (e : Fault) (w : World Globals) : Prop := e = .exited ∧ Absent path w

theorem Absent.createDir (absent : Absent path w) (apart : dir ≠ path ∨ dir = []) :
    Ends w (createDir dir) (fun _ w' => Absent path w') (Exits path) := by
  have answer := stat_yields absent.1 dir
  cases found : w.nodes dir with
  | some node =>
    rw [found] at answer
    cases node with
    | directory => exact .of_yields (.bind answer (.pure _ _)) absent
    | file contents => exact .after answer (.throw ⟨rfl, absent⟩)
  | none =>
    rw [found] at answer
    by_cases named : dir = []
    · subst named
      exact .of_yields (.bind answer (.bind (mkdir_unnamed absent.1) (.pure _ _))) absent
    · refine .of_yields (.bind answer (.bind (mkdir_yields absent.1 found named) (.pure _ _)))
        ⟨absent.1, ?_, absent.2.2⟩
      have other := apart.resolve_right named
      rw [← absent.2.1]
      exact Function.update_of_ne (Ne.symm other) _ _

theorem Absent.createDirs (absent : Absent path w) (apart : ∀ dir ∈ dirs, dir ≠ path ∨ dir = []) :
    Ends w (createDirs dirs) (fun _ w' => Absent path w') (Exits path) := by
  induction dirs generalizing w with
  | nil => exact .pure absent
  | cons dir rest ih =>
    refine .bind (absent.createDir (apart dir List.mem_cons_self)) fun _ _ absent => ?_
    exact ih absent fun d member => apart d (List.mem_cons_of_mem _ member)

/-- The file is not among the directories created for it. -/
theorem metricDirs_apart (storageDir metric : CString) :
    ∀ dir ∈ metricDirs storageDir metric, dir ≠ whisperMetricFilename storageDir metric ∨ dir = [] := by
  intro dir member
  by_cases named : strtok '.' metric = []
  · rw [metricDirs, whisperMetricFilename, named] at *
    rw [metricPath]
    exact (em (dir = [])).symm
  · refine .inl fun same => ?_
    have longer := metricPath_longer storageDir named dir member
    rw [same] at longer
    exact Nat.lt_irrefl _ longer

/-- The world of a run, between two calls. -/
def Between (ret : List Retention) (agg : PatternAggregation) (path : Path) (w : World Globals) :
    Prop := Absent path w ∨ Settled ret agg path w

/-- Without an aggregation rule, or without a name, no file is made. -/
def Refused [Platform] (conf : CarbonConf) (metric : CString) : Prop :=
  whisperFindAggregation metric conf.aggregation = none ∨ strtok '.' metric = []

theorem Absent.createNone [Platform] {conf : CarbonConf}
    (absent : Absent (whisperMetricFilename conf.storageDir metric) w) (refused : Refused conf metric) :
    Ends w (whisperCreateFile conf metric)
      (fun fd w' => fd = none ∧ Absent (whisperMetricFilename conf.storageDir metric) w')
      (Exits (whisperMetricFilename conf.storageDir metric)) := by
  refine .bind (absent.createDirs (metricDirs_apart _ _)) fun _ w₁ absent => ?_
  cases rule : whisperFindAggregation metric conf.aggregation with
  | none => exact .pure ⟨rfl, absent⟩
  | some agg =>
    obtain unruled | unnamed := refused
    · rw [rule] at unruled
      contradiction
    · have empty : whisperMetricFilename conf.storageDir metric = [] := by
        rw [whisperMetricFilename, unnamed, metricPath]
      exact .of_yields (.bind (openFile_absent absent.1 absent.2.1 (.inr empty)) (.pure _ _))
        ⟨rfl, absent⟩

theorem Absent.createFile [Platform] {conf : CarbonConf}
    (absent : Absent (whisperMetricFilename conf.storageDir metric) w) (laid : Laid ret)
    (found : whisperFindRetention metric conf.schema = ret)
    (aggregated : ∀ a, whisperFindAggregation metric conf.aggregation = some a → a = agg) :
    Ends w (whisperCreateFile conf metric)
      (fun fd w' => fd = none ∧ Absent (whisperMetricFilename conf.storageDir metric) w' ∨
        ∃ n, fd = some n ∧ Stable ret agg n (whisperMetricFilename conf.storageDir metric) w')
      (Exits (whisperMetricFilename conf.storageDir metric)) := by
  rw [whisperCreateFile, found]
  refine .bind (absent.createDirs (metricDirs_apart _ _)) fun _ w₁ absent => ?_
  cases rule : whisperFindAggregation metric conf.aggregation with
  | none => exact .pure (.inl ⟨rfl, absent⟩)
  | some a =>
    obtain rfl := aggregated a rule
    obtain ⟨quiet, fresh, clean⟩ := absent
    by_cases named : whisperMetricFilename conf.storageDir metric = []
    · exact .of_yields (.bind (openFile_absent quiet fresh (.inr named)) (.pure _ _))
        (.inl ⟨rfl, quiet, fresh, clean⟩)
    · obtain ⟨w₂, created, opened, same⟩ := openFile_creates quiet fresh named
      refine .of_yields (.bind created (writeNewFile_yields laid.positive opened))
        (.inr ⟨_, rfl, _, _, opened.moved _ _, intact_newContents, ?_⟩)
      intro entry logged
      rw [World.put_globals, same, clean] at logged
      contradiction

/-- Nothing is written without a file. -/
theorem Absent.writeOpened [Platform] (absent : Absent path w) (timestamp : UInt32)
    (value : UInt64) : Yields (whisperWriteOpened none timestamp value) w exitFailure w := by
  have unread : Yields (whisperReadMetadata none) w none w :=
    .bind (.bind (lseek_closed absent.1) (.pure _ _)) (.pure _ _)
  exact .bind unread (.pure _ _)

theorem Absent.writeValue_refused [Platform] {conf : CarbonConf}
    (absent : Absent (whisperMetricFilename conf.storageDir metric) w) (refused : Refused conf metric)
    (timestamp : UInt32) (value : UInt64) : Ends w (whisperWriteValue conf metric timestamp value)
      (fun _ w' => Absent (whisperMetricFilename conf.storageDir metric) w')
      (Exits (whisperMetricFilename conf.storageDir metric)) := by
  refine .after (openFile_absent absent.1 absent.2.1 (.inl rfl)) (.bind (absent.createNone refused) ?_)
  rintro fd w₁ ⟨rfl, absent⟩
  exact .of_yields (absent.writeOpened timestamp value) absent

/-- Where a run stops. -/
def Halts (ret : List Retention) (agg : PatternAggregation) (path : Path) (e : Fault)
    (w : World Globals) : Prop := Exits path e w ∨ Stops ret agg e w

theorem Between.writeValue [Platform] {conf : CarbonConf}
    (between : Between ret agg (whisperMetricFilename conf.storageDir metric) w) (laid : Laid ret)
    (found : whisperFindRetention metric conf.schema = ret)
    (aggregated : ∀ a, whisperFindAggregation metric conf.aggregation = some a → a = agg)
    (timestamp : UInt32) (value : UInt64) :
    Ends w (whisperWriteValue conf metric timestamp value)
      (fun _ w' => Between ret agg (whisperMetricFilename conf.storageDir metric) w')
      (Halts ret agg (whisperMetricFilename conf.storageDir metric)) := by
  rcases between with absent | settled
  · have missing := openFile_absent absent.1 absent.2.1 (.inl rfl)
    refine .after missing (.bind ((absent.createFile laid found aggregated).weaken
      (fun _ _ created => created) fun _ _ exits => .inl exits) ?_)
    rintro fd w₁ (⟨rfl, absent⟩ | ⟨n, rfl, stable⟩)
    · exact .of_yields (absent.writeOpened timestamp value) (.inl absent)
    · exact (stable.writeOpened laid timestamp value).weaken (fun _ _ written => .inr written.2)
        fun _ _ stops => .inr stops
  · obtain ⟨quiet, ⟨c, file, intact⟩, log⟩ := settled
    obtain ⟨w₁, run, opened, same⟩ := openFile_yields quiet file false
    have stable : Stable ret agg w.nextFd (whisperMetricFilename conf.storageDir metric) w₁ :=
      ⟨c, 0, opened, intact, same ▸ log⟩
    exact .after run ((stable.writeOpened laid timestamp value).weaken
      (fun _ _ written => .inr written.2) fun _ _ stops => .inr stops)

/-- Calls one after the other. -/
def whisperWriteValues [Platform] (conf : CarbonConf) (metric : CString) :
    List (UInt32 × UInt64) → Action Unit
  | [] => return ()
  | (timestamp, value) :: rest => do
    let _ ← whisperWriteValue conf metric timestamp value
    whisperWriteValues conf metric rest

/-- What every call keeps, a run keeps. -/
theorem whisperWriteValues_ends [Platform] {conf : CarbonConf} {kept : World Globals → Prop}
    {fault : Fault → World Globals → Prop}
    (call : ∀ w timestamp value, kept w →
      Ends w (whisperWriteValue conf metric timestamp value) (fun _ => kept) fault)
    (start : kept w) (calls : List (UInt32 × UInt64)) :
    Ends w (whisperWriteValues conf metric calls) (fun _ => kept) fault := by
  induction calls generalizing w with
  | nil => exact .pure start
  | cons first rest ih =>
    exact .bind (call w first.1 first.2 start) fun _ _ next => ih next

/-- In every run, all point writes are done in the archives as configured, and only archives out
of order or without points end it with a division by zero. -/
theorem Between.writeValues [Platform] {conf : CarbonConf}
    (between : Between ret agg (whisperMetricFilename conf.storageDir metric) w) (laid : Laid ret)
    (found : whisperFindRetention metric conf.schema = ret)
    (aggregated : ∀ a, whisperFindAggregation metric conf.aggregation = some a → a = agg)
    (calls : List (UInt32 × UInt64)) :
    Ends w (whisperWriteValues conf metric calls)
      (fun _ w' => Between ret agg (whisperMetricFilename conf.storageDir metric) w')
      (Halts ret agg (whisperMetricFilename conf.storageDir metric)) :=
  whisperWriteValues_ends (fun _ timestamp value between =>
    between.writeValue laid found aggregated timestamp value) between calls

end Carbond.Whisper
