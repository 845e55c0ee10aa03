import Carbond.Posix.Faults
import Carbond.Whisper.HeaderProofs

/-! What the writer does to the file under any schedule of outcomes: nothing while it only reads,
and points go into their archive or behind it. -/
namespace Carbond.Whisper
open Bytes Posix Text
variable {w : World Globals} {fd : ℕ} {path : Path} {holds : List UInt8 → Prop}

/-- The file is open with contents of this kind. -/
def FileIs (fd : ℕ) (path : Path) (holds : List UInt8 → Prop) (w : World Globals) : Prop :=
  ∃ c pos, Holding w w.outcomes fd path c pos ∧ holds c

theorem FileIs.of_holding (holding : Holding w outcomes fd path c pos) (kind : holds c) :
    FileIs fd path holds w := ⟨c, pos, holding.schedule ▸ holding, kind⟩

/-! ### Reads keep the file -/

theorem whisperSeek_ends (holding : Holding w outcomes fd path c pos) (offset : Int32)
    {fault : Fault → World Globals → Prop} :
    Ends w (whisperSeek (some fd) offset)
      (fun r w' => ((upcoming outcomes).Fails ∨ offset.toInt < 0) ∧ r = exitFailure ∧
          Holding w' outcomes.tail fd path c pos ∨
        ¬ (upcoming outcomes).Fails ∧ 0 ≤ offset.toInt ∧ r = exitSuccess ∧
          Holding w' outcomes.tail fd path c offset.toInt.toNat) fault := by
  refine .bind (holding.lseek _) ?_
  rintro r w' (⟨refused, ⟨e, rfl⟩, there⟩ | ⟨goes, valid, rfl, there⟩)
  · exact .pure (.inl ⟨refused, rfl, there⟩)
  · exact .pure (.inr ⟨goes, valid, rfl, there⟩)

theorem whisperSeek_preserves (offset : Int32) :
    Preserves (FileIs fd path holds) (whisperSeek (some fd) offset) := by
  rintro w ⟨c, pos, holding, kind⟩
  refine (whisperSeek_ends holding offset).imply ?_
  rintro r w' (⟨_, _, there⟩ | ⟨_, _, _, there⟩)
  · exact .of_holding there kind
  · exact .of_holding there kind

theorem read_preserves (count : ℕ) :
    Preserves (FileIs fd path holds) (read (some fd) count : Action _) := by
  rintro w ⟨c, pos, holding, kind⟩
  refine (holding.read count).imply ?_
  rintro r w' (⟨_, _, there⟩ | ⟨_, _, _, there⟩)
  · exact .of_holding there kind
  · exact .of_holding there kind

theorem whisperReadArchivePoint_preserves :
    Preserves (FileIs fd path holds) (whisperReadArchivePoint (some fd)) := by
  refine .bind (read_preserves 4) fun timestamp => ?_
  cases timestamp with
  | error e => exact .pure _
  | ok timestamp =>
    refine .bind (read_preserves 8) fun value => ?_
    cases value with
    | error e => exact .pure _
    | ok value => exact .pure _

theorem noteOverrun_preserves : Preserves (FileIs fd path holds) noteOverrun := by
  rintro w ⟨c, pos, ⟨_, descriptor, node⟩, kind⟩
  exact .of_yields (.update _ _) ⟨c, pos, ⟨rfl, descriptor, node⟩, kind⟩

theorem readInto_preserves (buffer : List UInt8) (start : Int) (count : ℕ) :
    Preserves (FileIs fd path holds) (readInto (some fd) buffer start count) := by
  refine .bind (read_preserves count) fun got => ?_
  cases got with
  | error e => exact .pure _
  | ok got =>
    dsimp only
    split
    · exact .bind noteOverrun_preserves fun _ => .pure _
    · exact .bind (.pure _) fun _ => .pure _

theorem readInterval_preserves (higher : ArchiveInfo) (startOffset endOffset : UInt32) :
    Preserves (FileIs fd path holds) (readInterval (some fd) higher startOffset endOffset) := by
  refine .bind (whisperSeek_preserves _) fun _ => ?_
  split
  · exact readInto_preserves _ _ _
  · refine .bind (readInto_preserves _ _ _) fun _ => .bind (whisperSeek_preserves _) fun _ => ?_
    exact readInto_preserves _ _ _

variable [Platform]

theorem pointOf_preserves (rdBuf : List UInt8) (id : ℕ) :
    Preserves (FileIs fd path holds) (pointOf rdBuf id) := by
  unfold pointOf
  split
  · exact .bind noteOverrun_preserves fun _ => .pure _
  · exact .pure _

theorem collectKnown_preserves (rdBuf : List UInt8) (higher : ArchiveInfo) (remaining id : ℕ)
    (curTimestamp : UInt32) (known : List UInt64) : Preserves (FileIs fd path holds)
      (collectKnown rdBuf higher remaining id curTimestamp known) := by
  induction remaining generalizing id curTimestamp known with
  | zero => exact .pure _
  | succ remaining ih =>
    refine .bind (pointOf_preserves rdBuf id) fun tmpPoint => ?_
    split
    · split
      · exact .bind noteOverrun_preserves fun _ => ih _ _ _
      · exact .bind (.pure _) fun _ => ih _ _ _
    · exact ih _ _ _

omit [Platform] in
theorem divide32_preserves (a b : UInt32) : Preserves (FileIs fd path holds) (divide32 a b) := by
  unfold divide32
  split
  · exact .throw _
  · exact .pure _

omit [Platform] in
theorem modulo32_preserves (a b : UInt32) : Preserves (FileIs fd path holds) (modulo32 a b) := by
  unfold modulo32
  split
  · exact .throw _
  · exact .pure _

omit [Platform] in
theorem modulo64_preserves (a b : UInt64) : Preserves (FileIs fd path holds) (modulo64 a b) := by
  unfold modulo64
  split
  · exact .throw _
  · exact .pure _

theorem collect_preserves (timestamp : UInt32) (higher lower : ArchiveInfo) :
    Preserves (FileIs fd path holds) (collect (some fd) timestamp higher lower) := by
  refine .bind (whisperSeek_preserves _) fun _ => ?_
  refine .bind whisperReadArchivePoint_preserves fun point => ?_
  cases point with
  | none => exact .throw _
  | some firstHigherPoint =>
    refine .bind (divide32_preserves _ _) fun _ => .bind (modulo64_preserves _ _) fun _ => ?_
    refine .bind (divide32_preserves _ _) fun _ => .bind (modulo64_preserves _ _) fun _ => ?_
    refine .bind (readInterval_preserves _ _ _) fun _ => ?_
    exact .bind (collectKnown_preserves _ _ _ _ _ _) fun _ => .pure _

omit [Platform]

/-! ### Words read in part -/

/-- In network order the bytes that are missing at the end of a number make it smaller. -/
theorem ntohl_wordAt_le (bytes : List UInt8) (at' count : ℕ) :
    (ntohl (wordAt (bytes.take count) at')).toNat ≤ (ntohl (wordAt bytes at')).toNat := by
  have front : readAt (bytes.take count) at' 4 = (readAt bytes at' 4).take (count - at') := by
    rw [readAt, readAt, List.drop_take, List.take_take, List.take_take, Nat.min_comm]
  have short : (readAt bytes at' 4).length ≤ 4 := by
    rw [readAt_length]
    omega
  rw [ntohl_wordAt, ntohl_wordAt, front]
  exact swap_number_take_le short _

theorem archiveCount_cut (c : List UInt8) (within : n ≤ whisperHeaderSize) :
    (ntohWhisperMetadata (Metadata.ofBytes (readAt c 0 n))).archiveCount.toNat ≤ archivesOf c := by
  rw [← Nat.min_eq_left within, ← readAt_take]
  exact ntohl_wordAt_le _ _ _

/-- What is left of an archive info is either without a resolution, or at the right offset and no
larger. -/
theorem archiveInfo_cut (c : List UInt8) (k : ℕ) (within : n ≤ whisperArchiveSize)
    (step : (ntohArchiveInfo (ArchiveInfo.ofBytes
      (readAt c (whisperHeaderSize + k * whisperArchiveSize) n))).secondsPerPoint ≠ 0) :
    (ntohArchiveInfo (ArchiveInfo.ofBytes
      (readAt c (whisperHeaderSize + k * whisperArchiveSize) n))).offset =
        (archiveInfoIn c k).offset ∧
    (ntohArchiveInfo (ArchiveInfo.ofBytes
      (readAt c (whisperHeaderSize + k * whisperArchiveSize) n))).points.toNat ≤
        (archiveInfoIn c k).points.toNat := by
  constructor
  · have enough : 0 + 4 ≤ n := by
      by_contra few
      apply step
      have none : readAt (readAt c (whisperHeaderSize + k * whisperArchiveSize) n) 4 4 = [] := by
        apply readAt_past
        rw [readAt_length]
        omega
      simp only [ntohArchiveInfo, ArchiveInfo.ofBytes, wordAt, none]
      decide
    simp only [archiveInfoIn, ntohArchiveInfo, ArchiveInfo.ofBytes, wordAt_readAt enough,
      wordAt_readAt (show 0 + 4 ≤ whisperArchiveSize by decide)]
  · rw [← Nat.min_eq_left within, ← readAt_take]
    exact ntohl_wordAt_le _ _ _

theorem readMetadata_ends (file : FileIs fd path (Eq c) w) :
    Ends w (whisperReadMetadata (some fd))
      (fun md w' => (∀ wspMd, md = some wspMd → wspMd.archiveCount.toNat ≤ archivesOf c) ∧
        FileIs fd path (Eq c) w') (fun _ _ => True) := by
  obtain ⟨_, pos, holding, rfl⟩ := file
  refine .bind (whisperSeek_ends holding 0) ?_
  rintro _ w₁ (⟨_, rfl, there⟩ | ⟨_, _, rfl, there⟩)
  · refine .pure ⟨?_, .of_holding there rfl⟩
    intro _ none
    contradiction
  · refine .bind (there.read _) ?_
    rintro _ w₂ (⟨_, ⟨e, rfl⟩, there⟩ | ⟨n, moved, rfl, there⟩)
    · refine .pure ⟨?_, .of_holding there rfl⟩
      intro _ none
      contradiction
    · refine .pure ⟨?_, .of_holding there rfl⟩
      intro wspMd same
      obtain rfl := Option.some.inj same
      exact archiveCount_cut c (Outcome.moves_le moved)

/-- Between 2 and 4 GiB the int offset of the source is negative. -/
theorem readArchiveInfo_ends (file : FileIs fd path (Eq c) w)
    (word : whisperHeaderSize + k * whisperArchiveSize < 2 ^ 32) :
    Ends w (whisperReadArchiveInfo (some fd) k)
      (fun info w' => (∀ archive, info = some archive → archive.secondsPerPoint ≠ 0 →
          archive.offset = (archiveInfoIn c k).offset ∧
            archive.points.toNat ≤ (archiveInfoIn c k).points.toNat) ∧
        FileIs fd path (Eq c) w') (fun _ _ => True) := by
  obtain ⟨_, pos, holding, rfl⟩ := file
  refine .bind (whisperSeek_ends holding _) ?_
  rintro _ w₁ (⟨_, rfl, there⟩ | ⟨_, valid, rfl, there⟩)
  · refine .pure ⟨?_, .of_holding there rfl⟩
    intro _ none
    contradiction
  · have place : (Int32.ofNat (whisperHeaderSize + k * whisperArchiveSize)).toInt.toNat =
        whisperHeaderSize + k * whisperArchiveSize := by
      have whole : (UInt32.ofNat (whisperHeaderSize + k * whisperArchiveSize)).toNat =
          whisperHeaderSize + k * whisperArchiveSize := by
        rw [UInt32.toNat_ofNat', Nat.mod_eq_of_lt word]
      have int := toInt_toInt32_eq (UInt32.ofNat (whisperHeaderSize + k * whisperArchiveSize))
      change (Int32.ofNat _).toInt = _ at int
      rw [int, whole] at valid ⊢
      split
      case isTrue => exact Int.toNat_natCast _
      case isFalse far =>
        rw [if_neg far] at valid
        omega
    rw [place] at there
    refine .bind (there.read _) ?_
    rintro _ w₂ (⟨_, ⟨e, rfl⟩, there⟩ | ⟨n, moved, rfl, there⟩)
    · refine .pure ⟨?_, .of_holding there rfl⟩
      intro _ none
      contradiction
    · refine .pure ⟨?_, .of_holding there rfl⟩
      intro archive same step
      obtain rfl := Option.some.inj same
      exact archiveInfo_cut c k (Outcome.moves_le moved) step

/-! ### Point writes -/

theorem whisperReadArchivePoint_ends (holding : Holding w outcomes fd path c pos)
    {fault : Fault → World Globals → Prop} :
    Ends w (whisperReadArchivePoint (some fd))
      (fun r w' => r = none ∨ ∃ point pos', r = some point ∧
        ((upcoming outcomes).moves 4 = some 4 → point.timestamp = (pointIn c pos).timestamp) ∧
        Holding w' outcomes.tail.tail fd path c pos') fault := by
  refine .bind (holding.read 4) ?_
  rintro _ w₁ (⟨_, ⟨e, rfl⟩, _⟩ | ⟨n, moved, rfl, there⟩)
  · exact .pure (.inl rfl)
  · refine .bind (there.read 8) ?_
    rintro _ w₂ (⟨_, ⟨e, rfl⟩, _⟩ | ⟨m, _, rfl, there⟩)
    · exact .pure (.inl rfl)
    · refine .pure (.inr ⟨_, _, rfl, fun whole => ?_, there⟩)
      obtain rfl := Option.some.inj (moved.symm.trans whole)
      simp only [ntohArchivePoint, pointIn, wordAt_readAt (show 0 + 4 ≤ 4 by decide), Nat.add_zero]

theorem writeOffset_ends (archive : ArchiveInfo) (timestamp first : UInt32) (w : World Globals) :
    Ends w (writeOffset archive timestamp first)
      (fun r w' => (r = targetOffset archive timestamp first ∧
        (first = 0 ∨ archive.points * 12 ≠ 0)) ∧ w' = w) (fun _ _ => True) := by
  by_cases writable : Writable archive first
  · refine .of_yields (writeOffset_yields writable) ⟨⟨rfl, writable.imp_right fun sized none => ?_⟩, rfl⟩
    exact sized.2 (congrArg UInt32.toUInt64 none)
  · obtain ⟨used, unsized⟩ := not_or.mp writable
    rw [writeOffset, if_neg used]
    by_cases step : archive.secondsPerPoint = 0
    · rw [step]
      exact .bind ((divide32_zero _).weaken (fun _ _ => id) fun _ _ _ => trivial)
        fun _ _ => False.elim
    · have none : archiveSize archive = 0 := by
        by_contra sized
        exact unsized ⟨step, sized⟩
      rw [none]
      exact .after (divide32_yields _ step) (.bind ((modulo64_zero _).weaken (fun _ _ => id)
        fun _ _ _ => trivial) fun _ _ => False.elim)

/-- One of the seeks and the write of a point write fails, with these outcomes in store before its
five calls. -/
def PointRefused (outcomes : List Outcome) (archive : ArchiveInfo) : Prop :=
  (upcoming outcomes).Fails ∨ 2 ^ 31 ≤ archive.offset.toNat ∨ (upcoming (outcomes.drop 3)).Fails ∨
    (upcoming (outcomes.drop 4)).Fails

/-- What a point write that returns has made of the contents. -/
inductive PointEffect (outcomes : List Outcome) (c : List UInt8) (archive : ArchiveInfo)
    (timestamp : UInt32) (point : ArchivePoint) : List UInt8 → Prop where
  | refused : PointRefused outcomes archive → PointEffect outcomes c archive timestamp point c
  | written (first : UInt32) (n : ℕ) : ¬ PointRefused outcomes archive →
      ((upcoming outcomes.tail).moves 4 = some 4 → first = firstTimestamp c archive) →
      first = 0 ∨ archive.points * 12 ≠ 0 →
      (upcoming (outcomes.drop 4)).moves whisperPointSize = some n →
      PointEffect outcomes c archive timestamp point
        (writeAt c (targetOffset archive timestamp first).toNat (point.bytes.take n))

theorem whisperWritePoint_ends (holding : Holding w outcomes fd path c pos) (archive : ArchiveInfo)
    (timestamp : UInt32) (point : ArchivePoint) :
    Ends w (whisperWritePoint (some fd) archive timestamp point)
      (fun _ w' => ∃ c', PointEffect outcomes c archive timestamp point c' ∧
        FileIs fd path (Eq c') w') (fun _ _ => True) := by
  have third : outcomes.tail.tail.tail = outcomes.drop 3 := by
    rw [← List.drop_tail, ← List.drop_tail, List.drop_one]
  have fourth : outcomes.tail.tail.tail.tail = outcomes.drop 4 := by
    rw [← List.drop_tail, ← List.drop_tail, ← List.drop_tail, List.drop_one]
  refine .bind (whisperSeek_ends holding _) ?_
  rintro _ w₁ (⟨fails, rfl, there⟩ | ⟨goes, valid, rfl, there⟩)
  · refine .pure ⟨c, .refused ?_, .of_holding there rfl⟩
    rcases fails with fails | negative
    · exact .inl fails
    · refine .inr (.inl (Nat.le_of_not_lt fun small => ?_))
      rw [toInt_toInt32 small] at negative
      omega
  · have near : archive.offset.toNat < 2 ^ 31 := by
      by_contra far
      have negative := toInt_toInt32_negative (Nat.le_of_not_lt far)
      omega
    rw [toInt_toInt32 near, Int.toNat_natCast] at there
    refine .bind (whisperReadArchivePoint_ends there) ?_
    rintro _ w₂ (rfl | ⟨firstArchPt, pos₂, rfl, whole, there⟩)
    · exact .throw trivial
    · refine .bind (writeOffset_ends _ _ _ w₂) ?_
      rintro _ _ ⟨⟨rfl, sized⟩, rfl⟩
      refine .bind (there.lseek _) ?_
      rintro _ w₃ (⟨fails, ⟨e, rfl⟩, there⟩ | ⟨moves, _, rfl, there⟩)
      · refine .pure ⟨c, .refused (.inr (.inr (.inl ?_))), .of_holding there rfl⟩
        rw [← third]
        exact fails.resolve_right (by omega)
      · refine .after (.get _) (.bind (there.write _) ?_)
        rintro _ w₄ (⟨fails, ⟨e, rfl⟩, there⟩ | ⟨n, moved, rfl, there⟩)
        · refine .pure ⟨c, .refused (.inr (.inr (.inr ?_))), .of_holding there rfl⟩
          rwa [← fourth]
        · rw [third] at moves
          rw [fourth, ArchivePoint.bytes_length] at moved
          rw [Int.toNat_natCast] at there
          have goesOn : ¬ PointRefused outcomes archive := by
            rintro (fails | far | fails | fails)
            · exact goes fails
            · omega
            · exact moves fails
            · exact Outcome.not_fails moved fails
          have effect : PointEffect outcomes c archive timestamp point _ :=
            .written firstArchPt.timestamp n goesOn whole sized moved
          dsimp only
          split
          · exact .pure ⟨_, effect, .of_holding there rfl⟩
          · refine .after (.get _) (.after (.update _ _) (.pure ⟨_, effect, ?_⟩))
            exact ⟨_, _, ⟨rfl, there.descriptor, there.node⟩, rfl⟩

/-! ### The frame of the first archive -/

/-- Where the first archive ends. -/
def firstEnd (c : List UInt8) : ℕ :=
  (archiveInfoIn c 0).offset.toNat + 12 * (archiveInfoIn c 0).points.toNat

/-- A file with archives behind its headers, the first one in front of the others, below 4 GiB. -/
structure ValidFile (c : List UInt8) : Prop where
  some : 0 < archivesOf c
  infos : infosEnd c ≤ (archiveInfoIn c 0).offset.toNat
  behind : ∀ k, 0 < k → k < archivesOf c → firstEnd c ≤ (archiveInfoIn c k).offset.toNat
  room : ∀ k < archivesOf c,
    (archiveInfoIn c k).offset.toNat + 12 * (archiveInfoIn c k).points.toNat ≤ 2 ^ 32

/-- The file is open, with its contents up to the end of the first archive as they were. -/
abbrev Framed (fd : ℕ) (path : Path) (c : List UInt8) : World Globals → Prop :=
  FileIs fd path (SameBelow (firstEnd c) c)

theorem whisperWritePoint_framed (behind : firstEnd c ≤ archive.offset.toNat)
    (room : archive.offset.toNat + (archive.points * 12).toNat ≤ 2 ^ 32) (timestamp : UInt32)
    (point : ArchivePoint) :
    Preserves (Framed fd path c) (whisperWritePoint (some fd) archive timestamp point) := by
  rintro w ⟨c', pos, holding, same⟩
  refine (whisperWritePoint_ends holding archive timestamp point).imply ?_
  rintro _ w' ⟨c'', effect, _, pos', there, rfl⟩
  cases effect with
  | refused => exact ⟨c', pos', there, same⟩
  | written first n _ _ sized _ =>
    have after := Nat.le_trans behind (le_targetOffset archive timestamp first sized room)
    exact ⟨_, pos', there, same.trans (.writeAt c' _ after)⟩

theorem propagate_framed [Platform] (behind : firstEnd c ≤ lower.offset.toNat)
    (room : lower.offset.toNat + (lower.points * 12).toNat ≤ 2 ^ 32) (timestamp : UInt32)
    (wspMd : Metadata) (higher : ArchiveInfo) : Preserves (Framed fd path c)
      (whisperWritePropagate (some fd) timestamp wspMd higher lower) := by
  rw [whisperWritePropagate_eq]
  refine .bind (collect_preserves _ _ _) fun found => .bind (divide32_preserves _ _) fun _ => ?_
  split
  · exact .bind (whisperWritePoint_framed behind room _ _) fun _ => .pure _
  · exact .pure _

theorem size_le_of_points {points whole : UInt32} (smaller : points.toNat ≤ whole.toNat)
    (room : offset + 12 * whole.toNat ≤ 2 ^ 32) : offset + (points * 12).toNat ≤ 2 ^ 32 := by
  have product : (points * 12).toNat ≤ points.toNat * 12 := by
    rw [UInt32.toNat_mul]
    exact Nat.mod_le _ _
  omega

/-- The loop writes behind the first archive only. The infos are read from the headers in front of
it, which no write reaches. -/
theorem propagateLoop_framed [Platform] (valid : ValidFile c) (alignedTimestamp : UInt32)
    (wspMd : Metadata) (remaining archiveId : ℕ) (positive : 0 < archiveId)
    (inside : archiveId + remaining ≤ archivesOf c) (higher : ArchiveInfo) :
    Preserves (Framed fd path c)
      (propagateLoop (some fd) alignedTimestamp wspMd remaining archiveId higher) := by
  induction remaining generalizing archiveId higher with
  | zero => exact .pure _
  | succ remaining ih =>
    rintro w ⟨c', pos, holding, same⟩
    have infos := valid.infos
    have room₀ := valid.room 0 valid.some
    have bounds : 16 + 12 * (archiveId + 1) ≤ firstEnd c := by
      simp only [firstEnd, infosEnd] at infos ⊢
      omega
    have word : whisperHeaderSize + archiveId * whisperArchiveSize < 2 ^ 32 := by
      simp only [whisperHeaderSize, whisperArchiveSize, infosEnd] at infos ⊢
      omega
    refine .bind (readArchiveInfo_ends ⟨c', pos, holding, rfl⟩ word) ?_
    rintro info w₁ ⟨whole, _, pos₁, there, rfl⟩
    have framed : Framed fd path c w₁ := ⟨c', pos₁, there, same⟩
    cases info with
    | none => exact .throw trivial
    | some lower =>
      dsimp only
      split
      case isTrue => exact .throw trivial
      case isFalse step =>
        obtain ⟨offset, points⟩ := whole lower rfl step
        rw [archiveInfoIn_below same bounds] at offset points
        have behind := valid.behind archiveId positive (by omega)
        have room := size_le_of_points points (valid.room archiveId (by omega))
        rw [← offset] at behind room
        have kept : Preserves (Framed fd path c) (do
            let rest ← modulo32 alignedTimestamp lower.secondsPerPoint
            if rest = 0 then
              let _ ← whisperWritePropagate (some fd) alignedTimestamp wspMd higher lower
              propagateLoop (some fd) alignedTimestamp wspMd remaining (archiveId + 1) lower
            else return ()) := by
          refine .bind (modulo32_preserves _ _) fun rest => ?_
          split
          · exact .bind (propagate_framed behind room _ _ _) fun _ =>
              ih (archiveId + 1) (Nat.zero_lt_succ _) (by omega) lower
          · exact .pure _
        exact kept w₁ framed

end Carbond.Whisper
