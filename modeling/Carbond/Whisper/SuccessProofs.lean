import Carbond.Whisper.FailureProofs
import Carbond.Whisper.TilingProofs
import Carbond.Whisper.RunProofs
import Carbond.Whisper.TruncationProofs

/-! What the success of `whisper_write_value` says about the point, under any schedule of outcomes.
The result of the point write in the first archive is not looked at. -/
namespace Carbond.Whisper
open Bytes Posix Text
variable {w : World Globals} {ret rest : List Retention} {agg : PatternAggregation}
variable {outcomes : List Outcome} {fd pos : ℕ} {path : Path} {c c' : List UInt8}

/-- The first archive has the point of this timestamp in one of its slots. -/
def HoldsPoint (c : List UInt8) (timestamp : UInt32) (value : UInt64) : Prop :=
  ∃ k < (archiveInfoIn c 0).points.toNat,
    pointIn c ((archiveInfoIn c 0).offset.toNat + 12 * k) =
      ⟨timestamp - timestamp % (archiveInfoIn c 0).secondsPerPoint, value⟩

/-! ### New files -/

/-- The headers are those of a new file, whatever follows them. -/
structure NewHeaders (ret : List Retention) (agg : PatternAggregation) (count : ℕ)
    (c : List UInt8) : Prop where
  metadata : metadataIn c = newMetadata ret agg
  info : ∀ k cur, k < count → ret[k]? = some cur → archiveInfoIn c k = archiveOf ret k cur

/-- Archives with a resolution, in a file below 4 GiB. -/
structure Placeable (ret : List Retention) : Prop where
  some : ret ≠ []
  positive : ∀ cur ∈ ret, cur.timePerPoint ≠ 0
  room : 16 + 12 * ret.length + 12 * (ret.map pointsStored).sum < 2 ^ 32

theorem NewHeaders.write (headers : NewHeaders ret agg count c) (behind : 16 + 12 * count ≤ pos)
    (data : List UInt8) : NewHeaders ret agg count (writeAt c pos data) := by
  have same := SameBelow.writeAt c data behind
  constructor
  · rw [metadataIn_below same (by omega), headers.metadata]
  · intro k cur inside found
    rw [archiveInfoIn_below same (by omega), headers.info k cur inside found]

/-- One more info behind the others. -/
theorem NewHeaders.more (headers : NewHeaders ret agg count c) (found : ret[count]? = some cur) :
    NewHeaders ret agg (count + 1)
      (writeAt c (16 + 12 * count) (htonArchiveInfo (archiveOf ret count cur)).bytes) := by
  have kept := headers.write (Nat.le_refl (16 + 12 * count))
    (htonArchiveInfo (archiveOf ret count cur)).bytes
  refine ⟨kept.metadata, fun k r inside there => ?_⟩
  by_cases old : k < count
  · exact kept.info k r old there
  · obtain rfl : k = count := by omega
    obtain rfl := Option.some.inj (found.symm.trans there)
    have written := readAt_writeAt_same c (16 + 12 * k) (htonArchiveInfo (archiveOf ret k cur)).bytes
    rw [ArchiveInfo.bytes_length] at written
    rw [archiveInfoIn, whisperHeaderSize, whisperArchiveSize, Nat.mul_comm k 12, written,
      ArchiveInfo.ofBytes_bytes, ntoh_hton_archiveInfo]

theorem writeArchiveInfos_headers (positive : ∀ cur ∈ ret, cur.timePerPoint ≠ 0)
    (suffix : ret.drop idRet = rest)
    (holding : Holding w outcomes fd path c (16 + 12 * idRet))
    (headers : NewHeaders ret agg idRet c) :
    Ends w (writeArchiveInfos (some fd) ret rest idRet)
      (fun whole w' => whole = true → ∃ c' pos, Holding w' w'.outcomes fd path c' pos ∧
        16 + 12 * ret.length ≤ pos ∧ NewHeaders ret agg ret.length c') (fun _ _ => True) := by
  induction rest generalizing w c idRet outcomes with
  | nil =>
    have past : ret.length ≤ idRet := List.drop_eq_nil_iff.mp suffix
    refine .pure fun _ => ⟨c, _, holding.schedule ▸ holding, by omega, headers.metadata, ?_⟩
    exact fun k cur inside => headers.info k cur (by omega)
  | cons cur next ih =>
    obtain ⟨found, suffix'⟩ := retention_next suffix
    have inside : idRet ≤ ret.length := Nat.le_of_lt (List.getElem?_eq_some_iff.mp found).1
    refine .after (divide32_yields _ (positive cur (List.mem_of_getElem? found)))
      (.after (whisperGetArchiveOffset_yields (fun r member =>
        positive r (List.mem_of_mem_take member)) inside)
        (.bind (holding.write _) ?_))
    rintro _ w₁ (⟨_, ⟨e, rfl⟩, _⟩ | ⟨n, moved, rfl, there⟩)
    · exact .pure fun none => by contradiction
    · dsimp only
      split
      case isTrue => exact .pure fun none => by contradiction
      case isFalse enough =>
        rw [ArchiveInfo.bytes_length] at moved
        obtain rfl : n = whisperArchiveSize := Outcome.moves_whole moved enough
        have all : (htonArchiveInfo (archiveOf ret idRet cur)).bytes.take whisperArchiveSize =
            (htonArchiveInfo (archiveOf ret idRet cur)).bytes :=
          List.take_of_length_le (Nat.le_of_eq (ArchiveInfo.bytes_length _))
        have more := headers.more found
        rw [← all] at more
        exact ih suffix' there more

theorem writeEmptyArchives_headers (positive : ∀ cur ∈ rest, cur.timePerPoint ≠ 0)
    (holding : Holding w outcomes fd path c pos) (behind : 16 + 12 * ret.length ≤ pos)
    (headers : NewHeaders ret agg ret.length c) :
    Ends w (writeEmptyArchives (some fd) rest)
      (fun _ w' => FileIs fd path (NewHeaders ret agg ret.length) w') (fun _ _ => True) := by
  induction rest generalizing w c pos outcomes with
  | nil => exact .pure (.of_holding holding headers)
  | cons cur next ih =>
    obtain ⟨step, positive⟩ := List.forall_mem_cons.mp positive
    refine .after (divide32_yields _ step) (.bind (holding.write _) ?_)
    rintro _ w₁ (⟨_, ⟨e, rfl⟩, there⟩ | ⟨n, _, rfl, there⟩)
    · exact ih positive there behind headers
    · dsimp only
      split
      · exact .pure (.of_holding there (headers.write behind _))
      · exact ih positive there (Nat.le_add_right_of_le behind) (headers.write behind _)

/-- A file that `whisper_create_file` returns has all its headers. -/
theorem writeNewFile_headers (positive : ∀ cur ∈ ret, cur.timePerPoint ≠ 0)
    (holding : Holding w outcomes fd path c 0) :
    Ends w (writeNewFile (some fd) ret agg)
      (fun r w' => r = none ∨ r = some fd ∧ FileIs fd path (NewHeaders ret agg ret.length) w')
      (fun _ _ => True) := by
  refine .bind (holding.write _) ?_
  rintro _ w₁ (⟨_, ⟨e, rfl⟩, _⟩ | ⟨n, moved, rfl, there⟩)
  · exact .pure (.inl rfl)
  · dsimp only
    split
    case isTrue => exact .pure (.inl rfl)
    case isFalse enough =>
      rw [Metadata.bytes_length] at moved
      obtain rfl : n = whisperHeaderSize := Outcome.moves_whole moved enough
      have all : (htonWhisperMetadata (newMetadata ret agg)).bytes.take whisperHeaderSize =
          (htonWhisperMetadata (newMetadata ret agg)).bytes :=
        List.take_of_length_le (Nat.le_of_eq (Metadata.bytes_length _))
      have headers : NewHeaders ret agg 0
          (writeAt c 0 ((htonWhisperMetadata (newMetadata ret agg)).bytes.take whisperHeaderSize)) := by
        refine ⟨?_, fun k _ none => absurd none (Nat.not_lt_zero k)⟩
        have written := readAt_writeAt_same c 0 (htonWhisperMetadata (newMetadata ret agg)).bytes
        rw [Metadata.bytes_length] at written
        rw [all, metadataIn, whisperHeaderSize, written, Metadata.ofBytes_bytes, ntoh_hton_metadata]
      refine .bind (writeArchiveInfos_headers positive List.drop_zero there headers) ?_
      intro whole w₂ infos
      cases whole with
      | false => exact .pure (.inl rfl)
      | true =>
        obtain ⟨c₂, pos₂, there, behind, headers⟩ := infos rfl
        refine .bind (writeEmptyArchives_headers positive there behind headers) ?_
        intro whole w₃ file
        cases whole with
        | false => exact .pure (.inl rfl)
        | true => exact .pure (.inr ⟨rfl, file⟩)

theorem Placeable.laid (placeable : Placeable ret) : Laid ret := by
  have room := placeable.room
  have size : emptySize ret = 12 * (ret.map pointsStored).sum := emptySize_eq (by omega)
  refine ⟨placeable.positive, fun i _ => ?_, by omega⟩
  have part := emptySize_take_le ret i
  omega

theorem Placeable.size (placeable : Placeable ret) (member : cur ∈ ret) :
    (pointCount cur * 12).toNat = 12 * (pointCount cur).toNat := by
  have single : pointsStored cur ≤ (ret.map pointsStored).sum :=
    List.single_le_sum (fun _ _ => Nat.zero_le _) _ (List.mem_map_of_mem member)
  have room := placeable.room
  rw [pointCount_toNat]
  exact size_toNat cur (by omega)

theorem NewHeaders.valid (headers : NewHeaders ret agg ret.length c) (placeable : Placeable ret) :
    ValidFile c := by
  have laid := placeable.laid
  have count : archivesOf c = ret.length := by
    rw [archivesOf, headers.metadata]
    have room := placeable.room
    exact archiveCount_toNat (by omega)
  have archive (k : ℕ) (inside : k < archivesOf c) : ∃ cur, ret[k]? = some cur ∧
      archiveInfoIn c k = archiveOf ret k cur ∧ (archiveOf ret k cur).offset.toNat +
        12 * (archiveOf ret k cur).points.toNat = 16 + 12 * ret.length + emptySize (ret.take (k + 1)) := by
    rw [count] at inside
    have found : ret[k]? = some ret[k] := List.getElem?_eq_getElem inside
    have ends := (laid.archive_offset found).2
    rw [placeable.size (List.getElem_mem inside)] at ends
    exact ⟨_, found, headers.info k _ inside found, ends⟩
  have some : 0 < archivesOf c := count ▸ List.length_pos_iff.mpr placeable.some
  obtain ⟨first, found, info, ends⟩ := archive 0 some
  refine ⟨some, ?_, fun k positive inside => ?_, fun k inside => ?_⟩
  · rw [infosEnd, count, info, (laid.archive_offset found).1]
    omega
  · obtain ⟨cur, found', info', _⟩ := archive k inside
    have later := emptySize_take_mono ret (show 0 + 1 ≤ k from positive)
    rw [firstEnd, info, ends, info', (laid.archive_offset found').1]
    omega
  · obtain ⟨cur, _, info', ends'⟩ := archive k inside
    have part := emptySize_take_le ret (k + 1)
    have room := laid.room
    rw [info', ends']
    omega

/-! ### Before the point write -/

/-- What `whisper_write_value` knows when it comes to the point write. -/
structure PointCall where
  fd : Fd
  wspMd : Metadata
  archive : ArchiveInfo
  alignedTimestamp : UInt32
  deriving DecidableEq, Repr

section
variable [Platform]

def headersOf (fd : Fd) (timestamp : UInt32) : Action (Option PointCall) := do
  match ← whisperReadMetadata fd with
  | none => return none
  | some wspMd =>
    match ← whisperReadArchiveInfo fd 0 with
    | none => return none
    | some wspArch =>
      let rest ← modulo32 timestamp wspArch.secondsPerPoint
      return some ⟨fd, wspMd, wspArch, timestamp - rest⟩

/-- `whisper_write_value` up to the point write in the first archive. -/
def beforePoint (conf : CarbonConf) (metric : CString) (timestamp : UInt32) :
    Action (Option PointCall) := do
  match ← openFile (whisperMetricFilename conf.storageDir metric) false with
  | .ok fd => headersOf (some fd) timestamp
  | .error .enoent =>
    let fd ← whisperCreateFile conf metric
    headersOf fd timestamp
  | .error _ => return none

/-- `whisper_write_value` from the point write in the first archive on. -/
def fromPoint (call : PointCall) (value : UInt64) : Action ℕ := do
  let _ ← whisperWritePoint call.fd call.archive call.alignedTimestamp
    (htonArchivePoint ⟨call.alignedTimestamp, value⟩)
  propagateLoop call.fd call.alignedTimestamp call.wspMd (call.wspMd.archiveCount.toNat - 1) 1
    call.archive
  close call.fd
  return exitSuccess

theorem whisperWriteOpened_eq (fd : Fd) (timestamp : UInt32) (value : UInt64) :
    whisperWriteOpened fd timestamp value = (do
      match ← headersOf fd timestamp with
      | none => return exitFailure
      | some call => fromPoint call value) := by
  rw [whisperWriteOpened, headersOf, bind_assoc]
  congr 1
  funext metadata
  cases metadata with
  | none => rfl
  | some wspMd =>
    dsimp only
    rw [bind_assoc]
    congr 1
    funext info
    cases info with
    | none => rfl
    | some wspArch =>
      dsimp only
      rw [bind_assoc]
      rfl

theorem whisperWriteValue_eq (conf : CarbonConf) (metric : CString) (timestamp : UInt32)
    (value : UInt64) : whisperWriteValue conf metric timestamp value = (do
      match ← beforePoint conf metric timestamp with
      | none => return exitFailure
      | some call => fromPoint call value) := by
  rw [whisperWriteValue, beforePoint, bind_assoc]
  congr 1
  funext opened
  cases opened with
  | ok fd => exact whisperWriteOpened_eq _ _ _
  | error errno =>
    cases errno with
    | enoent =>
      dsimp only
      rw [bind_assoc]
      congr 1
      funext fd
      exact whisperWriteOpened_eq _ _ _
    | ebadf => rfl
    | einval => rfl
    | eisdir => rfl
    | other code => rfl

end

/-- The call is about this file. -/
structure Prepared (fd : ℕ) (c : List UInt8) (timestamp : UInt32) (call : PointCall) : Prop where
  fd : call.fd = some fd
  count : call.wspMd.archiveCount.toNat ≤ archivesOf c
  offset : call.archive.offset = (archiveInfoIn c 0).offset
  points : call.archive.points.toNat ≤ (archiveInfoIn c 0).points.toNat
  aligned : call.alignedTimestamp = timestamp - timestamp % call.archive.secondsPerPoint

/-- Nothing is read from the descriptor -1. -/
theorem headersOf_closed (timestamp : UInt32) (w : World Globals) :
    Ends w (headersOf none timestamp) (fun r _ => r = none) (fun _ _ => True) := by
  have sought : Ends w (whisperSeek none 0) (fun r _ => r = exitFailure) (fun _ _ => True) := by
    refine .bind (lseek_closed_ends _ w) ?_
    rintro _ w₁ ⟨e, rfl⟩
    exact .pure rfl
  have read : Ends w (whisperReadMetadata none) (fun md _ => md = none) (fun _ _ => True) := by
    refine .bind sought ?_
    rintro _ w₁ rfl
    exact .pure rfl
  refine .bind read ?_
  rintro _ w₁ rfl
  exact .pure rfl

theorem headersOf_ends (file : FileIs fd path (Eq c) w) (timestamp : UInt32) :
    Ends w (headersOf (some fd) timestamp)
      (fun r w' => r = none ∨ ∃ call, r = some call ∧ Prepared fd c timestamp call ∧
        FileIs fd path (Eq c) w') (fun _ _ => True) := by
  refine .bind (readMetadata_ends file) ?_
  rintro metadata w₁ ⟨count, file⟩
  cases metadata with
  | none => exact .pure (.inl rfl)
  | some wspMd =>
    refine .bind (readArchiveInfo_ends file (by decide)) ?_
    rintro info w₂ ⟨first, file⟩
    cases info with
    | none => exact .pure (.inl rfl)
    | some wspArch =>
      by_cases step : wspArch.secondsPerPoint = 0
      · dsimp only
        rw [modulo32, if_pos step]
        exact .bind (.throw trivial) fun _ _ => False.elim
      · obtain ⟨offset, points⟩ := first wspArch rfl step
        refine .after (modulo32_yields timestamp step) (.pure (.inr ⟨_, rfl, ?_, file⟩))
        exact ⟨rfl, count wspMd rfl, offset, points, rfl⟩

section
variable [Platform] {conf : CarbonConf} {metric : CString}

theorem whisperCreateFile_headers
    (placeable : Placeable (whisperFindRetention metric conf.schema)) (w : World Globals) :
    Ends w (whisperCreateFile conf metric)
      (fun r w' => r = none ∨ ∃ fd c, r = some fd ∧ ValidFile c ∧
        FileIs fd (whisperMetricFilename conf.storageDir metric) (Eq c) w') (fun _ _ => True) := by
  rw [whisperCreateFile_eq]
  refine .bind (openNewFile_ends conf metric w) ?_
  rintro _ w₁ (⟨rfl, _⟩ | ⟨fd, agg, c, rfl, _, holding, _⟩)
  · exact .pure (.inl rfl)
  · refine (writeNewFile_headers placeable.positive holding).imply ?_
    rintro r w₂ (rfl | ⟨rfl, c', pos, there, headers⟩)
    · exact .inl rfl
    · exact .inr ⟨fd, c', rfl, headers.valid placeable, c', pos, there, rfl⟩

/-- The point write is done on a valid file, old or new. -/
theorem beforePoint_ends (timestamp : UInt32)
    (file : ∀ c, w.nodes (whisperMetricFilename conf.storageDir metric) = some (.file c) → ValidFile c)
    (made : NoFile w (whisperMetricFilename conf.storageDir metric) ∨
      upcoming w.outcomes = .fail .enoent → Placeable (whisperFindRetention metric conf.schema)) :
    Ends w (beforePoint conf metric timestamp)
      (fun r w' => r = none ∨ ∃ fd c call, r = some call ∧ Prepared fd c timestamp call ∧
        ValidFile c ∧ FileIs fd (whisperMetricFilename conf.storageDir metric) (Eq c) w')
      (fun _ _ => True) := by
  have headers (fd : ℕ) (c : List UInt8) (w₁ : World Globals) (valid : ValidFile c)
      (file : FileIs fd (whisperMetricFilename conf.storageDir metric) (Eq c) w₁) :
      Ends w₁ (headersOf (some fd) timestamp)
        (fun r w' => r = none ∨ ∃ fd c call, r = some call ∧ Prepared fd c timestamp call ∧
          ValidFile c ∧ FileIs fd (whisperMetricFilename conf.storageDir metric) (Eq c) w')
        (fun _ _ => True) := by
    refine (headersOf_ends file timestamp).imply ?_
    rintro r w' (rfl | ⟨call, rfl, prepared, file⟩)
    · exact .inl rfl
    · exact .inr ⟨fd, c, call, rfl, prepared, valid, file⟩
  refine .bind (openFile_ends _ false w) ?_
  rintro _ w₁ (⟨e, rfl, _, refused⟩ | ⟨fd, c, rfl, holding, old | ⟨_, created, _⟩⟩)
  · cases e with
    | enoent =>
      have placeable := made (by
        by_cases there : NoFile w (whisperMetricFilename conf.storageDir metric)
        · exact .inl there
        · obtain ⟨c, stored⟩ := not_forall.mp there
          exact .inr (refused c (not_not.mp stored)))
      refine .bind (whisperCreateFile_headers placeable w₁) ?_
      rintro _ w₂ (rfl | ⟨fd, c, rfl, valid, file⟩)
      · exact (headersOf_closed timestamp w₂).imply fun _ _ => .inl
      · exact headers fd c w₂ valid file
    | ebadf => exact .pure (.inl rfl)
    | einval => exact .pure (.inl rfl)
    | eisdir => exact .pure (.inl rfl)
    | other code => exact .pure (.inl rfl)
  · exact headers fd c w₁ (file c old) (.of_holding holding rfl)
  · contradiction

end

/-! ### From the point write on -/

theorem ValidFile.of_headers (valid : ValidFile c) (same : SameHeaders c c') :
    ValidFile c' ∧ firstEnd c' = firstEnd c := by
  have count : archivesOf c' = archivesOf c := by rw [archivesOf, same.metadata, archivesOf]
  have first := same.info 0 valid.some
  have ends : firstEnd c' = firstEnd c := by rw [firstEnd, first, firstEnd]
  refine ⟨⟨count ▸ valid.some, ?_, fun k positive inside => ?_, fun k inside => ?_⟩, ends⟩
  · rw [infosEnd, count, first]
    exact valid.infos
  · rw [ends, same.info k (count ▸ inside)]
    exact valid.behind k positive (count ▸ inside)
  · rw [same.info k (count ▸ inside)]
    exact valid.room k (count ▸ inside)

theorem ValidFile.infos_le (valid : ValidFile c) : infosEnd c ≤ firstEnd c :=
  Nat.le_trans valid.infos (Nat.le_add_right _ _)

/-- What the first archive holds is decided in front of its end. -/
theorem holdsPoint_below (valid : ValidFile c) (same : SameBelow (firstEnd c) c c')
    (timestamp : UInt32) (value : UInt64) :
    HoldsPoint c' timestamp value ↔ HoldsPoint c timestamp value := by
  have first := (SameHeaders.below same valid.infos_le).info 0 valid.some
  unfold HoldsPoint
  rw [first]
  refine exists_congr fun k => and_congr_right fun inside => ?_
  rw [pointIn_below same]
  rw [firstEnd]
  omega

/-- The transfers of the point write are whole, and it is due at a slot of the first archive. -/
structure Undisturbed (outcomes : List Outcome) (c : List UInt8) (call : PointCall) : Prop where
  archive : call.archive = archiveInfoIn c 0
  first : (upcoming outcomes.tail).moves 4 = some 4
  uncut : (upcoming (outcomes.drop 4)).Fails ∨
    (upcoming (outcomes.drop 4)).moves whisperPointSize = some whisperPointSize
  slot : ∃ k < (archiveInfoIn c 0).points.toNat,
    (targetOffset (archiveInfoIn c 0) call.alignedTimestamp
      (firstTimestamp c (archiveInfoIn c 0))).toNat = (archiveInfoIn c 0).offset.toNat + 12 * k

/-- A point write in the first archive is behind the headers, wherever it goes. -/
theorem PointEffect.headers (valid : ValidFile c) (prepared : Prepared fd c timestamp call)
    (effect : PointEffect outcomes c call.archive alignedTimestamp point c') :
    SameHeaders c c' := by
  cases effect with
  | refused => exact .below (.refl _ c) (Nat.le_refl _)
  | written first n _ _ sized _ =>
    have room := valid.room 0 valid.some
    rw [← prepared.offset] at room
    have after := le_targetOffset call.archive alignedTimestamp first sized
      (size_le_of_points prepared.points room)
    have behind := valid.infos
    rw [← prepared.offset] at behind
    exact .below (.writeAt c _ (Nat.le_trans behind after)) (Nat.le_refl _)

/-- An undisturbed point write leaves the point in its slot. -/
theorem PointEffect.holdsPoint (valid : ValidFile c) (prepared : Prepared fd c timestamp call)
    (undisturbed : Undisturbed outcomes c call)
    (effect : PointEffect outcomes c call.archive call.alignedTimestamp
      (htonArchivePoint ⟨call.alignedTimestamp, value⟩) c')
    (goes : ¬ PointRefused outcomes call.archive) : HoldsPoint c' timestamp value := by
  have headers := effect.headers valid prepared
  obtain ⟨k, inside, slot⟩ := undisturbed.slot
  cases effect with
  | refused refused => contradiction
  | written first n _ whole _ moved =>
    obtain rfl := whole undisturbed.first
    have all : n = whisperPointSize := by
      rcases undisturbed.uncut with fails | uncut
      · exact absurd (.inr (.inr (.inr fails))) goes
      · exact Option.some.inj (moved.symm.trans uncut)
    have bytes := ArchivePoint.bytes_length (htonArchivePoint ⟨call.alignedTimestamp, value⟩)
    rw [undisturbed.archive, slot, all, whisperPointSize,
      List.take_of_length_le (Nat.le_of_eq bytes)] at headers ⊢
    refine ⟨k, ?_, ?_⟩
    · rw [headers.info 0 valid.some]
      exact inside
    · rw [headers.info 0 valid.some, pointIn_writeAt, prepared.aligned, undisturbed.archive]

/-- The file of this name has the point of this timestamp in its first archive. -/
def FileHoldsPoint (w : World Globals) (path : Path) (timestamp : UInt32) (value : UInt64) : Prop :=
  ∃ c, w.nodes path = some (.file c) ∧ HoldsPoint c timestamp value

variable [Platform]

/-- What the point write has left, the propagation and the end of the call leave. -/
theorem afterPoint_ends (valid : ValidFile c) (file : FileIs fd path (Eq c) w)
    (count : wspMd.archiveCount.toNat ≤ archivesOf c) (alignedTimestamp : UInt32)
    (higher : ArchiveInfo) (timestamp : UInt32) (value : UInt64) :
    Ends w (do
        propagateLoop (some fd) alignedTimestamp wspMd (wspMd.archiveCount.toNat - 1) 1 higher
        close (some fd)
        return exitSuccess)
      (fun _ w' => FileHoldsPoint w' path timestamp value ↔ HoldsPoint c timestamp value)
      (fun _ _ => True) := by
  obtain ⟨_, pos, holding, rfl⟩ := file
  have positive := valid.some
  have loop : Preserves (Framed fd path c) (propagateLoop (some fd) alignedTimestamp wspMd _ 1 higher) :=
    propagateLoop_framed valid alignedTimestamp wspMd (wspMd.archiveCount.toNat - 1) 1 Nat.one_pos
      (by omega) higher
  refine .bind (loop w ⟨c, pos, holding, .refl _ _⟩) ?_
  rintro _ w₁ ⟨c', pos', there, same⟩
  refine .bind (close_ends _ w₁) fun _ w₂ kept => .pure ?_
  have node : w₂.nodes path = some (.file c') := kept ▸ there.node
  constructor
  · rintro ⟨c'', node', holds⟩
    obtain rfl : c' = c'' := by simpa using node.symm.trans node'
    exact (holdsPoint_below valid same timestamp value).mp holds
  · intro holds
    exact ⟨c', node, (holdsPoint_below valid same timestamp value).mpr holds⟩

theorem fromPoint_ends (valid : ValidFile c) (prepared : Prepared fd c timestamp call)
    (file : FileIs fd path (Eq c) w) (value : UInt64) :
    Ends w (fromPoint call value)
      (fun _ w' => ∃ c₁, PointEffect w.outcomes c call.archive call.alignedTimestamp
          (htonArchivePoint ⟨call.alignedTimestamp, value⟩) c₁ ∧
        (FileHoldsPoint w' path timestamp value ↔ HoldsPoint c₁ timestamp value)) (fun _ _ => True) := by
  obtain ⟨_, pos, holding, rfl⟩ := file
  rw [fromPoint, prepared.fd]
  refine .bind (whisperWritePoint_ends holding _ _ _) ?_
  rintro _ w₁ ⟨c₁, effect, file⟩
  have headers := effect.headers valid prepared
  have count : call.wspMd.archiveCount.toNat ≤ archivesOf c₁ := by
    rw [archivesOf, headers.metadata]
    exact prepared.count
  refine (afterPoint_ends (valid.of_headers headers).1 file count _ _ timestamp value).imply ?_
  exact fun _ _ stored => ⟨c₁, effect, stored⟩

/-- A call that returns EXIT_SUCCESS has come to the point write, on a valid file, and the effect
of it decides what is stored. -/
theorem whisperWriteValue_ends {conf : CarbonConf} {metric : CString} (timestamp : UInt32)
    (value : UInt64)
    (file : ∀ c, w.nodes (whisperMetricFilename conf.storageDir metric) = some (.file c) → ValidFile c)
    (made : NoFile w (whisperMetricFilename conf.storageDir metric) ∨
      upcoming w.outcomes = .fail .enoent → Placeable (whisperFindRetention metric conf.schema)) :
    Ends w (whisperWriteValue conf metric timestamp value)
      (fun r w' => r = exitSuccess → ∃ fd call c c₁ w₁,
        Yields (beforePoint conf metric timestamp) w (some call) w₁ ∧
        w₁.nodes (whisperMetricFilename conf.storageDir metric) = some (.file c) ∧
        ValidFile c ∧ Prepared fd c timestamp call ∧
        PointEffect w₁.outcomes c call.archive call.alignedTimestamp
          (htonArchivePoint ⟨call.alignedTimestamp, value⟩) c₁ ∧
        (FileHoldsPoint w' (whisperMetricFilename conf.storageDir metric) timestamp value ↔
          HoldsPoint c₁ timestamp value))
      (fun _ _ => True) := by
  rw [whisperWriteValue_eq]
  refine .bind (beforePoint_ends timestamp file made).traced ?_
  rintro _ w₁ ⟨before, rfl | ⟨fd, c, call, rfl, prepared, valid, file⟩⟩
  · exact .pure fun none => by contradiction
  · refine (fromPoint_ends valid prepared file value).imply ?_
    rintro _ w₂ ⟨c₁, effect, stored⟩ _
    obtain ⟨_, pos, holding, rfl⟩ := file
    exact ⟨fd, call, c, c₁, w₁, before, holding.node, valid, prepared, effect, stored⟩

omit [Platform]

/-! ### A file for ten points -/

/-- A disk with one file for ten points of one second, and what the kernel does with the calls to
come. -/
def tenPoints (outcomes : List Outcome) : World Globals :=
  { worldWith "/b/a.wsp".toList (newContents [⟨1, 10⟩] ⟨[], 0, .average⟩) with outcomes := outcomes }

theorem tenPoints_file (outcomes : List Outcome) (c : List UInt8)
    (stored : (tenPoints outcomes).nodes "/b/a.wsp".toList = some (.file c)) :
    c = newContents [⟨1, 10⟩] ⟨[], 0, .average⟩ := by
  have node := (worldWith_opened "/b/a.wsp".toList (newContents [⟨1, 10⟩] ⟨[], 0, .average⟩)).node
  simpa using stored.symm.trans node

theorem tenPoints_placeable : Placeable [⟨1, 10⟩] := ⟨by decide, by decide, by decide⟩

theorem tenPoints_valid : ValidFile (newContents [⟨1, 10⟩] ⟨[], 0, .average⟩) := by
  have headers : NewHeaders [⟨1, 10⟩] ⟨[], 0, .average⟩ 1
      (newContents [⟨1, 10⟩] ⟨[], 0, .average⟩) :=
    ⟨metadataIn_newContents, fun _ _ _ found => archiveInfoIn_newContents found⟩
  exact headers.valid tenPoints_placeable

/-- The contents of a file when a program ends. -/
def contentsAfter (program : Action α) (w : World Globals) (path : Path) : Option Node :=
  match program w with
  | .ok _ w' => w'.nodes path
  | .error _ w' => w'.nodes path

theorem contentsAfter_of_yields {program : Action α} {a : α} {w' : World Globals}
    (run : Yields program w a w') (path : Path) : contentsAfter program w path = w'.nodes path := by
  simp only [Yields] at run
  simp only [contentsAfter, run]

instance (c : List UInt8) (timestamp : UInt32) (value : UInt64) :
    Decidable (HoldsPoint c timestamp value) :=
  inferInstanceAs (Decidable (∃ k, k < _ ∧ _))

end Carbond.Whisper
