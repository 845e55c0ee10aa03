import Carbond.Conf.Parse
import Carbond.Whisper.RunProofs

/-! Which rules make the writer divide by zero: those without archives, with archives that hold no
point, and with archives that are more precise than the one before them. -/
namespace Carbond.Whisper
open Bytes Posix Text
/-- No run on this metric, from before its file exists, comes to a division by zero. -/
def NeverDividesByZero [Platform] (conf : CarbonConf) (metric : CString) : Prop :=
  ∀ w calls, Absent (whisperMetricFilename conf.storageDir metric) w →
    ∀ e w', whisperWriteValues conf metric calls w = .error e w' → ¬ Arithmetic e

/-- Archives with a resolution and points, the more precise ones first, in a file of 4 GiB. -/
structure Sound (ret : List Retention) : Prop where
  positive : ∀ cur ∈ ret, cur.timePerPoint ≠ 0
  sized : Sized ret
  graded : Graded ret
  room : 16 + 12 * ret.length + emptySize ret ≤ 2 ^ 32

/-- Archives on which a division by zero can be provoked. -/
inductive Flawed : List Retention → Prop where
  | empty : Flawed []
  | zeroStep : cur ∈ ret → cur.timePerPoint = 0 → Flawed ret
  | unpropagable (i : ℕ) : Laid ret → 16 + 12 * ret.length < 2 ^ 31 → ¬ Propagable ret i → Flawed ret
  | unsized : pointCount cur * 12 = 0 → Flawed [cur]

/-! ### Sound archives -/

variable {w : World Globals} {ret rest : List Retention} {agg : PatternAggregation}

theorem Sound.laid (sound : Sound ret) : Laid ret := by
  refine ⟨sound.positive, fun i inside => ?_, sound.room⟩
  have found : ret[i]? = some ret[i] := List.getElem?_eq_getElem inside
  have next := emptySize_take_succ found
  have part := emptySize_take_le ret (i + 1)
  have room := sound.room
  have some := Nat.pos_of_ne_zero fun zero =>
    sound.sized _ (List.getElem_mem inside) (UInt32.toNat_inj.mp zero)
  omega

theorem Exits.harmless (exits : Exits path e w) : ¬ Arithmetic e := by
  rintro (zero | failed)
  · exact nomatch exits.1.symm.trans zero
  · exact nomatch exits.1.symm.trans failed

/-! ### Creating a file -/

theorem writeArchiveInfos_zeroStep (before : ∀ cur ∈ ret.take idRet, cur.timePerPoint ≠ 0)
    (suffix : ret.drop idRet = rest) (zero : ∃ cur ∈ rest, cur.timePerPoint = 0)
    (opened : Opened w fd path c c.length) :
    Ends w (writeArchiveInfos (some fd) ret rest idRet) (fun _ _ => False)
      (fun e _ => e = .divideByZero) := by
  induction rest generalizing w c idRet with
  | nil =>
    obtain ⟨cur, member, _⟩ := zero
    contradiction
  | cons cur next ih =>
    obtain ⟨found, suffix'⟩ := retention_next suffix
    have inside : idRet ≤ ret.length := Nat.le_of_lt (List.getElem?_eq_some_iff.mp found).1
    by_cases step : cur.timePerPoint = 0
    · rw [writeArchiveInfos, step]
      exact .bind ((divide32_zero _).weaken (fun _ _ => id) fun _ _ stop => stop.1) nofun
    · refine .after (divide32_yields _ step) (.after (whisperGetArchiveOffset_yields before
        inside) (.after (write_end_yields opened _) ?_))
      simp only [ArchiveInfo.bytes_length, whisperArchiveSize, Nat.lt_irrefl, if_false]
      refine ih (positive_next before found step) suffix' ?_ (appended opened _)
      obtain ⟨r, member, none⟩ := zero
      rcases List.mem_cons.mp member with rfl | later
      · contradiction
      · exact ⟨r, later, none⟩

theorem writeNewFile_zeroStep (zero : ∃ cur ∈ ret, cur.timePerPoint = 0)
    (opened : Opened w fd path [] 0) :
    Ends w (writeNewFile (some fd) ret agg) (fun _ _ => False) (fun e _ => e = .divideByZero) := by
  have header := write_end_yields opened (htonWhisperMetadata (newMetadata ret agg)).bytes
  refine .after header ?_
  simp only [Metadata.bytes_length, whisperHeaderSize, Nat.lt_irrefl, if_false]
  refine .bind (writeArchiveInfos_zeroStep ?_ List.drop_zero zero (appended opened _)) ?_
  · intro r member
    contradiction
  · intro _ _ never
    contradiction

theorem emptyWorld_absent : Absent path emptyWorld := ⟨rfl, rfl, rfl⟩

section
variable [Platform] {conf : CarbonConf}

/-! ### Runs without a fault -/

theorem Sound.never (sound : Sound (whisperFindRetention metric conf.schema)) :
    NeverDividesByZero conf metric := by
  intro w calls absent e w' stopped arithmetic
  let agg := (whisperFindAggregation metric conf.aggregation).getD ⟨[], 0, .undef⟩
  have aggregated : ∀ a, whisperFindAggregation metric conf.aggregation = some a → a = agg := by
    intro a rule
    simp only [agg, rule, Option.getD_some]
  have between : Between (whisperFindRetention metric conf.schema) agg
    (whisperMetricFilename conf.storageDir metric) w := .inl absent
  rcases (between.writeValues sound.laid rfl aggregated calls).stops e w' stopped with exits | stops
  · exact exits.harmless arithmetic
  · exact stops.flaw arithmetic ⟨sound.graded, sound.sized⟩

theorem never_refused (refused : Refused conf metric) : NeverDividesByZero conf metric := by
  intro w calls absent e w' stopped
  have run := whisperWriteValues_ends (fun _ timestamp value absent =>
    absent.writeValue_refused refused timestamp value) absent calls
  exact (run.stops e w' stopped).harmless

/-! ### Runs with a fault -/

theorem zeroStep_divides (aggregated : whisperFindAggregation metric conf.aggregation = some agg)
    (named : strtok '.' metric ≠ [])
    (zero : ∃ cur ∈ whisperFindRetention metric conf.schema, cur.timePerPoint = 0) :
    Ends emptyWorld (whisperWriteValues conf metric [(0, 0)]) (fun _ _ => False)
      (fun e _ => Arithmetic e) := by
  obtain ⟨fd, w₁, opened, _, rest⟩ := whisperCreateFile_opens aggregated
    (emptyWorld_creatable named conf.storageDir)
  have absent : Absent (whisperMetricFilename conf.storageDir metric) emptyWorld := emptyWorld_absent
  have missing := openFile_absent absent.1 absent.2.1 (.inl rfl)
  have created : Ends emptyWorld (whisperCreateFile conf metric) (fun _ _ => False)
      (fun e _ => Arithmetic e) :=
    .of_eq rest ((writeNewFile_zeroStep zero opened).weaken (fun _ _ => id) fun _ _ => .inl)
  exact .bind (.after missing (.bind created fun _ _ => False.elim)) fun _ _ => False.elim

/-- The first call at timestamp 0 propagates from every archive to the next. -/
theorem firstCall_ends (found : whisperFindRetention metric conf.schema = ret)
    (aggregated : whisperFindAggregation metric conf.aggregation = some agg)
    (named : strtok '.' metric ≠ []) (laid : Laid ret) :
    Ends emptyWorld (whisperWriteValues conf metric [(0, 0)])
      (fun _ _ => ret ≠ [] ∧ (16 + 12 * ret.length < 2 ^ 31 → ∀ j, Propagable ret j))
      (Stops ret agg) := by
  let path := whisperMetricFilename conf.storageDir metric
  obtain ⟨fd, w₁, created, opened⟩ := whisperCreateFile_yields found aggregated laid.positive
    (emptyWorld_creatable named conf.storageDir)
  have absent : Absent path emptyWorld := emptyWorld_absent
  have stable : Stable ret agg fd path w₁ := by
    have known := (absent.createFile laid found fun a rule =>
      Option.some.inj (rule.symm.trans aggregated)).returns _ _ created
    obtain ⟨none, _⟩ | ⟨n, same, stable⟩ := known
    · contradiction
    · obtain rfl := Option.some.inj same
      exact stable
  have missing := openFile_absent absent.1 absent.2.1 (.inl rfl)
  refine .bind (.after missing (.after created (stable.writeOpened laid 0 0))) ?_
  rintro _ w₂ ⟨⟨some, reached⟩, _⟩
  exact .pure ⟨some, reached rfl⟩

/-- A point written next to an empty one, in a file with one archive. -/
theorem writeOpened_yields (opened : Opened w fd path c pos) (intact : Intact [cur] agg c)
    (step : cur.timePerPoint ≠ 0) (unused : firstTimestamp c (archiveOf [cur] 0 cur) = 0)
    (value : UInt64) :
    ∃ w', Yields (whisperWriteOpened (some fd) cur.timePerPoint value) w exitSuccess w' ∧
      w'.outcomes = [] ∧ w'.nodes path = some (.file (writePoint c (archiveOf [cur] 0 cur)
        cur.timePerPoint (htonArchivePoint ⟨cur.timePerPoint, value⟩))) := by
  obtain ⟨pos₁, call⟩ := writeOpened_eq opened intact rfl step cur.timePerPoint value
  rw [UInt32.mod_self, UInt32.sub_zero] at call
  obtain ⟨w₁, wrote, opened₁⟩ : ∃ w₁, Yields (whisperWritePoint (some fd) (archiveOf [cur] 0 cur)
      cur.timePerPoint (htonArchivePoint ⟨cur.timePerPoint, value⟩)) (w.put fd path c pos₁) 0 w₁ ∧
      ∃ pos₂, Opened w₁ fd path (writePoint c (archiveOf [cur] 0 cur) cur.timePerPoint
        (htonArchivePoint ⟨cur.timePerPoint, value⟩)) pos₂ := by
    have seekable : (archiveOf [cur] 0 cur).offset.toNat < 2 ^ 31 := by
      rw [show (archiveOf [cur] 0 cur).offset = 28 from rfl]
      decide
    obtain ⟨pos₂, wrote⟩ := whisperWritePoint_yields (opened.moved c pos₁) cur.timePerPoint
      (htonArchivePoint ⟨cur.timePerPoint, value⟩) seekable (.inl unused)
    exact ⟨_, wrote, pos₂, ((opened.moved c pos₁).moved _ pos₂).withGlobals⟩
  obtain ⟨pos₂, opened₁⟩ := opened₁
  obtain ⟨descriptors, closed⟩ := close_yields opened₁.quiet (some fd)
  refine ⟨{ w₁ with descriptors := descriptors }, call.trans ?_, opened₁.quiet, opened₁.node⟩
  exact Yields.bind wrote (.bind (.pure _ _) (.bind closed (.pure _ _)))

/-- The second point of an archive of size zero. -/
theorem unsized_divides (found : whisperFindRetention metric conf.schema = [cur])
    (aggregated : whisperFindAggregation metric conf.aggregation = some agg)
    (named : strtok '.' metric ≠ []) (step : cur.timePerPoint ≠ 0)
    (unsized : pointCount cur * 12 = 0) :
    Ends emptyWorld (whisperWriteValues conf metric [(cur.timePerPoint, 0), (cur.timePerPoint, 0)])
      (fun _ _ => False) (fun e _ => Arithmetic e) := by
  let archive := archiveOf [cur] 0 cur
  have absent : Absent (whisperMetricFilename conf.storageDir metric) emptyWorld := emptyWorld_absent
  have positive : ∀ r ∈ [cur], r.timePerPoint ≠ 0 := by
    intro r member
    obtain rfl := List.mem_singleton.mp member
    exact step
  -- The first call creates the file and appends the point behind its end.
  obtain ⟨fd, w₁, created, opened⟩ := whisperCreateFile_yields found aggregated positive
    (emptyWorld_creatable named conf.storageDir)
  have length : (newContents [cur] agg).length = 28 := by
    rw [newContents_length, emptySize_cons, unsized]
    rfl
  have unused : firstTimestamp (newContents [cur] agg) archive = 0 := by
    rw [firstTimestamp, show archive.offset = 28 from rfl, pointIn_slot,
      readAt_past (by rw [length]; decide)]
    decide
  obtain ⟨w₂, first, quiet, file⟩ := writeOpened_yields opened intact_newContents step unused 0
  have missing := openFile_absent absent.1 absent.2.1 (.inl rfl)
  have begun : Yields (whisperWriteValue conf metric cur.timePerPoint 0) emptyWorld exitSuccess w₂ :=
    .bind missing (.bind created first)
  -- The second call measures its distance to that point.
  have target : targetOffset archive cur.timePerPoint 0 = 28 := targetOffset_empty _
  rw [writePoint, unused, target] at file
  obtain ⟨w₃, run, reopened, _⟩ := openFile_yields quiet file false
  have new : Intact [cur] agg (newContents [cur] agg) := intact_newContents
  have intact := new.write (List.cons_ne_nil _ _)
    (Nat.le_refl 28)
    (htonArchivePoint ⟨cur.timePerPoint, 0⟩).bytes
  obtain ⟨pos₃, call⟩ := writeOpened_eq reopened intact rfl step cur.timePerPoint 0
  rw [UInt32.mod_self, UInt32.sub_zero] at call
  have used : firstTimestamp (writeAt (newContents [cur] agg) (28 : UInt32).toNat
      (htonArchivePoint ⟨cur.timePerPoint, 0⟩).bytes) archive ≠ 0 := by
    rw [firstTimestamp, show archive.offset = 28 from rfl, pointIn_writeAt]
    exact step
  have torn := whisperWritePoint_unsized (reopened.moved _ pos₃) cur.timePerPoint
    (htonArchivePoint ⟨cur.timePerPoint, 0⟩)
    (by rw [show archive.offset = 28 from rfl]; decide) step used (congrArg UInt32.toUInt64 unsized)
  have stopped : Ends w₃ (whisperWriteOpened (some w₂.nextFd) cur.timePerPoint 0) (fun _ _ => False)
      (fun e _ => Arithmetic e) :=
    .of_eq call (.bind (torn.weaken (fun _ _ => id) fun _ _ stop => .inl stop.1) fun _ _ => False.elim)
  exact .after begun (.bind (.after run stopped) fun _ _ => False.elim)

theorem flawed_divides (flawed : Flawed ret)
    (found : whisperFindRetention metric conf.schema = ret)
    (aggregated : whisperFindAggregation metric conf.aggregation = some agg)
    (named : strtok '.' metric ≠ []) : ∃ calls, Ends emptyWorld
      (whisperWriteValues conf metric calls) (fun _ _ => False) (fun e _ => Arithmetic e) := by
  by_cases zero : ∃ cur ∈ ret, cur.timePerPoint = 0
  · exact ⟨_, zeroStep_divides aggregated named (found ▸ zero)⟩
  · have positive : ∀ cur ∈ ret, cur.timePerPoint ≠ 0 := fun cur member none =>
      zero ⟨cur, member, none⟩
    have first := firstCall_ends found aggregated named
    have short {n : ℕ} {e : Fault} (fits : 16 + 12 * n < 2 ^ 31)
        (cause : Arithmetic e ∨ e = .nullDereference ∧ 2 ^ 31 ≤ 16 + 12 * n) : Arithmetic e :=
      cause.resolve_right fun null => absurd null.2 (Nat.not_le_of_lt fits)
    cases flawed with
    | empty =>
      have laid : Laid [] := ⟨positive, nofun, by decide⟩
      exact ⟨_, (first laid).weaken (fun _ _ ends => ends.1 rfl)
        fun _ _ stops => short (by decide) stops.cause⟩
    | zeroStep member none => exact absurd none (positive _ member)
    | unpropagable i laid fits blocked =>
      exact ⟨_, (first laid).weaken (fun _ _ ends => blocked (ends.2 fits i))
        fun _ _ stops => short fits stops.cause⟩
    | unsized none =>
      exact ⟨_, unsized_divides found aggregated named (positive _ List.mem_cons_self) none⟩

end

/-- The files of a configuration, in `/etc`. -/
def etcFiles (schemas aggregation : CString) (path : CString) : Option CString :=
  if path = "/etc/carbon.conf".toList then some []
  else if path = "/etc/storage-schemas.conf".toList then some schemas
  else if path = "/etc/storage-aggregation.conf".toList then some aggregation
  else none

/-- What the default configuration becomes with these files. -/
def disordered : CarbonConf :=
  { Conf.defaultConf "/etc".toList "/var".toList with
    schema := [⟨".*".toList, some "60s:120s,10s:60s".toList, [⟨60, 120⟩, ⟨10, 60⟩]⟩]
    aggregation := [⟨".*".toList, 0, .average⟩] }

end Carbond.Whisper
