import Carbond.Posix.Faults
import Carbond.Whisper.CreateProofs
import Carbond.Whisper.Write

/-! What `whisper_create_file` leaves behind when it gives up in the middle: the file as far as it
was written. -/
namespace Carbond.Whisper
open Bytes Posix Text
variable {w : World Globals} {ret rest : List Retention} {agg : PatternAggregation}
variable {outcomes : List Outcome} {fd : ℕ} {path : Path} {c : List UInt8}

/-- The write fails, or puts less than its data. -/
def FallsShort (outcome : Outcome) (size : ℕ) : Prop := outcome.moves size ≠ some size

/-- The write puts less than its data, and does not fail. -/
def CutShort (outcome : Outcome) (size : ℕ) : Prop := ¬ outcome.Fails ∧ FallsShort outcome size

/-- The write of an archive info falls short, and no division by zero comes before it. -/
def InfoCut (rest : List Retention) (outcomes : List Outcome) : Prop :=
  ∃ k < rest.length, FallsShort (upcoming (outcomes.drop k)) whisperArchiveSize ∧
    ∀ cur ∈ rest.take (k + 1), cur.timePerPoint ≠ 0

/-- The write of the empty points of an archive is cut short. -/
def PointsCut (rest : List Retention) (outcomes : List Outcome) : Prop :=
  ∃ k cur, rest[k]? = some cur ∧
    CutShort (upcoming (outcomes.drop k)) (pointCount cur * 12).toNat

/-- One of the writes of a new file falls short and is noticed: the one of the header, one of an
archive info, or one of empty points. -/
def Noticed (ret : List Retention) (outcomes : List Outcome) : Prop :=
  FallsShort (upcoming outcomes) whisperHeaderSize ∨ InfoCut ret outcomes.tail ∨
    (∀ cur ∈ ret, cur.timePerPoint ≠ 0) ∧ PointsCut ret (outcomes.tail.drop ret.length)

instance : Decidable (FallsShort outcome size) :=
  inferInstanceAs (Decidable (outcome.moves size ≠ some size))

/-! ### One write more -/

theorem fails_fallsShort {outcome : Outcome} (fails : outcome.Fails) :
    FallsShort outcome size := by
  rw [FallsShort, Outcome.moves_eq_none.mpr fails]
  exact (Option.some_ne_none _).symm

theorem infoCut_cons : InfoCut (cur :: rest) outcomes ↔ cur.timePerPoint ≠ 0 ∧
    (FallsShort (upcoming outcomes) whisperArchiveSize ∨ InfoCut rest outcomes.tail) := by
  constructor
  · rintro ⟨k, inside, short, before⟩
    rw [List.take_succ_cons] at before
    refine ⟨before cur List.mem_cons_self, ?_⟩
    cases k with
    | zero => exact .inl short
    | succ k =>
      rw [← List.drop_tail] at short
      refine .inr ⟨k, Nat.lt_of_succ_lt_succ inside, short, ?_⟩
      exact fun r member => before r (List.mem_cons_of_mem _ member)
  · rintro ⟨step, short | ⟨k, inside, short, before⟩⟩
    · refine ⟨0, Nat.zero_lt_succ _, short, ?_⟩
      rintro r member
      obtain rfl := List.mem_singleton.mp member
      exact step
    · rw [List.drop_tail] at short
      refine ⟨k + 1, Nat.succ_lt_succ inside, short, ?_⟩
      rw [List.take_succ_cons]
      rintro r member
      rcases List.mem_cons.mp member with rfl | later
      · exact step
      · exact before r later

theorem pointsCut_cons : PointsCut (cur :: rest) outcomes ↔
    CutShort (upcoming outcomes) (pointCount cur * 12).toNat ∨ PointsCut rest outcomes.tail := by
  constructor
  · rintro ⟨k, r, found, short⟩
    cases k with
    | zero =>
      obtain rfl := Option.some.inj found
      exact .inl short
    | succ k =>
      rw [← List.drop_tail] at short
      exact .inr ⟨k, r, found, short⟩
  · rintro (short | ⟨k, r, found, short⟩)
    · exact ⟨0, cur, rfl, short⟩
    · rw [List.drop_tail] at short
      exact ⟨k + 1, r, found, short⟩

/-- What a write at the end of the file puts, it appends. -/
theorem appends (holding : Holding w outcomes fd path c c.length) (data : List UInt8)
    {fault : Fault → World Globals → Prop} :
    Ends w (write (some fd) data)
      (fun r w' => (upcoming outcomes).Fails ∧ (∃ e, r = .error e) ∧
          Holding w' outcomes.tail fd path c c.length ∨
        ∃ n c', (upcoming outcomes).moves data.length = some n ∧ r = .ok n ∧
          c'.length = c.length + n ∧ Holding w' outcomes.tail fd path c' c'.length) fault := by
  refine (holding.write data).weaken ?_ fun _ _ stop => stop
  rintro r w' (failed | ⟨n, moved, rfl, there⟩)
  · exact .inl failed
  · have short := Outcome.moves_le moved
    rw [writeAt_end] at there
    have length : (c ++ data.take n).length = c.length + n := by
      rw [List.length_append, List.length_take]
      omega
    exact .inr ⟨n, _, moved, rfl, length, length ▸ there⟩

/-! ### The writes of a new file -/

/-- The induction is on the infos left to write. -/
theorem writeArchiveInfos_ends (before : ∀ cur ∈ ret.take idRet, cur.timePerPoint ≠ 0)
    (suffix : ret.drop idRet = rest) (holding : Holding w outcomes fd path c c.length) :
    Ends w (writeArchiveInfos (some fd) ret rest idRet)
      (fun whole w' =>
        whole = true ∧ ¬ InfoCut rest outcomes ∧ (∀ cur ∈ rest, cur.timePerPoint ≠ 0) ∧
          (∃ c', c'.length = c.length + 12 * rest.length ∧
            Holding w' (outcomes.drop rest.length) fd path c' c'.length) ∨
        whole = false ∧ InfoCut rest outcomes ∧ ∃ c', c'.length < c.length + 12 * rest.length ∧
          w'.nodes path = some (.file c'))
      (fun _ _ => ¬ InfoCut rest outcomes ∧ ∃ cur ∈ rest, cur.timePerPoint = 0) := by
  induction rest generalizing w c idRet outcomes with
  | nil =>
    refine .pure (.inl ⟨rfl, ?_, ?_, c, rfl, holding⟩)
    · rintro ⟨k, inside, _⟩
      contradiction
    · intro cur member
      contradiction
  | cons cur next ih =>
    obtain ⟨found, suffix'⟩ := retention_next suffix
    have inside : idRet ≤ ret.length := Nat.le_of_lt (List.getElem?_eq_some_iff.mp found).1
    by_cases step : cur.timePerPoint = 0
    · have uncut : ¬ InfoCut (cur :: next) outcomes := fun cut => (infoCut_cons.mp cut).1 step
      rw [writeArchiveInfos, step]
      exact .bind ((divide32_zero _).weaken (fun _ _ => id) fun _ _ _ =>
        ⟨uncut, cur, List.mem_cons_self, step⟩) fun _ _ => False.elim
    · have before' := positive_next before found step
      refine .after (divide32_yields _ step) (.after (whisperGetArchiveOffset_yields before
        inside) (.bind (appends holding _) ?_))
      rintro r w₁ (⟨fails, ⟨e, rfl⟩, there⟩ | ⟨n, c', moved, rfl, length, there⟩)
      · have short : InfoCut (cur :: next) outcomes :=
          infoCut_cons.mpr ⟨step, .inl (fails_fallsShort fails)⟩
        refine .pure (.inr ⟨rfl, short, c, ?_, there.node⟩)
        simp only [List.length_cons]
        omega
      · rw [ArchiveInfo.bytes_length] at moved
        dsimp only
        split
        case isTrue less =>
          have short : FallsShort (upcoming outcomes) whisperArchiveSize :=
            Outcome.moves_short moved less
          refine .pure (.inr ⟨rfl, infoCut_cons.mpr ⟨step, .inl short⟩, c', ?_, there.node⟩)
          simp only [whisperArchiveSize] at less
          simp only [List.length_cons]
          omega
        case isFalse enough =>
          obtain rfl : n = whisperArchiveSize := Outcome.moves_whole moved enough
          have whole : ¬ FallsShort (upcoming outcomes) whisperArchiveSize := not_not.mpr moved
          refine (ih before' suffix' there).weaken ?_ ?_
          · rintro result w₂ (⟨rfl, uncut, steps, c'', length', there'⟩ |
              ⟨rfl, cut, c'', length', node⟩)
            · refine .inl ⟨rfl, ?_, List.forall_mem_cons.mpr ⟨step, steps⟩, c'', ?_, ?_⟩
              · intro cut
                exact (infoCut_cons.mp cut).2.elim whole uncut
              · simp only [List.length_cons, whisperArchiveSize] at length ⊢
                omega
              · rwa [List.drop_tail] at there'
            · refine .inr ⟨rfl, infoCut_cons.mpr ⟨step, .inr cut⟩, c'', ?_, node⟩
              simp only [List.length_cons, whisperArchiveSize] at length ⊢
              omega
          · rintro e w₂ ⟨uncut, r, member, zero⟩
            refine ⟨fun cut => (infoCut_cons.mp cut).2.elim whole uncut, r, ?_, zero⟩
            exact List.mem_cons_of_mem _ member

/-- A failing write is taken for a whole one. -/
theorem writeEmptyArchives_ends (positive : ∀ cur ∈ rest, cur.timePerPoint ≠ 0)
    (holding : Holding w outcomes fd path c c.length) :
    Ends w (writeEmptyArchives (some fd) rest)
      (fun whole w' => whole = true ∧ ¬ PointsCut rest outcomes ∨
        whole = false ∧ PointsCut rest outcomes ∧ ∃ c', c'.length < c.length + emptySize rest ∧
          w'.nodes path = some (.file c'))
      (fun _ _ => False) := by
  induction rest generalizing w c outcomes with
  | nil =>
    refine .pure (.inl ⟨rfl, ?_⟩)
    rintro ⟨k, cur, found, _⟩
    contradiction
  | cons cur next ih =>
    obtain ⟨step, positive⟩ := List.forall_mem_cons.mp positive
    have further {outcomes : List Outcome} {w : World Globals} {c c' : List UInt8} {n : ℕ}
        (uncut : ¬ CutShort (upcoming outcomes) (pointCount cur * 12).toNat)
        (length : c'.length = c.length + n) (most : n ≤ (pointCount cur * 12).toNat)
        (there : Holding w outcomes.tail fd path c' c'.length) :
        Ends w (writeEmptyArchives (some fd) next)
          (fun whole w' => whole = true ∧ ¬ PointsCut (cur :: next) outcomes ∨
            whole = false ∧ PointsCut (cur :: next) outcomes ∧
              ∃ c'', c''.length < c.length + emptySize (cur :: next) ∧
                w'.nodes path = some (.file c'')) (fun _ _ => False) := by
      refine (ih positive there).weaken ?_ fun _ _ => id
      rintro whole w₂ (⟨rfl, rest⟩ | ⟨rfl, cut, c'', length', node⟩)
      · exact .inl ⟨rfl, fun cut => (pointsCut_cons.mp cut).elim uncut rest⟩
      · refine .inr ⟨rfl, pointsCut_cons.mpr (.inr cut), c'', ?_, node⟩
        rw [emptySize_cons]
        omega
    refine .after (divide32_yields _ step) (.bind (appends holding _) ?_)
    rintro r w₁ (⟨fails, ⟨e, rfl⟩, there⟩ | ⟨n, c', moved, rfl, length, there⟩)
    · exact further (fun cut => cut.1 fails) (Nat.add_zero _).symm (Nat.zero_le _) there
    · rw [List.length_replicate] at moved
      have most := Outcome.moves_le moved
      have succeeds := Outcome.not_fails moved
      dsimp only
      split
      case isTrue less =>
        have short : CutShort (upcoming outcomes) (pointCount cur * 12).toNat :=
          ⟨succeeds, Outcome.moves_short moved less⟩
        refine .pure (.inr ⟨rfl, pointsCut_cons.mpr (.inl short), c', ?_, there.node⟩)
        have least : n < (pointCount cur * 12).toNat := less
        rw [emptySize_cons]
        omega
      case isFalse enough =>
        refine further (fun cut => cut.2 ?_) length most there
        have same : n = (pointCount cur * 12).toNat := Outcome.moves_whole moved enough
        exact same ▸ moved

/-- The file is given up exactly where a short write is noticed, and is too short then. -/
theorem writeNewFile_ends (holding : Holding w outcomes fd path [] 0) :
    Ends w (writeNewFile (some fd) ret agg)
      (fun r w' => r = some fd ∧ ¬ Noticed ret outcomes ∨ r = none ∧ Noticed ret outcomes ∧
        ∃ c', c'.length < (newContents ret agg).length ∧ w'.nodes path = some (.file c'))
      (fun _ _ => ¬ Noticed ret outcomes) := by
  rw [newContents_length]
  refine .bind (appends holding _) ?_
  rintro r w₁ (⟨fails, ⟨e, rfl⟩, there⟩ | ⟨n, c', moved, rfl, length, there⟩)
  · refine .pure (.inr ⟨rfl, .inl (fails_fallsShort fails), [], ?_, there.node⟩)
    simp only [List.length_nil]
    omega
  · rw [Metadata.bytes_length] at moved
    rw [List.length_nil, Nat.zero_add] at length
    dsimp only
    split
    case isTrue less =>
      have short : FallsShort (upcoming outcomes) whisperHeaderSize :=
        Outcome.moves_short moved less
      simp only [whisperHeaderSize] at less
      exact .pure (.inr ⟨rfl, .inl short, c', by omega, there.node⟩)
    case isFalse enough =>
      obtain rfl : n = whisperHeaderSize := Outcome.moves_whole moved enough
      have whole : ¬ FallsShort (upcoming outcomes) whisperHeaderSize := not_not.mpr moved
      simp only [whisperHeaderSize] at length
      have infos := writeArchiveInfos_ends (fun _ none => by contradiction)
        (show ret.drop 0 = ret from List.drop_zero) there
      refine .bind (infos.weaken (fun _ _ ended => ended) ?_) ?_
      · rintro e w₂ ⟨uncut, cur, member, zero⟩ (short | cut | ⟨positive, _⟩)
        · exact whole short
        · exact uncut cut
        · exact positive cur member zero
      · rintro _ w₂ (⟨rfl, uncut, positive, c'', length', there'⟩ | ⟨rfl, cut, c'', length', node⟩)
        · refine .bind ((writeEmptyArchives_ends positive there').weaken (fun _ _ ended => ended)
            fun _ _ => False.elim) ?_
          rintro _ w₃ (⟨rfl, pointsUncut⟩ | ⟨rfl, cut, c₃, length₃, node⟩)
          · refine .pure (.inl ⟨rfl, ?_⟩)
            rintro (short | cut | ⟨_, cut⟩)
            · exact whole short
            · exact uncut cut
            · exact pointsUncut cut
          · exact .pure (.inr ⟨rfl, .inr (.inr ⟨positive, cut⟩), c₃, by omega, node⟩)
        · exact .pure (.inr ⟨rfl, .inr (.inl cut), c'', by omega, node⟩)

/-! ### The whole creation -/

/-- Directories take the place of no file. -/
theorem createDir_sameFiles (dirName : Path) (w : World Globals) :
    Ends w (createDir dirName) (fun _ w' => SameFiles w w') (fun _ _ => True) := by
  refine .bind (stat_ends dirName w) fun answer w₁ same => ?_
  have kept : SameFiles w w₁ := .of_nodes same
  cases answer with
  | ok isDir =>
    dsimp only
    split
    · exact .throw trivial
    · exact .pure kept
  | error errno =>
    cases errno with
    | enoent => exact .bind (mkdir_ends dirName w₁) fun _ _ made => .pure (kept.trans made)
    | ebadf => exact .throw trivial
    | einval => exact .throw trivial
    | eisdir => exact .throw trivial
    | other code => exact .throw trivial

theorem createDirs_sameFiles (dirs : List Path) (w : World Globals) :
    Ends w (createDirs dirs) (fun _ w' => SameFiles w w') (fun _ _ => True) := by
  induction dirs generalizing w with
  | nil => exact .pure (.of_nodes rfl)
  | cons dir rest ih =>
    refine .bind (createDir_sameFiles dir w) fun _ w₁ made => ?_
    exact (ih w₁).weaken (fun _ _ more => made.trans more) fun _ _ _ => trivial

variable [Platform] {conf : CarbonConf} {metric : CString}

/-- `whisper_create_file` up to its first write: the file opened, and the rule for it. -/
def openNewFile (conf : CarbonConf) (metric : CString) : Action (Option (ℕ × PatternAggregation)) := do
  whisperCreateDirs conf.storageDir metric
  match whisperFindAggregation metric conf.aggregation with
  | none => return none
  | some agg =>
    match ← openFile (whisperMetricFilename conf.storageDir metric) true with
    | .error _ => return none
    | .ok fd => return some (fd, agg)

theorem whisperCreateFile_eq (conf : CarbonConf) (metric : CString) :
    whisperCreateFile conf metric = (do
      match ← openNewFile conf metric with
      | none => return none
      | some (fd, agg) =>
        writeNewFile (some fd) (whisperFindRetention metric conf.schema) agg) := by
  rw [whisperCreateFile, openNewFile, bind_assoc]
  congr 1
  funext _
  cases whisperFindAggregation metric conf.aggregation with
  | none => rfl
  | some agg =>
    simp only [bind_assoc]
    congr 1
    funext opened
    cases opened with
    | error e => rfl
    | ok fd => rfl

/-- No regular file has this name. -/
def NoFile (w : World Globals) (path : Path) : Prop := ∀ c, w.nodes path ≠ some (.file c)

/-- A file that was there is opened as it is. -/
theorem openNewFile_ends (conf : CarbonConf) (metric : CString) (w : World Globals) :
    Ends w (openNewFile conf metric)
      (fun r w' => r = none ∧ SameFiles w w' ∨
        ∃ fd agg c, r = some (fd, agg) ∧
          whisperFindAggregation metric conf.aggregation = some agg ∧
          Holding w' w'.outcomes fd (whisperMetricFilename conf.storageDir metric) c 0 ∧
          (w.nodes (whisperMetricFilename conf.storageDir metric) = some (.file c) ∨ c = []))
      (fun _ _ => True) := by
  refine .bind (createDirs_sameFiles _ w) fun _ w₁ same => ?_
  cases ruled : whisperFindAggregation metric conf.aggregation with
  | none => exact .pure (.inl ⟨rfl, same⟩)
  | some agg =>
    refine .bind (openFile_ends _ true w₁) ?_
    rintro r w₂ (⟨e, rfl, same₂, _⟩ | ⟨fd, c, rfl, holding, old | ⟨_, _, rfl⟩⟩)
    · exact .pure (.inl ⟨rfl, same.trans same₂⟩)
    · exact .pure (.inr ⟨fd, agg, c, rfl, rfl, holding.schedule ▸ holding, .inl ((same _ c).mp old)⟩)
    · exact .pure (.inr ⟨fd, agg, [], rfl, rfl, holding.schedule ▸ holding, .inr rfl⟩)

/-- Where no file was, the file opened is empty. -/
theorem openNewFile_fresh (absent : NoFile w (whisperMetricFilename conf.storageDir metric)) :
    Ends w (openNewFile conf metric)
      (fun r w' => r = none ∧ NoFile w' (whisperMetricFilename conf.storageDir metric) ∨
        ∃ fd agg, r = some (fd, agg) ∧
          whisperFindAggregation metric conf.aggregation = some agg ∧
          Holding w' w'.outcomes fd (whisperMetricFilename conf.storageDir metric) [] 0)
      (fun _ _ => True) := by
  refine (openNewFile_ends conf metric w).imply ?_
  rintro r w' (⟨rfl, same⟩ | ⟨fd, agg, c, rfl, ruled, holding, old | rfl⟩)
  · exact .inl ⟨rfl, fun c stored => absent c ((same _ c).mp stored)⟩
  · exact absurd old (absent c)
  · exact .inr ⟨fd, agg, rfl, ruled, holding⟩

/-- Where `whisper_create_file` returns -1, there is no file or a whole one. -/
def AllOrNothing (conf : CarbonConf) (metric : CString) (w : World Globals) : Prop :=
  ∀ w', Yields (whisperCreateFile conf metric) w none w' → ∀ c,
    w'.nodes (whisperMetricFilename conf.storageDir metric) = some (.file c) →
    ∃ agg, whisperFindAggregation metric conf.aggregation = some agg ∧
      newContents (whisperFindRetention metric conf.schema) agg <+: c

/-- The file is opened, and with the outcomes then in store a short write is noticed. -/
def Truncates (conf : CarbonConf) (metric : CString) (w : World Globals) : Prop :=
  ∃ fd agg w', Yields (openNewFile conf metric) w (some (fd, agg)) w' ∧
    Noticed (whisperFindRetention metric conf.schema) w'.outcomes

theorem Truncates.not_allOrNothing
    (absent : NoFile w (whisperMetricFilename conf.storageDir metric))
    (truncates : Truncates conf metric w) : ¬ AllOrNothing conf metric w := by
  obtain ⟨fd, agg, w₁, opened, noticed⟩ := truncates
  obtain ⟨closed, _⟩ | ⟨fd', agg', same, ruled, holding⟩ :=
    (openNewFile_fresh absent).returns _ _ opened
  · contradiction
  · obtain ⟨rfl, rfl⟩ := Prod.mk.inj (Option.some.inj same)
    have writes : Ends w₁ (writeNewFile (some fd) (whisperFindRetention metric conf.schema) agg)
        _ _ := writeNewFile_ends holding
    obtain ⟨r, w₂, run, ended⟩ := (writes.weaken (fun _ _ ended => ended)
      fun _ _ uncut => uncut noticed).returns_of_not_stops
    obtain ⟨_, uncut⟩ | ⟨rfl, _, c, short, node⟩ := ended
    · exact absurd noticed uncut
    · intro whole
      have created : Yields (whisperCreateFile conf metric) w none w₂ := by
        rw [whisperCreateFile_eq]
        exact .bind opened run
      obtain ⟨agg', ruled', front⟩ := whole w₂ created c node
      obtain rfl := Option.some.inj (ruled.symm.trans ruled')
      exact Nat.not_lt.mpr front.length_le short

/-- Without such a write, no file is left where -1 is returned. -/
theorem whisperCreateFile_gone
    (absent : NoFile w (whisperMetricFilename conf.storageDir metric))
    (never : ¬ Truncates conf metric w) :
    Ends w (whisperCreateFile conf metric) (fun r w' => r = none →
      NoFile w' (whisperMetricFilename conf.storageDir metric)) (fun _ _ => True) := by
  rw [whisperCreateFile_eq]
  refine .bind (openNewFile_fresh absent).traced ?_
  rintro _ w₁ ⟨opened, ⟨rfl, absent₁⟩ | ⟨fd, agg, rfl, _, holding⟩⟩
  · exact .pure fun _ => absent₁
  · refine (writeNewFile_ends holding).weaken ?_ fun _ _ _ => trivial
    rintro _ w₂ (⟨rfl, _⟩ | ⟨rfl, noticed, _⟩)
    · exact fun none => absurd none (Option.some_ne_none fd)
    · exact absurd ⟨fd, agg, w₁, opened, noticed⟩ never

/-- Creation is all or nothing exactly for the schedules on which no short write is noticed. -/
theorem allOrNothing_iff (conf : CarbonConf) (metric : CString) (w : World Globals)
    (absent : NoFile w (whisperMetricFilename conf.storageDir metric)) :
    AllOrNothing conf metric w ↔ ¬ Truncates conf metric w := by
  constructor
  · intro whole truncates
    exact truncates.not_allOrNothing absent whole
  · intro never w' created c node
    exact absurd node ((whisperCreateFile_gone absent never).returns _ _ created rfl c)

omit [Platform]

/-! ### Disks that fill up -/

/-- An empty disk, and what the kernel does with the calls to come. -/
def diskWith (outcomes : List Outcome) : World Globals := { emptyWorld with outcomes := outcomes }

theorem diskWith_absent (outcomes : List Outcome) (path : Path) : NoFile (diskWith outcomes) path :=
  fun _ stored => nomatch stored

/-- The outcomes that a program leaves in store. -/
def outcomesAfter (program : Action α) (w : World Globals) : List Outcome :=
  match program w with
  | .ok _ w' => w'.outcomes
  | .error _ w' => w'.outcomes

theorem outcomesAfter_of_yields {program : Action α} {a : α} {w' : World Globals}
    (run : Yields program w a w') : outcomesAfter program w = w'.outcomes := by
  simp only [Yields] at run
  simp only [outcomesAfter, run]

theorem truncates_of [Platform] (opened : resultOf (openNewFile conf metric) w = some (some (fd, agg)))
    (noticed : Noticed (whisperFindRetention metric conf.schema)
      (outcomesAfter (openNewFile conf metric) w)) : Truncates conf metric w := by
  obtain ⟨w', run⟩ := Yields.of_resultOf opened
  rw [outcomesAfter_of_yields run] at noticed
  exact ⟨fd, agg, w', run, noticed⟩

theorem not_truncates_of [Platform] (unnoticed : ¬ Noticed (whisperFindRetention metric conf.schema)
    (outcomesAfter (openNewFile conf metric) w)) : ¬ Truncates conf metric w := by
  rintro ⟨fd, agg, w', run, noticed⟩
  rw [outcomesAfter_of_yields run] at unnoticed
  exact unnoticed noticed

/-- Where every write succeeds, none falls short. -/
theorem not_noticed_nil : ¬ Noticed ret [] := by
  rintro (short | ⟨k, _, short, _⟩ | ⟨_, k, cur, _, _, short⟩)
  · exact short rfl
  · rw [List.tail_nil, List.drop_nil] at short
    exact short rfl
  · rw [List.tail_nil, List.drop_nil, List.drop_nil] at short
    exact short rfl

/-- A disk with room, and one that is full in the middle of the empty points. -/
theorem allOrNothing_iff_witness :
    @AllOrNothing matchesAll (soleRule [⟨1, 2⟩] ⟨[], 0, .average⟩) "a".toList (diskWith []) ∧
    ¬ @AllOrNothing matchesAll (soleRule [⟨1, 2⟩] ⟨[], 0, .average⟩) "a".toList
      (diskWith [.ok, .ok, .ok, .ok, .ok, .short 12]) := by
  have left : outcomesAfter (@openNewFile matchesAll (soleRule [⟨1, 2⟩] ⟨[], 0, .average⟩) "a".toList)
      (diskWith []) = [] := by
    decide +kernel
  have left' : outcomesAfter (@openNewFile matchesAll (soleRule [⟨1, 2⟩] ⟨[], 0, .average⟩) "a".toList)
      (diskWith [.ok, .ok, .ok, .ok, .ok, .short 12]) = [.ok, .ok, .short 12] := by
    decide +kernel
  constructor
  · refine (@allOrNothing_iff matchesAll _ _ _ (diskWith_absent _ _)).mpr ?_
    apply @not_truncates_of _ _ _ matchesAll
    rw [left]
    exact not_noticed_nil
  · refine fun whole => (@allOrNothing_iff matchesAll _ _ _ (diskWith_absent _ _)).mp whole ?_
    refine @truncates_of _ ⟨[], 0, .average⟩ 0 _ _ matchesAll (by decide +kernel) ?_
    rw [left']
    exact .inr (.inr ⟨by decide, 0, ⟨1, 2⟩, rfl, by decide, by decide⟩)

/-- The info of the only archive is cut after its offset. The file stays, and the next value for the
metric is divided by the seconds per point that are missing. -/
theorem short_write_truncates :
    resultOf (@whisperCreateFile matchesAll (soleRule [⟨1, 2⟩] ⟨[], 0, .average⟩) "a".toList)
      (diskWith [.ok, .ok, .ok, .ok, .short 4]) = some none ∧
    ¬ @AllOrNothing matchesAll (soleRule [⟨1, 2⟩] ⟨[], 0, .average⟩) "a".toList
      (diskWith [.ok, .ok, .ok, .ok, .short 4]) ∧
    faultOf (do
      let _ ← @whisperCreateFile matchesAll (soleRule [⟨1, 2⟩] ⟨[], 0, .average⟩) "a".toList
      @whisperWriteValue matchesAll (soleRule [⟨1, 2⟩] ⟨[], 0, .average⟩) "a".toList 1 1)
      (diskWith [.ok, .ok, .ok, .ok, .short 4]) = some .divideByZero := by
  have left : outcomesAfter (@openNewFile matchesAll (soleRule [⟨1, 2⟩] ⟨[], 0, .average⟩) "a".toList)
      (diskWith [.ok, .ok, .ok, .ok, .short 4]) = [.ok, .short 4] := by
    decide +kernel
  refine ⟨by decide +kernel, ?_, by decide +kernel⟩
  apply @Truncates.not_allOrNothing _ matchesAll _ _ (diskWith_absent _ _)
  refine @truncates_of _ ⟨[], 0, .average⟩ 0 _ _ matchesAll (by decide +kernel) ?_
  rw [left]
  exact .inr (.inl ⟨0, by decide, by decide, by decide⟩)

end Carbond.Whisper
