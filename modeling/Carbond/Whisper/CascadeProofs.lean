import Carbond.Whisper.Cascade
import Carbond.Whisper.RunProofs
import Mathlib.Data.List.Infix

/-! The loop over the lower archives ends at the first one that does not divide the timestamp. It
skips none that does, unless a propagation from an archive without points ends the daemon. -/
namespace Carbond.Whisper
open Bytes Posix Text
variable {w : World Globals} {c c' : List UInt8} {fd i k remaining : ℕ} {path : Path}
variable {alignedTimestamp : UInt32} {notes log : List Propagation}

/-- The archive has a size, in 32 bits. -/
abbrev HasPoints (c : List UInt8) (k : ℕ) : Prop := (archiveInfoIn c k).points * 12 ≠ 0

/-- The info of an archive is within what the int offset of the source reaches. -/
abbrev InfoInReach (k : ℕ) : Prop := 16 + 12 * k < 2 ^ 31

/-- From this archive on, each one that two dividing archives follow has points. -/
def NeededFrom (c : List UInt8) (alignedTimestamp : UInt32) (i : ℕ) : Prop :=
  ∀ k, i ≤ k → k + 1 < archivesOf c → Divides c alignedTimestamp (k + 1) →
    InfoInReach (k + 1) ∧
      (k + 2 < archivesOf c → Divides c alignedTimestamp (k + 2) → HasPoints c k)

/-- And so has each one behind this archive that a dividing archive follows. -/
def CarriedFrom (c : List UInt8) (alignedTimestamp : UInt32) (i : ℕ) : Prop :=
  NeededFrom c alignedTimestamp i ∧
    ∀ k, i < k → k + 1 < archivesOf c → Divides c alignedTimestamp (k + 1) → HasPoints c k

/-- The write into an archive of size zero divides by zero. -/
def Blocked (c : List UInt8) (archive : ArchiveInfo) : Prop :=
  archive.offset.toNat < 2 ^ 31 ∧ archive.points * 12 = 0 ∧ firstTimestamp c archive ≠ 0

/-- What a run of the loop from this archive on has noted, next to what it should note. -/
structure Told (c : List UInt8) (alignedTimestamp : UInt32) (i : ℕ)
    (expected log : List Propagation) : Prop where
  sound : log <+: expected
  complete : CarriedFrom c alignedTimestamp i → log = expected
  needed : log = expected → NeededFrom c alignedTimestamp i

/-! ### What the loop tells -/

namespace Told

/-- Nothing is left to note. -/
theorem last (chained : Chained c) (counted : i + 1 + remaining = archivesOf c)
    (stops : 0 < remaining → ¬ Divides c alignedTimestamp (i + 1)) :
    Told c alignedTimestamp i (notes ++ scan c alignedTimestamp (i + 1) remaining) notes := by
  rw [chained.scan_nil (by omega) stops, List.append_nil]
  refine ⟨List.prefix_rfl, fun _ => rfl, fun _ k low high divides => ?_⟩
  exact absurd (chained.divides_of_le divides (by omega) high) (stops (by omega))

/-- The run ends before it notes the next archive. -/
theorem cut (divides : Divides c alignedTimestamp (i + 1))
    (flaw : ¬ CarriedFrom c alignedTimestamp i) :
    Told c alignedTimestamp i (notes ++ scan c alignedTimestamp (i + 1) (remaining + 1)) notes := by
  refine ⟨List.prefix_append _ _, fun carried => absurd carried flaw, fun full => ?_⟩
  rw [scan_succ divides, List.self_eq_append_right] at full
  contradiction

/-- The run ends in the propagation it noted last. -/
theorem died (chained : Chained c) (counted : i + 1 + (remaining + 1) = archivesOf c)
    (divides : Divides c alignedTimestamp (i + 1)) (reach : InfoInReach (i + 1))
    (flaw : ¬ HasPoints c i ∨ ¬ HasPoints c (i + 1)) :
    Told c alignedTimestamp i (notes ++ scan c alignedTimestamp (i + 1) (remaining + 1))
      (notes ++ [propagationTo c alignedTimestamp (i + 1)]) := by
  rw [scan_succ divides]
  by_cases more : 0 < remaining ∧ Divides c alignedTimestamp (i + 2)
  · have rest : scan c alignedTimestamp (i + 2) remaining ≠ [] := by
      intro none
      exact (scan_eq_nil_iff chained (by omega)).mp none more.1 more.2
    refine ⟨(List.prefix_append_right_inj notes).mpr (List.prefix_append [_] _), ?_, fun full => ?_⟩
    · intro carried
      have here := (carried.1 i (Nat.le_refl i) (by omega) divides).2 (by omega) more.2
      have next := carried.2 (i + 1) (Nat.lt_succ_self i) (by omega) more.2
      exact absurd flaw (not_or.mpr ⟨not_not.mpr here, not_not.mpr next⟩)
    · exact absurd (List.cons.inj (List.append_cancel_left full)).2.symm rest
  · have stops : 0 < remaining → ¬ Divides c alignedTimestamp (i + 2) :=
      fun some divides => more ⟨some, divides⟩
    rw [show scan c alignedTimestamp (i + 1 + 1) remaining = [] from
      chained.scan_nil (by omega) stops]
    refine ⟨List.prefix_rfl, fun _ => rfl, fun _ k low high dividing => ?_⟩
    by_cases same : k = i
    · rw [same]
      exact ⟨reach, fun inside further => absurd further (stops (by omega))⟩
    · exact absurd (chained.divides_of_le dividing (by omega) high) (stops (by omega))

/-- One more archive in front. -/
theorem step (divides : Divides c alignedTimestamp (i + 1)) (reach : InfoInReach (i + 1))
    (points : HasPoints c i)
    (told : Told c alignedTimestamp (i + 1) (notes ++ [propagationTo c alignedTimestamp (i + 1)] ++
      scan c alignedTimestamp (i + 2) remaining) log) :
    Told c alignedTimestamp i (notes ++ scan c alignedTimestamp (i + 1) (remaining + 1)) log := by
  rw [List.append_assoc, List.singleton_append, ← scan_succ divides] at told
  refine ⟨told.sound, fun carried => ?_, fun full k low high dividing => ?_⟩
  · exact told.complete ⟨fun k low => carried.1 k (by omega), fun k low => carried.2 k (by omega)⟩
  · by_cases same : k = i
    · rw [same]
      exact ⟨reach, fun _ _ => points⟩
    · exact told.needed full k (by omega) high dividing

end Told

/-! ### The file during the loop -/

/-- The file is open, with its headers as they were. -/
def Headed (c : List UInt8) (fd : ℕ) (path : Path) (w : World Globals) : Prop :=
  ∃ c' pos, Opened w fd path c' pos ∧ SameHeaders c c'

theorem archiveSize_eq_zero (k : ℕ) : archiveSize (archiveInfoIn c k) = 0 ↔ ¬ HasPoints c k :=
  ⟨fun zero some => some (UInt32.toUInt64_inj.mp zero),
    fun none => congrArg UInt32.toUInt64 (not_not.mp none)⟩

theorem Chained.coarser (chained : Chained c) (inside : i + 1 < archivesOf c) :
    nbHigherPoints (archiveInfoIn c i) (archiveInfoIn c (i + 1)) ≠ 0 := by
  intro zero
  have quotient := congrArg UInt32.toNat zero
  rw [nbHigherPoints, UInt32.toNat_div, UInt32.toNat_zero] at quotient
  have above : 0 < (archiveInfoIn c i).secondsPerPoint.toNat := Nat.pos_of_ne_zero fun none =>
    chained.positive i (by omega) (UInt32.toNat_inj.mp none)
  have below : 0 < (archiveInfoIn c (i + 1)).secondsPerPoint.toNat := Nat.pos_of_ne_zero fun none =>
    chained.positive (i + 1) inside (UInt32.toNat_inj.mp none)
  have ordered := Nat.le_of_dvd below (chained.multiple i inside)
  exact Nat.ne_of_gt (Nat.div_pos ordered above) quotient

theorem mod_eq_zero_iff {a b : UInt32} : a % b = 0 ↔ b.toNat ∣ a.toNat := by
  rw [← UInt32.toNat_inj, UInt32.toNat_mod, UInt32.toNat_zero, Nat.dvd_iff_mod_eq_zero]

theorem writePoint_ends (opened : Opened w fd path c' pos) (same : SameHeaders c c')
    (behind : Behind c) (chained : Chained c) (inside : k < archivesOf c) (timestamp : UInt32)
    (point : ArchivePoint) :
    Ends w (whisperWritePoint (some fd) (archiveInfoIn c k) timestamp point)
      (fun _ w' => ¬ Blocked c' (archiveInfoIn c k) ∧ Headed c fd path w')
      (fun _ _ => Blocked c' (archiveInfoIn c k)) := by
  have step := chained.positive k inside
  by_cases seekable : (archiveInfoIn c k).offset.toNat < 2 ^ 31
  · by_cases sized : firstTimestamp c' (archiveInfoIn c k) = 0 ∨ HasPoints c k
    · have writable : Writable (archiveInfoIn c k) (firstTimestamp c' (archiveInfoIn c k)) :=
        sized.imp_right fun some =>
          ⟨step, fun zero => absurd some ((archiveSize_eq_zero k).mp zero)⟩
      obtain ⟨pos', run⟩ := whisperWritePoint_yields opened timestamp point seekable writable
      refine .of_yields run ⟨?_, _, pos', (opened.moved _ pos').withGlobals,
        same.writePoint behind inside sized timestamp point⟩
      rintro ⟨_, none, used⟩
      exact sized.elim used fun some => some none
    · obtain ⟨used, none⟩ := not_or.mp sized
      refine (whisperWritePoint_unsized opened timestamp point seekable step used
        ((archiveSize_eq_zero k).mpr none)).weaken (fun _ _ => False.elim) fun _ _ _ => ?_
      exact ⟨seekable, not_not.mp none, used⟩
  · refine .of_yields (whisperWritePoint_refused opened timestamp point seekable) ?_
    exact ⟨fun blocked => seekable blocked.1, c', pos, opened, same⟩

namespace Headed

/-- The first info out of reach is at a negative int. -/
theorem readArchiveInfo (headed : Headed c fd path w) (inside : i + 1 < archivesOf c)
    (near : InfoInReach i) : Ends w (whisperReadArchiveInfo (some fd) (i + 1))
      (fun info w' => info = none ∧ ¬ InfoInReach (i + 1) ∨
        info = some (archiveInfoIn c (i + 1)) ∧ InfoInReach (i + 1) ∧ Headed c fd path w')
      (fun _ _ => False) := by
  obtain ⟨c', pos, opened, same⟩ := headed
  by_cases reach : InfoInReach (i + 1)
  · have fits : whisperHeaderSize + (i + 1) * whisperArchiveSize < 2 ^ 31 := by
      simp only [whisperHeaderSize, whisperArchiveSize]
      omega
    obtain ⟨pos', read⟩ := whisperReadArchiveInfo_yields opened (i + 1) fits
    rw [same.info (i + 1) inside] at read
    exact .of_yields read (.inr ⟨rfl, reach, c', pos', opened.moved c' pos', same⟩)
  · have far : 2 ^ 31 ≤ whisperHeaderSize + (i + 1) * whisperArchiveSize := by
      simp only [whisperHeaderSize, whisperArchiveSize]
      omega
    have word : whisperHeaderSize + (i + 1) * whisperArchiveSize < 2 ^ 32 := by
      simp only [whisperHeaderSize, whisperArchiveSize]
      omega
    exact .of_yields (whisperReadArchiveInfo_negative opened far word) (.inl ⟨rfl, reach⟩)

theorem propagate [Platform] (headed : Headed c fd path w) (behind : Behind c)
    (chained : Chained c) (inside : i + 1 < archivesOf c) (timestamp : UInt32) (wspMd : Metadata) :
    Ends w (whisperWritePropagate (some fd) timestamp wspMd (archiveInfoIn c i)
      (archiveInfoIn c (i + 1))) (fun _ w' => HasPoints c i ∧ Headed c fd path w')
      (fun _ _ => ¬ HasPoints c i ∨ ¬ HasPoints c (i + 1)) := by
  rw [whisperWritePropagate_eq]
  obtain ⟨c', pos, opened, same⟩ := headed
  have collected := (Kept.of_opened opened).collect timestamp (archiveInfoIn c i)
    (archiveInfoIn c (i + 1))
  refine .bind (collected.weaken (fun _ _ found => found) ?_) ?_
  · rintro _ _ ⟨_, none | none, _⟩
    · exact absurd none (chained.positive i (by omega))
    · exact .inl ((archiveSize_eq_zero i).mp none)
  · rintro ⟨_, known⟩ w₁ ⟨rfl, _, sized, ⟨pos₁, opened₁⟩, _⟩
    have points : HasPoints c i := not_not.mp fun none => sized ((archiveSize_eq_zero i).mpr none)
    refine .after (divide32_yields _ (chained.coarser inside)) ?_
    split
    · refine .bind ((writePoint_ends opened₁ same behind chained inside _ _).weaken
        (fun _ _ written => written) fun _ _ blocked => .inr (not_not.mpr blocked.2.1)) ?_
      rintro _ w₂ ⟨_, headed⟩
      exact .pure ⟨points, headed⟩
    · exact .pure ⟨points, c', pos₁, opened₁, same⟩

/-- The induction is on the archives left to visit. -/
theorem loop [Platform] (headed : Headed c fd path w) (behind : Behind c) (chained : Chained c)
    (counted : i + 1 + remaining = archivesOf c) (near : InfoInReach i)
    (alignedTimestamp : UInt32) (wspMd : Metadata) (notes : List Propagation) :
    Ends (w, notes)
      (propagateLoopNoted (some fd) alignedTimestamp wspMd remaining (i + 1) (archiveInfoIn c i))
      (fun _ t => Told c alignedTimestamp i
        (notes ++ scan c alignedTimestamp (i + 1) remaining) t.2)
      (fun _ t => Told c alignedTimestamp i
        (notes ++ scan c alignedTimestamp (i + 1) remaining) t.2) := by
  induction remaining generalizing w i notes with
  | zero =>
    exact .pure (Told.last chained counted fun none => absurd none (Nat.lt_irrefl 0))
  | succ remaining ih =>
    have inside : i + 1 < archivesOf c := by omega
    have step := chained.positive (i + 1) inside
    have read := (headed.readArchiveInfo inside near).quietly notes
    refine .bind (read.weaken (fun _ _ found => found) fun _ _ impossible => impossible.1.elim) ?_
    rintro _ ⟨w₁, notes⟩ ⟨⟨rfl, far⟩ | ⟨rfl, reach, headed⟩, rfl⟩
    · refine .throw ?_
      by_cases divides : Divides c alignedTimestamp (i + 1)
      · refine .cut divides fun carried => ?_
        exact far (carried.1 i (Nat.le_refl i) inside divides).1
      · exact .last chained counted fun _ => divides
    · dsimp only
      rw [if_neg step]
      refine .after ((modulo32_yields alignedTimestamp step).quietly notes) ?_
      by_cases divides : Divides c alignedTimestamp (i + 1)
      · rw [if_pos (mod_eq_zero_iff.mpr divides)]
        refine .after (note_yields _ w₁ notes) ?_
        have called := (headed.propagate behind chained inside alignedTimestamp wspMd).quietly
          (notes ++ [propagationTo c alignedTimestamp (i + 1)])
        refine .bind (called.weaken (fun _ _ found => found) ?_) ?_
        · rintro _ ⟨w₂, _⟩ ⟨flaw, rfl⟩
          exact .died chained counted divides reach flaw
        · rintro _ ⟨w₂, _⟩ ⟨⟨points, headed⟩, rfl⟩
          exact (ih headed (by omega) reach _).weaken
            (fun _ _ told => told.step divides reach points)
            fun _ _ told => told.step divides reach points
      · rw [if_neg fun zero => divides (mod_eq_zero_iff.mp zero)]
        exact .pure (.last chained counted fun _ => divides)

end Headed

/-! ### The whole call -/

/-- Each archive that two dividing ones follow has points, and the point write in the first
archive goes through. -/
structure Needed (c : List UInt8) (alignedTimestamp : UInt32) : Prop where
  points : NeededFrom c alignedTimestamp 0
  unblocked : 1 < archivesOf c → Divides c alignedTimestamp 1 → ¬ Blocked c (archiveInfoIn c 0)

/-- An archive in front of the last dividing one has points, unless it is the first archive. -/
def LastHasPoints (c : List UInt8) (alignedTimestamp : UInt32) : Prop :=
  ∀ k, 0 < k → k + 1 < archivesOf c → Divides c alignedTimestamp (k + 1) → HasPoints c k

/-- The calls noted, next to the full scan. -/
structure Cascade (c : List UInt8) (timestamp : UInt32) (log : List Propagation) : Prop where
  sound : log <+: fullScan c timestamp
  needed : log = fullScan c timestamp → Needed c (alignedIn c timestamp)
  complete : Needed c (alignedIn c timestamp) → LastHasPoints c (alignedIn c timestamp) →
    log = fullScan c timestamp

theorem Cascade.single (few : archivesOf c ≤ 1) (timestamp : UInt32) : Cascade c timestamp [] := by
  have none : fullScan c timestamp = [] := by
    rw [fullScan, show archivesOf c - 1 = 0 by omega]
    rfl
  refine ⟨List.nil_prefix, fun _ => ⟨?_, ?_⟩, fun _ _ => none.symm⟩
  · intro k _ high
    omega
  · intro high
    omega

theorem Cascade.blocked (chained : Chained c) (counted : 0 + 1 + remaining = archivesOf c)
    (blocked : Blocked c (archiveInfoIn c 0)) : Cascade c timestamp [] := by
  have left : archivesOf c - 1 = remaining := by omega
  by_cases divides : 0 < remaining ∧ Divides c (alignedIn c timestamp) 1
  · have some : fullScan c timestamp ≠ [] := by
      rw [fullScan, left]
      intro none
      exact (scan_eq_nil_iff chained (by omega)).mp none divides.1 divides.2
    refine ⟨List.nil_prefix, fun full => absurd full.symm some, fun needed _ => ?_⟩
    exact absurd blocked (needed.unblocked (by omega) divides.2)
  · have stops : 0 < remaining → ¬ Divides c (alignedIn c timestamp) 1 :=
      fun more dividing => divides ⟨more, dividing⟩
    have none : fullScan c timestamp = [] := by
      rw [fullScan, left]
      exact chained.scan_nil (by omega) stops
    refine ⟨List.nil_prefix, fun _ => ⟨?_, ?_⟩, fun _ _ => none.symm⟩
    · intro k low high dividing
      exact absurd (chained.divides_of_le dividing (by omega) high) (stops (by omega))
    · intro more dividing
      exact absurd dividing (stops (by omega))

theorem Cascade.of_told
    (told : Told c (alignedIn c timestamp) 0
      ([] ++ scan c (alignedIn c timestamp) (0 + 1) (archivesOf c - 1)) log)
    (unblocked : ¬ Blocked c (archiveInfoIn c 0)) : Cascade c timestamp log := by
  rw [List.nil_append] at told
  exact ⟨told.sound, fun full => ⟨told.needed full, fun _ _ => unblocked⟩,
    fun needed last => told.complete ⟨needed.points, last⟩⟩

variable [Platform]

/-- With a single archive nothing is propagated. -/
theorem whisperWriteOpenedNoted_single (opened : Opened w fd path c pos) (few : archivesOf c ≤ 1)
    (timestamp : UInt32) (value : UInt64) :
    Ends (w, []) (whisperWriteOpenedNoted (some fd) timestamp value)
      (fun _ t => t.2 = []) (fun _ t => t.2 = []) := by
  obtain ⟨pos₁, metadata⟩ := whisperReadMetadata_yields opened
  refine .after (metadata.quietly []) ?_
  refine .bind (quietly_ends _ _ []) ?_
  rintro info ⟨w₁, _⟩ rfl
  cases info with
  | none => exact .pure rfl
  | some wspArch =>
    refine .bind (quietly_ends _ w₁ []) ?_
    rintro rest ⟨w₂, _⟩ rfl
    refine .bind (quietly_ends _ w₂ []) ?_
    rintro _ ⟨w₃, _⟩ rfl
    have left : (metadataIn c).archiveCount.toNat - 1 = 0 := Nat.sub_eq_zero_of_le few
    rw [left]
    refine .after (.pure () (w₃, [])) ?_
    refine .bind (quietly_ends _ w₃ []) ?_
    rintro _ ⟨w₄, _⟩ rfl
    exact .pure rfl

theorem whisperWriteOpenedNoted_cascade (opened : Opened w fd path c pos) (chained : Chained c)
    (behind : Behind c) (timestamp : UInt32) (value : UInt64) :
    Ends (w, []) (whisperWriteOpenedNoted (some fd) timestamp value)
      (fun _ t => Cascade c timestamp t.2) (fun _ t => Cascade c timestamp t.2) := by
  by_cases few : archivesOf c ≤ 1
  · have told (log : List Propagation) (empty : log = []) : Cascade c timestamp log :=
      empty ▸ Cascade.single few timestamp
    exact (whisperWriteOpenedNoted_single opened few timestamp value).weaken
      (fun _ t => told t.2) fun _ t => told t.2
  obtain ⟨pos₁, metadata⟩ := whisperReadMetadata_yields opened
  obtain ⟨pos₂, info⟩ := whisperReadArchiveInfo_yields (opened.moved c pos₁) 0 (by decide)
  rw [World.put_put] at info
  have there := opened.moved c pos₂
  have step := chained.positive 0 (by omega)
  have counted : 0 + 1 + (archivesOf c - 1) = archivesOf c := by omega
  refine .after (metadata.quietly []) (.after (info.quietly []) ?_)
  refine .after ((modulo32_yields timestamp step).quietly []) ?_
  have written := writePoint_ends there (.refl c) behind chained (show 0 < archivesOf c by omega)
    (alignedIn c timestamp) (htonArchivePoint ⟨alignedIn c timestamp, value⟩)
  refine .bind ((written.quietly []).weaken (fun _ _ found => found) ?_) ?_
  · rintro _ ⟨w₁, _⟩ ⟨blocked, rfl⟩
    exact Cascade.blocked chained counted blocked
  · rintro _ ⟨w₁, _⟩ ⟨⟨unblocked, headed⟩, rfl⟩
    have told := headed.loop behind chained counted (by decide) (alignedIn c timestamp)
      (metadataIn c) []
    refine .bind (told.weaken (fun _ _ told => Cascade.of_told told unblocked)
      fun _ _ told => Cascade.of_told told unblocked) ?_
    rintro _ ⟨w₂, log⟩ cascade
    have closed := quietly_ends (close (some fd)) w₂ log
    refine .bind (closed.weaken (fun _ _ kept => kept) fun _ _ kept => kept ▸ cascade) ?_
    rintro _ ⟨w₃, _⟩ rfl
    exact .pure cascade

omit [Platform]

/-! ### New files -/

variable {ret : List Retention} {agg : PatternAggregation}

theorem archivesOf_newContents (fits : ret.length < 2 ^ 32) :
    archivesOf (newContents ret agg) = ret.length := by
  rw [archivesOf, metadataIn_newContents]
  exact archiveCount_toNat fits

/-- The archive infos of a new file are those of its retentions. -/
theorem archive_newContents (fits : ret.length < 2 ^ 32)
    (inside : k < archivesOf (newContents ret agg)) :
    ∃ cur, ret[k]? = some cur ∧ archiveInfoIn (newContents ret agg) k = archiveOf ret k cur := by
  rw [archivesOf_newContents fits] at inside
  have found : ret[k]? = some ret[k] := List.getElem?_eq_getElem inside
  exact ⟨_, found, archiveInfoIn_newContents found⟩

theorem behind_newContents (laid : Laid ret) : Behind (newContents ret agg) := by
  have fits : ret.length < 2 ^ 32 := by
    have room := laid.room
    omega
  intro k inside
  obtain ⟨cur, found, info⟩ := archive_newContents fits inside
  rw [infosEnd, archivesOf_newContents fits, info]
  have offset := (laid.archive_offset found).1
  exact ⟨by omega, laid.archive_room found⟩

theorem chained_newContents (fits : ret.length < 2 ^ 32)
    (positive : ∀ cur ∈ ret, cur.timePerPoint ≠ 0)
    (multiple : ∀ i higher lower, ret[i]? = some higher → ret[i + 1]? = some lower →
      higher.timePerPoint.toNat ∣ lower.timePerPoint.toNat) : Chained (newContents ret agg) := by
  constructor
  · intro k inside
    obtain ⟨cur, found, info⟩ := archive_newContents fits inside
    rw [info]
    exact positive cur (List.mem_of_getElem? found)
  · intro k inside
    obtain ⟨higher, above, info⟩ := archive_newContents fits (Nat.lt_of_succ_lt inside)
    obtain ⟨lower, below, info'⟩ := archive_newContents fits inside
    rw [info, info']
    exact multiple k higher lower above below

/-- Retentions with points leave nothing to skip. -/
theorem needed_newContents (sized : Sized ret) (short : 16 + 12 * ret.length < 2 ^ 31)
    (alignedTimestamp : UInt32) : Needed (newContents ret agg) alignedTimestamp ∧
      LastHasPoints (newContents ret agg) alignedTimestamp := by
  have fits : ret.length < 2 ^ 32 := by omega
  have count : archivesOf (newContents ret agg) = ret.length := archivesOf_newContents fits
  have points (k : ℕ) (inside : k < archivesOf (newContents ret agg)) :
      HasPoints (newContents ret agg) k := by
    obtain ⟨cur, found, info⟩ := archive_newContents fits inside
    rw [HasPoints, info]
    exact sized cur (List.mem_of_getElem? found)
  refine ⟨⟨?_, ?_⟩, ?_⟩
  · intro k _ high _
    exact ⟨by omega, fun _ _ => points k (by omega)⟩
  · intro some _ blocked
    exact points 0 (by omega) blocked.2.1
  · intro k _ high _
    exact points k (by omega)

/-- Each resolution is a multiple of the one before it. -/
def multiples : List Retention := [⟨60, 120⟩, ⟨120, 1200⟩, ⟨240, 2400⟩]

/-- The same resolutions, where the first archive is too short for a point. -/
def pointless : List UInt8 :=
  newContents [⟨60, 30⟩, ⟨120, 1200⟩, ⟨240, 2400⟩] ⟨[], 0, .average⟩

end Carbond.Whisper
