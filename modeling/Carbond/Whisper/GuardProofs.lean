import Carbond.Whisper.CreateProofs
import Carbond.Whisper.FailureProofs
import Carbond.Whisper.FileProofs
import Carbond.Whisper.Requests

/-! The headers of a file under any schedule of outcomes, whether the calls return or stop: once
its archives lie behind them, no run of calls changes them. -/
namespace Carbond.Whisper
open Bytes Posix Text
variable {w s : World Globals} {fd : ℕ} {path : Path} {c c' : List UInt8} {holds : List UInt8 → Prop}

/-- Headers with archives behind them, below 4 GiB. -/
structure Guarded (c : List UInt8) : Prop where
  some : 0 < archivesOf c
  infos : ∀ k < archivesOf c, infosEnd c ≤ (archiveInfoIn c k).offset.toNat
  room : ∀ k < archivesOf c,
    (archiveInfoIn c k).offset.toNat + 12 * (archiveInfoIn c k).points.toNat ≤ 2 ^ 32

/-- The file has the headers it had. -/
abbrev HeadersOf (c : List UInt8) : List UInt8 → Prop := SameBelow (infosEnd c) c

theorem Guarded.of_same (guarded : Guarded c) (same : HeadersOf c c') : Guarded c' := by
  have headers : SameHeaders c c' := .below same (Nat.le_refl _)
  have count : archivesOf c' = archivesOf c := by rw [archivesOf, headers.metadata, archivesOf]
  have ends : infosEnd c' = infosEnd c := by rw [infosEnd, count, infosEnd]
  refine ⟨count ▸ guarded.some, fun k inside => ?_, fun k inside => ?_⟩
  · rw [count] at inside
    rw [ends, headers.info k inside]
    exact guarded.infos k inside
  · rw [count] at inside
    rw [headers.info k inside]
    exact guarded.room k inside

/-! ### Programs that read -/

theorem fileIs_reads :
    Reads (fun s t => s = t ∧ FileIs fd path holds s) fd fd where
  lseek offset := by
    apply Lockstep.of_keeps
    rintro w ⟨c, pos, holding, kind⟩
    refine (holding.lseek offset).imply ?_
    rintro r w' (⟨_, _, there⟩ | ⟨_, _, _, there⟩)
    · exact .of_holding there kind
    · exact .of_holding there kind
  read count := by
    apply Lockstep.of_keeps
    rintro w ⟨c, pos, holding, kind⟩
    refine (holding.read count).imply ?_
    rintro r w' (⟨_, _, there⟩ | ⟨_, _, _, there⟩)
    · exact .of_holding there kind
    · exact .of_holding there kind
  noteOverrun := by
    apply Lockstep.of_keeps
    rintro w ⟨c, pos, ⟨_, descriptor, node⟩, kind⟩
    exact .of_yields (.update _ _) ⟨c, pos, ⟨rfl, descriptor, node⟩, kind⟩

/-! ### Programs that write behind the headers -/

theorem whisperWritePoint_keeps {bound : ℕ} (behind : bound ≤ archive.offset.toNat)
    (room : archive.offset.toNat + (archive.points * 12).toNat ≤ 2 ^ 32) (timestamp : UInt32)
    (point : ArchivePoint) : Keeps (FileIs fd path (SameBelow bound c))
      (whisperWritePoint (some fd) archive timestamp point) := by
  apply (fileIs_reads.whisperSeek _).keeps.bind
  intro sought
  by_cases failed : sought ≠ exitSuccess
  · simp only [if_pos failed]
    exact .pure _
  simp only [if_neg failed]
  apply fileIs_reads.whisperReadArchivePoint.keeps.bind
  intro first
  cases first with
  | none => exact .throw _
  | some firstArchPt =>
    intro w file
    have offset : Ends w (writeOffset archive timestamp firstArchPt.timestamp)
        (fun r w' => (r = targetOffset archive timestamp firstArchPt.timestamp ∧
          (firstArchPt.timestamp = 0 ∨ archive.points * 12 ≠ 0)) ∧
          FileIs fd path (SameBelow bound c) w') (fun _ => FileIs fd path (SameBelow bound c)) := by
      have known := writeOffset_ends archive timestamp firstArchPt.timestamp w
      have kept := (writeOffset_lockstep archive timestamp firstArchPt.timestamp).keeps w file
      exact ⟨fun a t run => ⟨(known.returns a t run).1, kept.returns a t run⟩, kept.stops⟩
    apply offset.bind
    rintro _ w₁ ⟨⟨rfl, sized⟩, c₁, pos, holding, same⟩
    have after := behind.trans (le_targetOffset archive timestamp firstArchPt.timestamp sized room)
    apply (holding.lseek _).bind
    rintro _ w₂ (⟨_, ⟨e, rfl⟩, there⟩ | ⟨_, _, rfl, there⟩)
    · exact .pure (.of_holding there same)
    · apply Ends.after (.get _)
      apply (there.write _).bind
      rintro _ w₃ (⟨_, ⟨e, rfl⟩, there⟩ | ⟨n, _, rfl, there⟩)
      · exact .pure (.of_holding there same)
      · rw [Int.toNat_natCast] at there
        have written : FileIs fd path (SameBelow bound c) w₃ :=
          .of_holding there (same.trans (.writeAt c₁ _ after))
        dsimp only
        split
        · exact .pure written
        · obtain ⟨c₂, pos₂, there, same⟩ := written
          apply Ends.after (.get _)
          apply Ends.after (.update _ _)
          exact .pure ⟨c₂, pos₂, ⟨rfl, there.descriptor, there.node⟩, same⟩

/-- What is read of an archive info, whole or in part, is no archive over the headers. -/
theorem readInfo_guarded (guarded : Guarded c) (file : FileIs fd path (HeadersOf c) w)
    (inside : k < archivesOf c) :
    Ends w (whisperReadArchiveInfo (some fd) k)
      (fun info w' => (∀ archive, info = some archive → archive.secondsPerPoint ≠ 0 →
          infosEnd c ≤ archive.offset.toNat ∧
            archive.offset.toNat + (archive.points * 12).toNat ≤ 2 ^ 32) ∧
        FileIs fd path (HeadersOf c) w') (fun _ => FileIs fd path (HeadersOf c)) := by
  have kept := (fileIs_reads.whisperReadArchiveInfo k).keeps w file
  obtain ⟨c', pos, holding, same⟩ := file
  have first := guarded.infos k inside
  have last := guarded.room k inside
  have bounds : 16 + 12 * (k + 1) ≤ infosEnd c := by
    simp only [infosEnd]
    omega
  have word : whisperHeaderSize + k * whisperArchiveSize < 2 ^ 32 := by
    simp only [whisperHeaderSize, whisperArchiveSize, infosEnd] at first ⊢
    omega
  have found := readArchiveInfo_ends ⟨c', pos, holding, rfl⟩ word
  refine ⟨fun info w' run => ⟨?_, kept.returns info w' run⟩, kept.stops⟩
  intro archive read step
  obtain ⟨offset, points⟩ := (found.returns info w' run).1 archive read step
  rw [archiveInfoIn_below same bounds] at offset points
  rw [offset]
  exact ⟨first, size_le_of_points points last⟩

/-- The file is there with the headers it had. -/
def HasHeaders (path : Path) (c : List UInt8) (w : World Globals) : Prop :=
  ∃ c', w.nodes path = some (.file c') ∧ HeadersOf c c'

theorem FileIs.hasHeaders (file : FileIs fd path (HeadersOf c) w) : HasHeaders path c w := by
  obtain ⟨c', pos, holding, same⟩ := file
  exact ⟨c', holding.node, same⟩

section
variable [Platform]

theorem whisperWritePropagate_keeps {bound : ℕ} (behind : bound ≤ lower.offset.toNat)
    (room : lower.offset.toNat + (lower.points * 12).toNat ≤ 2 ^ 32) (timestamp : UInt32)
    (wspMd : Metadata) (higher : ArchiveInfo) : Keeps (FileIs fd path (SameBelow bound c))
      (whisperWritePropagate (some fd) timestamp wspMd higher lower) := by
  rw [whisperWritePropagate_eq]
  apply (fileIs_reads.collect _ _ _).keeps.bind
  rintro ⟨nbHigherPoints, known⟩
  apply (divide32_lockstep _ _).keeps.bind
  intro ratio
  by_cases enough : Platform.atLeast ratio wspMd.xFilesFactor
  · simp only [if_pos enough]
    exact (whisperWritePoint_keeps behind room _ _).bind fun _ => .pure _
  · simp only [if_neg enough]
    exact .pure _

theorem propagateLoop_keeps (guarded : Guarded c) (alignedTimestamp : UInt32) (wspMd : Metadata)
    (remaining archiveId : ℕ) (inside : archiveId + remaining ≤ archivesOf c)
    (higher : ArchiveInfo) : Keeps (FileIs fd path (HeadersOf c))
      (propagateLoop (some fd) alignedTimestamp wspMd remaining archiveId higher) := by
  induction remaining generalizing archiveId higher with
  | zero => exact .pure _
  | succ remaining ih =>
    intro w file
    apply (readInfo_guarded guarded file (show archiveId < archivesOf c by omega)).bind
    rintro info w₁ ⟨known, file⟩
    cases info with
    | none => exact .throw file
    | some lower =>
      by_cases unset : lower.secondsPerPoint = 0
      · simp only [if_pos unset]
        exact .throw file
      obtain ⟨behind, room⟩ := known lower rfl unset
      simp only [if_neg unset]
      apply ((modulo32_lockstep _ _).keeps w₁ file).bind
      intro rest w₂ file
      by_cases divides : rest = 0
      · simp only [if_pos divides]
        apply (whisperWritePropagate_keeps behind room _ _ _ w₂ file).bind
        intro _ w₃ file
        exact ih (archiveId + 1) (by omega) lower w₃ file
      · simp only [if_neg divides]
        exact .pure file

theorem whisperWriteOpened_guards (guarded : Guarded c) (file : FileIs fd path (HeadersOf c) w)
    (timestamp : UInt32) (value : UInt64) :
    Ends w (whisperWriteOpened (some fd) timestamp value) (fun _ s => HasHeaders path c s)
      (fun _ s => HasHeaders path c s) := by
  have kept : Ends w (whisperWriteOpened (some fd) timestamp value)
      (fun _ s => HasHeaders path c s) (fun _ s => FileIs fd path (HeadersOf c) s) := by
    have metadata : Ends w (whisperReadMetadata (some fd))
        (fun md w' => (∀ wspMd, md = some wspMd → wspMd.archiveCount.toNat ≤ archivesOf c) ∧
          FileIs fd path (HeadersOf c) w') (fun _ => FileIs fd path (HeadersOf c)) := by
      have known := fileIs_reads.whisperReadMetadata.keeps w file
      obtain ⟨c', pos, holding, same⟩ := file
      have found := readMetadata_ends ⟨c', pos, holding, rfl⟩
      have headers : SameHeaders c c' := .below same (Nat.le_refl _)
      refine ⟨fun md w' run => ⟨fun wspMd looked => ?_, known.returns md w' run⟩, known.stops⟩
      have bound := (found.returns md w' run).1 wspMd looked
      rwa [archivesOf, headers.metadata] at bound
    apply metadata.bind
    rintro md w₁ ⟨count, file⟩
    cases md with
    | none => exact .pure file.hasHeaders
    | some wspMd =>
      apply (readInfo_guarded guarded file guarded.some).bind
      rintro info w₂ ⟨known, file⟩
      cases info with
      | none => exact .pure file.hasHeaders
      | some wspArch =>
        have aligned : Ends w₂ (modulo32 timestamp wspArch.secondsPerPoint)
            (fun _ w' => wspArch.secondsPerPoint ≠ 0 ∧ FileIs fd path (HeadersOf c) w')
            (fun _ => FileIs fd path (HeadersOf c)) := by
          unfold modulo32
          split
          case isTrue => exact .throw file
          case isFalse step => exact .pure ⟨step, file⟩
        apply aligned.bind
        rintro rest w₃ ⟨step, file⟩
        obtain ⟨behind, room⟩ := known wspArch rfl step
        apply (whisperWritePoint_keeps behind room _ _ w₃ file).bind
        intro _ w₄ file
        have few := count wspMd rfl
        have inside : 1 + (wspMd.archiveCount.toNat - 1) ≤ archivesOf c := by
          have first := guarded.some
          omega
        apply (propagateLoop_keeps guarded _ wspMd _ 1 inside wspArch w₄ file).bind
        intro _ w₅ file
        apply (close_ends (some fd) w₅).bind
        intro _ w₆ same
        refine .pure ?_
        rw [HasHeaders, same]
        exact file.hasHeaders
  exact kept.weaken (fun _ _ => id) fun _ _ file => file.hasHeaders

/-- The kernel does not deny a file that is there. -/
def Honest (request : Request) : Prop := upcoming request.outcomes ≠ .fail .enoent

instance (request : Request) : Decidable (Honest request) :=
  inferInstanceAs (Decidable (upcoming request.outcomes ≠ .fail .enoent))

theorem serve_guards (guarded : Guarded c) (found : w.nodes path = some (.file c))
    (honest : Honest request) :
    Ends w (serve request) (fun _ s => HasHeaders path c s) (fun _ s => HasHeaders path c s) := by
  by_cases mine : request.path = path
  · refine .of_eq (serve_eq request w) ?_
    unfold whisperWriteValue
    rw [show whisperMetricFilename request.conf.storageDir request.metric = path from mine]
    apply (openFile_ends path false _).bind
    rintro r w₁ (⟨e, rfl, same, refused⟩ | ⟨fd, c', rfl, holding, old⟩)
    · have headers : HasHeaders path c w₁ := ⟨c, (same path c).mpr found, .refl _ _⟩
      have refusal := refused c found
      cases e with
      | enoent => exact absurd refusal honest
      | ebadf => exact .pure headers
      | einval => exact .pure headers
      | eisdir => exact .pure headers
      | other code => exact .pure headers
    · obtain rfl : c' = c := by
        rcases old with old | ⟨free, _⟩
        · rw [show w.nodes path = some (.file c') from old] at found
          exact Node.file.inj (Option.some.inj found)
        · rw [show w.nodes path = none from free] at found
          contradiction
      exact whisperWriteOpened_guards guarded (.of_holding holding (.refl _ _)) _ _
  · have other : path ≠ request.path := Ne.symm mine
    refine (serve_touches request w).weaken ?_ ?_
    · exact fun _ s touches => ⟨c, touches.file found other, .refl _ _⟩
    · exact fun _ s touches => ⟨c, touches.file found other, .refl _ _⟩

/-- All files with sound headers are still there, with these headers. -/
def KeepsHeaders (before after : World Globals) : Prop :=
  ∀ path c, before.nodes path = some (.file c) → Guarded c →
    ∃ c', after.nodes path = some (.file c') ∧ SameHeaders c c' ∧ Guarded c'

theorem serveAll_headers (guarded : Guarded c) (headers : HasHeaders path c w)
    (honest : ∀ request ∈ requests, Honest request) :
    Ends w (serveAll requests) (fun _ s => HasHeaders path c s)
      (fun _ s => HasHeaders path c s) := by
  induction requests generalizing w with
  | nil => exact .pure headers
  | cons request rest ih =>
    obtain ⟨c', found, same⟩ := headers
    have later (s : World Globals) (there : HasHeaders path c' s) : HasHeaders path c s := by
      obtain ⟨c'', found, same'⟩ := there
      have ends : infosEnd c' = infosEnd c := by
        rw [infosEnd, archivesOf, (SameHeaders.below same (Nat.le_refl _)).metadata]
        rfl
      rw [HeadersOf, ends] at same'
      exact ⟨c'', found, same.trans same'⟩
    have served := serve_guards (guarded.of_same same) found (honest request List.mem_cons_self)
    apply (served.weaken (fun _ s => later s) fun _ s => later s).bind
    intro _ t there
    exact ih there fun r member => honest r (List.mem_cons_of_mem _ member)

end

def newFile : List UInt8 := newContents [⟨1, 10⟩, ⟨2, 20⟩] ⟨[], 0, .average⟩

/-- A new file with two archives, and nothing else. -/
def newFileWorld : World Globals :=
  { emptyWorld with nodes := fun p => if p = "/b/a.wsp".toList then some (.file newFile) else none }

theorem newFileWorld_node : newFileWorld.nodes "/b/a.wsp".toList = some (.file newFile) := by
  change (if "/b/a.wsp".toList = "/b/a.wsp".toList then some (Node.file newFile) else none) = _
  rw [if_pos rfl]

/-- The write of the point is cut short, and the propagation cannot read. -/
def brokenRequest : Request where
  conf := soleRule [⟨1, 10⟩, ⟨2, 20⟩] ⟨[], 0, .average⟩
  metric := "a".toList
  timestamp := 2
  value := 7
  outcomes := List.replicate 9 .ok ++ [.short 5, .ok, .ok, .ok, .fail (.other 5)]

end Carbond.Whisper
