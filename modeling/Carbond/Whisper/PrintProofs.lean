import Carbond.Posix.Places
import Carbond.Whisper.GuardProofs
import Carbond.Whisper.Print

/-! What is printed for a file is its headers and the points of all its archives, each from its own
slot. -/
namespace Carbond.Whisper
open Bytes Posix Text
variable {w : World Globals} {fd : ℕ} {path : Path} {c : List UInt8}

theorem print_yields (line : Printed) (w : World Globals) (printed : List Printed) :
    Yields (print line) (w, printed) () (w, printed ++ [line]) := rfl

/-- Past its end a file has the same to say everywhere. -/
def AtSlot (c : List UInt8) (slot pos : ℕ) : Prop := pos = slot ∨ c.length ≤ pos ∧ c.length ≤ slot

theorem AtSlot.point (there : AtSlot c slot pos) : pointIn c pos = pointIn c slot := by
  rcases there with rfl | ⟨past, past'⟩
  · rfl
  · apply pointIn_congr
    rw [readAt_past past, readAt_past past']

/-- Reading a point leads to the next slot, or to the end of the file. -/
theorem readPoint_next (opened : Opened w fd path c pos) (there : AtSlot c slot pos) :
    ∃ pos', Yields (whisperReadArchivePoint (some fd)) w (some (pointIn c slot))
      (w.put fd path c pos') ∧ AtSlot c (slot + whisperPointSize) pos' := by
  obtain ⟨_, known⟩ := whisperReadArchivePoint_yields opened
  have first := read_yields opened 4 (by decide)
  have second := read_yields (opened.moved c (pos + (readAt c pos 4).length)) 8 (by decide)
  rw [World.put_put] at second
  have run : Yields (whisperReadArchivePoint (some fd)) w _ _ := .bind first (.bind second (.pure _ _))
  rw [← (known.unique run).1, there.point] at run
  refine ⟨_, run, ?_⟩
  simp only [readAt_length, AtSlot, whisperPointSize] at there ⊢
  omega

/-- The points from a slot on, numbered from here. -/
def slotLines (c : List UInt8) (remaining pointId : ℕ) (loopOffset : UInt32) (slot : ℕ) :
    List Printed :=
  (List.range remaining).map fun i =>
    .point (pointId + i) (loopOffset + UInt32.ofNat (whisperPointSize * i))
      (pointIn c (slot + whisperPointSize * i))

theorem slotLines_succ (c : List UInt8) (remaining pointId : ℕ) (loopOffset : UInt32) (slot : ℕ) :
    slotLines c (remaining + 1) pointId loopOffset slot =
      .point pointId loopOffset (pointIn c slot) :: slotLines c remaining (pointId + 1)
        (loopOffset + UInt32.ofNat whisperPointSize) (slot + whisperPointSize) := by
  rw [slotLines, List.range_succ_eq_map, List.map_cons, List.map_map, slotLines]
  congr 1
  · simp
  · apply List.map_congr_left
    intro i _
    have offset : UInt32.ofNat (whisperPointSize * i.succ) =
        UInt32.ofNat whisperPointSize + UInt32.ofNat (whisperPointSize * i) := by
      rw [← UInt32.ofNat_add, Nat.mul_succ, Nat.add_comm]
    have number : pointId + i.succ = pointId + 1 + i := by omega
    have place : slot + whisperPointSize * i.succ = slot + whisperPointSize + whisperPointSize * i := by
      rw [Nat.mul_succ]
      omega
    simp only [Function.comp_apply, offset, number, place, UInt32.add_assoc]

theorem printPoints_yields (opened : Opened w fd path c pos) (there : AtSlot c slot pos)
    (printed : List Printed) (remaining pointId : ℕ) (loopOffset : UInt32) :
    ∃ pos', Yields (printPoints (some fd) remaining pointId loopOffset) (w, printed) ()
      (w.put fd path c pos', printed ++ slotLines c remaining pointId loopOffset slot) := by
  induction remaining generalizing w pos slot pointId loopOffset printed with
  | zero =>
    refine ⟨pos, ?_⟩
    rw [opened.put_self, slotLines, List.range_zero, List.map_nil, List.append_nil]
    exact .pure _ _
  | succ remaining ih =>
    obtain ⟨pos₁, run, there₁⟩ := readPoint_next opened there
    have line := print_yields (.point pointId loopOffset (pointIn c slot)) (w.put fd path c pos₁) printed
    obtain ⟨pos₂, rest⟩ := ih (opened.moved c pos₁) there₁
      (printed ++ [.point pointId loopOffset (pointIn c slot)]) (pointId + 1)
      (loopOffset + UInt32.ofNat whisperPointSize)
    rw [World.put_put, List.append_assoc, List.singleton_append, ← slotLines_succ] at rest
    exact ⟨pos₂, .bind (run.onFirst printed) (.bind line rest)⟩

theorem pointLines_eq (c : List UInt8) (archive : ArchiveInfo) : pointLines c archive =
    slotLines c archive.points.toNat 0 archive.offset archive.offset.toNat := by
  simp only [pointLines, slotLines, Nat.zero_add, slotPos, whisperPointSize]

theorem printArchives_yields (opened : Opened w fd path c pos) (printed : List Printed)
    (remaining archiveId : ℕ)
    (fits : whisperHeaderSize + (archiveId + remaining) * whisperArchiveSize < 2 ^ 31) :
    ∃ pos', Yields (printArchives (some fd) remaining archiveId) (w, printed) ()
      (w.put fd path c pos',
        printed ++ (List.range' archiveId remaining).flatMap (archiveLines c)) := by
  induction remaining generalizing w pos archiveId printed with
  | zero =>
    refine ⟨pos, ?_⟩
    rw [opened.put_self, List.range'_zero, List.flatMap_nil, List.append_nil]
    exact .pure _ _
  | succ remaining ih =>
    have inside : whisperHeaderSize + archiveId * whisperArchiveSize < 2 ^ 31 := by
      simp only [whisperHeaderSize, whisperArchiveSize] at fits ⊢
      omega
    let archive := archiveInfoIn c archiveId
    obtain ⟨pos₁, info⟩ := whisperReadArchiveInfo_yields opened archiveId inside
    have line := print_yields (.archive archiveId archive) (w.put fd path c pos₁) printed
    have sought := lseek_yields (opened.moved c pos₁) (archive.offset.toNat : ℤ) (Int.natCast_nonneg _)
    rw [Int.toNat_natCast, World.put_put] at sought
    obtain ⟨pos₂, points⟩ := printPoints_yields (opened.moved c archive.offset.toNat) (.inl rfl)
      (printed ++ [.archive archiveId archive]) archive.points.toNat 0 archive.offset
    have shape : printed ++ [.archive archiveId archive] ++ pointLines c archive =
        printed ++ archiveLines c archiveId := by
      rw [List.append_assoc, List.singleton_append, archiveLines]
    rw [World.put_put, ← pointLines_eq, shape] at points
    have fits' : whisperHeaderSize + (archiveId + 1 + remaining) * whisperArchiveSize < 2 ^ 31 := by
      rwa [Nat.add_right_comm, Nat.add_assoc]
    obtain ⟨pos₃, rest⟩ := ih (opened.moved c pos₂)
      (printed ++ archiveLines c archiveId) (archiveId + 1) fits'
    rw [World.put_put, List.append_assoc] at rest
    refine ⟨pos₃, ?_⟩
    rw [List.range'_succ, List.flatMap_cons]
    exact .bind (info.onFirst printed) (.bind line (.bind (sought.onFirst _) (.bind points rest)))

/-- For any file, whole or cut short, `whisper_print_file` prints its headers and the points of all
its archives, each from its own slot, and leaves all files and the other descriptors as they are. -/
theorem whisperPrintFile_prints (quiet : w.outcomes = []) (found : w.nodes filename = some (.file c))
    (fits : infosEnd c < 2 ^ 31) (printed : List Printed) :
    ∃ w', Yields (whisperPrintFile filename) (w, printed) () (w', printed ++ linesOf filename c) ∧
      w'.nodes = w.nodes ∧ w'.descriptors = Function.update w.descriptors w.nextFd none := by
  have opened : Opened (w.opened filename c) w.nextFd filename c 0 :=
    ⟨quiet, Function.update_self _ _ _, Function.update_self _ _ _⟩
  obtain ⟨pos₁, metadata⟩ := whisperReadMetadata_yields opened
  have name := print_yields (.file filename) ((w.opened filename c).put w.nextFd filename c pos₁) printed
  have line := print_yields (.metadata (metadataIn c))
    ((w.opened filename c).put w.nextFd filename c pos₁) (printed ++ [.file filename])
  have fits' : whisperHeaderSize + (0 + (metadataIn c).archiveCount.toNat) * whisperArchiveSize <
      2 ^ 31 := by
    simp only [infosEnd, archivesOf, whisperHeaderSize, whisperArchiveSize] at fits ⊢
    omega
  obtain ⟨pos₂, archives⟩ := printArchives_yields (opened.moved c pos₁)
    (printed ++ [.file filename] ++ [.metadata (metadataIn c)]) _ 0 fits'
  rw [World.put_put] at archives
  let last := (w.opened filename c).put w.nextFd filename c pos₂
  have closed : Yields (close (some w.nextFd)) last ()
      { last with descriptors := Function.update last.descriptors w.nextFd none } :=
    .bind (nextOutcome_quiet quiet) (.update _ _)
  have lines : printed ++ [.file filename] ++ [.metadata (metadataIn c)] ++
      (List.range' 0 (metadataIn c).archiveCount.toNat).flatMap (archiveLines c) =
        printed ++ linesOf filename c := by
    simp [linesOf, archivesOf, List.range_eq_range']
  rw [lines] at archives
  refine ⟨_, .bind ((World.opened_yields quiet found false).onFirst printed) (.bind
    (metadata.onFirst printed) (.bind name (.bind line (.bind archives (closed.onFirst _))))), ?_, ?_⟩
  · simp [last, World.put, World.opened, ← found]
  · simp [last, World.put, World.opened]

theorem whisperPrintFile_prints_witness : ∃ w',
    Yields (whisperPrintFile "/b/a.wsp".toList) (newFileWorld, []) ()
      (w', linesOf "/b/a.wsp".toList newFile) ∧ w'.nodes = newFileWorld.nodes ∧
    (linesOf "/b/a.wsp".toList newFile).take 4 = [.file "/b/a.wsp".toList, .metadata ⟨1, 20, 0, 2⟩,
      .archive 0 ⟨40, 1, 10⟩, .point 0 40 ⟨0, 0⟩] := by
  obtain ⟨w', run, same, _⟩ := whisperPrintFile_prints (w := newFileWorld) rfl newFileWorld_node
    (by decide +kernel) []
  exact ⟨w', run, same, by decide +kernel⟩

end Carbond.Whisper
