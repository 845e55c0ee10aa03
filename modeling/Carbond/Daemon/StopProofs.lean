import Carbond.Daemon.Main
import Carbond.Conf.ParseProofs

/-! What becomes of a stop request: `conf->run` stays false unless the request falls between the
copy of the configuration and the installation of that copy. -/
namespace Carbond.Daemon
open Text Posix Heap Conf Transition Pc

/-- Where `conf_reload` works on a configuration of its own. -/
def Pc.building : Pc → Bool
  | .idle | .calloc | .resumeAll => false
  | _ => true

/-- Where that configuration is a copy of the current one. -/
def Pc.copied : Pc → Bool
  | .memcpy => false
  | pc => pc.building

theorem Pc.building_of_copied {pc : Pc} (copied : pc.copied = true) : pc.building = true := by
  cases pc with
  | memcpy => exact nomatch copied
  | _ => exact copied

/-- Once a stop was requested the current configuration says so. -/
def StopKept (main : Main) : Prop :=
  main.requested = true → ∀ conf, main.current = some conf → conf.run = false

/-- When this step installs a copy, a stop that was requested was so before the copy was made. -/
def Undisturbed (main next : Main) : Prop :=
  main.pc = .install → next.pc ≠ .install → main.requested = true → main.requestedAtCopy = true

/-- Both configurations carry the requests made up to their time. -/
structure Consistent (main : Main) : Prop where
  current : main.pc ≠ .install → ∃ conf, main.current = some conf ∧ conf.run = !main.requested
  freed : main.pc = .install → main.current = none
  apart : main.pc.building = true → main.newConf ≠ main.conf
  allocated : main.pc.building = true → ∃ newConf, main.confs.cells main.newConf = some newConf
  copy : main.pc.copied = true → ∀ newConf, main.confs.cells main.newConf = some newConf →
    newConf.run = !main.requestedAtCopy
  earlier : main.pc.copied = true → main.requestedAtCopy = true → main.requested = true

namespace Consistent
variable {main : Main}

theorem stopKept (consistent : Consistent main) : StopKept main := by
  intro requested conf there
  by_cases install : main.pc = .install
  · rw [consistent.freed install] at there
    contradiction
  · obtain ⟨conf', here, run⟩ := consistent.current install
    rw [there] at here
    cases here
    rw [run, requested]
    rfl

theorem launch (running : conf.run = true) : Consistent (launch conf) where
  current _ := ⟨conf, Cells.alloc_cells _ _, running⟩
  freed install := nomatch install
  apart building := nomatch building
  allocated building := nomatch building
  copy copied := nomatch copied
  earlier copied := nomatch copied

theorem sigint (consistent : Consistent main) : Consistent (sigintHandler main) where
  current elsewhere := by
    obtain ⟨conf, here, _⟩ := consistent.current elsewhere
    exact ⟨_, Cells.modify_cells _ here, rfl⟩
  freed install := by
    rw [sigintHandler_current, consistent.freed install, Option.map_none]
  apart building := consistent.apart building
  allocated building := by
    obtain ⟨newConf, there⟩ := consistent.allocated building
    have other := consistent.apart building
    exact ⟨newConf, (Cells.modify_cells_other _ _ other).trans there⟩
  copy copied newConf there := by
    have other := consistent.apart (building_of_copied copied)
    exact consistent.copy copied newConf ((Cells.modify_cells_other _ _ other).symm.trans there)
  earlier _ _ := rfl

theorem sighup (consistent : Consistent main) (idle : main.pc = .idle) :
    Consistent (sighupHandler main) where
  current _ := consistent.current (by rw [idle]; exact Pc.noConfusion)
  freed install := nomatch install
  apart building := nomatch building
  allocated building := nomatch building
  copy copied := nomatch copied
  earlier copied := nomatch copied

/-- Work on the copy that leaves its `run` alone. -/
theorem build (consistent : Consistent main) (here : main.pc = pc) (copied : pc.copied = true)
    (elsewhere : pc ≠ .install) (further : pc' ≠ .install)
    (kept : ∀ newConf, main.confs.cells main.newConf = some newConf →
      (f newConf).run = newConf.run) :
    Consistent { main with
      confs := main.confs.modify main.newConf f
      parseStatus := status
      pc := pc' } := by
  subst here
  have building := building_of_copied copied
  have other := consistent.apart building
  obtain ⟨conf, current, run⟩ := consistent.current elsewhere
  obtain ⟨newConf, there⟩ := consistent.allocated building
  refine ⟨fun _ => ⟨conf, (Cells.modify_cells_other _ _ other.symm).trans current, run⟩,
    fun install => (further install).elim, fun _ => other,
    fun _ => ⟨f newConf, Cells.modify_cells _ there⟩, fun _ newConf' there' => ?_,
    fun _ => consistent.earlier copied⟩
  obtain rfl := Option.some.inj ((Cells.modify_cells f there).symm.trans there')
  exact (kept newConf there).trans (consistent.copy copied newConf there)

/-- Going on without touching a configuration. -/
theorem proceed (consistent : Consistent main) (here : main.pc = pc) (elsewhere : pc ≠ .install)
    (further : pc' ≠ .install) (copied : pc'.building = true → pc.copied = true) :
    Consistent { main with pc := pc' } := by
  subst here
  exact
    { current := fun _ => consistent.current elsewhere
      freed := fun install => (further install).elim
      apart := fun building => consistent.apart (building_of_copied (copied building))
      allocated := fun building => consistent.allocated (building_of_copied (copied building))
      copy := fun ready => consistent.copy (copied (building_of_copied ready))
      earlier := fun ready => consistent.earlier (copied (building_of_copied ready)) }

theorem calloc (consistent : Consistent main) (pc : main.pc = .calloc) :
    Consistent { main with
      confs := main.confs.alloc zeroedConf
      newConf := main.confs.next
      pc := .memcpy } where
  current _ := by
    obtain ⟨conf, here, run⟩ := consistent.current (by rw [pc]; exact Pc.noConfusion)
    exact ⟨conf, Cells.alloc_cells_old _ here, run⟩
  freed install := nomatch install
  apart _ := by
    obtain ⟨conf, here, _⟩ := consistent.current (by rw [pc]; exact Pc.noConfusion)
    exact Nat.ne_of_gt (Cells.lt_next here)
  allocated _ := ⟨zeroedConf, Cells.alloc_cells _ _⟩
  copy copied := nomatch copied
  earlier copied := nomatch copied

theorem memcpy (consistent : Consistent main) (pc : main.pc = .memcpy)
    (here : main.current = some origConf) :
    Consistent { main with
      confs := main.confs.modify main.newConf fun _ => origConf
      requestedAtCopy := main.requested
      pc := .resetLists } := by
  have building : main.pc.building = true := by
    rw [pc]
    rfl
  have other := consistent.apart building
  obtain ⟨newConf, there⟩ := consistent.allocated building
  obtain ⟨conf, here', run⟩ := consistent.current (by rw [pc]; exact Pc.noConfusion)
  obtain rfl := Option.some.inj (here.symm.trans here')
  refine ⟨fun _ => ⟨origConf, (Cells.modify_cells_other _ _ other.symm).trans here, run⟩,
    fun install => (nomatch install), fun _ => other, fun _ => ⟨origConf, Cells.modify_cells _ there⟩,
    fun _ copy there' => ?_, fun _ requested => requested⟩
  obtain rfl := Option.some.inj ((Cells.modify_cells _ there).symm.trans there')
  exact run

theorem confFree (consistent : Consistent main) (pc : main.pc = .confFree) :
    Consistent { main with confs := main.confs.free main.conf, pc := .install } := by
  have copied : main.pc.copied = true := by
    rw [pc]
    rfl
  have other := consistent.apart (building_of_copied copied)
  have kept := Cells.free_cells_other main.confs other
  obtain ⟨newConf, there⟩ := consistent.allocated (building_of_copied copied)
  exact ⟨fun elsewhere => (elsewhere rfl).elim, fun _ => Cells.free_cells _ _, fun _ => other,
    fun _ => ⟨newConf, kept.trans there⟩,
    fun _ copy there' => consistent.copy copied copy (kept.symm.trans there'),
    fun _ => consistent.earlier copied⟩

/-- The copy takes over with the requests it was made under. -/
theorem installed (consistent : Consistent main) (pc : main.pc = .install) :
    ∃ newConf, main.confs.cells main.newConf = some newConf ∧
      newConf.run = !main.requestedAtCopy := by
  have copied : main.pc.copied = true := by
    rw [pc]
    rfl
  obtain ⟨newConf, there⟩ := consistent.allocated (building_of_copied copied)
  exact ⟨newConf, there, consistent.copy copied newConf there⟩

theorem install (consistent : Consistent main) (pc : main.pc = .install)
    (undisturbed : main.requested = true → main.requestedAtCopy = true) :
    Consistent { main with conf := main.newConf, pc := .resumeAll } where
  current _ := by
    obtain ⟨newConf, there, run⟩ := consistent.installed pc
    have earlier := consistent.earlier (by rw [pc]; rfl)
    have same : main.requested = main.requestedAtCopy :=
      Bool.eq_iff_iff.mpr ⟨undisturbed, earlier⟩
    exact ⟨newConf, there, run.trans (by rw [same])⟩
  freed install := nomatch install
  apart building := nomatch building
  allocated building := nomatch building
  copy copied := nomatch copied
  earlier copied := nomatch copied

/-- A parser that leaves `run` alone. -/
theorem parsed (consistent : Consistent main) (pc : main.pc = pc') (copied : pc'.copied = true)
    (elsewhere : pc' ≠ .install) (further : after ≠ .install)
    (there : main.confs.cells main.newConf = some newConf) (kept : result.2.run = newConf.run) :
    Consistent (parsed main after result) := by
  refine consistent.build pc copied elsewhere (fun install => ?_) fun conf here => ?_
  · split at install
    · exact further install
    · exact nomatch install
  · rw [Option.some.inj (here.symm.trans there)]
    exact kept

variable [Platform]

theorem confReload (consistent : Consistent main) (moved : confReload files main = some next)
    (undisturbed : Undisturbed main next) : Consistent next := by
  unfold Daemon.confReload at moved
  cases pc : main.pc <;> rw [pc] at moved <;> dsimp only at moved
  case idle => contradiction
  case calloc =>
    cases moved
    exact consistent.calloc pc
  case memcpy =>
    obtain ⟨origConf, here, rfl⟩ := Option.map_eq_some_iff.mp moved
    exact consistent.memcpy pc here
  case resetLists =>
    cases moved
    exact consistent.build pc rfl Pc.noConfusion Pc.noConfusion fun _ _ => rfl
  case copyStrings =>
    obtain ⟨origConf, _, rfl⟩ := Option.map_eq_some_iff.mp moved
    exact consistent.build pc rfl Pc.noConfusion Pc.noConfusion fun _ _ => rfl
  case parseCarbonFile =>
    obtain ⟨newConf, there, rfl⟩ := Option.map_eq_some_iff.mp moved
    exact consistent.parsed pc rfl Pc.noConfusion Pc.noConfusion there
      (confParseCarbonFile_run files newConf)
  case parseStorageSchemaFile =>
    split at moved
    · rename_i result success
      obtain ⟨newConf, there, ok⟩ := Option.map_eq_some_iff.mp success
      cases moved
      exact consistent.parsed pc rfl Pc.noConfusion Pc.noConfusion there
        (confParseStorageSchemaFile_run files newConf ok)
    · contradiction
  case parseStorageAggregationFile =>
    obtain ⟨newConf, there, rfl⟩ := Option.map_eq_some_iff.mp moved
    exact consistent.parsed pc rfl Pc.noConfusion Pc.noConfusion there
      (confParseStorageAggregationFile_run files newConf)
  case testStatus =>
    cases moved
    refine consistent.proceed pc Pc.noConfusion ?_ fun _ => rfl
    split <;> exact Pc.noConfusion
  case pauseAll =>
    cases moved
    exact consistent.proceed pc Pc.noConfusion Pc.noConfusion fun _ => rfl
  case confFree =>
    cases moved
    exact consistent.confFree pc
  case install =>
    cases moved
    exact consistent.install pc (undisturbed pc Pc.noConfusion)
  case resumeAll =>
    cases moved
    exact consistent.proceed pc Pc.noConfusion Pc.noConfusion fun building => nomatch building

theorem step (consistent : Consistent main) (moved : Step main next)
    (undisturbed : Undisturbed main next) : Consistent next := by
  cases moved with
  | sigint => exact consistent.sigint
  | sighup idle => exact consistent.sighup idle
  | reload files moved => exact consistent.confReload moved undisturbed

/-- A request that comes after the copy is lost with the old configuration. -/
theorem step_loses (consistent : Consistent main) (moved : Step main next)
    (disturbed : ¬ Undisturbed main next) : ¬ StopKept next := by
  simp only [Undisturbed, Classical.not_imp] at disturbed
  obtain ⟨pc, further, requested, late⟩ := disturbed
  cases moved with
  | sigint => exact (further pc).elim
  | sighup idle => exact nomatch idle.symm.trans pc
  | reload files moved =>
    obtain ⟨newConf, there, run⟩ := consistent.installed pc
    rw [Daemon.confReload, pc] at moved
    cases moved
    intro kept
    have stopped : newConf.run = false := kept requested newConf there
    exact late (by simpa using run.symm.trans stopped)

end Consistent

section
variable [Platform]

theorem launched_run (launched : Launched conf) : conf.run = true := by
  obtain ⟨sysconfdir, localstatedir, argv, files, parsed⟩ := launched
  have args (argv : List Argument) (conf : CarbonConf) : (parseArgs conf argv).run = conf.run := by
    induction argv generalizing conf with
    | nil => rfl
    | cons arg rest ih => cases arg <;> exact ih _
  rw [confParse_run files _ parsed, args]
  rfl

end

/-- Files that every parser accepts. -/
def emptyFiles : Files := fun _ => some []

theorem launched_empty : @Launched matchesAll (defaultConf [] []) := ⟨[], [], [], emptyFiles, rfl⟩

end Carbond.Daemon
