import Carbond.Conf.Parse
import Carbond.Threads.Pause

/-! While the configuration is replaced no worker runs, and after a reload no worker is left
asleep. What a worker may be doing follows from how far the main thread has come. -/
namespace Carbond.Threads
open Heap Transition

/-- Where a worker reads the configuration or the flag, or executes its body. -/
def Pc.running : Pc → Bool
  | .testRun | .testPause | .condWait | .body => true
  | _ => false

/-- Where a worker has its lock. -/
def Pc.locked : Pc → Bool
  | .returned => true
  | pc => pc.running

def Worker.rank : Worker → ℕ
  | .receiverUdp => 0
  | .receiverTcp => 1
  | .writer => 2
  | .monitoring => 3

theorem Worker.rank_lt (worker : Worker) : worker.rank < 4 := by
  cases worker <;> decide

/-- The statements of a reload, numbered. -/
def MainPc.position : MainPc → ℕ
  | .outside => 0
  | .orderPause worker => 1 + worker.rank
  | .waitPaused worker => 5 + worker.rank
  | .confFree => 9
  | .install => 10
  | .clearMustPause worker => 11 + 3 * worker.rank
  | .signal worker => 12 + 3 * worker.rank
  | .unlock worker => 13 + 3 * worker.rank

/-- The last statement is followed by the end of the reload. -/
theorem MainPc.next_position (main : MainPc) :
    main.next.position = main.position + 1 ∨ main.position = 22 ∧ main.next.position = 0 := by
  cases main with
  | outside | confFree | install => exact .inl rfl
  | clearMustPause | signal => exact .inl (by simp only [next, position]; omega)
  | orderPause worker | waitPaused worker | unlock worker =>
    cases worker <;> simp [next, position, Worker.next, Worker.rank]

theorem MainPc.position_le (main : MainPc) : main.position ≤ 22 := by
  have := Worker.rank_lt
  cases main <;> simp only [position] <;> grind

theorem MainPc.position_injective : Function.Injective MainPc.position := by
  intro main main' same
  have rank (worker worker' : Worker) (same : worker.rank = worker'.rank) : worker = worker' := by
    cases worker <;> cases worker' <;> first | rfl | contradiction
  cases main <;> cases main' <;> simp only [position] at same <;>
    first
    | rfl
    | exact congrArg _ (rank _ _ (by omega))
    | grind [Worker.rank_lt]

/-- The main thread has executed the one statement and not yet the other. -/
def MainPc.Between (main first last : MainPc) : Prop :=
  first.position < main.position ∧ main.position ≤ last.position

instance (main first last : MainPc) : Decidable (main.Between first last) :=
  inferInstanceAs (Decidable (_ ∧ _))

namespace MainPc
variable {main first last : MainPc}

theorem between_next (passed : main ≠ first) (left : main ≠ last) :
    main.next.Between first last ↔ main.Between first last := by
  have notFirst : main.position ≠ first.position := fun same => passed (position_injective same)
  have notLast : main.position ≠ last.position := fun same => left (position_injective same)
  have bound := last.position_le
  simp only [Between]
  rcases main.next_position with next | ⟨final, next⟩ <;> omega

theorem between_starts (order : first.position < last.position) :
    first.next.Between first last := by
  have bound := last.position_le
  simp only [Between]
  rcases first.next_position with next | ⟨final, next⟩ <;> omega

theorem between_ends : ¬ last.next.Between first last := by
  simp only [Between]
  rcases last.next_position with next | ⟨final, next⟩ <;> omega

theorem not_between_of_lt (late : last.position < main.position) : ¬ main.Between first last :=
  fun inside => Nat.not_lt.mpr inside.2 late

end MainPc

/-- What holds of a worker and its thread while the main thread is somewhere. -/
structure Fits (worker : Worker) (main : MainPc) (thread : CarbonThread) : Prop where
  own : thread.runLock = .worker ↔ thread.pc.locked = true
  paused : thread.runLock = .main ↔ main.Between (.waitPaused worker) (.unlock worker)
  ordered : thread.mustPause = true ↔ main.Between (.orderPause worker) (.clearMustPause worker)
  waiting : thread.pc = .condWait → main.Between (.orderPause worker) (.waitPaused worker)
  asleep : thread.pc = .asleep → main.Between (.orderPause worker) (.signal worker)
  stays : thread.pc ≠ .returned

namespace Fits
variable {worker : Worker} {main : MainPc} {thread : CarbonThread}

theorem launched (worker : Worker) : Fits worker .outside ⟨.free, false, .runLock⟩ := by
  constructor <;> simp [Pc.locked, Pc.running, MainPc.Between, MainPc.position]

theorem not_paused (fits : Fits worker main thread) (other : thread.runLock ≠ .main) :
    ¬ main.Between (.waitPaused worker) (.unlock worker) :=
  fun paused => other (fits.paused.mpr paused)

theorem not_main (fits : Fits worker main thread) (locked : thread.pc.locked = true) :
    thread.runLock ≠ .main := by
  rw [fits.own.mpr locked]
  exact Owner.noConfusion

/-- A worker that has its lock and was told to pause was told so in this reload. -/
theorem before_waitPaused (fits : Fits worker main thread) (locked : thread.pc.locked = true)
    (told : thread.mustPause = true) : main.Between (.orderPause worker) (.waitPaused worker) := by
  have inside := fits.ordered.mp told
  have elsewhere := fits.not_paused (fits.not_main locked)
  simp only [MainPc.Between, MainPc.position] at *
  omega

/-- The worker moves on and keeps what it has. -/
theorem move (fits : Fits worker main thread) (locked : pc.locked = thread.pc.locked)
    (waiting : pc = .condWait → main.Between (.orderPause worker) (.waitPaused worker))
    (awake : pc ≠ .asleep) (stays : pc ≠ .returned) : Fits worker main { thread with pc := pc } where
  own := by
    rw [locked]
    exact fits.own
  paused := fits.paused
  ordered := fits.ordered
  waiting := waiting
  asleep asleep := (awake asleep).elim
  stays := stays

/-- The worker takes its lock. -/
theorem lock (fits : Fits worker main thread) (free : thread.runLock = .free)
    (locked : pc.locked = true) (running : pc ≠ .condWait) (awake : pc ≠ .asleep)
    (stays : pc ≠ .returned) : Fits worker main { thread with runLock := .worker, pc := pc } where
  own := ⟨fun _ => locked, fun _ => rfl⟩
  paused := by
    have elsewhere := fits.not_paused (by rw [free]; exact Owner.noConfusion)
    exact ⟨fun mine => Owner.noConfusion mine, fun paused => (elsewhere paused).elim⟩
  ordered := fits.ordered
  waiting waiting := (running waiting).elim
  asleep asleep := (awake asleep).elim
  stays := stays

/-- The worker gives its lock back and falls asleep. -/
theorem sleep (fits : Fits worker main thread) (pc : thread.pc = .condWait) :
    Fits worker main { thread with runLock := .free, pc := .asleep } where
  own := ⟨fun mine => Owner.noConfusion mine, fun locked => nomatch locked⟩
  paused := by
    have elsewhere := fits.not_paused (fits.not_main (by rw [pc]; rfl))
    exact ⟨fun mine => Owner.noConfusion mine, fun paused => (elsewhere paused).elim⟩
  ordered := fits.ordered
  waiting waiting := nomatch waiting
  asleep _ := by
    have inside := fits.waiting pc
    simp only [MainPc.Between, MainPc.position] at *
    omega
  stays := Pc.noConfusion

theorem workerStep (fits : Fits worker main thread)
    (readable : thread.pc.running = true → ∃ c, conf = some c ∧ c.run = true)
    (moved : WorkerStep conf thread thread') : Fits worker main thread' := by
  cases moved with
  | runLock pc free => exact fits.lock free rfl Pc.noConfusion Pc.noConfusion Pc.noConfusion
  | goOn pc run =>
    exact fits.move (by rw [pc]; rfl) (fun wait => nomatch wait) Pc.noConfusion Pc.noConfusion
  | leave pc stop =>
    obtain ⟨c, current, run⟩ := readable (by rw [pc]; rfl)
    rw [stop c current] at run
    contradiction
  | mustPause pc told =>
    have inside := fits.before_waitPaused (by rw [pc]; rfl) told
    exact fits.move (by rw [pc]; rfl) (fun _ => inside) Pc.noConfusion Pc.noConfusion
  | mayRun pc told =>
    exact fits.move (by rw [pc]; rfl) (fun wait => nomatch wait) Pc.noConfusion Pc.noConfusion
  | condWait pc => exact fits.sleep pc
  | spurious pc =>
    exact fits.move (by rw [pc]; rfl) (fun wait => nomatch wait) Pc.noConfusion Pc.noConfusion
  | relock pc free => exact fits.lock free rfl Pc.noConfusion Pc.noConfusion Pc.noConfusion
  | body pc =>
    exact fits.move (by rw [pc]; rfl) (fun wait => nomatch wait) Pc.noConfusion Pc.noConfusion

/-- A statement that is about none of this worker's. -/
theorem unrelated (fits : Fits worker main thread)
    (other : main ≠ .orderPause worker ∧ main ≠ .waitPaused worker ∧ main ≠ .clearMustPause worker ∧
      main ≠ .signal worker ∧ main ≠ .unlock worker) : Fits worker main.next thread := by
  obtain ⟨order, wait, clear, signal, unlock⟩ := other
  exact
    { own := fits.own
      paused := fits.paused.trans (MainPc.between_next wait unlock).symm
      ordered := fits.ordered.trans (MainPc.between_next order clear).symm
      waiting := fun waiting => (MainPc.between_next order wait).mpr (fits.waiting waiting)
      asleep := fun asleep => (MainPc.between_next order signal).mpr (fits.asleep asleep)
      stays := fits.stays }

/-- A statement that is about this worker. -/
theorem mainStep (fits : Fits worker main thread) (moved : MainStep worker main thread thread') :
    Fits worker main.next thread' := by
  have started {last : MainPc} := @MainPc.between_starts
    (.orderPause worker) last
  cases moved with
  | orderPause =>
    exact
      { own := fits.own
        paused := fits.paused.trans (MainPc.between_next (by nofun) (by nofun)).symm
        ordered := ⟨fun _ => started (by simp only [MainPc.position]; omega), fun _ => rfl⟩
        waiting := fun _ => started (by simp only [MainPc.position]; omega)
        asleep := fun _ => started (by simp only [MainPc.position]; omega)
        stays := fits.stays }
  | waitPaused free =>
    have unlocked : thread.pc.locked ≠ true := fun locked => by
      rw [fits.own.mpr locked] at free
      contradiction
    exact
      { own := ⟨nofun, fun locked => (unlocked locked).elim⟩
        paused := ⟨fun _ => MainPc.between_starts (by simp only [MainPc.position]; omega),
          fun _ => rfl⟩
        ordered := fits.ordered.trans (MainPc.between_next (by nofun) (by nofun)).symm
        waiting := fun waiting => (unlocked (by rw [waiting]; rfl)).elim
        asleep := fun asleep => (MainPc.between_next (by nofun) (by nofun)).mpr (fits.asleep asleep)
        stays := fits.stays }
  | clearMustPause =>
    have gone : ¬ (MainPc.clearMustPause worker).Between (.orderPause worker) (.waitPaused worker) :=
      MainPc.not_between_of_lt (by simp only [MainPc.position]; omega)
    exact
      { own := fits.own
        paused := fits.paused.trans (MainPc.between_next (by nofun) (by nofun)).symm
        ordered := ⟨nofun, fun inside => (MainPc.between_ends inside).elim⟩
        waiting := fun waiting => (gone (fits.waiting waiting)).elim
        asleep := fun asleep => (MainPc.between_next (by nofun) (by nofun)).mpr (fits.asleep asleep)
        stays := fits.stays }
  | wake asleep =>
    exact
      { own := fits.own.trans (by rw [asleep]; rfl)
        paused := fits.paused.trans (MainPc.between_next (by nofun) (by nofun)).symm
        ordered := fits.ordered.trans (MainPc.between_next (by nofun) (by nofun)).symm
        waiting := nofun
        asleep := nofun
        stays := nofun }
  | nobodyWaits awake =>
    have gone : ¬ (MainPc.signal worker).Between (.orderPause worker) (.waitPaused worker) :=
      MainPc.not_between_of_lt (by simp only [MainPc.position]; omega)
    exact
      { own := fits.own
        paused := fits.paused.trans (MainPc.between_next (by nofun) (by nofun)).symm
        ordered := fits.ordered.trans (MainPc.between_next (by nofun) (by nofun)).symm
        waiting := fun waiting => (gone (fits.waiting waiting)).elim
        asleep := fun asleep => (awake asleep).elim
        stays := fits.stays }
  | unlock =>
    have held : thread.runLock = .main :=
      fits.paused.mpr ⟨by simp only [MainPc.position]; omega, Nat.le_refl _⟩
    have unlocked : thread.pc.locked ≠ true := fun locked => fits.not_main locked held
    have gone : ¬ (MainPc.unlock worker).Between (.orderPause worker) (.signal worker) :=
      MainPc.not_between_of_lt (by simp only [MainPc.position]; omega)
    exact
      { own := ⟨nofun, fun locked => (unlocked locked).elim⟩
        paused := ⟨nofun, fun inside => (MainPc.between_ends inside).elim⟩
        ordered := fits.ordered.trans (MainPc.between_next (by nofun) (by nofun)).symm
        waiting := fun waiting => (unlocked (by rw [waiting]; rfl)).elim
        asleep := fun asleep => (gone (fits.asleep asleep)).elim
        stays := fits.stays }

end Fits

theorem MainStep.about {main : MainPc} (moved : MainStep worker main thread thread') :
    main = .orderPause worker ∨ main = .waitPaused worker ∨ main = .clearMustPause worker ∨
      main = .signal worker ∨ main = .unlock worker := by
  cases moved <;> simp

/-- From the return of `threads_pause_all` to the first `thread_resume`. -/
def MainPc.paused : MainPc → Bool
  | .confFree | .install | .clearMustPause .receiverUdp => true
  | _ => false

/-- No worker runs while all are paused. -/
def Exclusive (state : State) : Prop :=
  state.main.paused = true → ∀ worker, (state.threads worker).pc.running = false

/-- No running worker finds the configuration freed. -/
def Readable (state : State) : Prop :=
  ∀ worker, (state.threads worker).pc.running = true → ∃ conf, state.current = some conf

/-- Outside of a reload every worker that fell asleep was signalled or woke up by itself. -/
def NoneAsleep (state : State) : Prop :=
  state.main = .outside → ∀ worker, (state.threads worker).pc ≠ .asleep

/-- The workers fit the main thread, and the configuration is there unless it is being replaced. -/
structure Consistent (state : State) : Prop where
  fits : ∀ worker, Fits worker state.main (state.threads worker)
  current : state.main ≠ .install → ∃ conf, state.current = some conf ∧ conf.run = true
  apart : state.main.Between .outside .install → state.newConf ≠ state.conf
  built : state.main.Between .outside .install →
    ∃ newConf, state.confs.cells state.newConf = some newConf ∧ newConf.run = true

namespace Consistent
variable {state : State}

theorem launched (running : conf.run = true) : Consistent (launched conf) where
  fits := Fits.launched
  current _ := ⟨conf, Cells.alloc_cells _ _, running⟩
  apart inside := nomatch inside.1
  built inside := nomatch inside.1

theorem readable (consistent : Consistent state) (worker : Worker)
    (running : (state.threads worker).pc.running = true) :
    ∃ conf, state.current = some conf ∧ conf.run = true := by
  have fits := consistent.fits worker
  have locked : (state.threads worker).pc.locked = true := by
    cases pc : (state.threads worker).pc <;> simp_all [Pc.running, Pc.locked]
  have elsewhere := fits.not_paused (fits.not_main locked)
  refine consistent.current fun install => elsewhere ?_
  rw [install]
  have rank := worker.rank_lt
  constructor <;> simp only [MainPc.position] <;> omega

theorem exclusive (consistent : Consistent state) : Exclusive state := by
  intro paused worker
  have fits := consistent.fits worker
  have rank := worker.rank_lt
  have inside : state.main.Between (.waitPaused worker) (.unlock worker) := by
    have first : Worker.receiverUdp.rank = 0 := rfl
    unfold MainPc.paused at paused
    split at paused
    case h_4 => contradiction
    all_goals
      rename_i main
      rw [main]
      simp only [MainPc.Between, MainPc.position]
      omega
  have unlocked : (state.threads worker).pc.locked ≠ true := fun locked =>
    fits.not_main locked (fits.paused.mpr inside)
  cases pc : (state.threads worker).pc <;> simp_all [Pc.running, Pc.locked]

theorem noneAsleep (consistent : Consistent state) : NoneAsleep state := by
  intro outside worker asleep
  have inside := (consistent.fits worker).asleep asleep
  rw [outside] at inside
  exact nomatch inside.1

theorem workerMoves (consistent : Consistent state)
    (moved : WorkerStep state.current (state.threads worker) thread) :
    Consistent { state with threads := Function.update state.threads worker thread } where
  fits other := by
    by_cases same : other = worker
    · subst same
      simp only [Function.update_self]
      exact (consistent.fits other).workerStep (consistent.readable other) moved
    · simp only [Function.update_of_ne same]
      exact consistent.fits other
  current := consistent.current
  apart := consistent.apart
  built := consistent.built

theorem mainMoves (consistent : Consistent state)
    (moved : MainStep worker state.main (state.threads worker) thread) :
    Consistent { state with
      threads := Function.update state.threads worker thread
      main := state.main.next } := by
  have about := moved.about
  have here : state.main ≠ .outside ∧ state.main ≠ .install ∧ state.main.next ≠ .install := by
    rcases about with main | main | main | main | main <;> rw [main] <;> cases worker <;>
      exact ⟨nofun, nofun, nofun⟩
  have between := MainPc.between_next here.1 here.2.1
  refine ⟨fun other => ?_, fun _ => consistent.current here.2.1,
    fun inside => consistent.apart (between.mp inside),
    fun inside => consistent.built (between.mp inside)⟩
  by_cases same : other = worker
  · subst same
    simp only [Function.update_self]
    exact (consistent.fits other).mainStep moved
  · simp only [Function.update_of_ne same]
    refine (consistent.fits other).unrelated ?_
    rcases about with main | main | main | main | main <;> rw [main] <;> simp [Ne.symm same]

theorem rejected (consistent : Consistent state) (outside : state.main = .outside) :
    Consistent { state with confs := state.confs.alloc newConf } where
  fits := consistent.fits
  current elsewhere := by
    obtain ⟨conf, here, run⟩ := consistent.current elsewhere
    exact ⟨conf, Cells.alloc_cells_old _ here, run⟩
  apart := consistent.apart
  built inside := by
    rw [outside] at inside
    exact nomatch inside.1

theorem unrelated (consistent : Consistent state)
    (here : state.main = .outside ∨ state.main = .confFree ∨ state.main = .install)
    (worker : Worker) : Fits worker state.main.next (state.threads worker) := by
  refine (consistent.fits worker).unrelated ?_
  rcases here with main | main | main <;> rw [main] <;> exact ⟨nofun, nofun, nofun, nofun, nofun⟩

theorem accepted (consistent : Consistent state) (outside : state.main = .outside)
    (here : state.current = some conf) (same : newConf.run = conf.run) :
    Consistent { state with
      confs := state.confs.alloc newConf
      newConf := state.confs.next
      main := state.main.next } := by
  obtain ⟨conf', here', run⟩ := consistent.current (by rw [outside]; exact MainPc.noConfusion)
  obtain rfl := Option.some.inj (here.symm.trans here')
  exact
    { fits := consistent.unrelated (.inl outside)
      current := fun _ => ⟨conf, Cells.alloc_cells_old _ here, run⟩
      apart := fun _ => Nat.ne_of_gt (Cells.lt_next here)
      built := fun _ => ⟨newConf, Cells.alloc_cells _ _, same.trans run⟩ }

theorem confFree (consistent : Consistent state) (main : state.main = .confFree) :
    Consistent { state with
      confs := state.confs.free state.conf
      main := state.main.next } := by
  have inside : state.main.Between .outside .install := by
    rw [main]
    decide
  have apart := consistent.apart inside
  obtain ⟨newConf, there, run⟩ := consistent.built inside
  exact
    { fits := consistent.unrelated (.inr (.inl main))
      current := fun elsewhere => (elsewhere (by rw [main]; rfl)).elim
      apart := fun _ => apart
      built := fun _ => ⟨newConf, (Cells.free_cells_other _ apart).trans there, run⟩ }

theorem install (consistent : Consistent state) (main : state.main = .install) :
    Consistent { state with conf := state.newConf, main := state.main.next } := by
  have past : ¬ state.main.next.Between .outside .install := by
    rw [main]
    exact MainPc.between_ends
  exact
    { fits := consistent.unrelated (.inr (.inr main))
      current := fun _ => consistent.built (by rw [main]; decide)
      apart := fun inside => (past inside).elim
      built := fun inside => (past inside).elim }

theorem step (consistent : Consistent state) (moved : Step state next) : Consistent next := by
  cases moved with
  | worker _ moved => exact consistent.workerMoves moved
  | rejected _ outside => exact consistent.rejected outside
  | accepted outside here same => exact consistent.accepted outside here same
  | main _ moved => exact consistent.mainMoves moved
  | confFree main => exact consistent.confFree main
  | install main => exact consistent.install main

end Consistent

end Carbond.Threads
