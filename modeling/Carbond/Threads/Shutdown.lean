import Carbond.Conf.Parse
import Carbond.Threads.PauseProofs

/-! SIGINT among the reloads. A worker that leaves its loop keeps its lock, and a main thread that
goes on to wait for that lock waits forever. -/
namespace Carbond.Threads
open Heap Transition

/-- `conf->run = false`, wherever `conf` leads. -/
def sigintHandler (state : State) : State :=
  { state with confs := state.confs.modify state.conf fun conf => { conf with run := false } }

/-- SIGINT comes at any moment, also while the main thread waits for a lock. -/
inductive SignalStep : State → State → Prop
  | step : Step state next → SignalStep state next
  | sigint (state) : SignalStep state (sigintHandler state)

/-- The main thread waits for a lock that its owner will not give back. -/
def Deadlocked (state : State) : Prop :=
  ∃ worker, state.main = .waitPaused worker ∧ (state.threads worker).runLock = .worker ∧
    (state.threads worker).pc = .returned

/-- A reload begins only while all workers are in their loops, and a worker leaves its loop only
when the main thread is not on its way to wait for it. -/
structure Orderly (state next : State) : Prop where
  reload : state.main = .outside → next.main ≠ .outside →
    ∀ worker, (state.threads worker).pc ≠ .returned
  leave (worker) : (state.threads worker).pc ≠ .returned →
    (next.threads worker).pc = .returned → ¬ state.main.Between .outside (.waitPaused worker)

/-- The main thread is not on its way to wait for a worker that has returned. -/
def Unawaited (state : State) : Prop :=
  ∀ worker, (state.threads worker).pc = .returned →
    ¬ state.main.Between .outside (.waitPaused worker)

namespace Unawaited
variable {state : State}

theorem launched (conf : CarbonConf) : Unawaited (launched conf) := fun _ returned =>
  nomatch returned

theorem not_deadlocked (unawaited : Unawaited state) : ¬ Deadlocked state := by
  rintro ⟨worker, main, _, returned⟩
  refine unawaited worker returned ?_
  rw [main]
  exact ⟨by simp only [MainPc.position]; omega, Nat.le_refl _⟩

/-- What the main thread does to the others makes none of them return. -/
theorem mainStep_returned (moved : MainStep worker main thread thread')
    (returned : thread'.pc = .returned) : thread.pc = .returned := by
  cases moved with
  | wake => contradiction
  | _ => exact returned

/-- The next statement of a reload that has already begun. -/
theorem proceed (unawaited : Unawaited state) (inside : state.main ≠ .outside)
    (returned : (state.threads worker).pc = .returned) :
    ¬ state.main.next.Between .outside (.waitPaused worker) := by
  have elsewhere := unawaited worker returned
  by_cases last : state.main = .waitPaused worker
  · rw [last]
    exact MainPc.between_ends
  · rwa [MainPc.between_next inside last]

theorem step (unawaited : Unawaited state) (moved : Step state next)
    (orderly : Orderly state next) : Unawaited next := by
  intro worker returned
  cases moved with
  | worker mover moved =>
    by_cases before : (state.threads worker).pc = .returned
    · exact unawaited worker before
    · exact orderly.leave worker before returned
  | rejected newConf outside => exact unawaited worker returned
  | accepted outside current same =>
    refine (orderly.reload outside ?_ worker returned).elim
    rw [outside]
    exact MainPc.noConfusion
  | main mover moved =>
    have inside : state.main ≠ .outside := by
      rcases moved.about with main | main | main | main | main <;> rw [main] <;>
        exact MainPc.noConfusion
    refine unawaited.proceed inside ?_
    by_cases same : worker = mover
    · subst same
      simp only [Function.update_self] at returned
      exact mainStep_returned moved returned
    · simpa only [Function.update_of_ne same] using returned
  | confFree main => exact unawaited.proceed (by rw [main]; exact MainPc.noConfusion) returned
  | install main => exact unawaited.proceed (by rw [main]; exact MainPc.noConfusion) returned

theorem signalStep (unawaited : Unawaited state) (moved : SignalStep state next)
    (orderly : Orderly state next) : Unawaited next := by
  cases moved with
  | step moved => exact unawaited.step moved orderly
  | sigint => exact unawaited

end Unawaited

/-- Who has the lock of a worker while the main thread is somewhere. -/
structure Locked (worker : Worker) (main : MainPc) (thread : CarbonThread) : Prop where
  own : thread.runLock = .worker ↔ thread.pc.locked = true
  paused : thread.runLock = .main ↔ main.Between (.waitPaused worker) (.unlock worker)

namespace Locked
variable {worker : Worker} {main : MainPc} {thread : CarbonThread}

theorem launched (worker : Worker) : Locked worker .outside ⟨.free, false, .runLock⟩ := by
  constructor <;> simp [Pc.locked, Pc.running, MainPc.Between, MainPc.position]

theorem not_paused (locked : Locked worker main thread) (other : thread.runLock ≠ .main) :
    ¬ main.Between (.waitPaused worker) (.unlock worker) :=
  fun paused => other (locked.paused.mpr paused)

theorem workerStep (locked : Locked worker main thread)
    (moved : WorkerStep conf thread thread') : Locked worker main thread' := by
  cases moved with
  | runLock pc free | relock pc free =>
    have elsewhere := locked.not_paused (by rw [free]; exact Owner.noConfusion)
    exact ⟨⟨fun _ => rfl, fun _ => rfl⟩,
      ⟨Owner.noConfusion, fun inside => (elsewhere inside).elim⟩⟩
  | condWait pc =>
    have mine : thread.runLock = .worker := locked.own.mpr (by rw [pc]; rfl)
    have elsewhere := locked.not_paused (by rw [mine]; exact Owner.noConfusion)
    exact ⟨⟨Owner.noConfusion, Bool.noConfusion⟩,
      ⟨Owner.noConfusion, fun inside => (elsewhere inside).elim⟩⟩
  | goOn pc | leave pc | mustPause pc | mayRun pc | spurious pc | body pc =>
    exact ⟨locked.own.trans (by rw [pc]; rfl), locked.paused⟩

/-- A statement that neither takes nor gives back this lock. -/
theorem proceed (locked : Locked worker main thread) (wait : main ≠ .waitPaused worker)
    (unlock : main ≠ .unlock worker) : Locked worker main.next thread :=
  ⟨locked.own, locked.paused.trans (MainPc.between_next wait unlock).symm⟩

theorem mainStep (locked : Locked worker main thread)
    (moved : MainStep worker main thread thread') : Locked worker main.next thread' := by
  cases moved with
  | orderPause | clearMustPause | nobodyWaits =>
    have same := locked.proceed MainPc.noConfusion MainPc.noConfusion
    exact ⟨same.own, same.paused⟩
  | wake asleep =>
    have same := locked.proceed MainPc.noConfusion MainPc.noConfusion
    exact ⟨same.own.trans (by rw [asleep]; rfl), same.paused⟩
  | waitPaused free =>
    have unlocked : thread.pc.locked ≠ true := fun mine => by
      rw [locked.own.mpr mine] at free
      contradiction
    have started := @MainPc.between_starts (.waitPaused worker) (.unlock worker)
      (by simp only [MainPc.position]; omega)
    exact ⟨⟨Owner.noConfusion, fun mine => (unlocked mine).elim⟩,
      ⟨fun _ => started, fun _ => rfl⟩⟩
  | unlock =>
    have held : thread.runLock = .main :=
      locked.paused.mpr ⟨by simp only [MainPc.position]; omega, Nat.le_refl _⟩
    have unlocked : thread.pc.locked ≠ true := fun mine => by
      rw [locked.own.mpr mine] at held
      contradiction
    exact ⟨⟨Owner.noConfusion, fun mine => (unlocked mine).elim⟩,
      ⟨Owner.noConfusion, fun inside => (MainPc.between_ends inside).elim⟩⟩

/-- Whatever happens, each lock is where its worker and the main thread have left it. -/
theorem step (locked : ∀ worker, Locked worker state.main (state.threads worker))
    (moved : SignalStep state next) (worker : Worker) :
    Locked worker next.main (next.threads worker) := by
  cases moved with
  | sigint => exact locked worker
  | step moved =>
    cases moved with
    | rejected => exact locked worker
    | accepted outside | confFree outside | install outside =>
      refine (locked worker).proceed ?_ ?_ <;> rw [outside] <;> exact MainPc.noConfusion
    | worker mover moved =>
      by_cases same : worker = mover
      · subst same
        simp only [Function.update_self]
        exact (locked worker).workerStep moved
      · simp only [Function.update_of_ne same]
        exact locked worker
    | main mover moved =>
      by_cases same : worker = mover
      · subst same
        simp only [Function.update_self]
        exact (locked worker).mainStep moved
      · simp only [Function.update_of_ne same]
        refine (locked worker).proceed ?_ ?_ <;>
          rcases moved.about with main | main | main | main | main <;> rw [main] <;>
          simp [Ne.symm same]

end Locked

/-- The main thread is on its way to wait for a worker that has returned. -/
def Awaited (worker : Worker) (state : State) : Prop :=
  (∀ worker, Locked worker state.main (state.threads worker)) ∧
    (state.threads worker).pc = .returned ∧ state.main.Between .outside (.waitPaused worker)

theorem WorkerStep.not_returned (moved : WorkerStep conf thread thread') :
    thread.pc ≠ .returned := by
  intro returned
  cases moved <;> simp_all

theorem MainStep.blocked {main : MainPc} (moved : MainStep worker main thread thread')
    (returned : thread.pc = .returned) (mine : thread.runLock = .worker) :
    thread'.pc = .returned ∧ main ≠ .waitPaused worker := by
  cases moved with
  | waitPaused free => exact nomatch mine.symm.trans free
  | wake asleep => exact nomatch returned.symm.trans asleep
  | _ => exact ⟨returned, MainPc.noConfusion⟩

theorem Awaited.step (awaited : Awaited worker state) (moved : SignalStep state next) :
    Awaited worker next := by
  obtain ⟨locked, returned, inside⟩ := awaited
  refine ⟨Locked.step locked moved, ?_⟩
  have mine : (state.threads worker).runLock = .worker :=
    (locked worker).own.mpr (by rw [returned]; rfl)
  have started : state.main ≠ .outside := fun outside => by
    rw [outside] at inside
    exact nomatch inside.1
  -- only the wait itself would lead out, and it does not return
  have further (stuck : state.main ≠ .waitPaused worker) :
      state.main.next.Between .outside (.waitPaused worker) :=
    (MainPc.between_next started stuck).mpr inside
  cases moved with
  | sigint => exact ⟨returned, inside⟩
  | step moved =>
    cases moved with
    | rejected => exact ⟨returned, inside⟩
    | accepted outside => exact (started outside).elim
    | confFree main | install main =>
      exact ⟨returned, further (by rw [main]; exact MainPc.noConfusion)⟩
    | worker mover moved =>
      have other : worker ≠ mover := fun same => moved.not_returned (same ▸ returned)
      exact ⟨by simpa only [Function.update_of_ne other] using returned, inside⟩
    | main mover moved =>
      by_cases same : worker = mover
      · subst same
        simp only [Function.update_self]
        obtain ⟨returned, stuck⟩ := moved.blocked returned mine
        exact ⟨returned, further stuck⟩
      · have stuck : state.main ≠ .waitPaused worker := fun main => by
          rcases moved.about with about | about | about | about | about <;> rw [main] at about <;>
            simp_all
        exact ⟨by simpa only [Function.update_of_ne same] using returned, further stuck⟩

/-- Any other step puts a returned worker in the main thread's way. -/
theorem awaited_of_disorderly (locked : ∀ worker, Locked worker state.main (state.threads worker))
    (moved : SignalStep state next) (disorderly : ¬ Orderly state next) :
    ∃ worker, Awaited worker next := by
  by_contra! none
  have unmet (worker) (returned : (next.threads worker).pc = .returned) :
      ¬ next.main.Between .outside (.waitPaused worker) :=
    fun inside => none worker ⟨Locked.step locked moved, returned, inside⟩
  refine disorderly ⟨fun outside begun worker returned => ?_, fun worker before after inside => ?_⟩
  · cases moved with
    | sigint => exact begun outside
    | step moved =>
      cases moved with
      | worker | rejected => exact begun outside
      | accepted =>
        refine unmet worker returned ?_
        rw [outside]
        exact MainPc.between_starts (by simp only [MainPc.position]; omega)
      | main mover moved =>
        rcases moved.about with main | main | main | main | main <;>
          exact MainPc.noConfusion (main.symm.trans outside)
      | confFree main | install main => exact MainPc.noConfusion (main.symm.trans outside)
  · cases moved with
    | sigint => exact before after
    | step moved =>
      cases moved with
      | worker => exact unmet worker after inside
      | rejected | accepted | confFree | install => exact before after
      | main mover moved =>
        by_cases same : worker = mover
        · subst same
          simp only [Function.update_self] at after
          exact before (Unawaited.mainStep_returned moved after)
        · exact before (by simpa only [Function.update_of_ne same] using after)

/-- A reload that overtakes a worker's way out never ends. -/
theorem awaited_for_ever (awaited : Awaited worker state) (run : Run SignalStep state later) :
    ∀ next ∈ state :: later, Awaited worker next :=
  run.invariant awaited fun _ _ awaited moved => awaited.step moved

end Carbond.Threads
