import Carbond.Common
import Carbond.Heap.Cells
import Carbond.Transition.Runs

/-! How the main thread pauses the workers to replace the configuration: the workers' loop, the
statements of `conf_reload`, and between them a lock, a flag and a condition for each worker. -/
namespace Carbond.Threads
open Heap

/-- In the order in which the main thread goes through them. -/
inductive Worker where
  | receiverUdp
  | receiverTcp
  | writer
  | monitoring
  deriving DecidableEq

def Worker.next : Worker → Option Worker
  | .receiverUdp => some .receiverTcp
  | .receiverTcp => some .writer
  | .writer => some .monitoring
  | .monitoring => none

inductive Owner where
  | free
  | main
  | worker
  deriving DecidableEq

/-- What a worker does next. The lines logged around the wait belong to the call of
`pthread_cond_wait` and to the body. The loop starts with the lock: what comes before it (the
writer logs a line there) is no part of the protocol. -/
inductive Pc where
  | runLock
  | testRun
  | testPause
  | condWait
  /-- Inside `pthread_cond_wait`, not signalled. -/
  | asleep
  /-- Inside `pthread_cond_wait`, about to take the lock again. -/
  | woken
  | body
  | returned
  deriving DecidableEq

/-- `can_run` is the set of workers that are asleep. -/
structure CarbonThread where
  runLock : Owner
  mustPause : Bool
  pc : Pc

/-- What the main thread does next: `outside` of `conf_reload`, or a statement of it. Each
`thread_resume` has three. -/
inductive MainPc where
  | outside
  | orderPause (worker : Worker)
  | waitPaused (worker : Worker)
  | confFree
  | install
  | clearMustPause (worker : Worker)
  | signal (worker : Worker)
  | unlock (worker : Worker)
  deriving DecidableEq

def MainPc.next : MainPc → MainPc
  | .outside => .orderPause .receiverUdp
  | .orderPause worker => worker.next.elim (.waitPaused .receiverUdp) .orderPause
  | .waitPaused worker => worker.next.elim .confFree .waitPaused
  | .confFree => .install
  | .install => .clearMustPause .receiverUdp
  | .clearMustPause worker => .signal worker
  | .signal worker => .unlock worker
  | .unlock worker => worker.next.elim .outside .clearMustPause

structure State where
  threads : Worker → CarbonThread
  main : MainPc
  confs : Cells CarbonConf
  conf : ℕ
  newConf : ℕ

def State.current (state : State) : Option CarbonConf := state.confs.cells state.conf

/-- All four threads are launched, and none of them has run yet. -/
def launched (conf : CarbonConf) : State where
  threads _ := ⟨.free, false, .runLock⟩
  main := .outside
  confs := Cells.empty.alloc conf
  conf := 0
  newConf := 0

/-- A step of a worker's own. What it reads from a freed configuration may be anything. -/
inductive WorkerStep (conf : Option CarbonConf) : CarbonThread → CarbonThread → Prop
  | runLock : thread.pc = .runLock → thread.runLock = .free →
      WorkerStep conf thread { thread with runLock := .worker, pc := .testRun }
  | goOn : thread.pc = .testRun → (∀ c, conf = some c → c.run = true) →
      WorkerStep conf thread { thread with pc := .testPause }
  | leave : thread.pc = .testRun → (∀ c, conf = some c → c.run = false) →
      WorkerStep conf thread { thread with pc := .returned }
  | mustPause : thread.pc = .testPause → thread.mustPause = true →
      WorkerStep conf thread { thread with pc := .condWait }
  | mayRun : thread.pc = .testPause → thread.mustPause = false →
      WorkerStep conf thread { thread with pc := .body }
  | condWait : thread.pc = .condWait →
      WorkerStep conf thread { thread with runLock := .free, pc := .asleep }
  | spurious : thread.pc = .asleep → WorkerStep conf thread { thread with pc := .woken }
  | relock : thread.pc = .woken → thread.runLock = .free →
      WorkerStep conf thread { thread with runLock := .worker, pc := .body }
  | body : thread.pc = .body → WorkerStep conf thread { thread with pc := .testRun }

/-- What a statement of the main thread does to the thread it is about. -/
inductive MainStep (worker : Worker) : MainPc → CarbonThread → CarbonThread → Prop
  | orderPause (thread) :
      MainStep worker (.orderPause worker) thread { thread with mustPause := true }
  | waitPaused : thread.runLock = .free →
      MainStep worker (.waitPaused worker) thread { thread with runLock := .main }
  | clearMustPause (thread) :
      MainStep worker (.clearMustPause worker) thread { thread with mustPause := false }
  | wake : thread.pc = .asleep →
      MainStep worker (.signal worker) thread { thread with pc := .woken }
  | nobodyWaits : thread.pc ≠ .asleep → MainStep worker (.signal worker) thread thread
  | unlock (thread) : MainStep worker (.unlock worker) thread { thread with runLock := .free }

/-- Any thread may be next. A reload first builds a configuration that runs like the current one;
if it cannot be parsed that is all. -/
inductive Step : State → State → Prop
  | worker (worker) : WorkerStep state.current (state.threads worker) thread →
      Step state { state with threads := Function.update state.threads worker thread }
  | rejected (newConf) : state.main = .outside →
      Step state { state with confs := state.confs.alloc newConf }
  | accepted : state.main = .outside → state.current = some conf → newConf.run = conf.run →
      Step state { state with
        confs := state.confs.alloc newConf
        newConf := state.confs.next
        main := state.main.next }
  | main (worker) : MainStep worker state.main (state.threads worker) thread →
      Step state { state with
        threads := Function.update state.threads worker thread
        main := state.main.next }
  | confFree : state.main = .confFree →
      Step state { state with confs := state.confs.free state.conf, main := state.main.next }
  | install : state.main = .install →
      Step state { state with conf := state.newConf, main := state.main.next }

end Carbond.Threads
