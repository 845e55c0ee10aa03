import Carbond.Bytes.Region
import Carbond.Posix.Program
import Mathlib.Algebra.Group.Int.Defs
import Mathlib.Algebra.GroupWithZero.Nat

/-! System calls on files. Every call first takes the outcome the kernel has in store for it;
an exhausted schedule means that all further calls succeed. -/
namespace Carbond.Posix
open Carbond.Bytes
variable {G α : Type}

/-- Where a C program stops instead of going on; `unfinished` is a loop followed no further. -/
inductive Fault where
  | divideByZero
  | nullDereference
  | useAfterFree
  | assertionFailed
  | bufferOverrun
  | exited
  | unfinished
  deriving DecidableEq, Repr

inductive Errno where
  | enoent
  | ebadf
  | einval
  | eisdir
  | other (code : Nat)
  deriving DecidableEq, Repr

/-- What the kernel does with one call. A short count only concerns transfers. -/
inductive Outcome where
  | ok
  | fail (errno : Errno)
  | short (count : Nat)
  deriving DecidableEq, Repr

abbrev Path := List Char

inductive Node where
  | directory
  | file (contents : List UInt8)
  deriving DecidableEq, Repr

structure Descriptor where
  path : Path
  pos : Nat
  deriving DecidableEq, Repr

/-- The file system, the open files and the program's own globals. -/
structure World (G : Type) where
  nodes : Path → Option Node
  descriptors : Nat → Option Descriptor
  nextFd : Nat
  outcomes : List Outcome
  globals : G

abbrev Proc (G : Type) := EStateM Fault (World G)

/-- A descriptor as C holds it; `none` is the value -1. -/
abbrev Fd := Option Nat

def nextOutcome : Proc G Outcome := do
  let w ← get
  match w.outcomes with
  | [] => return .ok
  | outcome :: rest =>
    set { w with outcomes := rest }
    return outcome

/-- Fresh descriptors are never reused, so a leaked one is never seen again. -/
def openFile (path : Path) (create : Bool) : Proc G (Except Errno Nat) := do
  match ← nextOutcome with
  | .fail errno => return .error errno
  | _ =>
    let w ← get
    let opened : World G := { w with
      descriptors := Function.update w.descriptors w.nextFd (some ⟨path, 0⟩)
      nextFd := w.nextFd + 1 }
    match w.nodes path with
    | some (.file _) =>
      set opened
      return .ok w.nextFd
    | some .directory => return .error .eisdir
    | none =>
      if create ∧ path ≠ [] then
        set { opened with nodes := Function.update w.nodes path (some (.file [])) }
        return .ok w.nextFd
      else return .error .enoent

def descriptorOf (fd : Fd) (w : World G) : Option (Nat × Descriptor) :=
  fd.bind fun n => (w.descriptors n).map fun d => (n, d)

def lseek (fd : Fd) (offset : Int) : Proc G (Except Errno Nat) := do
  match ← nextOutcome with
  | .fail errno => return .error errno
  | _ =>
    let w ← get
    match descriptorOf fd w with
    | none => return .error .ebadf
    | some (n, d) =>
      if offset < 0 then return .error .einval
      else
        set { w with descriptors :=
          Function.update w.descriptors n (some { d with pos := offset.toNat }) }
        return .ok offset.toNat

/-- The largest transfer `read` accepts on a 64-bit kernel. -/
def ssizeMax : Nat := 2 ^ 63 - 1

def read (fd : Fd) (count : Nat) : Proc G (Except Errno (List UInt8)) := do
  match ← nextOutcome with
  | .fail errno => return .error errno
  | outcome =>
    let w ← get
    match descriptorOf fd w with
    | none => return .error .ebadf
    | some (n, d) =>
      if ssizeMax < count then return .error .einval
      else match w.nodes d.path with
      | some (.file contents) =>
        let granted := match outcome with
          | .short limit => min limit count
          | _ => count
        let got := readAt contents d.pos granted
        set { w with descriptors :=
          Function.update w.descriptors n (some { d with pos := d.pos + got.length }) }
        return .ok got
      | _ => return .error .eisdir

def write (fd : Fd) (data : List UInt8) : Proc G (Except Errno Nat) := do
  match ← nextOutcome with
  | .fail errno => return .error errno
  | outcome =>
    let w ← get
    match descriptorOf fd w with
    | none => return .error .ebadf
    | some (n, d) =>
      match w.nodes d.path with
      | some (.file contents) =>
        let put := match outcome with
          | .short limit => data.take limit
          | _ => data
        set { w with
          nodes := Function.update w.nodes d.path (some (.file (writeAt contents d.pos put)))
          descriptors := Function.update w.descriptors n (some { d with pos := d.pos + put.length }) }
        return .ok put.length
      | _ => return .error .eisdir

def close (fd : Fd) : Proc G Unit := do
  match ← nextOutcome with
  | .fail _ => return ()
  | _ => modify fun w => match fd with
    | some n => { w with descriptors := Function.update w.descriptors n none }
    | none => w

/-- Whether the path is a directory. -/
def stat (path : Path) : Proc G (Except Errno Bool) := do
  match ← nextOutcome with
  | .fail errno => return .error errno
  | _ =>
    let w ← get
    match w.nodes path with
    | some .directory => return .ok true
    | some (.file _) => return .ok false
    | none => return .error .enoent

def mkdir (path : Path) : Proc G (Except Errno Unit) := do
  match ← nextOutcome with
  | .fail errno => return .error errno
  | _ =>
    let w ← get
    if w.nodes path = none ∧ path ≠ [] then
      set { w with nodes := Function.update w.nodes path (some .directory) }
      return .ok ()
    else return .error .einval

/-- An open regular file at a position, in a world where every call succeeds. -/
structure Opened (w : World G) (fd : Nat) (path : Path) (contents : List UInt8) (pos : Nat) :
    Prop where
  quiet : w.outcomes = []
  descriptor : w.descriptors fd = some ⟨path, pos⟩
  node : w.nodes path = some (.file contents)

namespace World

/-- The world with one open file's contents and position replaced. -/
def put (w : World G) (fd : Nat) (path : Path) (contents : List UInt8) (pos : Nat) : World G :=
  { w with
    nodes := Function.update w.nodes path (some (.file contents))
    descriptors := Function.update w.descriptors fd (some ⟨path, pos⟩) }

def withGlobals (w : World G) (globals : G) : World G := { w with globals := globals }

@[simp] theorem put_put (w : World G) : (w.put fd path c pos).put fd path c' pos' =
    w.put fd path c' pos' := by
  simp [put]

@[simp] theorem put_withGlobals_put (w : World G) :
    ((w.put fd path c pos).withGlobals g).put fd path c' pos' =
      (w.put fd path c' pos').withGlobals g := by
  simp [put, withGlobals]

@[simp] theorem withGlobals_withGlobals (w : World G) :
    (w.withGlobals g).withGlobals g' = w.withGlobals g' := rfl

@[simp] theorem put_globals (w : World G) : (w.put fd path c pos).globals = w.globals := rfl

@[simp] theorem withGlobals_globals (w : World G) : (w.withGlobals g).globals = g := rfl

@[simp] theorem put_outcomes (w : World G) : (w.put fd path c pos).outcomes = w.outcomes := rfl

@[simp] theorem put_node (w : World G) :
    (w.put fd path c pos).nodes path = some (.file c) := by
  simp [put]

end World

namespace Opened
variable {w : World G}

theorem put (quiet : w.outcomes = []) : Opened (w.put fd path c pos) fd path c pos :=
  ⟨quiet, by simp [World.put], by simp [World.put]⟩

theorem moved (opened : Opened w fd path c pos) (c' : List UInt8) (pos' : ℕ) :
    Opened (w.put fd path c' pos') fd path c' pos' := put opened.quiet

theorem withGlobals (opened : Opened w fd path c pos) :
    Opened (w.withGlobals g) fd path c pos :=
  ⟨opened.quiet, opened.descriptor, opened.node⟩

theorem contents_unique (opened : Opened w fd path c pos) (opened' : Opened w fd path c' pos') :
    c = c' := by
  have same := opened.node.symm.trans opened'.node
  simpa using same

theorem put_self (opened : Opened w fd path c pos) : w.put fd path c pos = w := by
  simp only [World.put, ← opened.node, ← opened.descriptor, Function.update_eq_self]

end Opened

theorem nextOutcome_quiet {w : World G} (quiet : w.outcomes = []) :
    Yields nextOutcome w .ok w := by
  refine .bind (.get w) ?_
  rw [quiet]
  exact .pure _ _

theorem lseek_yields {w : World G} (opened : Opened w fd path c pos) (offset : Int)
    (valid : 0 ≤ offset) :
    Yields (lseek (some fd) offset) w (.ok offset.toNat) (w.put fd path c offset.toNat) := by
  refine .bind (nextOutcome_quiet opened.quiet) (.bind (.get w) ?_)
  simp only [descriptorOf, Option.bind_some, opened.descriptor, Option.map_some]
  rw [if_neg (Int.not_lt.mpr valid)]
  simp only [World.put, ← opened.node, Function.update_eq_self]
  rfl

theorem lseek_negative {w : World G} (opened : Opened w fd path c pos) (negative : offset < 0) :
    Yields (lseek (some fd) offset) w (.error .einval) w := by
  refine .bind (nextOutcome_quiet opened.quiet) (.bind (.get w) ?_)
  simp only [descriptorOf, Option.bind_some, opened.descriptor, Option.map_some, if_pos negative]
  rfl

theorem lseek_closed {w : World G} (quiet : w.outcomes = []) :
    Yields (lseek none offset) w (.error .ebadf) w :=
  .bind (nextOutcome_quiet quiet) (.bind (.get w) rfl)

theorem read_yields {w : World G} (opened : Opened w fd path c pos) (count : Nat)
    (fits : count ≤ ssizeMax) :
    Yields (read (some fd) count) w (.ok (readAt c pos count))
      (w.put fd path c (pos + (readAt c pos count).length)) := by
  refine .bind (nextOutcome_quiet opened.quiet) (.bind (.get w) ?_)
  simp only [descriptorOf, Option.bind_some, opened.descriptor, Option.map_some,
    if_neg (Nat.not_lt.mpr fits), opened.node]
  simp only [World.put, ← opened.node, Function.update_eq_self]
  rfl

theorem read_too_long {w : World G} (opened : Opened w fd path c pos) (long : ssizeMax < count) :
    Yields (read (some fd) count) w (.error .einval) w := by
  refine .bind (nextOutcome_quiet opened.quiet) (.bind (.get w) ?_)
  simp only [descriptorOf, Option.bind_some, opened.descriptor, Option.map_some, if_pos long]
  rfl

theorem write_yields {w : World G} (opened : Opened w fd path c pos) (data : List UInt8) :
    Yields (write (some fd) data) w (.ok data.length)
      (w.put fd path (writeAt c pos data) (pos + data.length)) := by
  refine .bind (nextOutcome_quiet opened.quiet) (.bind (.get w) ?_)
  simp only [descriptorOf, Option.bind_some, opened.descriptor, Option.map_some, opened.node]
  rfl

/-- Closing touches no file. -/
theorem close_yields {w : World G} (quiet : w.outcomes = []) (fd : Fd) :
    ∃ descriptors, Yields (close fd) w () { w with descriptors := descriptors } := by
  cases fd with
  | none => exact ⟨_, .bind (nextOutcome_quiet quiet) (.update _ _)⟩
  | some n => exact ⟨_, .bind (nextOutcome_quiet quiet) (.update _ _)⟩

theorem stat_yields {w : World G} (quiet : w.outcomes = []) (path : Path) :
    Yields (stat path) w (match w.nodes path with
      | some .directory => .ok true
      | some (.file _) => .ok false
      | none => .error .enoent) w := by
  refine .bind (nextOutcome_quiet quiet) (.bind (.get w) ?_)
  cases w.nodes path with
  | none => exact .pure _ _
  | some node =>
    cases node with
    | directory => exact .pure _ _
    | file contents => exact .pure _ _

theorem mkdir_yields {w : World G} (quiet : w.outcomes = []) (free : w.nodes path = none)
    (named : path ≠ []) : Yields (mkdir path) w (.ok ())
      { w with nodes := Function.update w.nodes path (some .directory) } := by
  refine .bind (nextOutcome_quiet quiet) (.bind (.get w) ?_)
  simp only [free, named, ne_eq, not_false_eq_true, and_self, if_true]
  rfl

theorem mkdir_unnamed {w : World G} (quiet : w.outcomes = []) :
    Yields (mkdir []) w (.error .einval) w := by
  refine .bind (nextOutcome_quiet quiet) (.bind (.get w) ?_)
  simp only [ne_eq, not_true_eq_false, and_false, if_false]
  exact .pure _ _

/-- A file opened is at its beginning. -/
theorem openFile_yields {w : World G} (quiet : w.outcomes = [])
    (found : w.nodes path = some (.file c)) (create : Bool) :
    ∃ w', Yields (openFile path create) w (.ok w.nextFd) w' ∧ Opened w' w.nextFd path c 0 ∧
      w'.globals = w.globals := by
  let w' : World G := { w with
    descriptors := Function.update w.descriptors w.nextFd (some ⟨path, 0⟩)
    nextFd := w.nextFd + 1 }
  refine ⟨w', .bind (nextOutcome_quiet quiet) (.bind (.get w) ?_), ?_, rfl⟩
  · simp only [found]
    rfl
  · exact ⟨quiet, by simp [w'], found⟩

theorem openFile_creates {w : World G} (quiet : w.outcomes = []) (fresh : w.nodes path = none)
    (named : path ≠ []) : ∃ w', Yields (openFile path true) w (.ok w.nextFd) w' ∧
      Opened w' w.nextFd path [] 0 ∧ w'.globals = w.globals := by
  let w' : World G := { w with
    descriptors := Function.update w.descriptors w.nextFd (some ⟨path, 0⟩)
    nextFd := w.nextFd + 1
    nodes := Function.update w.nodes path (some (.file [])) }
  refine ⟨w', .bind (nextOutcome_quiet quiet) (.bind (.get w) ?_), ?_, rfl⟩
  · simp only [fresh, named, ne_eq, not_false_eq_true, and_self, if_true]
    rfl
  · exact ⟨quiet, by simp [w'], by simp [w']⟩

theorem openFile_absent {w : World G} (quiet : w.outcomes = []) (fresh : w.nodes path = none)
    (refused : create = false ∨ path = []) :
    Yields (openFile path create) w (.error .enoent) w := by
  refine .bind (nextOutcome_quiet quiet) (.bind (.get w) ?_)
  simp only [fresh]
  rw [if_neg]
  · exact .pure _ _
  · rintro ⟨created, named⟩
    rcases refused with off | unnamed
    · rw [off] at created
      contradiction
    · exact named unnamed

end Carbond.Posix
