import Carbond.Posix.Program

/-! Programs that also note events as they run. The notes decide nothing: without them the
program is the one it annotates. -/
namespace Carbond.Posix
variable {ε σ κ α β : Type}

abbrev Noted (ε σ κ : Type) := EStateM ε (σ × List κ)

/-- Runs a program that notes nothing. -/
def quietly (program : EStateM ε σ α) : Noted ε σ κ α := fun s =>
  match program s.1 with
  | .ok a t => .ok a (t, s.2)
  | .error e t => .error e (t, s.2)

def note (event : κ) : Noted ε σ κ Unit := modify fun s => (s.1, s.2 ++ [event])

/-- The notes of a run from this state, also of one that stops. -/
def notesOf (program : Noted ε σ κ α) (s : σ) : List κ :=
  match program (s, []) with
  | .ok _ t => t.2
  | .error _ t => t.2

def dropNotes : EStateM.Result ε (σ × List κ) α → EStateM.Result ε σ α
  | .ok a t => .ok a t.1
  | .error e t => .error e t.1

def Annotates (noted : Noted ε σ κ α) (program : EStateM ε σ α) : Prop :=
  ∀ s notes, dropNotes (noted (s, notes)) = program s

namespace Annotates

theorem pure (a : α) : Annotates (Pure.pure a : Noted ε σ κ α) (Pure.pure a) := fun _ _ => rfl

theorem throw (e : ε) :
    Annotates (MonadExcept.throw e : Noted ε σ κ α) (MonadExcept.throw e) := fun _ _ => rfl

theorem quietly (program : EStateM ε σ α) :
    Annotates (Posix.quietly program : Noted ε σ κ α) program := by
  intro s notes
  unfold Posix.quietly
  cases executed : program s with
  | ok a t => simp only [dropNotes]
  | error e t => simp only [dropNotes]

theorem bind {noted : Noted ε σ κ α} {program : EStateM ε σ α} {rest : α → Noted ε σ κ β}
    {rest' : α → EStateM ε σ β} (first : Annotates noted program)
    (second : ∀ a, Annotates (rest a) (rest' a)) : Annotates (noted >>= rest) (program >>= rest') := by
  intro s notes
  have head := first s notes
  change dropNotes (EStateM.bind noted rest (s, notes)) = EStateM.bind program rest' s
  simp only [EStateM.bind, ← head]
  cases noted (s, notes) with
  | ok a t => exact second a t.1 t.2
  | error e t => rfl

/-- A note on the way changes nothing. -/
theorem note {noted : Noted ε σ κ α} {program : EStateM ε σ α} (rest : Annotates noted program)
    (event : κ) : Annotates (Posix.note event >>= fun _ => noted) program :=
  fun s notes => rest s (notes ++ [event])

end Annotates

variable {post : α → σ → Prop} {fault : ε → σ → Prop} {s : σ}

theorem Yields.quietly {program : EStateM ε σ α} (run : Yields program s a t) (notes : List κ) :
    Yields (quietly program) (s, notes) a (t, notes) := by
  simp only [Yields] at run
  simp only [Yields, Posix.quietly, run]

theorem Ends.quietly {program : EStateM ε σ α} (ends : Ends s program post fault)
    (notes : List κ) :
    Ends (s, notes) (quietly program) (fun a t => post a t.1 ∧ t.2 = notes)
      (fun e t => fault e t.1 ∧ t.2 = notes) := by
  cases executed : program s with
  | ok a t => exact .of_yields (Yields.quietly executed notes) ⟨ends.returns a t executed, rfl⟩
  | error e t =>
    have stopped : Posix.quietly program (s, notes) = .error e (t, notes) := by
      simp only [Posix.quietly, executed]
    constructor
    · intro a u result
      cases stopped.symm.trans result
    · intro e' u result
      cases stopped.symm.trans result
      exact ⟨ends.stops e t executed, rfl⟩

/-- Whatever it does, such a program leaves the notes alone. -/
theorem quietly_ends (program : EStateM ε σ α) (s : σ) (notes : List κ) :
    Ends (s, notes) (quietly program) (fun _ t => t.2 = notes) (fun _ t => t.2 = notes) := by
  have any : Ends s program (fun _ _ => True) (fun _ _ => True) :=
    ⟨fun _ _ _ => trivial, fun _ _ _ => trivial⟩
  exact (any.quietly notes).weaken (fun _ _ kept => kept.2) fun _ _ kept => kept.2

theorem note_yields (event : κ) (s : σ) (notes : List κ) :
    Yields (note event : Noted ε σ κ Unit) (s, notes) () (s, notes ++ [event]) := rfl

theorem notesOf_of_ends {program : Noted ε σ κ α} {holds : List κ → Prop}
    (ends : Ends (s, []) program (fun _ t => holds t.2) (fun _ t => holds t.2)) :
    holds (notesOf program s) := by
  unfold notesOf
  cases executed : program (s, []) with
  | ok a t => exact ends.returns a t executed
  | error e t => exact ends.stops e t executed

end Carbond.Posix
