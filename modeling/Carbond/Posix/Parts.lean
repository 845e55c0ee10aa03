import Carbond.Posix.Program

/-! Programs on two states at once, each part of which works on one of them. Where the first state
is known throughout, the program does to the second one what an effect of its own does. -/
namespace Carbond.Posix
variable {ε σ τ α β : Type}

/-- A program on the first state. -/
def onFirst (program : EStateM ε σ α) : EStateM ε (σ × τ) α := fun s =>
  match program s.1 with
  | .ok a t => .ok a (t, s.2)
  | .error e t => .error e (t, s.2)

/-- A program on the second state. -/
def onSecond (program : EStateM ε τ α) : EStateM ε (σ × τ) α := fun s =>
  match program s.2 with
  | .ok a t => .ok a (s.1, t)
  | .error e t => .error e (s.1, t)

theorem Yields.onFirst {program : EStateM ε σ α} (run : Yields program s a s') (t : τ) :
    Yields (onFirst program) (s, t) a (s', t) := by
  simp only [Yields] at run
  simp only [Yields, Posix.onFirst, run]

theorem Yields.onSecond {program : EStateM ε τ α} (run : Yields program t a t') (s : σ) :
    Yields (onSecond program) (s, t) a (s, t') := by
  simp only [Yields] at run
  simp only [Yields, Posix.onSecond, run]

theorem Ends.onFirst {program : EStateM ε σ α} {post : α → σ → Prop} {fault : ε → σ → Prop}
    (ends : Ends s program post fault) (t : τ) :
    Ends (s, t) (onFirst program) (fun a after => post a after.1 ∧ after.2 = t)
      (fun e after => fault e after.1 ∧ after.2 = t) := by
  cases executed : program s with
  | ok a s' => exact .of_yields (Yields.onFirst executed t) ⟨ends.returns a s' executed, rfl⟩
  | error e s' =>
    have stopped : Posix.onFirst program (s, t) = .error e (s', t) := by
      simp only [Posix.onFirst, executed]
    constructor
    · intro a after ran
      cases stopped.symm.trans ran
    · intro e' after stopped'
      cases stopped.symm.trans stopped'
      exact ⟨ends.stops e s' executed, rfl⟩

theorem Ends.onSecond {program : EStateM ε τ α} {post : α → τ → Prop} {fault : ε → τ → Prop}
    (ends : Ends t program post fault) (s : σ) :
    Ends (s, t) (onSecond program) (fun a after => after.1 = s ∧ post a after.2)
      (fun e after => after.1 = s ∧ fault e after.2) := by
  cases executed : program t with
  | ok a t' => exact .of_yields (Yields.onSecond executed s) ⟨rfl, ends.returns a t' executed⟩
  | error e t' =>
    have stopped : Posix.onSecond program (s, t) = .error e (s, t') := by
      simp only [Posix.onSecond, executed]
    constructor
    · intro a after ran
      cases stopped.symm.trans ran
    · intro e' after stopped'
      cases stopped.symm.trans stopped'
      exact ⟨rfl, ends.stops e t' executed⟩

/-- What holds of a state of two parts, through a program on the first. -/
theorem Keeps.onFirst {invariant : σ × τ → Prop} {program : EStateM ε σ α}
    (keeps : ∀ t, Keeps (fun s => invariant (s, t)) program) : Keeps invariant (onFirst program) := by
  rintro ⟨s, t⟩ holds
  refine ((keeps t s holds).onFirst t).weaken ?_ ?_
  · rintro _ ⟨s', _⟩ ⟨kept, rfl⟩
    exact kept
  · rintro _ ⟨s', _⟩ ⟨kept, rfl⟩
    exact kept

theorem Keeps.onSecond {invariant : σ × τ → Prop} {program : EStateM ε τ α}
    (keeps : ∀ s, Keeps (fun t => invariant (s, t)) program) : Keeps invariant (onSecond program) := by
  rintro ⟨s, t⟩ holds
  refine ((keeps s t holds).onSecond s).weaken ?_ ?_
  · rintro _ ⟨_, t'⟩ ⟨rfl, kept⟩
    exact kept
  · rintro _ ⟨_, t'⟩ ⟨rfl, kept⟩
    exact kept

/-- The program takes the first state from `s` to `s'`, and does to the second one what the effect
does, unless that stops. -/
def Carries (program : EStateM ε (σ × τ) α) (s s' : σ) (effect : EStateM ε τ Unit) : Prop :=
  ∀ t, match effect t with
    | .ok _ t' => ∃ a, program (s, t) = .ok a (s', t')
    | .error e t' => ∃ s'', program (s, t) = .error e (s'', t')

namespace Carries
variable {s s' s₁ : σ}

theorem pure (a : α) (s : σ) :
    Carries (Pure.pure a : EStateM ε (σ × τ) α) s s (Pure.pure ()) := fun _ => ⟨a, rfl⟩

theorem second (program : EStateM ε τ α) (s : σ) :
    Carries (onSecond program) s s (program >>= fun _ => Pure.pure ()) := by
  intro t
  cases executed : program t with
  | ok a t' =>
    rw [Yields.rest_eq executed]
    exact ⟨a, by simp only [onSecond, executed]⟩
  | error e t' =>
    rw [stops_bind executed]
    exact ⟨s, by simp only [onSecond, executed]⟩

/-- A beginning on the first state, whose result is known. -/
theorem after {first : EStateM ε σ α} {rest : α → EStateM ε (σ × τ) β} {effect : EStateM ε τ Unit}
    (head : Yields first s a s₁) (tail : Carries (rest a) s₁ s' effect) :
    Carries (onFirst first >>= rest) s s' effect := by
  intro t
  have known := tail t
  rw [(head.onFirst t).rest_eq rest]
  exact known

theorem bind {first : EStateM ε (σ × τ) α} {rest : α → EStateM ε (σ × τ) β}
    {effect effect' : EStateM ε τ Unit} (head : Carries first s s₁ effect)
    (tail : ∀ a, Carries (rest a) s₁ s' effect') :
    Carries (first >>= rest) s s' (effect >>= fun _ => effect') := by
  intro t
  have known := head t
  cases executed : effect t with
  | ok u t₁ =>
    rw [executed] at known
    obtain ⟨a, run⟩ := known
    rw [Yields.rest_eq executed, Yields.rest_eq run]
    exact tail a t₁
  | error e t₁ =>
    rw [executed] at known
    obtain ⟨s'', stopped⟩ := known
    rw [stops_bind executed]
    exact ⟨s'', stops_bind stopped rest⟩

/-- Where the effect returns in `post` or stops in `fault`, so does the program. -/
theorem ends {program : EStateM ε (σ × τ) α} {effect : EStateM ε τ Unit}
    {post : τ → Prop} {fault : ε → τ → Prop} (carries : Carries program s s' effect)
    (effects : Ends t effect (fun _ => post) fault) :
    Ends (s, t) program (fun _ after => after.1 = s' ∧ post after.2)
      (fun e after => fault e after.2) := by
  have known := carries t
  cases executed : effect t with
  | ok u t' =>
    rw [executed] at known
    obtain ⟨a, run⟩ := known
    exact .of_yields run ⟨rfl, effects.returns u t' executed⟩
  | error e t' =>
    rw [executed] at known
    obtain ⟨s'', stopped⟩ := known
    constructor
    · intro a after ran
      cases stopped.symm.trans ran
    · intro e' after stopped'
      cases stopped.symm.trans stopped'
      exact effects.stops e t' executed

end Carries
end Carbond.Posix
