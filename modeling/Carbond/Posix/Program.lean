import Mathlib.Logic.Function.Basic

/-! Programs over an explicit state that stop with a fault, with their state kept. Two
judgments: the one result of a program that runs through, and what holds where a program
returns or stops. -/
namespace Carbond.Posix
variable {ε σ α β : Type}

/-- The program returns this result in this state. -/
def Yields (program : EStateM ε σ α) (before : σ) (result : α) (after : σ) : Prop :=
  program before = .ok result after

namespace Yields

theorem pure (a : α) (s : σ) : Yields (Pure.pure a : EStateM ε σ α) s a s := rfl

/-- A beginning that runs through leaves the rest. -/
theorem rest_eq {first : EStateM ε σ α} (head : Yields first s a t) (rest : α → EStateM ε σ β) :
    (first >>= rest) s = rest a t := by
  change EStateM.bind first rest s = _
  simp only [EStateM.bind, show first s = .ok a t from head]

theorem bind {first : EStateM ε σ α} {rest : α → EStateM ε σ β}
    (head : Yields first s a t) (tail : Yields (rest a) t b u) :
    Yields (first >>= rest) s b u := (head.rest_eq rest).trans tail

theorem get (s : σ) : Yields (MonadState.get : EStateM ε σ σ) s s s := rfl

theorem update (f : σ → σ) (s : σ) : Yields (modify f : EStateM ε σ PUnit) s ⟨⟩ (f s) := rfl

theorem set (s' s : σ) : Yields (MonadStateOf.set s' : EStateM ε σ PUnit) s ⟨⟩ s' := rfl

theorem unique {program : EStateM ε σ α} (first : Yields program s a t)
    (second : Yields program s b u) : a = b ∧ t = u := by
  have same : EStateM.Result.ok a t = EStateM.Result.ok b u := first.symm.trans second
  cases same
  exact ⟨rfl, rfl⟩

end Yields

/-- A beginning that stops is all that runs. -/
theorem stops_bind {first : EStateM ε σ α} (stopped : first s = .error e t)
    (rest : α → EStateM ε σ β) : (first >>= rest) s = .error e t := by
  change EStateM.bind first rest s = _
  simp only [EStateM.bind, stopped]

/-- A program that runs through has run through its beginning. -/
theorem Yields.split {first : EStateM ε σ α} {rest : α → EStateM ε σ β}
    (run : Yields (first >>= rest) s b u) : ∃ a t, Yields first s a t ∧ Yields (rest a) t b u := by
  cases executed : first s with
  | ok a t => exact ⟨a, t, executed, (Yields.rest_eq executed rest).symm.trans run⟩
  | error e t => cases (stops_bind executed rest).symm.trans run

/-- A program that stops has done so in its beginning or behind it. -/
theorem stops_split {first : EStateM ε σ α} {rest : α → EStateM ε σ β}
    (stopped : (first >>= rest) s = .error e u) :
    first s = .error e u ∨ ∃ a t, Yields first s a t ∧ rest a t = .error e u := by
  cases executed : first s with
  | ok a t => exact .inr ⟨a, t, executed, (Yields.rest_eq executed rest).symm.trans stopped⟩
  | error e' t =>
    cases (stops_bind executed rest).symm.trans stopped
    exact .inl rfl

/-- The result of a program, if it returns. -/
def resultOf (program : EStateM ε σ α) (s : σ) : Option α :=
  match program s with
  | .ok a _ => some a
  | .error _ _ => none

/-- The fault a program stops with, if it stops. -/
def faultOf (program : EStateM ε σ α) (s : σ) : Option ε :=
  match program s with
  | .ok _ _ => none
  | .error e _ => some e

theorem Yields.of_resultOf {program : EStateM ε σ α} (ran : resultOf program s = some a) :
    ∃ t, Yields program s a t := by
  cases executed : program s with
  | ok b t =>
    simp only [resultOf, executed] at ran
    obtain rfl := Option.some.inj ran
    exact ⟨t, executed⟩
  | error e t =>
    simp only [resultOf, executed] at ran
    contradiction

theorem stops_of_faultOf {program : EStateM ε σ α} (stopped : faultOf program s = some e) :
    ∃ t, program s = .error e t := by
  cases executed : program s with
  | ok a t =>
    simp only [faultOf, executed] at stopped
    contradiction
  | error e' t =>
    simp only [faultOf, executed] at stopped
    obtain rfl := Option.some.inj stopped
    exact ⟨t, rfl⟩

/-- From this state the program returns in `post` or stops in `fault`. -/
structure Ends (before : σ) (program : EStateM ε σ α) (post : α → σ → Prop)
    (fault : ε → σ → Prop) : Prop where
  returns : ∀ a after, program before = .ok a after → post a after
  stops : ∀ e after, program before = .error e after → fault e after

namespace Ends
variable {post : α → σ → Prop} {fault : ε → σ → Prop} {s : σ}

theorem pure (holds : post a s) : Ends s (Pure.pure a : EStateM ε σ α) post fault := by
  constructor
  · rintro _ _ ⟨⟩
    exact holds
  · rintro _ _ ⟨⟩

theorem throw (holds : fault e s) :
    Ends s (MonadExcept.throw e : EStateM ε σ α) post fault := by
  constructor
  · rintro _ _ ⟨⟩
  · rintro _ _ ⟨⟩
    exact holds

theorem of_yields {program : EStateM ε σ α} (run : Yields program s a t) (holds : post a t) :
    Ends s program post fault := by
  constructor
  · intro b u executed
    obtain ⟨rfl, rfl⟩ := Yields.unique run executed
    exact holds
  · intro e u executed
    exact nomatch (show EStateM.Result.ok a t = .error e u from run.symm.trans executed)

theorem bind {first : EStateM ε σ α} {rest : α → EStateM ε σ β} {post' : β → σ → Prop}
    (head : Ends s first post fault) (tail : ∀ a t, post a t → Ends t (rest a) post' fault) :
    Ends s (first >>= rest) post' fault := by
  cases executed : first s with
  | ok a t =>
    have next := Yields.rest_eq executed rest
    have known := tail a t (head.returns a t executed)
    exact ⟨fun b u result => known.returns b u (next.symm.trans result),
      fun e u result => known.stops e u (next.symm.trans result)⟩
  | error e t =>
    have stopped : (first >>= rest) s = .error e t := by
      change EStateM.bind first rest s = _
      simp only [EStateM.bind, executed]
    constructor
    · intro b u result
      exact nomatch stopped.symm.trans result
    · intro e' u result
      cases stopped.symm.trans result
      exact head.stops e t executed

/-- The same run from another state. -/
theorem of_eq {program : EStateM ε σ α} {program' : EStateM ε σ α}
    (same : program s = program' t) (ends : Ends t program' post fault) :
    Ends s program post fault :=
  ⟨fun a u executed => ends.returns a u (same.symm.trans executed),
    fun e u executed => ends.stops e u (same.symm.trans executed)⟩

/-- A beginning that runs through. -/
theorem after {first : EStateM ε σ α} {rest : α → EStateM ε σ β} {post' : β → σ → Prop}
    (head : Yields first s a t) (tail : Ends t (rest a) post' fault) :
    Ends s (first >>= rest) post' fault := of_eq (head.rest_eq rest) tail

/-- A result comes from its run. -/
theorem traced {program : EStateM ε σ α} (ends : Ends s program post fault) :
    Ends s program (fun a t => Yields program s a t ∧ post a t) fault :=
  ⟨fun a t executed => ⟨executed, ends.returns a t executed⟩, ends.stops⟩

/-- A program that cannot return stops. -/
theorem stops_of_not_returns {program : EStateM ε σ α}
    (ends : Ends s program (fun _ _ => False) fault) :
    ∃ e t, program s = .error e t ∧ fault e t := by
  cases executed : program s with
  | ok a t => exact (ends.returns a t executed).elim
  | error e t => exact ⟨e, t, rfl, ends.stops e t executed⟩

/-- A program that cannot stop returns. -/
theorem returns_of_not_stops {program : EStateM ε σ α}
    (ends : Ends s program post fun _ _ => False) : ∃ a t, Yields program s a t ∧ post a t := by
  cases executed : program s with
  | ok a t => exact ⟨a, t, executed, ends.returns a t executed⟩
  | error e t => exact (ends.stops e t executed).elim

theorem weaken {program : EStateM ε σ α} (ends : Ends s program post fault)
    (weaker : ∀ a t, post a t → post' a t) (weakerFault : ∀ e t, fault e t → fault' e t) :
    Ends s program post' fault' :=
  ⟨fun a t executed => weaker a t (ends.returns a t executed),
    fun e t executed => weakerFault e t (ends.stops e t executed)⟩

/-- What holds where the program stops is left as it is. -/
theorem imply {program : EStateM ε σ α} (ends : Ends s program post fault)
    (weaker : ∀ a t, post a t → post' a t) : Ends s program post' fault :=
  ends.weaken weaker fun _ _ stop => stop

end Ends

/-- From a state with the invariant, the program can only return in one. -/
def Preserves (invariant : σ → Prop) (program : EStateM ε σ α) : Prop :=
  ∀ s, invariant s → Ends s program (fun _ => invariant) (fun _ _ => True)

namespace Preserves
variable {invariant : σ → Prop}

theorem pure (a : α) : Preserves invariant (Pure.pure a : EStateM ε σ α) :=
  fun _ holds => .pure holds

theorem throw (e : ε) : Preserves invariant (MonadExcept.throw e : EStateM ε σ α) :=
  fun _ _ => .throw trivial

theorem bind {first : EStateM ε σ α} {rest : α → EStateM ε σ β} (head : Preserves invariant first)
    (tail : ∀ a, Preserves invariant (rest a)) : Preserves invariant (first >>= rest) :=
  fun s holds => .bind (head s holds) fun a t => tail a t

end Preserves

/-- From a state with the invariant, the program ends in one, also where it stops. -/
def Keeps (invariant : σ → Prop) (program : EStateM ε σ α) : Prop :=
  ∀ s, invariant s → Ends s program (fun _ => invariant) (fun _ => invariant)

namespace Keeps
variable {invariant : σ → Prop}

theorem pure (a : α) : Keeps invariant (Pure.pure a : EStateM ε σ α) :=
  fun _ holds => .pure holds

theorem throw (e : ε) : Keeps invariant (MonadExcept.throw e : EStateM ε σ α) :=
  fun _ holds => .throw holds

theorem bind {first : EStateM ε σ α} {rest : α → EStateM ε σ β} (head : Keeps invariant first)
    (tail : ∀ a, Keeps invariant (rest a)) : Keeps invariant (first >>= rest) :=
  fun s holds => .bind (head s holds) fun a t => tail a t

theorem look {rest : σ → EStateM ε σ β} (tail : ∀ s, invariant s → Keeps invariant (rest s)) :
    Keeps invariant (get >>= rest) :=
  fun s holds => .after (.get s) (tail s holds s holds)

theorem store (holds : invariant s) : Keeps invariant (set s : EStateM ε σ PUnit) :=
  fun _ _ => .of_yields (.set _ _) holds

theorem change {f : σ → σ} (keeps : ∀ s, invariant s → invariant (f s)) :
    Keeps invariant (modify f : EStateM ε σ PUnit) :=
  fun s holds => .of_yields (.update _ _) (keeps s holds)

end Keeps
end Carbond.Posix
