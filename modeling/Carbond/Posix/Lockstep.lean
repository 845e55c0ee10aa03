import Carbond.Posix.Faults

/-! Two programs side by side. Programs in lockstep return the same result or stop with the same
fault, and keep their states in relation; programs on one open file are so for any two worlds in
which that file has the same contents, and they change nothing else of either world. -/
namespace Carbond.Posix
open Carbond.Bytes
variable {ε σ τ α β γ δ : Type}

/-! ### Two programs -/

/-- Both results are values in states that fit together, or both are the same fault. -/
inductive SameEnd (post : α → β → σ → τ → Prop) (stop : σ → τ → Prop) :
    EStateM.Result ε σ α → EStateM.Result ε τ β → Prop
  | returned : post a b s t → SameEnd post stop (.ok a s) (.ok b t)
  | stopped : stop s t → SameEnd post stop (.error e s) (.error e t)

/-- From these states the programs come to the same end. -/
def Both (s : σ) (t : τ) (first : EStateM ε σ α) (second : EStateM ε τ β)
    (post : α → β → σ → τ → Prop) (stop : σ → τ → Prop) : Prop :=
  SameEnd post stop (first s) (second t)

namespace Both
variable {s : σ} {t : τ} {first : EStateM ε σ α} {second : EStateM ε τ β}
variable {post post' : α → β → σ → τ → Prop} {stop stop' : σ → τ → Prop}

theorem pure (holds : post a b s t) :
    Both s t (Pure.pure a : EStateM ε σ α) (Pure.pure b : EStateM ε τ β) post stop := .returned holds

theorem throw (holds : stop s t) (e : ε) : Both s t (MonadExcept.throw e : EStateM ε σ α)
    (MonadExcept.throw e : EStateM ε τ β) post stop := .stopped holds

theorem of_yields (left : Yields first s a s') (right : Yields second t b t')
    (holds : post a b s' t') : Both s t first second post stop := by
  rw [Both, left, right]
  exact .returned holds

theorem bind {rest : α → EStateM ε σ γ} {rest' : β → EStateM ε τ δ} {further : γ → δ → σ → τ → Prop}
    (head : Both s t first second post stop)
    (tail : ∀ a b s' t', post a b s' t' → Both s' t' (rest a) (rest' b) further stop) :
    Both s t (first >>= rest) (second >>= rest') further stop := by
  change SameEnd further stop (EStateM.bind first rest s) (EStateM.bind second rest' t)
  unfold EStateM.bind
  unfold Both at head
  generalize first s = result, second t = result' at head
  cases head with
  | returned holds => exact tail _ _ _ _ holds
  | stopped holds => exact .stopped holds

/-- Beginnings that run through. -/
theorem after {rest : α → EStateM ε σ γ} {rest' : β → EStateM ε τ δ} {further : γ → δ → σ → τ → Prop}
    (left : Yields first s a s') (right : Yields second t b t')
    (tail : Both s' t' (rest a) (rest' b) further stop) :
    Both s t (first >>= rest) (second >>= rest') further stop := by
  rw [Both, left.rest_eq, right.rest_eq]
  exact tail

theorem imply (both : Both s t first second post stop)
    (weaker : ∀ a b s' t', post a b s' t' → post' a b s' t')
    (weakerStop : ∀ s' t', stop s' t' → stop' s' t') : Both s t first second post' stop' := by
  unfold Both at both ⊢
  generalize first s = result, second t = result' at both
  cases both with
  | returned holds => exact .returned (weaker _ _ _ _ holds)
  | stopped holds => exact .stopped (weakerStop _ _ holds)

/-- Where the first program returns, so does the second. -/
theorem returns (both : Both s t first second post stop) (run : Yields first s a s') :
    ∃ b t', Yields second t b t' ∧ post a b s' t' := by
  unfold Both at both
  rw [run] at both
  generalize executed : second t = result' at both
  cases both with
  | returned holds => exact ⟨_, _, executed, holds⟩

/-- Where the first program stops, so does the second, with the same fault. -/
theorem stops (both : Both s t first second post stop) (stopped : first s = .error e s') :
    ∃ t', second t = .error e t' ∧ stop s' t' := by
  unfold Both at both
  rw [stopped] at both
  generalize executed : second t = result' at both
  cases both with
  | stopped holds => exact ⟨_, rfl, holds⟩

/-- What becomes of the first program. -/
theorem ends (both : Both s t first second post stop) : Ends s first
    (fun a s' => ∃ b t', post a b s' t') (fun _ s' => ∃ t', stop s' t') := by
  constructor
  · intro a s' run
    obtain ⟨b, t', _, holds⟩ := both.returns run
    exact ⟨b, t', holds⟩
  · intro e s' stopped
    obtain ⟨t', _, holds⟩ := both.stops stopped
    exact ⟨t', holds⟩

end Both

/-! ### Lockstep -/

/-- From related states the programs come to the same end in related states, and to the same
result. -/
def Lockstep (related : σ → τ → Prop) (first : EStateM ε σ α) (second : EStateM ε τ α) : Prop :=
  ∀ s t, related s t → Both s t first second (fun a b s' t' => a = b ∧ related s' t') related

namespace Lockstep
variable {related : σ → τ → Prop} {first : EStateM ε σ α} {second : EStateM ε τ α}

theorem pure (a : α) :
    Lockstep related (Pure.pure a : EStateM ε σ α) (Pure.pure a : EStateM ε τ α) :=
  fun _ _ holds => .pure ⟨rfl, holds⟩

theorem throw (e : ε) : Lockstep related (MonadExcept.throw e : EStateM ε σ α)
    (MonadExcept.throw e : EStateM ε τ α) :=
  fun _ _ holds => .throw holds e

theorem bind {rest : α → EStateM ε σ β} {rest' : α → EStateM ε τ β}
    (head : Lockstep related first second) (tail : ∀ a, Lockstep related (rest a) (rest' a)) :
    Lockstep related (first >>= rest) (second >>= rest') := by
  intro s t holds
  apply (head s t holds).bind
  rintro a _ s' t' ⟨rfl, kept⟩
  exact tail a s' t' kept

/-- Each program may look at its own state. -/
theorem look {rest : σ → EStateM ε σ β} {rest' : τ → EStateM ε τ β}
    (tail : ∀ s t, related s t → Lockstep related (rest s) (rest' t)) :
    Lockstep related (get >>= rest) (get >>= rest') :=
  fun s t holds => tail s t holds s t holds

theorem change {update : σ → σ} {update' : τ → τ}
    (keeps : ∀ s t, related s t → related (update s) (update' t)) :
    Lockstep related (modify update : EStateM ε σ PUnit) (modify update' : EStateM ε τ PUnit) :=
  fun s t holds => .of_yields (.update _ _) (.update _ _) ⟨rfl, keeps s t holds⟩

/-- An invariant is a relation to the same state. -/
theorem of_keeps {invariant : σ → Prop} {program : EStateM ε σ α} (keeps : Keeps invariant program) :
    Lockstep (fun s t => s = t ∧ invariant s) program program := by
  rintro s _ ⟨rfl, holds⟩
  have ends := keeps s holds
  unfold Both
  cases executed : program s with
  | ok a s' => exact .returned ⟨rfl, rfl, ends.returns a s' executed⟩
  | error e s' => exact .stopped ⟨rfl, ends.stops e s' executed⟩

theorem keeps {invariant : σ → Prop} {program : EStateM ε σ α}
    (lockstep : Lockstep (fun s t => s = t ∧ invariant s) program program) :
    Keeps invariant program := by
  intro s holds
  refine (lockstep s s ⟨rfl, holds⟩).ends.weaken ?_ ?_
  · rintro _ s' ⟨_, _, _, _, kept⟩
    exact kept
  · rintro _ s' ⟨_, _, kept⟩
    exact kept

end Lockstep

/-! ### Programs on one open file -/

variable {G : Type} {before w : World G}

/-- Besides one open file the world is as it was, and its calls are used up from the front. -/
structure Besides (fd : ℕ) (path : Path) (before after : World G) : Prop where
  nodes : ∀ other, other ≠ path → after.nodes other = before.nodes other
  descriptors : ∀ n, n ≠ fd → after.descriptors n = before.descriptors n
  nextFd : after.nextFd = before.nextFd
  schedule : after.outcomes <:+ before.outcomes

/-- The file is open and nothing else has changed. -/
structure Within (fd : ℕ) (path : Path) (before after : World G) (outcomes : List Outcome)
    (contents : List UInt8) (pos : ℕ) : Prop where
  holding : Holding after outcomes fd path contents pos
  besides : Besides fd path before after

theorem Besides.refl (fd : ℕ) (path : Path) (w : World G) : Besides fd path w w :=
  ⟨fun _ _ => rfl, fun _ _ => rfl, rfl, List.suffix_refl _⟩

theorem Besides.trans {w₁ w₂ w₃ : World G} (first : Besides fd path w₁ w₂)
    (second : Besides fd path w₂ w₃) : Besides fd path w₁ w₃ where
  nodes other differs := (second.nodes other differs).trans (first.nodes other differs)
  descriptors n differs := (second.descriptors n differs).trans (first.descriptors n differs)
  nextFd := second.nextFd.trans first.nextFd
  schedule := second.schedule.trans first.schedule

/-- Two descriptors of files with the same contents, at the same position, in worlds with the same
outcomes in store, each with nothing else changed since the given world. -/
def Twins (fd : ℕ) (path : Path) (before : World G) (fd' : ℕ) (path' : Path) (before' : World G)
    (w w' : World G) : Prop :=
  ∃ outcomes c pos, Within fd path before w outcomes c pos ∧ Within fd' path' before' w' outcomes c pos

namespace Within
variable {fd : ℕ} {path : Path}

theorem advanced (inside : Within fd path before w outcomes c pos) :
    Within fd path before w.advanced outcomes.tail c pos where
  holding := inside.holding.advanced
  besides :=
    { nodes := inside.besides.nodes
      descriptors := inside.besides.descriptors
      nextFd := inside.besides.nextFd
      schedule := (List.tail_suffix _).trans inside.besides.schedule }

/-- The file and the position are replaced. -/
theorem replaced (inside : Within fd path before w outcomes c pos) (c' : List UInt8) (pos' : ℕ) :
    Within fd path before { w with
      nodes := Function.update w.nodes path (some (.file c'))
      descriptors := Function.update w.descriptors fd (some ⟨path, pos'⟩) } outcomes c' pos' where
  holding := ⟨inside.holding.schedule, Function.update_self .., Function.update_self ..⟩
  besides :=
    { nodes := fun other differs =>
        (Function.update_of_ne differs _ _).trans (inside.besides.nodes other differs)
      descriptors := fun n differs =>
        (Function.update_of_ne differs _ _).trans (inside.besides.descriptors n differs)
      nextFd := inside.besides.nextFd
      schedule := inside.besides.schedule }

/-- Only the position is replaced. -/
theorem moved (inside : Within fd path before w outcomes c pos) (pos' : ℕ) :
    Within fd path before
      { w with descriptors := Function.update w.descriptors fd (some ⟨path, pos'⟩) }
      outcomes c pos' := by
  have kept := inside.replaced c pos'
  rwa [← inside.holding.node, Function.update_eq_self] at kept

theorem withGlobals (inside : Within fd path before w outcomes c pos) (g : G) :
    Within fd path before (w.withGlobals g) outcomes c pos where
  holding := ⟨inside.holding.schedule, inside.holding.descriptor, inside.holding.node⟩
  besides := ⟨inside.besides.nodes, inside.besides.descriptors, inside.besides.nextFd,
    inside.besides.schedule⟩

end Within

namespace Lockstep
variable {fd fd' : ℕ} {path path' : Path} {before before' : World G}

theorem nextOutcome : Lockstep (Twins fd path before fd' path' before')
    Posix.nextOutcome Posix.nextOutcome := by
  rintro w w' ⟨outcomes, c, pos, left, right⟩
  exact .of_yields left.holding.next right.holding.next
    ⟨rfl, outcomes.tail, c, pos, left.advanced, right.advanced⟩

theorem lseek (offset : ℤ) : Lockstep (Twins fd path before fd' path' before')
    (Posix.lseek (some fd) offset) (Posix.lseek (some fd') offset) := by
  apply nextOutcome.bind
  rintro outcome w w' ⟨outcomes, c, pos, left, right⟩
  cases outcome
  case fail errno => exact .pure ⟨rfl, outcomes, c, pos, left, right⟩
  all_goals
    apply Both.after (.get w) (.get w')
    simp only [descriptorOf, Option.bind_some, left.holding.descriptor, right.holding.descriptor,
      Option.map_some]
    split
    · exact .pure ⟨rfl, outcomes, c, pos, left, right⟩
    · apply Both.after (.set _ _) (.set _ _)
      exact .pure ⟨rfl, outcomes, c, _, left.moved _, right.moved _⟩

theorem read (count : ℕ) : Lockstep (Twins fd path before fd' path' before')
    (Posix.read (some fd) count) (Posix.read (some fd') count) := by
  apply nextOutcome.bind
  rintro outcome w w' ⟨outcomes, c, pos, left, right⟩
  cases outcome
  case fail errno => exact .pure ⟨rfl, outcomes, c, pos, left, right⟩
  all_goals
    apply Both.after (.get w) (.get w')
    simp only [descriptorOf, Option.bind_some, left.holding.descriptor, right.holding.descriptor,
      Option.map_some, left.holding.node, right.holding.node]
    split
    · exact .pure ⟨rfl, outcomes, c, pos, left, right⟩
    · apply Both.after (.set _ _) (.set _ _)
      exact .pure ⟨rfl, outcomes, c, _, left.moved _, right.moved _⟩

theorem write (data : List UInt8) : Lockstep (Twins fd path before fd' path' before')
    (Posix.write (some fd) data) (Posix.write (some fd') data) := by
  apply nextOutcome.bind
  rintro outcome w w' ⟨outcomes, c, pos, left, right⟩
  cases outcome
  case fail errno => exact .pure ⟨rfl, outcomes, c, pos, left, right⟩
  all_goals
    apply Both.after (.get w) (.get w')
    simp only [descriptorOf, Option.bind_some, left.holding.descriptor, right.holding.descriptor,
      Option.map_some, left.holding.node, right.holding.node]
    apply Both.after (.set _ _) (.set _ _)
    exact .pure ⟨rfl, outcomes, _, _, left.replaced _ _, right.replaced _ _⟩

/-- What the programs keep in their globals decides nothing. -/
theorem globals (update : G → G) : Lockstep (Twins fd path before fd' path' before')
    (modify fun w => w.withGlobals (update w.globals) : Proc G PUnit)
    (modify fun w => w.withGlobals (update w.globals) : Proc G PUnit) := by
  apply change
  rintro w w' ⟨outcomes, c, pos, left, right⟩
  exact ⟨outcomes, c, pos, left.withGlobals _, right.withGlobals _⟩

end Lockstep
end Carbond.Posix
