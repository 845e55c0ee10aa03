import Carbond.Posix.Calls

/-! System calls under any schedule of outcomes. A call that fails leaves the files alone, and a
transfer cut short moves the beginning of its data. -/
namespace Carbond.Posix
open Carbond.Bytes
variable {G α : Type} {w : World G} {outcomes : List Outcome} {fault : Fault → World G → Prop}

/-- How many of `count` bytes a transfer moves; `none` if the call fails. -/
def Outcome.moves (outcome : Outcome) (count : ℕ) : Option ℕ :=
  match outcome with
  | .fail _ => none
  | .short limit => some (min limit count)
  | .ok => some count

def Outcome.Fails (outcome : Outcome) : Prop := outcome.moves 0 = none

instance (outcome : Outcome) : Decidable outcome.Fails :=
  inferInstanceAs (Decidable (outcome.moves 0 = none))

/-- The outcome of the next call. -/
def upcoming (outcomes : List Outcome) : Outcome := outcomes.headD .ok

/-- An open regular file at a position, in a world with these outcomes in store. -/
structure Holding (w : World G) (outcomes : List Outcome) (fd : ℕ) (path : Path)
    (contents : List UInt8) (pos : ℕ) : Prop where
  schedule : w.outcomes = outcomes
  descriptor : w.descriptors fd = some ⟨path, pos⟩
  node : w.nodes path = some (.file contents)

theorem Outcome.moves_le {outcome : Outcome} (moved : outcome.moves count = some n) : n ≤ count := by
  cases outcome with
  | ok => exact Nat.le_of_eq (Option.some.inj moved).symm
  | fail errno => contradiction
  | short limit => exact Option.some.inj moved ▸ Nat.min_le_right limit count

theorem Outcome.moves_eq_none {outcome : Outcome} : outcome.moves count = none ↔ outcome.Fails := by
  cases outcome with
  | ok => exact iff_of_false (Option.some_ne_none _) (Option.some_ne_none _)
  | fail errno => exact iff_of_true rfl rfl
  | short limit => exact iff_of_false (Option.some_ne_none _) (Option.some_ne_none _)

theorem Outcome.moves_whole {outcome : Outcome} (moved : outcome.moves count = some n)
    (enough : ¬ n < count) : n = count :=
  Nat.le_antisymm (Outcome.moves_le moved) (Nat.le_of_not_lt enough)

theorem Outcome.moves_short {outcome : Outcome} (moved : outcome.moves count = some n)
    (less : n < count) : outcome.moves count ≠ some count := by
  intro whole
  exact absurd (Option.some.inj (moved.symm.trans whole)) (Nat.ne_of_lt less)

theorem Outcome.not_fails {outcome : Outcome} (moved : outcome.moves count = some n) :
    ¬ outcome.Fails := by
  intro fails
  rw [Outcome.moves_eq_none.mpr fails] at moved
  contradiction

/-- The world with its next outcome taken. -/
def World.advanced (w : World G) : World G := { w with outcomes := w.outcomes.tail }

theorem nextOutcome_yields (w : World G) :
    Yields nextOutcome w (upcoming w.outcomes) w.advanced := by
  refine .bind (.get w) ?_
  cases scheduled : w.outcomes with
  | nil =>
    have same : w.advanced = w := by
      rw [World.advanced, scheduled, List.tail_nil, ← scheduled]
    rw [same]
    exact .pure _ _
  | cons outcome rest =>
    have same : w.advanced = { w with outcomes := rest } := by
      rw [World.advanced, scheduled, List.tail_cons]
    rw [same]
    exact .bind (.set _ _) (.pure _ _)

namespace Holding

theorem advanced (holding : Holding w outcomes fd path c pos) :
    Holding w.advanced outcomes.tail fd path c pos :=
  ⟨congrArg List.tail holding.schedule, holding.descriptor, holding.node⟩

theorem next (holding : Holding w outcomes fd path c pos) :
    Yields nextOutcome w (upcoming outcomes) w.advanced :=
  holding.schedule ▸ nextOutcome_yields w

theorem lseek (holding : Holding w outcomes fd path c pos) (offset : Int) :
    Ends w (lseek (some fd) offset)
      (fun r w' => ((upcoming outcomes).Fails ∨ offset < 0) ∧ (∃ e, r = .error e) ∧
          Holding w' outcomes.tail fd path c pos ∨
        ¬ (upcoming outcomes).Fails ∧ 0 ≤ offset ∧ r = .ok offset.toNat ∧
          Holding w' outcomes.tail fd path c offset.toNat) fault := by
  have there := holding.advanced
  refine .after holding.next ?_
  cases upcoming outcomes
  case fail errno => exact .pure (.inl ⟨.inl rfl, ⟨_, rfl⟩, there⟩)
  all_goals
    refine .after (.get _) ?_
    simp only [descriptorOf, Option.bind_some, there.descriptor, Option.map_some]
    split
    case isTrue negative => exact .pure (.inl ⟨.inr negative, ⟨_, rfl⟩, there⟩)
    case isFalse valid =>
      refine .after (.set _ _) (.pure (.inr ⟨Option.some_ne_none _, Int.not_lt.mp valid, rfl, ?_⟩))
      exact ⟨there.schedule, by simp, there.node⟩

/-- A read that does not fail gets the beginning of what it asks for. -/
theorem read (holding : Holding w outcomes fd path c pos) (count : ℕ) :
    Ends w (read (some fd) count)
      (fun r w' => ((upcoming outcomes).Fails ∨ ssizeMax < count) ∧ (∃ e, r = .error e) ∧
          Holding w' outcomes.tail fd path c pos ∨
        ∃ n, (upcoming outcomes).moves count = some n ∧ r = .ok (readAt c pos n) ∧
          Holding w' outcomes.tail fd path c (pos + (readAt c pos n).length)) fault := by
  have there := holding.advanced
  refine .after holding.next ?_
  cases upcoming outcomes
  case fail errno => exact .pure (.inl ⟨.inl rfl, ⟨_, rfl⟩, there⟩)
  all_goals
    refine .after (.get _) ?_
    simp only [descriptorOf, Option.bind_some, there.descriptor, Option.map_some, there.node]
    split
    case isTrue long => exact .pure (.inl ⟨.inr long, ⟨_, rfl⟩, there⟩)
    case isFalse fits =>
      refine .after (.set _ _) (.pure (.inr ⟨_, rfl, rfl, ?_⟩))
      exact ⟨there.schedule, by simp, there.node⟩

/-- A write that does not fail puts the beginning of its data. -/
theorem write (holding : Holding w outcomes fd path c pos) (data : List UInt8) :
    Ends w (write (some fd) data)
      (fun r w' => (upcoming outcomes).Fails ∧ (∃ e, r = .error e) ∧
          Holding w' outcomes.tail fd path c pos ∨
        ∃ n, (upcoming outcomes).moves data.length = some n ∧ r = .ok n ∧
          Holding w' outcomes.tail fd path (writeAt c pos (data.take n)) (pos + n)) fault := by
  have there := holding.advanced
  refine .after holding.next ?_
  cases upcoming outcomes
  case fail errno => exact .pure (.inl ⟨rfl, ⟨_, rfl⟩, there⟩)
  case ok =>
    refine .after (.get _) ?_
    simp only [descriptorOf, Option.bind_some, there.descriptor, Option.map_some, there.node]
    refine .after (.set _ _) (.pure (.inr ⟨_, rfl, rfl, ?_⟩))
    exact ⟨there.schedule, by simp, by simp⟩
  case short limit =>
    refine .after (.get _) ?_
    simp only [descriptorOf, Option.bind_some, there.descriptor, Option.map_some, there.node]
    have same : data.take (min limit data.length) = data.take limit := by
      rw [List.take_eq_take_iff]
      omega
    refine .after (.set _ _) (.pure (.inr ⟨_, rfl, ?_, ?_⟩))
    · rw [List.length_take]
    · exact ⟨there.schedule, by simp, by simp [same]⟩

end Holding

theorem lseek_closed_ends (offset : Int) (w : World G) :
    Ends w (lseek none offset) (fun r _ => ∃ e, r = .error e) fault := by
  refine .after (nextOutcome_yields w) ?_
  cases upcoming w.outcomes
  case fail errno => exact .pure ⟨_, rfl⟩
  all_goals exact .after (.get _) (.pure ⟨_, rfl⟩)

/-! ### Calls on names -/

/-- The same regular files with the same contents. -/
def SameFiles (w w' : World G) : Prop :=
  ∀ path c, w'.nodes path = some (.file c) ↔ w.nodes path = some (.file c)

theorem SameFiles.of_nodes {w' : World G} (same : w'.nodes = w.nodes) : SameFiles w w' := by
  intro path c
  rw [same]

theorem SameFiles.trans {w₁ w₂ w₃ : World G} (first : SameFiles w₁ w₂) (second : SameFiles w₂ w₃) :
    SameFiles w₁ w₃ := fun path c => (second path c).trans (first path c)

theorem close_ends (fd : Fd) (w : World G) :
    Ends w (close fd) (fun _ w' => w'.nodes = w.nodes) fault := by
  refine .after (nextOutcome_yields w) ?_
  cases upcoming w.outcomes
  case fail errno => exact .pure rfl
  all_goals
    cases fd with
    | none => exact .of_yields (.update _ _) rfl
    | some n => exact .of_yields (.update _ _) rfl

theorem stat_ends (path : Path) (w : World G) :
    Ends w (stat path) (fun _ w' => w'.nodes = w.nodes) fault := by
  refine .after (nextOutcome_yields w) ?_
  cases upcoming w.outcomes
  case fail errno => exact .pure rfl
  all_goals
    refine .after (.get _) ?_
    split
    · exact .pure rfl
    · exact .pure rfl
    · exact .pure rfl

/-- A new directory takes the place of no file. -/
theorem mkdir_ends (path : Path) (w : World G) :
    Ends w (mkdir path) (fun _ w' => SameFiles w w') fault := by
  refine .after (nextOutcome_yields w) ?_
  cases upcoming w.outcomes
  case fail errno => exact .pure (.of_nodes rfl)
  all_goals
    refine .after (.get _) ?_
    split
    case isFalse taken => exact .pure (.of_nodes rfl)
    case isTrue free =>
      refine .after (.set _ _) (.pure fun other c => ?_)
      by_cases same : other = path
      · subst same
        exact iff_of_false (by simp) (by rw [show w.nodes other = none from free.1]; simp)
      · dsimp only
        rw [Function.update_of_ne same]
        exact Iff.rfl

/-- Opening fails only where the kernel says so, or there is no file to open. -/
theorem openFile_ends (path : Path) (create : Bool) (w : World G) :
    Ends w (openFile path create)
      (fun r w' => (∃ e, r = .error e ∧ SameFiles w w' ∧
          ∀ c, w.nodes path = some (.file c) → upcoming w.outcomes = .fail e) ∨
        ∃ fd c, r = .ok fd ∧ Holding w' w.outcomes.tail fd path c 0 ∧
          (w.nodes path = some (.file c) ∨ w.nodes path = none ∧ create = true ∧ c = [])) fault := by
  refine .after (nextOutcome_yields w) ?_
  cases upcoming w.outcomes
  case fail errno => exact .pure (.inl ⟨_, rfl, .of_nodes rfl, fun _ _ => rfl⟩)
  all_goals
    refine .after (.get _) ?_
    rw [show w.advanced.nodes path = w.nodes path from rfl]
    cases found : w.nodes path with
    | some node =>
      cases node with
      | file c =>
        refine .after (.set _ _) (.pure (.inr ⟨_, c, rfl, ?_, .inl rfl⟩))
        exact ⟨rfl, by simp [World.advanced], found⟩
      | directory =>
        exact .pure (.inl ⟨_, rfl, .of_nodes rfl, fun c stored => nomatch stored⟩)
    | none =>
      dsimp only
      split
      case isTrue creates =>
        exact .after (.set _ _) (.pure (.inr ⟨_, [], rfl,
          ⟨rfl, by simp [World.advanced], by simp⟩, .inr ⟨rfl, creates.1, rfl⟩⟩))
      case isFalse =>
        exact .pure (.inl ⟨_, rfl, .of_nodes rfl, fun c stored => nomatch stored⟩)

end Carbond.Posix
