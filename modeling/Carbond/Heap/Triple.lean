import Carbond.Heap.Assertion
import Carbond.Posix.Program

/-! Programs on a memory. A triple says that from every memory with a part as in the precondition the
program returns, that this part then is as in the postcondition, and that the rest is as it was. -/
namespace Carbond.Heap
open Posix Fragment
variable {ε α β γ : Type} {P P' Q Q' F : Assertion α}

def Triple (P : Assertion α) (program : EStateM ε (Cells α) β) (Q : β → Assertion α) : Prop :=
  ∀ (R : Assertion α) (h : Cells α), (P * R) h.cells →
    ∃ b h', Yields program h b h' ∧ (Q b * R) h'.cells

/-- A triple with a known result. -/
def Gives (P : Assertion α) (program : EStateM ε (Cells α) β) (b : β) (Q : Assertion α) : Prop :=
  ∀ (R : Assertion α) (h : Cells α), (P * R) h.cells →
    ∃ h', Yields program h b h' ∧ (Q * R) h'.cells

/-! ### Rules -/

namespace Triple
variable {program : EStateM ε (Cells α) β} {Q Q' : β → Assertion α}

theorem pure (b : β) : Triple (Q b) (Pure.pure b : EStateM ε (Cells α) β) Q :=
  fun _ h holds => ⟨b, h, .pure b h, holds⟩

theorem of_le (weaker : P ≤ Q b) : Triple P (Pure.pure b : EStateM ε (Cells α) β) Q :=
  fun R h holds => ⟨b, h, .pure b h, mul_le_mul_left weaker R _ holds⟩

theorem bind {first : EStateM ε (Cells α) β} {rest : β → EStateM ε (Cells α) γ}
    {S : γ → Assertion α} (head : Triple P first Q) (tail : ∀ b, Triple (Q b) (rest b) S) :
    Triple P (first >>= rest) S := by
  intro R h holds
  obtain ⟨b, h₁, run, holds⟩ := head R h holds
  obtain ⟨c, h₂, later, holds⟩ := tail b R h₁ holds
  exact ⟨c, h₂, run.bind later, holds⟩

theorem frame (triple : Triple P program Q) (F : Assertion α) :
    Triple (P * F) program fun b => Q b * F := by
  intro R h holds
  rw [mul_assoc] at holds
  obtain ⟨b, h', run, holds⟩ := triple (F * R) h holds
  rw [← mul_assoc] at holds
  exact ⟨b, h', run, holds⟩

theorem mono (triple : Triple P program Q) (stronger : P' ≤ P) (weaker : ∀ b, Q b ≤ Q' b) :
    Triple P' program Q' := by
  intro R h holds
  obtain ⟨b, h', run, holds⟩ := triple R h (mul_le_mul_left stronger R _ holds)
  exact ⟨b, h', run, mul_le_mul_left (weaker b) R _ holds⟩

/-- The precondition is a statement of existence. -/
theorem iSup {ι : Sort*} {P : ι → Assertion α} (each : ∀ i, Triple (P i) program Q) :
    Triple (⨆ i, P i) program Q := by
  intro R h holds
  rw [Assertion.iSup_mul] at holds
  obtain ⟨i, holds⟩ := Assertion.iSup_holds.mp holds
  exact each i R h holds

/-- A beginning that works on a part of the memory. -/
theorem step {first : EStateM ε (Cells α) β} {rest : β → EStateM ε (Cells α) γ}
    {S : γ → Assertion α} (head : Triple P first Q) (arranged : P' = P * F)
    (tail : ∀ b, Triple (Q b * F) (rest b) S) : Triple P' (first >>= rest) S := by
  rw [arranged]
  exact (head.frame F).bind tail

/-- A loop has enough steps for the memory there is. -/
theorem fuel {rest : ℕ → EStateM ε (Cells α) β} (sized : Sized n P)
    (tail : ∀ steps, n ≤ steps → Triple P (rest steps) Q) :
    Triple P (do rest (← get).next) Q := by
  intro R h holds
  have enough : n ≤ h.next := by
    have both := (sized.mul (.zero R)).le_next holds
    rwa [Nat.add_zero] at both
  exact tail h.next enough R h holds

end Triple

namespace Gives
variable {program : EStateM ε (Cells α) β} {b : β}

theorem triple (gives : Gives P program b Q) : Triple P program fun c => ⨆ _ : c = b, Q := by
  intro R h holds
  obtain ⟨h', run, holds⟩ := gives R h holds
  have known : Q ≤ ⨆ _ : b = b, Q := le_iSup_of_le rfl le_rfl
  exact ⟨b, h', run, mul_le_mul_left known R _ holds⟩

theorem of_triple (triple : Triple P program fun c => ⨆ _ : c = b, Q) : Gives P program b Q := by
  intro R h holds
  obtain ⟨c, h', run, known⟩ := triple R h holds
  have split : ((⨆ _ : c = b, Q) * R) h'.cells := known
  rw [Assertion.iSup_mul, Assertion.iSup_holds] at split
  obtain ⟨rfl, after⟩ := split
  exact ⟨h', run, after⟩

theorem pure (b : β) (P : Assertion α) : Gives P (Pure.pure b : EStateM ε (Cells α) β) b P :=
  fun _ h holds => ⟨h, .pure b h, holds⟩

theorem of_le (weaker : P ≤ Q) : Gives P (Pure.pure b : EStateM ε (Cells α) β) b Q :=
  fun R h holds => ⟨h, .pure b h, mul_le_mul_left weaker R _ holds⟩

theorem bind {first : EStateM ε (Cells α) β} {rest : β → EStateM ε (Cells α) γ}
    (head : Gives P first b Q) (tail : Gives Q (rest b) c Q') : Gives P (first >>= rest) c Q' := by
  intro R h holds
  obtain ⟨h₁, run, holds⟩ := head R h holds
  obtain ⟨h₂, later, holds⟩ := tail R h₁ holds
  exact ⟨h₂, run.bind later, holds⟩

theorem frame (gives : Gives P program b Q) (F : Assertion α) : Gives (P * F) program b (Q * F) := by
  intro R h holds
  rw [mul_assoc] at holds
  obtain ⟨h', run, holds⟩ := gives (F * R) h holds
  rw [← mul_assoc] at holds
  exact ⟨h', run, holds⟩

theorem mono (gives : Gives P program b Q) (stronger : P' ≤ P) (weaker : Q ≤ Q') :
    Gives P' program b Q' := by
  intro R h holds
  obtain ⟨h', run, holds⟩ := gives R h (mul_le_mul_left stronger R _ holds)
  exact ⟨h', run, mul_le_mul_left weaker R _ holds⟩

theorem iSup {ι : Sort*} {P : ι → Assertion α} (each : ∀ i, Gives (P i) program b Q) :
    Gives (⨆ i, P i) program b Q := by
  intro R h holds
  rw [Assertion.iSup_mul] at holds
  obtain ⟨i, holds⟩ := Assertion.iSup_holds.mp holds
  exact each i R h holds

/-- Before a program whose result is not known. -/
theorem before {first : EStateM ε (Cells α) β} {rest : β → EStateM ε (Cells α) γ}
    {S : γ → Assertion α} (head : Gives P first b Q) (tail : Triple Q (rest b) S) :
    Triple P (first >>= rest) S := by
  intro R h holds
  obtain ⟨h₁, run, holds⟩ := head R h holds
  obtain ⟨c, h₂, later, holds⟩ := tail R h₁ holds
  exact ⟨c, h₂, run.bind later, holds⟩

/-- A beginning that works on a part of the memory. -/
theorem step {first : EStateM ε (Cells α) β} {rest : β → EStateM ε (Cells α) γ}
    (head : Gives P first b Q) (arranged : P' = P * F) (tail : Gives (Q * F) (rest b) c Q') :
    Gives P' (first >>= rest) c Q' := by
  rw [arranged]
  exact (head.frame F).bind tail

theorem stepBefore {first : EStateM ε (Cells α) β} {rest : β → EStateM ε (Cells α) γ}
    {S : γ → Assertion α} (head : Gives P first b Q) (arranged : P' = P * F)
    (tail : Triple (Q * F) (rest b) S) : Triple P' (first >>= rest) S := by
  rw [arranged]
  exact (head.frame F).before tail

/-- A beginning whose result, such as the address of something new, is not known. -/
theorem after {first : EStateM ε (Cells α) β} {rest : β → EStateM ε (Cells α) γ}
    {S : β → Assertion α} (head : Triple P first S) (arranged : P' = P * F)
    (tail : ∀ b, Gives (S b * F) (rest b) c Q') : Gives P' (first >>= rest) c Q' := by
  rw [arranged]
  exact of_triple ((head.frame F).bind fun b => (tail b).triple)

/-- A loop has enough steps for the memory there is. -/
theorem fuel {rest : ℕ → EStateM ε (Cells α) β} (sized : Sized n P)
    (tail : ∀ steps, n ≤ steps → Gives P (rest steps) b Q) : Gives P (do rest (← get).next) b Q :=
  of_triple (Triple.fuel sized fun steps enough => (tail steps enough).triple)

end Gives

/-! ### Accesses -/

def allocate (v : α) : EStateM ε (Cells α) ℕ := do
  let h ← get
  set (h.alloc v)
  return h.next

def fetch (missing : ε) (a : ℕ) : EStateM ε (Cells α) α := do
  match (← get).cells a with
  | none => throw missing
  | some v => return v

def replace (missing : ε) (a : ℕ) (v : α) : EStateM ε (Cells α) Unit := do
  let _ ← fetch missing a
  modify fun h => h.modify a fun _ => v

def release (missing : ε) (a : ℕ) : EStateM ε (Cells α) Unit := do
  let _ ← fetch missing a
  modify fun h => h.free a

/-- The new cell is apart from all others. -/
theorem allocate_triple (v : α) :
    Triple 1 (allocate v : EStateM ε (Cells α) ℕ) fun a => cell a v := by
  intro R h holds
  rw [one_mul] at holds
  refine ⟨h.next, h.alloc v, rfl, cell_mul_holds.mpr ⟨h.alloc_cells v, ?_⟩⟩
  have same : Function.update (h.alloc v).cells h.next none = h.cells := by
    funext b
    by_cases here : b = h.next
    · rw [here, Function.update_self, h.unused _ le_rfl]
    · rw [Function.update_of_ne here, Cells.alloc_cells_other h v here]
  rwa [same]

theorem fetch_yields (missing : ε) {h : Cells α} (found : h.cells a = some v) :
    Yields (fetch missing a) h v h := by
  refine .bind (.get h) ?_
  rw [found]
  exact .pure _ _

theorem fetch_gives (missing : ε) (a : ℕ) (v : α) :
    Gives (cell a v) (fetch missing a) v (cell a v) :=
  fun _ h holds => ⟨h, fetch_yields missing (cell_mul_holds.mp holds).1, holds⟩

theorem replace_gives (missing : ε) (a : ℕ) (v u : α) :
    Gives (cell a v) (replace missing a u) () (cell a u) := by
  intro R h holds
  obtain ⟨found, rest⟩ := cell_mul_holds.mp holds
  refine ⟨h.modify a fun _ => u, .bind (fetch_yields missing found) (.update _ _),
    cell_mul_holds.mpr ⟨Cells.modify_cells (fun _ => u) found, ?_⟩⟩
  have same : Function.update (h.modify a fun _ => u).cells a none = Function.update h.cells a none := by
    funext b
    by_cases here : b = a
    · rw [here, Function.update_self, Function.update_self]
    · rw [Function.update_of_ne here, Function.update_of_ne here, Cells.modify_cells_other _ _ here]
  rwa [same]

theorem release_gives (missing : ε) (a : ℕ) (v : α) :
    Gives (cell a v) (release missing a) () 1 := by
  intro R h holds
  obtain ⟨found, rest⟩ := cell_mul_holds.mp holds
  refine ⟨h.free a, .bind (fetch_yields missing found) (.update _ _), ?_⟩
  rw [one_mul]
  exact rest

end Carbond.Heap
