import Carbond.Posix.Faults

/-! System calls leave the globals of the program alone, whatever comes of them. -/
namespace Carbond.Posix
variable {G : Type} {holds : G → Prop}

/-- What holds of the globals. -/
abbrev OfGlobals (holds : G → Prop) (w : World G) : Prop := holds w.globals

theorem nextOutcome_globals : Keeps (OfGlobals holds) nextOutcome :=
  fun w kept => .of_yields (nextOutcome_yields w) kept

theorem lseek_globals (fd : Fd) (offset : ℤ) : Keeps (OfGlobals holds) (lseek fd offset) := by
  apply nextOutcome_globals.bind
  intro outcome
  cases outcome
  case fail errno => exact .pure _
  all_goals
    apply Keeps.look
    intro w kept
    split
    · exact .pure _
    · split
      · exact .pure _
      · refine .bind (.store ?_) fun _ => .pure _
        exact kept

/-- Without a file there is nothing to seek in. -/
theorem lseek_closed_globals (offset : ℤ) (w : World G) (kept : holds w.globals) :
    Ends w (lseek none offset) (fun r s => (∃ errno, r = .error errno) ∧ holds s.globals)
      (fun _ s => holds s.globals) := by
  apply (nextOutcome_globals w kept).bind
  intro outcome s kept
  cases outcome
  case fail errno => exact .pure ⟨⟨errno, rfl⟩, kept⟩
  all_goals
    apply Ends.after (.get s)
    exact .pure ⟨⟨.ebadf, rfl⟩, kept⟩

theorem read_globals (fd : Fd) (count : ℕ) : Keeps (OfGlobals holds) (read fd count) := by
  apply nextOutcome_globals.bind
  intro outcome
  cases outcome
  case fail errno => exact .pure _
  all_goals
    apply Keeps.look
    intro w kept
    split
    · exact .pure _
    · split
      · exact .pure _
      · split
        · refine .bind (.store ?_) fun _ => .pure _
          exact kept
        · exact .pure _

theorem write_globals (fd : Fd) (data : List UInt8) : Keeps (OfGlobals holds) (write fd data) := by
  apply nextOutcome_globals.bind
  intro outcome
  cases outcome
  case fail errno => exact .pure _
  all_goals
    apply Keeps.look
    intro w kept
    split
    · exact .pure _
    · split
      · refine .bind (.store ?_) fun _ => .pure _
        exact kept
      · exact .pure _

theorem close_globals (fd : Fd) : Keeps (OfGlobals holds) (close fd) := by
  apply nextOutcome_globals.bind
  intro outcome
  cases outcome
  case fail errno => exact .pure _
  all_goals
    apply Keeps.change
    intro w kept
    cases fd with
    | none => exact kept
    | some n => exact kept

theorem openFile_globals (path : Path) (create : Bool) :
    Keeps (OfGlobals holds) (openFile path create) := by
  apply nextOutcome_globals.bind
  intro outcome
  cases outcome
  case fail errno => exact .pure _
  all_goals
    apply Keeps.look
    intro w kept
    dsimp only
    split
    · refine .bind (.store ?_) fun _ => .pure _
      exact kept
    · exact .pure _
    · split
      · refine .bind (.store ?_) fun _ => .pure _
        exact kept
      · exact .pure _

theorem stat_globals (path : Path) : Keeps (OfGlobals holds) (stat path) := by
  apply nextOutcome_globals.bind
  intro outcome
  cases outcome
  case fail errno => exact .pure _
  all_goals
    apply Keeps.look
    intro w kept
    split
    · exact .pure _
    · exact .pure _
    · exact .pure _

theorem mkdir_globals (path : Path) : Keeps (OfGlobals holds) (mkdir path) := by
  apply nextOutcome_globals.bind
  intro outcome
  cases outcome
  case fail errno => exact .pure _
  all_goals
    apply Keeps.look
    intro w kept
    split
    · refine .bind (.store ?_) fun _ => .pure _
      exact kept
    · exact .pure _

end Carbond.Posix
