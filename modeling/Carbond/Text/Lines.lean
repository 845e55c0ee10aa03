import Carbond.Text.Scan

/-! Reading a file line by line with `fgets`. A line that just fills the buffer is followed by a read
of its newline alone. -/
namespace Carbond.Text
variable {limit fuel : ℕ} {file line rest : CString} {β : Type}

/-- No line of the file is longer than the buffer. -/
def ShortLines (limit : ℕ) (file : CString) : Prop :=
  ∀ line ∈ file.splitOn '\n', line.length ≤ limit

theorem takeWhile_free (free : '\n' ∉ line) : line.takeWhile (· ≠ '\n') = line := by
  rw [List.takeWhile_eq_self_iff]
  intro c inside
  exact decide_eq_true fun newline => free (newline ▸ inside)

theorem takeWhile_line (free : '\n' ∉ line) (rest : CString) :
    (line ++ '\n' :: rest).takeWhile (· ≠ '\n') = line := by
  rw [List.takeWhile_append, takeWhile_free free, if_pos rfl]
  simp

theorem fgets_line (free : '\n' ∉ line) (short : line.length < limit) (rest : CString) :
    fgets limit (line ++ '\n' :: rest) = (line ++ ['\n'], rest) := by
  obtain ⟨more, rfl⟩ := Nat.exists_eq_add_of_lt short
  have taken : (line ++ '\n' :: rest).take (line.length + more + 1) =
      line ++ '\n' :: rest.take more := by
    rw [Nat.add_assoc, List.take_length_add_append]
    rfl
  have whole : line ++ '\n' :: rest = line ++ ['\n'] ++ rest := by simp
  rw [fgets, taken, takeWhile_line free, List.drop_left]
  simp only [whole]
  rw [List.drop_left' (by simp)]

theorem fgets_full (free : '\n' ∉ line) (rest : CString) :
    fgets line.length (line ++ rest) = (line, rest) := by
  rw [fgets, List.take_left, takeWhile_free free, List.drop_length, List.drop_left]

theorem fgets_last (free : '\n' ∉ line) (short : line.length ≤ limit) :
    fgets limit line = (line, []) := by
  rw [fgets, List.take_of_length_le short, takeWhile_free free, List.drop_length,
    List.drop_of_length_le short]

/-- Up to its first newline a text is a line. -/
theorem line_cases (file : CString) :
    '\n' ∉ file ∨ ∃ line rest, file = line ++ '\n' :: rest ∧ '\n' ∉ line := by
  by_cases free : '\n' ∉ file
  · exact .inl free
  · obtain ⟨line, rest, split, first⟩ := List.eq_append_cons_of_mem (Decidable.not_not.mp free)
    exact .inr ⟨line, rest, split, first⟩

/-- What is made of the lines does not depend on how `fgets` cuts them, if it makes the same of a
line with its newline, and nothing of an empty one. -/
theorem fgetsLoop_flatMap {g : CString → List β} (newline : ∀ line, g (line ++ ['\n']) = g line)
    (nothing : g [] = []) (positive : 0 < limit) (short : ShortLines limit file)
    (enough : file.length ≤ fuel) :
    (fgetsLoop limit fuel file).flatMap g = (file.splitOn '\n').flatMap g := by
  induction fuel generalizing file with
  | zero =>
    obtain rfl := List.length_eq_zero_iff.mp (Nat.le_zero.mp enough)
    exact (List.append_nil _).symm.trans (congrArg (· ++ []) nothing.symm)
  | succ fuel ih =>
    by_cases empty : file = []
    · subst empty
      exact (List.append_nil _).symm.trans (congrArg (· ++ []) nothing.symm)
    · rw [fgetsLoop, if_neg empty, List.flatMap_cons]
      obtain free | ⟨line, rest, rfl, free⟩ := line_cases file
      · rw [ShortLines, List.splitOn_eq_singleton free] at short
        rw [fgets_last free (short file List.mem_cons_self), List.splitOn_eq_singleton free]
        cases fuel with
        | zero => rfl
        | succ fuel => rfl
      · rw [ShortLines, List.splitOn_append_cons_self, List.splitOn_eq_singleton free] at short
        have fits := short line List.mem_cons_self
        have later : ShortLines limit rest := fun line member =>
          short line (List.mem_cons_of_mem _ member)
        rw [List.length_append, List.length_cons] at enough
        rw [List.splitOn_append_cons_self, List.splitOn_eq_singleton free, List.flatMap_append,
          List.flatMap_singleton]
        rcases Nat.lt_or_eq_of_le fits with room | full
        · rw [fgets_line free room, newline, ih later (by omega)]
        · -- The newline is left for the next read.
          have blank : ('\n' :: rest).splitOn '\n' = [] :: rest.splitOn '\n' := by
            rw [splitOn_cons, if_pos rfl]
          have left : ShortLines limit ('\n' :: rest) := by
            rw [ShortLines, blank]
            exact List.forall_mem_cons.mpr ⟨Nat.zero_le _, later⟩
          rw [← full, fgets_full free, full, ih left (by rw [List.length_cons]; omega), blank,
            List.flatMap_cons, nothing, List.nil_append]

end Carbond.Text
