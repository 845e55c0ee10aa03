import Mathlib.Data.List.Basic
import Mathlib.Data.List.TakeWhile

/-! C strings, without their terminating NUL, and the string functions of the C library the
daemon calls. A character is one byte. -/
namespace Carbond.Text

abbrev CString := List Char

/-- The successive results of `strtok_r` with one separator: the non-empty pieces. -/
def strtok (separator : Char) (string : CString) : List CString :=
  (string.splitOn separator).filter (· ≠ [])

/-- One call of `strtok_r` with one separator: the piece found from the resume pointer on, and
where the next call resumes, behind the separator that the piece's NUL overwrites. -/
def strtokR (separator : Char) (saveptr : CString) : Option (CString × CString) :=
  let start := saveptr.dropWhile (· = separator)
  let piece := start.takeWhile (· ≠ separator)
  if start = [] then none else some (piece, start.drop (piece.length + 1))

/-- `strncmp(string, beginning, strlen(beginning)) == 0`. -/
def startsWith (string beginning : CString) : Bool := beginning.isPrefixOf string

theorem strtok_nil (separator : Char) : strtok separator [] = [] := rfl

/-- A separator between two strings separates their pieces, whatever surrounds it. -/
theorem strtok_append (separator : Char) (front back : CString) :
    strtok separator (front ++ separator :: back) =
      strtok separator front ++ strtok separator back := by
  simp [strtok, List.splitOn_append_cons_self]

theorem strtok_single {string : CString} (free : separator ∉ string) (some : string ≠ []) :
    strtok separator string = [string] := by
  simp [strtok, List.splitOn_eq_singleton free, some]

theorem strtok_separator (separator : Char) (string : CString) :
    strtok separator (separator :: string) = strtok separator string :=
  strtok_append separator [] string

theorem strtok_dropWhile (separator : Char) (string : CString) :
    strtok separator (string.dropWhile (· = separator)) = strtok separator string := by
  induction string with
  | nil => rfl
  | cons first rest ih =>
    by_cases same : first = separator
    · subst same
      rw [List.dropWhile_cons, if_pos (decide_eq_true rfl), ih, strtok_separator]
    · rw [List.dropWhile_cons, if_neg (by simpa using same)]

/-- A string that begins with a piece goes on behind the separator that ends it. -/
theorem strtok_cons {first : Char} (other : first ≠ separator) (rest : CString) :
    strtok separator (first :: rest) = (first :: rest).takeWhile (· ≠ separator) ::
      strtok separator ((first :: rest).drop
        (((first :: rest).takeWhile (· ≠ separator)).length + 1)) := by
  have whole := List.takeWhile_append_dropWhile (p := (· ≠ separator)) (l := first :: rest)
  have free : separator ∉ (first :: rest).takeWhile (· ≠ separator) := by
    intro inside
    simpa using List.mem_takeWhile_imp inside
  have some : (first :: rest).takeWhile (· ≠ separator) ≠ [] := by
    rw [List.takeWhile_cons, if_pos (decide_eq_true other)]
    exact List.cons_ne_nil _ _
  have stops := List.head?_dropWhile_not (· ≠ separator) (first :: rest)
  generalize (first :: rest).takeWhile (· ≠ separator) = piece at whole free some ⊢
  generalize (first :: rest).dropWhile (· ≠ separator) = behind at whole stops
  rw [← whole]
  cases behind with
  | nil =>
    rw [List.append_nil, strtok_single free some, List.drop_of_length_le (Nat.le_succ _), strtok_nil]
  | cons ending back =>
    obtain rfl : ending = separator := by simpa using stops
    rw [strtok_append, strtok_single free some]
    simp

/-- The successive results of `strtok_r` are those of its calls, each from the resume pointer of the
one before. -/
theorem strtok_eq_strtokR (separator : Char) (string : CString) :
    strtok separator string = match strtokR separator string with
      | none => []
      | some (piece, saveptr) => piece :: strtok separator saveptr := by
  rw [← strtok_dropWhile, strtokR]
  have stops := List.head?_dropWhile_not (· = separator) string
  cases start : string.dropWhile (· = separator) with
  | nil => rfl
  | cons first rest =>
    rw [start] at stops
    exact strtok_cons (by simpa using stops) rest

theorem splitOn_cons (separator c : Char) (string : CString) :
    (c :: string).splitOn separator =
      if c = separator then [] :: string.splitOn separator
      else (string.splitOn separator).modifyHead (c :: ·) := by
  rw [List.splitOn_cons_eq_if_modifyHead]
  simp only [beq_iff_eq]

/-- The pieces between separators consist of the other characters of the string. -/
theorem mem_splitOn {string : CString} (member : piece ∈ string.splitOn separator) :
    separator ∉ piece ∧ ∀ c ∈ piece, c ∈ string := by
  induction string generalizing piece with
  | nil =>
    obtain rfl := List.mem_singleton.mp member
    simp
  | cons first rest ih =>
    rw [splitOn_cons] at member
    split at member
    · rcases List.mem_cons.mp member with rfl | later
      · simp
      · obtain ⟨free, chars⟩ := ih later
        exact ⟨free, fun c inside => List.mem_cons_of_mem _ (chars c inside)⟩
    · rename_i other
      cases pieces : rest.splitOn separator with
      | nil => exact absurd pieces (List.splitOn_ne_nil _ _)
      | cons head tail =>
        rw [pieces, List.modifyHead_cons] at member
        rcases List.mem_cons.mp member with rfl | later
        · obtain ⟨free, chars⟩ := ih (pieces ▸ List.mem_cons_self)
          refine ⟨?_, ?_⟩
          · rw [List.mem_cons]
            rintro (same | inside)
            · exact other same.symm
            · exact free inside
          · intro c inside
            rcases List.mem_cons.mp inside with rfl | later
            · exact List.mem_cons_self
            · exact List.mem_cons_of_mem _ (chars c later)
        · obtain ⟨free, chars⟩ := ih (pieces ▸ List.mem_cons_of_mem _ later)
          exact ⟨free, fun c inside => List.mem_cons_of_mem _ (chars c inside)⟩

theorem mem_strtok (member : piece ∈ strtok separator string) :
    piece ≠ [] ∧ separator ∉ piece ∧ ∀ c ∈ piece, c ∈ string := by
  obtain ⟨inside, some⟩ := List.mem_filter.mp member
  exact ⟨of_decide_eq_true some, mem_splitOn inside⟩

end Carbond.Text
