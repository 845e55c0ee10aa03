import Carbond.Conf.Settings
import Carbond.Text.Lines

/-! What the parsers of the storage files see of a text: its lines without blanks, comments and empty
lines left out. -/
namespace Carbond.Conf
open Text Posix
variable {file line value key : CString}

/-- A text with lines shorter than 298 characters. -/
structure ConfigText (file : CString) : Prop where
  text : '\x00' ∉ file
  short : ∀ line ∈ file.splitOn '\n', line.length < 298

def condensed (line : CString) : CString :=
  line.filter fun c => c ≠ ' ' ∧ c ≠ '\t' ∧ c ≠ '\r'

/-- An empty line or a comment. -/
def Ignored (line : CString) : Prop := line = [] ∨ line.head? = some '#'

instance (line : CString) : Decidable (Ignored line) := inferInstanceAs (Decidable (_ ∨ _))

/-- The lines that say something, without blanks. -/
def significant (file : CString) : List CString :=
  ((file.splitOn '\n').map condensed).filter (¬ Ignored ·)

/-- A value that `sscanf` reads whole. -/
structure Word (value : CString) : Prop where
  some : value ≠ []
  plain : ∀ c ∈ value, isSpace c = false

/-! ### Lines as they are read -/

theorem trimString_newline (line : CString) : trimString (line ++ ['\n']) = trimString line := by
  by_cases nul : '\x00' ∈ line
  · have stops : (line.takeWhile (· ≠ '\x00')).length ≠ line.length := by
      intro whole
      have all := List.takeWhile_eq_self_iff.mp
        (List.IsPrefix.eq_of_length (List.takeWhile_prefix _) whole)
      simpa using all '\x00' nul
    rw [trimString, toNul, List.takeWhile_append, if_neg stops]
    rfl
  · have all : line.takeWhile (· ≠ '\x00') = line := by
      rw [List.takeWhile_eq_self_iff]
      exact fun c inside => decide_eq_true fun same => nul (same ▸ inside)
    rw [trimString, trimString, toNul, toNul, List.takeWhile_append, all, if_pos rfl,
      List.filter_append]
    exact List.append_nil _

theorem trimString_line (text : '\x00' ∉ line) (single : '\n' ∉ line) :
    trimString line = condensed line := by
  have all : toNul line = line := by
    rw [toNul, List.takeWhile_eq_self_iff]
    exact fun c inside => decide_eq_true fun same => text (same ▸ inside)
  rw [trimString, all, condensed]
  refine List.filter_congr fun c inside => ?_
  have other : c ≠ '\n' := fun same => single (same ▸ inside)
  simp [other]

/-- However the buffer cuts the lines, the parsers see the same. -/
theorem trimmedLines_filter (text : ConfigText file) :
    (trimmedLines file).filter (¬ Ignored ·) = significant file := by
  have seen (lines : List CString) : (lines.map trimString).filter (¬ Ignored ·) =
      lines.flatMap fun line => if Ignored (trimString line) then [] else [trimString line] := by
    induction lines with
    | nil => rfl
    | cons line rest ih =>
      rw [List.map_cons, List.filter_cons, List.flatMap_cons, ih]
      by_cases ignored : Ignored (trimString line)
      · rw [if_pos ignored, if_neg (by simpa using ignored), List.nil_append]
      · rw [if_neg ignored, if_pos (by simpa using ignored), List.singleton_append]
  have short : ShortLines (readBufMax - 3) file := fun line member =>
    Nat.le_of_lt_succ (text.short line member)
  rw [trimmedLines, seen, fileLines, fgetsLoop_flatMap (fun line => by rw [trimString_newline]) rfl
    (by decide) short le_rfl, ← seen, significant]
  congr 1
  refine List.map_congr_left fun line member => ?_
  obtain ⟨single, inside⟩ := mem_splitOn member
  exact trimString_line (fun nul => text.text (inside _ nul)) single

/-! ### Keys and their values -/

theorem stringStartsWith_head (starts : stringStartsWith line (first :: key) = true) :
    line.head? = some first := by
  exact startsWith_head (of_decide_eq_true starts).2

/-- A line with another first character has another key. -/
theorem stringStartsWith_other (other : line.head? ≠ some first) :
    stringStartsWith line (first :: key) = false :=
  Bool.eq_false_iff.mpr fun starts => other (stringStartsWith_head starts)

theorem Ignored.no_key (ignored : Ignored line) (other : first ≠ '#') :
    stringStartsWith line (first :: key) = false := by
  refine stringStartsWith_other ?_
  rcases ignored with rfl | comment
  · exact fun same => nomatch same
  · rw [comment]
    exact fun same => other (Option.some.inj same).symm

theorem stringStartsWith_key (some : value ≠ []) : stringStartsWith (key ++ value) key = true := by
  have positive := List.length_pos_iff.mpr some
  simp only [stringStartsWith, startsWith, List.length_append, decide_eq_true_eq,
    List.isPrefixOf_iff_prefix]
  exact ⟨by omega, List.prefix_append _ _⟩

theorem scanWord_word (word : Word value) : scanWord value = some (value, []) := by
  have start : skipSpace value = value := by
    cases value with
    | nil => rfl
    | cons c rest =>
      rw [skipSpace, List.dropWhile_cons, word.plain c List.mem_cons_self]
      rfl
  have all : value.takeWhile (! isSpace ·) = value := by
    rw [List.takeWhile_eq_self_iff]
    exact fun c inside => by rw [word.plain c inside]; rfl
  rw [scanWord, start]
  simp only [all, if_neg word.some, List.drop_length]

theorem scanValue_key (word : Word value) (key before : CString) :
    scanValue (key ++ value) key before = value := by
  rw [scanValue, List.drop_left, scanWord_word word]

end Carbond.Conf
