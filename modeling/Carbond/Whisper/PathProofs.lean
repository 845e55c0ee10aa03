import Carbond.Text.Scan
import Carbond.Whisper.Create

/-! The paths made from metric names: where they can lead, and which names share one. -/
namespace Carbond.Whisper
open Posix Text

/-- The components of a path as one string. -/
def joined (components : List CString) : Path := ['/'].intercalate components

theorem joined_cons (first : CString) (some : rest ≠ []) :
    joined (first :: rest) = first ++ '/' :: joined rest := by
  rw [joined, List.intercalate_cons_of_ne_nil some]
  simp [joined]

theorem metricPath_eq (tmpDirName : Path) (some : components ≠ []) :
    metricPath tmpDirName components =
      tmpDirName ++ '/' :: (joined components ++ ".wsp".toList) := by
  induction components generalizing tmpDirName with
  | nil => contradiction
  | cons last rest ih =>
    cases rest with
    | nil => simp [metricPath, joined]
    | cons next rest =>
      rw [metricPath, ih _ (List.cons_ne_nil _ _), joined_cons _ (List.cons_ne_nil _ _)]
      simp

/-- Each directory is the path of some of the first components. -/
theorem mem_componentDirs (member : dir ∈ componentDirs tmpDirName components) :
    ∃ front rest, components = front ++ rest ∧ front ≠ [] ∧ dir = tmpDirName ++ '/' :: joined front := by
  induction components generalizing tmpDirName with
  | nil => exact nomatch member
  | cons last rest ih =>
    cases rest with
    | nil => exact nomatch member
    | cons next rest =>
      rcases List.mem_cons.mp member with rfl | deeper
      · exact ⟨[last], next :: rest, rfl, List.cons_ne_nil _ _, by simp [joined]⟩
      · obtain ⟨front, behind, split, some, same⟩ := ih deeper
        refine ⟨last :: front, behind, by rw [split]; rfl, List.cons_ne_nil _ _, ?_⟩
        rw [same, joined_cons _ some]
        simp

/-- No component leads to the directory itself or out of it. -/
def Inside (remainder : Path) : Prop :=
  ∀ component ∈ remainder.splitOn '/', component ≠ ['.'] ∧ component ≠ ['.', '.']

theorem joined_free {components : List CString} (free : ∀ component ∈ components, '.' ∉ component) :
    '.' ∉ joined components := by
  induction components with
  | nil => simp [joined]
  | cons first rest ih =>
    have here := free first List.mem_cons_self
    have further := ih fun component member => free component (List.mem_cons_of_mem _ member)
    cases rest with
    | nil => simpa [joined] using here
    | cons next rest =>
      rw [joined_cons _ (List.cons_ne_nil _ _), List.mem_append, List.mem_cons]
      rintro (inside | slash | inside)
      · exact here inside
      · exact absurd slash (by decide)
      · exact further inside

theorem inside_of_free (free : '.' ∉ remainder) : Inside remainder := by
  intro component member
  have chars := (mem_splitOn member).2
  constructor
  · rintro rfl
    exact free (chars '.' (by simp))
  · rintro rfl
    exact free (chars '.' (by simp))

/-- The suffix ends up in the last component, and makes it too long to be special. -/
theorem splitOn_suffix (string : CString) :
    ∃ front last, (string ++ ".wsp".toList).splitOn '/' = front ++ [last ++ ".wsp".toList] ∧
      string.splitOn '/' = front ++ [last] := by
  induction string with
  | nil => exact ⟨[], [], rfl, rfl⟩
  | cons c rest ih =>
    obtain ⟨front, last, suffixed, plain⟩ := ih
    rw [List.cons_append, splitOn_cons, splitOn_cons, suffixed, plain]
    by_cases slash : c = '/'
    · rw [if_pos slash, if_pos slash]
      exact ⟨[] :: front, last, rfl, rfl⟩
    · rw [if_neg slash, if_neg slash]
      cases front with
      | nil => exact ⟨[], c :: last, rfl, rfl⟩
      | cons first front => exact ⟨(c :: first) :: front, last, rfl, rfl⟩

theorem inside_suffix (free : '.' ∉ remainder) : Inside (remainder ++ ".wsp".toList) := by
  obtain ⟨front, last, suffixed, plain⟩ := splitOn_suffix remainder
  intro component member
  rw [suffixed, List.mem_append, List.mem_singleton] at member
  rcases member with before | rfl
  · exact inside_of_free free component (plain ▸ List.mem_append_left _ before)
  · constructor
    · intro same
      simpa using congrArg List.length same
    · intro same
      simpa using congrArg List.length same

/-- Whatever its name, a metric is stored below the storage directory, and all directories made
for it are there too. -/
theorem metric_stays_inside (storageDir metric : CString) :
    (whisperMetricFilename storageDir metric = [] ∨ ∃ remainder,
      whisperMetricFilename storageDir metric = storageDir ++ '/' :: remainder ∧ Inside remainder) ∧
    ∀ dir ∈ metricDirs storageDir metric,
      dir = storageDir ∨ ∃ remainder, dir = storageDir ++ '/' :: remainder ∧ Inside remainder := by
  have free : ∀ component ∈ strtok '.' metric, '.' ∉ component := fun component member =>
    (mem_strtok member).2.1
  constructor
  · by_cases unnamed : strtok '.' metric = []
    · left
      rw [whisperMetricFilename, unnamed]
      rfl
    · exact .inr ⟨_, metricPath_eq storageDir unnamed, inside_suffix (joined_free free)⟩
  · intro dir member
    rcases List.mem_cons.mp member with rfl | deeper
    · exact .inl rfl
    · obtain ⟨front, rest, split, _, same⟩ := mem_componentDirs deeper
      refine .inr ⟨_, same, inside_of_free (joined_free fun component inside => ?_)⟩
      exact free component (split ▸ List.mem_append_left _ inside)

/-! ### Names that share a file -/

/-- A name that the line protocol can store, without slashes. -/
structure Storable (metric : CString) : Prop where
  short : metric.length < metricNameMaxLen
  named : ∃ c ∈ metric, c ≠ '.'
  word : ∀ c ∈ metric, ¬ isSpace c ∧ c ≠ '\x00' ∧ c ≠ '/'

theorem joined_injective (first second : List CString) (free : ∀ component ∈ first, '/' ∉ component)
    (free' : ∀ component ∈ second, '/' ∉ component) (some : first ≠ []) (some' : second ≠ [])
    (same : joined first = joined second) : first = second := by
  have split := List.splitOn_intercalate '/' free some
  rw [← List.splitOn_intercalate '/' free' some', ← split]
  exact congrArg (List.splitOn '/') same

/-- Two names get different files exactly if they have different components, not counting the
empty ones. -/
theorem whisperMetricFilename_ne_iff (storable : Storable a) (storable' : Storable b)
    (storageDir : CString) :
    whisperMetricFilename storageDir a ≠ whisperMetricFilename storageDir b ↔
      strtok '.' a ≠ strtok '.' b := by
  have free {metric : CString} (storable : Storable metric) :
      ∀ component ∈ strtok '.' metric, '/' ∉ component := by
    intro component member slash
    exact (storable.word '/' ((mem_strtok member).2.2 '/' slash)).2.2 rfl
  refine not_congr ⟨fun same => ?_, fun same => congrArg (metricPath storageDir) same⟩
  by_cases unnamed : strtok '.' a = []
  · by_cases unnamed' : strtok '.' b = []
    · rw [unnamed, unnamed']
    · rw [whisperMetricFilename, whisperMetricFilename, unnamed, metricPath_eq _ unnamed'] at same
      simp [metricPath] at same
  · by_cases unnamed' : strtok '.' b = []
    · rw [whisperMetricFilename, whisperMetricFilename, unnamed', metricPath_eq _ unnamed] at same
      simp [metricPath] at same
    · rw [whisperMetricFilename, whisperMetricFilename, metricPath_eq _ unnamed,
        metricPath_eq _ unnamed'] at same
      have joins := (List.cons.inj (List.append_cancel_left same)).2
      exact joined_injective _ _ (free storable) (free storable') unnamed unnamed'
        (List.append_cancel_right joins)

theorem whisperMetricFilename_ne_iff_witness :
    whisperMetricFilename "/var".toList "a.b".toList ≠
      whisperMetricFilename "/var".toList "a.c".toList ↔
    strtok '.' "a.b".toList ≠ strtok '.' "a.c".toList :=
  whisperMetricFilename_ne_iff ⟨by decide, by decide, by decide⟩ ⟨by decide, by decide, by decide⟩ _

/-- Dots that are doubled do not count. -/
theorem doubled_dot_shares_file : Storable "a.b".toList ∧ Storable "a..b".toList ∧
    "a.b".toList ≠ "a..b".toList ∧
    whisperMetricFilename "/var".toList "a.b".toList =
      whisperMetricFilename "/var".toList "a..b".toList :=
  ⟨⟨by decide, by decide, by decide⟩, ⟨by decide, by decide, by decide⟩, by decide, by decide⟩

end Carbond.Whisper
