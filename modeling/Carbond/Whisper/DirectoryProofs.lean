import Carbond.Whisper.PathProofs
import Mathlib.Data.List.Chain
import Mathlib.Data.List.Nodup

/-! The two loops over the components of a name agree: the directories made for a metric are those
on the path to its file. -/
namespace Carbond.Whisper
open Posix Text
variable {storageDir metric : CString} {components : List CString} {base dir : Path}

/-- One directory directly inside another. -/
def Child (parent dir : Path) : Prop :=
  ∃ component, component ≠ [] ∧ '/' ∉ component ∧ dir = parent ++ '/' :: component

theorem Child.longer (child : Child parent dir) : parent.length < dir.length := by
  obtain ⟨component, _, _, rfl⟩ := child
  simp

/-- What an empty component or a slash in one would break. -/
def Proper (components : List CString) : Prop :=
  ∀ component ∈ components, component ≠ [] ∧ '/' ∉ component

theorem strtok_proper (free : '/' ∉ metric) : Proper (strtok '.' metric) := by
  intro component member
  obtain ⟨some, _, chars⟩ := mem_strtok member
  exact ⟨some, fun slash => free (chars '/' slash)⟩

theorem strtok_named (named : ∃ c ∈ metric, c ≠ '.') : strtok '.' metric ≠ [] := by
  induction metric with
  | nil => obtain ⟨_, member, _⟩ := named; contradiction
  | cons first rest ih =>
    by_cases dot : first = '.'
    · subst dot
      rw [strtok_separator]
      refine ih ?_
      obtain ⟨c, member, other⟩ := named
      rcases List.mem_cons.mp member with rfl | later
      · contradiction
      · exact ⟨c, later, other⟩
    · rw [strtok_cons dot]
      exact List.cons_ne_nil _ _

/-! ### Both loops -/

theorem componentDirs_chain (base : Path) (proper : Proper components) :
    (base :: componentDirs base components).IsChain Child := by
  induction components generalizing base with
  | nil => exact .singleton _
  | cons last rest ih =>
    cases rest with
    | nil => exact .singleton _
    | cons next rest =>
      obtain ⟨some, free⟩ := proper last List.mem_cons_self
      refine List.isChain_cons_cons.mpr ⟨⟨last, some, free, rfl⟩, ?_⟩
      exact ih _ fun component member => proper component (List.mem_cons_of_mem _ member)

/-- The file is directly inside the last directory. -/
theorem metricPath_child (base : Path) (named : components ≠ []) (proper : Proper components) :
    ∃ dir, (base :: componentDirs base components).getLast? = some dir ∧
      Child dir (metricPath base components) := by
  induction components generalizing base with
  | nil => contradiction
  | cons last rest ih =>
    cases rest with
    | nil =>
      have free := (proper last List.mem_cons_self).2
      refine ⟨base, rfl, last ++ ".wsp".toList, by simp, ?_, by simp [metricPath]⟩
      rw [List.mem_append]
      rintro (inside | inside)
      · exact free inside
      · exact absurd inside (by decide)
    | cons next rest =>
      obtain ⟨dir, final, child⟩ := ih (base ++ '/' :: last) (List.cons_ne_nil _ _)
        fun component member => proper component (List.mem_cons_of_mem _ member)
      exact ⟨dir, by rw [componentDirs, List.getLast?_cons_cons, final], child⟩

theorem slash_of_mem_dirs (named : components ≠ [])
    (member : dir ∈ base :: componentDirs base components) :
    base <+: dir ∧ ∃ rest, metricPath base components = dir ++ '/' :: rest := by
  induction components generalizing base with
  | nil => contradiction
  | cons last rest ih =>
    cases rest with
    | nil =>
      obtain rfl := List.mem_singleton.mp member
      exact ⟨List.prefix_rfl, last ++ ".wsp".toList, by simp [metricPath]⟩
    | cons next rest =>
      rcases List.mem_cons.mp member with rfl | deeper
      · refine ⟨List.prefix_rfl, last ++ '/' :: joined (next :: rest) ++ ".wsp".toList, ?_⟩
        rw [metricPath_eq _ (List.cons_ne_nil _ _), joined_cons _ (List.cons_ne_nil _ _)]
      · obtain ⟨below, further⟩ := ih (List.cons_ne_nil _ _) deeper
        exact ⟨(List.prefix_append _ _).trans below, further⟩

/-- A slash behind the base is one that a component follows. -/
theorem eq_base_of_slash (part behind rest : CString) (free : '/' ∉ part)
    (path : base ++ '/' :: (part ++ behind) = dir ++ '/' :: rest) (below : base.length ≤ dir.length)
    (short : dir.length ≤ base.length + part.length) : dir = base := by
  obtain ⟨more, rfl⟩ := List.prefix_of_prefix_length_le ⟨_, rfl⟩ ⟨_, path.symm⟩ below
  rw [List.append_assoc] at path
  have tail := List.append_cancel_left path
  cases more with
  | nil => exact List.append_nil _
  | cons first more =>
    obtain ⟨rfl, behind'⟩ := List.cons.inj tail
    simp only [List.length_append, List.length_cons] at short
    have inside : more ++ ['/'] <+: part := by
      refine List.prefix_of_prefix_length_le
        ⟨rest, (List.append_assoc _ _ _).trans behind'.symm⟩ ⟨behind, rfl⟩ ?_
      rw [List.length_append, List.length_singleton]
      omega
    exact absurd (inside.subset (List.mem_append_right _ List.mem_cons_self)) free

theorem mem_dirs_of_slash (named : components ≠ []) (proper : Proper components)
    (path : metricPath base components = dir ++ '/' :: rest) (below : base.length ≤ dir.length) :
    dir ∈ base :: componentDirs base components := by
  induction components generalizing base with
  | nil => contradiction
  | cons last more ih =>
    have free := (proper last List.mem_cons_self).2
    cases more with
    | nil =>
      have free' : '/' ∉ last ++ ".wsp".toList := by
        rw [List.mem_append]
        rintro (inside | inside)
        · exact free inside
        · exact absurd inside (by decide)
      have lengths := congrArg List.length path
      simp only [metricPath, List.length_append, List.length_cons] at lengths
      refine List.mem_singleton.mpr (eq_base_of_slash _ [] rest free' ?_ below ?_)
      · rw [← path, metricPath, List.append_nil, List.append_assoc]
        rfl
      · rw [List.length_append]
        omega
    | cons next more =>
      by_cases deeper : (base ++ '/' :: last).length ≤ dir.length
      · refine List.mem_cons_of_mem _ ?_
        exact ih (List.cons_ne_nil _ _)
          (fun component member => proper component (List.mem_cons_of_mem _ member)) path deeper
      · rw [metricPath_eq _ (List.cons_ne_nil _ _), joined_cons _ (List.cons_ne_nil _ _),
          List.append_assoc] at path
        rw [List.length_append, List.length_cons] at deeper
        exact List.mem_cons.mpr (.inl (eq_base_of_slash _ _ _ free path below (by omega)))

end Carbond.Whisper
