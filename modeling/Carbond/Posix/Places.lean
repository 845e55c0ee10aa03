import Carbond.Posix.Lockstep

/-! Programs that keep to one file and some directories: what they may change of the world, and
that what they do depends on nothing else of it. -/
namespace Carbond.Posix
open Carbond.Bytes
variable {G α : Type} {path : Path} {dirs : List Path} {before before' w w' : World G}

/-- Since `before`, the file may have been created or rewritten, missing directories may have been
made, and descriptors may have been opened. -/
structure Touches (path : Path) (dirs : List Path) (before after : World G) : Prop where
  others : ∀ p, p ≠ path → p ∉ dirs → after.nodes p = before.nodes p
  made : ∀ p ∈ dirs, p ≠ path →
    after.nodes p = before.nodes p ∨ before.nodes p = none ∧ after.nodes p = some .directory
  kept : ∀ p node, before.nodes p = some node →
    ∃ node', after.nodes p = some node' ∧ (node' = .directory ↔ node = .directory)
  descriptors : ∀ n < before.nextFd, after.descriptors n = before.descriptors n
  nextFd : before.nextFd ≤ after.nextFd

/-- There is no regular file at this place. -/
def NotFile (w : World G) (p : Path) : Prop := ∀ c, w.nodes p ≠ some (.file c)

/-- The places look the same in both worlds, which have the same outcomes in store. Where every
call succeeds, a directory may still be missing in one of them. -/
structure SamePlaces (path : Path) (dirs : List Path) (w w' : World G) : Prop where
  schedule : w'.outcomes = w.outcomes
  file : w'.nodes path = w.nodes path
  directories : ∀ p ∈ dirs,
    w'.nodes p = w.nodes p ∨ w.outcomes = [] ∧ NotFile w p ∧ NotFile w' p

/-- Two worlds with the same places, each with nothing else changed since the given world. -/
structure Alike (path : Path) (dirs : List Path) (before before' w w' : World G) : Prop where
  same : SamePlaces path dirs w w'
  left : Touches path dirs before w
  right : Touches path dirs before' w'
  used : w.outcomes <:+ before.outcomes

namespace Touches

theorem refl (path : Path) (dirs : List Path) (w : World G) : Touches path dirs w w where
  others _ _ _ := rfl
  made _ _ _ := .inl rfl
  kept _ node found := ⟨node, found, Iff.rfl⟩
  descriptors _ _ := rfl
  nextFd := Nat.le_refl _

theorem trans {w₁ w₂ w₃ : World G} (first : Touches path dirs w₁ w₂)
    (second : Touches path dirs w₂ w₃) : Touches path dirs w₁ w₃ where
  others p differs outside := (second.others p differs outside).trans (first.others p differs outside)
  made p inside differs := by
    rcases second.made p inside differs with same | ⟨free, made⟩
    · rw [same]
      exact first.made p inside differs
    · rcases first.made p inside differs with same | ⟨_, taken⟩
      · exact .inr ⟨same ▸ free, made⟩
      · rw [taken] at free
        contradiction
  kept p node found := by
    obtain ⟨node₂, found₂, kind₂⟩ := first.kept p node found
    obtain ⟨node₃, found₃, kind₃⟩ := second.kept p node₂ found₂
    exact ⟨node₃, found₃, kind₃.trans kind₂⟩
  descriptors n old := (second.descriptors n (Nat.lt_of_lt_of_le old first.nextFd)).trans
    (first.descriptors n old)
  nextFd := Nat.le_trans first.nextFd second.nextFd

/-- What the kernel has in store is no part of it. -/
theorem scheduled (touches : Touches path dirs { w with outcomes := outcomes } w') :
    Touches path dirs w w' :=
  ⟨touches.others, touches.made, touches.kept, touches.descriptors, touches.nextFd⟩

theorem advanced (touches : Touches path dirs before w) : Touches path dirs before w.advanced :=
  ⟨touches.others, touches.made, touches.kept, touches.descriptors, touches.nextFd⟩

/-- A directory that is missing is made. -/
theorem mkdir (touches : Touches path dirs before w) (inside : p ∈ dirs) (free : w.nodes p = none) :
    Touches path dirs before { w with nodes := Function.update w.nodes p (some .directory) } := by
  refine touches.trans
    { others := fun q _ outside => ?_, made := fun q _ _ => ?_, kept := fun q node found => ?_,
      descriptors := fun _ _ => rfl, nextFd := Nat.le_refl _ }
  · have other : q ≠ p := by
      rintro rfl
      exact outside inside
    exact Function.update_of_ne other _ _
  · by_cases same : q = p
    · subst same
      exact .inr ⟨free, Function.update_self ..⟩
    · exact .inl (Function.update_of_ne same _ _)
  · have other : q ≠ p := by
      rintro rfl
      rw [free] at found
      contradiction
    exact ⟨node, (Function.update_of_ne other _ _).trans found, Iff.rfl⟩

/-- What a program does to the one file it has open. -/
theorem within (touches : Touches path dirs before w) (file : w.nodes path = some (.file c))
    (fresh : before.nextFd ≤ fd) (inside : Within fd path w w₂ outcomes c' pos) :
    Touches path dirs before w₂ := by
  have besides := inside.besides
  refine ⟨fun p differs outside => ?_, fun p member differs => ?_, fun p node found => ?_,
    fun n old => ?_, ?_⟩
  · exact (besides.nodes p differs).trans (touches.others p differs outside)
  · rw [besides.nodes p differs]
    exact touches.made p member differs
  · obtain ⟨node₁, found₁, kind⟩ := touches.kept p node found
    by_cases same : p = path
    · subst same
      rw [file] at found₁
      obtain rfl := Option.some.inj found₁
      exact ⟨_, inside.holding.node, by simpa using kind⟩
    · exact ⟨node₁, (besides.nodes p same).trans found₁, kind⟩
  · rw [besides.descriptors n (by omega)]
    exact touches.descriptors n old
  · rw [besides.nextFd]
    exact touches.nextFd

/-- Another file stays as it is. -/
theorem file (touches : Touches path dirs before w) (found : before.nodes p = some (.file c))
    (other : p ≠ path) : w.nodes p = some (.file c) := by
  rw [← found]
  by_cases inside : p ∈ dirs
  · rcases touches.made p inside other with same | ⟨free, _⟩
    · exact same
    · rw [found] at free
      contradiction
  · exact touches.others p other inside

/-- A directory stays one. -/
theorem directory (touches : Touches path dirs before w)
    (found : before.nodes dir = some .directory) : w.nodes dir = some .directory := by
  obtain ⟨node, found', kind⟩ := touches.kept dir .directory found
  rw [found', kind.mpr rfl]

end Touches

theorem NotFile.of_nodes (absent : NotFile w p) (same : w'.nodes p = w.nodes p) : NotFile w' p := by
  intro c found
  exact absent c (same ▸ found)

/-- No file appears but the one of the call. -/
theorem Touches.notFile (touches : Touches path dirs before w) (absent : NotFile before dir)
    (other : dir ≠ path) : NotFile w dir := by
  by_cases inside : dir ∈ dirs
  · rcases touches.made dir inside other with same | ⟨_, made⟩
    · exact absent.of_nodes same
    · intro c found
      rw [made] at found
      cases found
  · exact absent.of_nodes (touches.others dir other inside)

theorem NotFile.mkdir (absent : NotFile w p) (q : Path) :
    NotFile { w with nodes := Function.update w.nodes q (some .directory) } p := by
  intro c found
  by_cases same : p = q
  · subst same
    simp at found
  · exact absent c ((Function.update_of_ne same _ _).symm.trans found)

theorem SamePlaces.refl (path : Path) (dirs : List Path) (w : World G) :
    SamePlaces path dirs w w := ⟨rfl, rfl, fun _ _ => .inl rfl⟩

theorem SamePlaces.advanced (same : SamePlaces path dirs w w') :
    SamePlaces path dirs w.advanced w'.advanced where
  schedule := congrArg List.tail same.schedule
  file := same.file
  directories p inside := (same.directories p inside).imp_right fun ⟨quiet, absent⟩ =>
    ⟨congrArg List.tail quiet, absent⟩

theorem SamePlaces.mkdir (same : SamePlaces path dirs w w') (p : Path) :
    SamePlaces path dirs { w with nodes := Function.update w.nodes p (some .directory) }
      { w' with nodes := Function.update w'.nodes p (some .directory) } where
  schedule := same.schedule
  file := by
    simp only [Function.update_apply, same.file]
  directories q inside := by
    rcases same.directories q inside with same | ⟨quiet, absent, absent'⟩
    · exact .inl (by simp only [Function.update_apply, same])
    · exact .inr ⟨quiet, absent.mkdir p, absent'.mkdir p⟩

/-- In quiet worlds a directory may appear in one world only. -/
theorem SamePlaces.appears {s s' : World G} (same : SamePlaces path dirs w w') (quiet : s.outcomes = [])
    (quiet' : s'.outcomes = []) (other : p ≠ path) (absent : NotFile s p) (absent' : NotFile s' p)
    (kept : ∀ q, q ≠ p → s.nodes q = w.nodes q) (kept' : ∀ q, q ≠ p → s'.nodes q = w'.nodes q) :
    SamePlaces path dirs s s' where
  schedule := quiet'.trans quiet.symm
  file := by rw [kept path other.symm, kept' path other.symm, same.file]
  directories q inside := by
    by_cases here : q = p
    · subst here
      exact .inr ⟨quiet, absent, absent'⟩
    · rcases same.directories q inside with found | ⟨_, absent, absent'⟩
      · exact .inl (by rw [kept q here, kept' q here, found])
      · exact .inr ⟨quiet, absent.of_nodes (kept q here), absent'.of_nodes (kept' q here)⟩

namespace Alike

theorem start (same : SamePlaces path dirs w w') : Alike path dirs w w' w w' :=
  ⟨same, .refl _ _ _, .refl _ _ _, List.suffix_refl _⟩

theorem advanced (alike : Alike path dirs before before' w w') :
    Alike path dirs before before' w.advanced w'.advanced :=
  ⟨alike.same.advanced, alike.left.advanced, alike.right.advanced,
    (List.tail_suffix _).trans alike.used⟩

theorem nextOutcome :
    Lockstep (Alike path dirs before before') Posix.nextOutcome Posix.nextOutcome := by
  intro w w' alike
  have right := nextOutcome_yields w'
  rw [alike.same.schedule] at right
  exact .of_yields (nextOutcome_yields w) right ⟨rfl, alike.advanced⟩

theorem lseek_closed (alike : Alike path dirs before before' w w') (offset : ℤ) :
    Both w w' (Posix.lseek none offset) (Posix.lseek none offset)
      (fun r r' s s' => (∃ e e', r = .error e ∧ r' = .error e') ∧
        Alike path dirs before before' s s') (Alike path dirs before before') := by
  apply (nextOutcome w w' alike).bind
  rintro outcome _ s s' ⟨rfl, alike⟩
  cases outcome with
  | fail errno => exact .pure ⟨⟨_, _, rfl, rfl⟩, alike⟩
  | ok => exact .after (.get s) (.get s') (.pure ⟨⟨_, _, rfl, rfl⟩, alike⟩)
  | short limit => exact .after (.get s) (.get s') (.pure ⟨⟨_, _, rfl, rfl⟩, alike⟩)

theorem stat (alike : Alike path dirs before before' w w') (found : w'.nodes p = w.nodes p) :
    Both w w' (Posix.stat p) (Posix.stat p)
      (fun r r' s s' => r = r' ∧ s'.nodes p = s.nodes p ∧ Alike path dirs before before' s s')
      (Alike path dirs before before') := by
  apply Both.after (nextOutcome_yields w) (alike.same.schedule ▸ nextOutcome_yields w')
  have next := alike.advanced
  have found : w'.advanced.nodes p = w.advanced.nodes p := found
  cases upcoming w.outcomes
  case fail errno => exact .pure ⟨rfl, found, next⟩
  all_goals
    apply Both.after (.get _) (.get _)
    rw [found]
    split
    · exact .pure ⟨rfl, found, next⟩
    · exact .pure ⟨rfl, found, next⟩
    · exact .pure ⟨rfl, found, next⟩

/-- The directory is made in both worlds or in none. -/
theorem mkdir (alike : Alike path dirs before before' w w') (found : w'.nodes p = w.nodes p)
    (inside : p ∈ dirs) : Both w w' (Posix.mkdir p) (Posix.mkdir p)
      (fun r r' s s' => r = r' ∧ Alike path dirs before before' s s')
      (Alike path dirs before before') := by
  apply Both.after (nextOutcome_yields w) (alike.same.schedule ▸ nextOutcome_yields w')
  have next := alike.advanced
  have found : w'.advanced.nodes p = w.advanced.nodes p := found
  cases upcoming w.outcomes
  case fail errno => exact .pure ⟨rfl, next⟩
  all_goals
    apply Both.after (.get _) (.get _)
    rw [found]
    split
    case isFalse => exact .pure ⟨rfl, next⟩
    case isTrue free =>
      apply Both.after (.set _ _) (.set _ _)
      exact .pure ⟨rfl, next.same.mkdir p, next.left.mkdir inside free.1,
        next.right.mkdir inside (found.trans free.1), next.used⟩

end Alike

/-! ### Opening and closing the file -/

/-- The file is open in both worlds, under descriptors that are new since the given worlds. -/
structure BothOpen (path : Path) (dirs : List Path) (before before' : World G) (fd fd' : ℕ)
    (s s' : World G) : Prop where
  fresh : before.nextFd ≤ fd
  fresh' : before'.nextFd ≤ fd'
  since : ∃ w w' c, Alike path dirs before before' w w' ∧ w.nodes path = some (.file c) ∧
    Twins fd path w fd' path w' s s'

namespace BothOpen
variable {fd fd' : ℕ} {s s' : World G}

theorem alike (opened : BothOpen path dirs before before' fd fd' s s') :
    Alike path dirs before before' s s' := by
  obtain ⟨w, w', c, alike, file, outcomes, c', pos, left, right⟩ := opened.since
  have file' : w'.nodes path = some (.file c) := alike.same.file.trans file
  refine ⟨⟨?_, ?_, fun p inside => ?_⟩, alike.left.within file opened.fresh left,
    alike.right.within file' opened.fresh' right, left.besides.schedule.trans alike.used⟩
  · exact right.holding.schedule.trans left.holding.schedule.symm
  · exact right.holding.node.trans left.holding.node.symm
  · by_cases same : p = path
    · rw [same]
      exact .inl (right.holding.node.trans left.holding.node.symm)
    · have kept := left.besides.nodes p same
      have kept' := right.besides.nodes p same
      rcases alike.same.directories p inside with found | ⟨quiet, absent, absent'⟩
      · exact .inl (by rw [kept, kept', found])
      · have used := left.besides.schedule
        rw [quiet, List.suffix_nil] at used
        exact .inr ⟨used, absent.of_nodes kept, absent'.of_nodes kept'⟩

/-- What goes in lockstep on the open file does so here. -/
theorem lockstep {first second : Proc G α}
    (steps : ∀ w w', Lockstep (Twins fd path w fd' path w') first second) :
    Lockstep (BothOpen path dirs before before' fd fd') first second := by
  rintro s s' ⟨fresh, fresh', w, w', c, alike, file, twins⟩
  refine (steps w w' s s' twins).imply ?_ ?_
  · rintro a b t t' ⟨rfl, kept⟩
    exact ⟨rfl, fresh, fresh', w, w', c, alike, file, kept⟩
  · intro t t' kept
    exact ⟨fresh, fresh', w, w', c, alike, file, kept⟩

/-- What goes in lockstep on the open file, before something else. -/
theorem step {β : Type} {first second : Proc G α} {rest rest' : α → Proc G β}
    {post : β → β → World G → World G → Prop} (opened : BothOpen path dirs before before' fd fd' s s')
    (steps : ∀ w w', Lockstep (Twins fd path w fd' path w') first second)
    (tail : ∀ a t t', BothOpen path dirs before before' fd fd' t t' →
      Both t t' (rest a) (rest' a) post (Alike path dirs before before')) :
    Both s s' (first >>= rest) (second >>= rest') post (Alike path dirs before before') := by
  have both := (lockstep steps s s' opened).imply (fun _ _ _ _ kept => kept)
    fun t t' stopped => stopped.alike
  apply both.bind
  rintro a _ t t' ⟨rfl, opened⟩
  exact tail a t t' opened

theorem closed (alike : Alike path dirs before before' s s') (fresh : before.nextFd ≤ fd)
    (fresh' : before'.nextFd ≤ fd') : Alike path dirs before before'
      { s with descriptors := Function.update s.descriptors fd none }
      { s' with descriptors := Function.update s'.descriptors fd' none } where
  same := ⟨alike.same.schedule, alike.same.file, alike.same.directories⟩
  left := ⟨alike.left.others, alike.left.made, alike.left.kept, fun n old =>
    (Function.update_of_ne (by omega) _ _).trans (alike.left.descriptors n old), alike.left.nextFd⟩
  right := ⟨alike.right.others, alike.right.made, alike.right.kept, fun n old =>
    (Function.update_of_ne (by omega) _ _).trans (alike.right.descriptors n old), alike.right.nextFd⟩
  used := alike.used

theorem close (opened : BothOpen path dirs before before' fd fd' s s') :
    Both s s' (Posix.close (some fd)) (Posix.close (some fd'))
      (fun _ _ t t' => Alike path dirs before before' t t') (Alike path dirs before before') := by
  apply (Alike.nextOutcome s s' opened.alike).bind
  rintro outcome _ t t' ⟨rfl, alike⟩
  cases outcome with
  | fail errno => exact .pure alike
  | ok => exact .of_yields (.update _ _) (.update _ _) (closed alike opened.fresh opened.fresh')
  | short limit =>
    exact .of_yields (.update _ _) (.update _ _) (closed alike opened.fresh opened.fresh')

end BothOpen

theorem Holding.within {w : World G} (holding : Holding w outcomes fd path c pos) :
    Within fd path w w outcomes c pos := ⟨holding, .refl _ _ _⟩

/-- The world after the file is opened with these contents. -/
def World.opened (w : World G) (path : Path) (c : List UInt8) : World G :=
  { w with
    nodes := Function.update w.nodes path (some (.file c))
    descriptors := Function.update w.descriptors w.nextFd (some ⟨path, 0⟩)
    nextFd := w.nextFd + 1 }

theorem World.opened_found {w : World G} (file : w.nodes path = some (.file c)) :
    w.opened path c = { w with
      descriptors := Function.update w.descriptors w.nextFd (some ⟨path, 0⟩)
      nextFd := w.nextFd + 1 } := by
  rw [World.opened, ← file, Function.update_eq_self]

theorem World.opened_yields {w : World G} (quiet : w.outcomes = [])
    (file : w.nodes path = some (.file c)) (create : Bool) :
    Yields (openFile path create) w (.ok w.nextFd) (w.opened path c) := by
  rw [World.opened_found file]
  refine .bind (nextOutcome_quiet quiet) (.bind (.get w) ?_)
  simp only [file]
  exact .bind (.set _ _) (.pure _ _)

theorem Touches.opened (touches : Touches path dirs before w)
    (file : w.nodes path = some (.file c) ∨ w.nodes path = none) :
    Touches path dirs before (w.opened path c) := by
  refine touches.trans
    { others := fun p differs _ => Function.update_of_ne differs _ _
      made := fun p _ differs => .inl (Function.update_of_ne differs _ _)
      kept := fun p node found => ?_
      descriptors := fun n old => Function.update_of_ne (Nat.ne_of_lt old) _ _
      nextFd := Nat.le_succ _ }
  by_cases same : p = path
  · subst same
    rcases file with file | free
    · rw [file] at found
      obtain rfl := Option.some.inj found
      exact ⟨_, Function.update_self .., Iff.rfl⟩
    · rw [free] at found
      contradiction
  · exact ⟨node, (Function.update_of_ne same _ _).trans found, Iff.rfl⟩

theorem Alike.opened (alike : Alike path dirs before before' w w')
    (file : w.nodes path = some (.file c) ∨ w.nodes path = none) :
    BothOpen path dirs before before' w.nextFd w'.nextFd (w.opened path c) (w'.opened path c) := by
  have file' : w'.nodes path = some (.file c) ∨ w'.nodes path = none := by rwa [alike.same.file]
  refine ⟨alike.left.nextFd, alike.right.nextFd, w.opened path c, w'.opened path c, c,
    ⟨⟨alike.same.schedule, ?_, fun p inside => ?_⟩, alike.left.opened file,
      alike.right.opened file', alike.used⟩,
    Function.update_self .., w.outcomes, c, 0, Holding.within ?_, Holding.within ?_⟩
  · simp only [World.opened, Function.update_self]
  · by_cases other : p = path
    · subst other
      exact .inl (by simp only [World.opened, Function.update_self])
    · have kept : (w.opened path c).nodes p = w.nodes p := Function.update_of_ne other _ _
      have kept' : (w'.opened path c).nodes p = w'.nodes p := Function.update_of_ne other _ _
      rcases alike.same.directories p inside with found | ⟨quiet, absent, absent'⟩
      · exact .inl (by rw [kept, kept', found])
      · exact .inr ⟨quiet, absent.of_nodes kept, absent'.of_nodes kept'⟩
  · exact ⟨rfl, Function.update_self .., Function.update_self ..⟩
  · exact ⟨alike.same.schedule, Function.update_self .., Function.update_self ..⟩

/-- Both calls fail, or both open the file. -/
theorem Alike.openFile (alike : Alike path dirs before before' w w') (create : Bool) :
    Both w w' (Posix.openFile path create) (Posix.openFile path create)
      (fun r r' s s' => (∃ e, r = .error e ∧ r' = .error e ∧ Alike path dirs before before' s s') ∨
        ∃ fd fd', r = .ok fd ∧ r' = .ok fd' ∧ BothOpen path dirs before before' fd fd' s s')
      (Alike path dirs before before') := by
  apply (Alike.nextOutcome w w' alike).bind
  rintro outcome _ s s' ⟨rfl, alike⟩
  cases outcome
  case fail errno => exact .pure (.inl ⟨errno, rfl, rfl, alike⟩)
  all_goals
    apply Both.after (.get s) (.get s')
    rw [alike.same.file]
    cases found : s.nodes path with
    | some node =>
      cases node with
      | file c =>
        have opened := alike.opened (.inl found)
        rw [World.opened_found found, World.opened_found (alike.same.file.trans found)] at opened
        exact .after (.set _ _) (.set _ _) (.pure (.inr ⟨_, _, rfl, rfl, opened⟩))
      | directory => exact .pure (.inl ⟨_, rfl, rfl, alike⟩)
    | none =>
      dsimp only
      split
      · exact .after (.set _ _) (.set _ _) (.pure (.inr ⟨_, _, rfl, rfl, alike.opened (.inr found)⟩))
      · exact .pure (.inl ⟨_, rfl, rfl, alike⟩)

end Carbond.Posix
