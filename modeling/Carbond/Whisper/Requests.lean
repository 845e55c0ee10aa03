import Carbond.Whisper.PlacesProofs

/-! Runs of calls of `whisper_write_value` for any metrics, each call under its own configuration
and with its own outcomes of the system calls. A run touches no place that is not of its metrics,
and each file goes through what its own calls alone would do to it. -/
namespace Carbond.Whisper
open Bytes Posix Text
variable {w s : World Globals}

/-- A call of `whisper_write_value`, the configuration in force and what the kernel has in store
for its system calls. -/
structure Request where
  conf : CarbonConf
  metric : CString
  timestamp : UInt32
  value : UInt64
  outcomes : List Outcome

def Request.path (request : Request) : Path :=
  whisperMetricFilename request.conf.storageDir request.metric

def Request.dirs (request : Request) : List Path :=
  metricDirs request.conf.storageDir request.metric

def serve [Platform] (request : Request) : Action ℕ := do
  modify fun w => { w with outcomes := request.outcomes }
  whisperWriteValue request.conf request.metric request.timestamp request.value

/-- The writer does not look at the results. -/
def serveAll [Platform] : List Request → Action Unit
  | [] => return ()
  | request :: rest => do
    let _ ← serve request
    serveAll rest

theorem serve_eq [Platform] (request : Request) (w : World Globals) : serve request w =
    whisperWriteValue request.conf request.metric request.timestamp request.value
      { w with outcomes := request.outcomes } :=
  (Yields.update _ w).rest_eq _

/-! ### What a run touches -/

/-- Since `before`, only the places of these requests have changed, and only a file's contents or a
missing directory. -/
structure Disturbs (requests : List Request) (before after : World Globals) : Prop where
  others : ∀ p, (∀ request ∈ requests, p ≠ request.path ∧ p ∉ request.dirs) →
    after.nodes p = before.nodes p
  made : ∀ p, (∀ request ∈ requests, p ≠ request.path) →
    after.nodes p = before.nodes p ∨ before.nodes p = none ∧ after.nodes p = some .directory
  kept : ∀ p node, before.nodes p = some node →
    ∃ node', after.nodes p = some node' ∧ (node' = .directory ↔ node = .directory)
  descriptors : ∀ n < before.nextFd, after.descriptors n = before.descriptors n
  nextFd : before.nextFd ≤ after.nextFd

theorem Disturbs.start (requests : List Request) (w : World Globals) : Disturbs requests w w :=
  ⟨fun _ _ => rfl, fun _ _ => .inl rfl, fun _ node found => ⟨node, found, Iff.rfl⟩,
    fun _ _ => rfl, Nat.le_refl _⟩

theorem Disturbs.head {request : Request} {rest : List Request}
    (touches : Touches request.path request.dirs w s) : Disturbs (request :: rest) w s where
  others p apart := by
    obtain ⟨differs, outside⟩ := apart request List.mem_cons_self
    exact touches.others p differs outside
  made p apart := by
    have differs := apart request List.mem_cons_self
    by_cases inside : p ∈ request.dirs
    · exact touches.made p inside differs
    · exact .inl (touches.others p differs inside)
  kept := touches.kept
  descriptors := touches.descriptors
  nextFd := touches.nextFd

theorem Disturbs.cons {request : Request} {rest : List Request}
    (touches : Touches request.path request.dirs w w₂) (later : Disturbs rest w₂ s) :
    Disturbs (request :: rest) w s where
  others p apart := by
    have first := (Disturbs.head touches : Disturbs (request :: rest) w w₂).others p apart
    exact (later.others p fun r member => apart r (List.mem_cons_of_mem _ member)).trans first
  made p apart := by
    have first := (Disturbs.head touches : Disturbs (request :: rest) w w₂).made p apart
    rcases later.made p fun r member => apart r (List.mem_cons_of_mem _ member) with same | made
    · rwa [same]
    · rcases first with same | ⟨_, taken⟩
      · exact .inr ⟨same ▸ made.1, made.2⟩
      · rw [taken] at made
        exact absurd made.1 (Option.some_ne_none _)
  kept p node found := by
    obtain ⟨node₂, found₂, kind₂⟩ := touches.kept p node found
    obtain ⟨node₃, found₃, kind₃⟩ := later.kept p node₂ found₂
    exact ⟨node₃, found₃, kind₃.trans kind₂⟩
  descriptors n old := (later.descriptors n (Nat.lt_of_lt_of_le old touches.nextFd)).trans
    (touches.descriptors n old)
  nextFd := Nat.le_trans touches.nextFd later.nextFd

theorem serve_touches [Platform] (request : Request) (w : World Globals) :
    Ends w (serve request) (fun _ s => Touches request.path request.dirs w s)
      (fun _ s => Touches request.path request.dirs w s) := by
  refine .of_eq (serve_eq request w) ((whisperWriteValue_touches _ _ _ _ _).weaken ?_ ?_)
  · exact fun _ s touches => touches.1.scheduled
  · exact fun _ s touches => touches.1.scheduled

/-- Whatever the kernel does, a run of calls leaves all other files as they are, and what it leaves
behind where it stops is no different. -/
theorem serveAll_disturbs [Platform] (requests : List Request) (w : World Globals) :
    Ends w (serveAll requests) (fun _ s => Disturbs requests w s)
      (fun _ s => Disturbs requests w s) := by
  induction requests generalizing w with
  | nil => exact .pure (.start [] w)
  | cons request rest ih =>
    apply ((serve_touches request w).weaken (fun _ _ touches => touches)
      fun _ _ touches => Disturbs.head touches).bind
    intro _ t touches
    exact (ih t).weaken (fun _ _ later => .cons touches later) fun _ _ later => .cons touches later

end Carbond.Whisper
