import Carbond.Whisper.GuardProofs

/-! Once a metric has its file, its rules no longer matter: a run of calls does the same under any
configurations with the same storage directory, whichever system calls fail. -/
namespace Carbond.Whisper
open Bytes Posix Text
variable {w s : World Globals} {conf conf' : CarbonConf} {metric : CString} {requests : List Request}

section
variable [Platform]

theorem whisperWriteValue_settled (sameDir : conf'.storageDir = conf.storageDir)
    (found : w.nodes (whisperMetricFilename conf.storageDir metric) = some (.file c))
    (honest : upcoming w.outcomes ≠ .fail .enoent) (timestamp : UInt32) (value : UInt64) :
    whisperWriteValue conf' metric timestamp value w =
      whisperWriteValue conf metric timestamp value w := by
  have opened : Ends w (openFile (whisperMetricFilename conf.storageDir metric) false)
      (fun r _ => ∀ e, r = .error e → e ≠ .enoent) (fun _ _ => False) := by
    refine (openFile_ends _ false w).imply ?_
    rintro r w' (⟨e, rfl, _, refused⟩ | ⟨_, _, rfl, _⟩)
    · rintro _ same rfl
      obtain rfl := Except.error.inj same
      exact honest (refused c found)
    · intro e same
      contradiction
  obtain ⟨r, w', run, other⟩ := opened.returns_of_not_stops
  unfold whisperWriteValue
  rw [sameDir, run.rest_eq, run.rest_eq]
  cases r with
  | ok fd => rfl
  | error e =>
    cases e with
    | enoent => exact absurd rfl (other .enoent rfl)
    | ebadf => rfl
    | einval => rfl
    | eisdir => rfl
    | other code => rfl

theorem serve_settled (found : w.nodes request.path = some (.file c)) (honest : Honest request)
    (sameDir : conf'.storageDir = request.conf.storageDir) :
    serve { request with conf := conf' } w = serve request w := by
  rw [serve_eq, serve_eq]
  exact whisperWriteValue_settled (w := { w with outcomes := request.outcomes }) sameDir found honest
    _ _

/-- For metrics that have their files, the rules in force at each call do not matter. -/
theorem serveAll_settled (honest : ∀ request ∈ requests, Honest request)
    (stored : ∀ request ∈ requests, ∃ c, w.nodes request.path = some (.file c))
    (confOf : Request → CarbonConf)
    (sameDir : ∀ request ∈ requests, (confOf request).storageDir = request.conf.storageDir) :
    serveAll (requests.map fun request => { request with conf := confOf request }) w =
      serveAll requests w := by
  induction requests generalizing w with
  | nil => rfl
  | cons request rest ih =>
    obtain ⟨c, found⟩ := stored request List.mem_cons_self
    have same := serve_settled found (honest request List.mem_cons_self)
      (sameDir request List.mem_cons_self)
    change (serve { request with conf := confOf request } >>= fun _ => _) w = (serve request >>= _) w
    cases executed : serve request w with
    | error e t => rw [stops_bind executed, stops_bind (same.trans executed)]
    | ok r t =>
      rw [Yields.rest_eq executed, Yields.rest_eq (same.trans executed)]
      apply ih (fun r member => honest r (List.mem_cons_of_mem _ member))
      · intro other member
        obtain ⟨c', found'⟩ := stored other (List.mem_cons_of_mem _ member)
        obtain ⟨node, there, kind⟩ :=
          ((serve_touches request w).returns r t executed).kept _ _ found'
        cases node with
        | directory => cases kind.mp rfl
        | file c'' => exact ⟨c'', there⟩
      · exact fun r member => sameDir r (List.mem_cons_of_mem _ member)

end

/-- A reload between two points, to rules that would divide by zero for a new metric. -/
theorem serveAll_settled_witness :
    @serveAll matchesAll [{ brokenRequest with
        conf := soleRule [⟨0, 10⟩] ⟨[], 0, .sum⟩ }] newFileWorld =
      @serveAll matchesAll [brokenRequest] newFileWorld := by
  have stored : ∀ request ∈ [brokenRequest],
      ∃ c, newFileWorld.nodes request.path = some (.file c) := by
    intro request member
    obtain rfl := List.mem_singleton.mp member
    have name : brokenRequest.path = "/b/a.wsp".toList := by decide
    exact ⟨newFile, name ▸ newFileWorld_node⟩
  have sameDir : ∀ request ∈ [brokenRequest],
      (soleRule [⟨0, 10⟩] ⟨[], 0, .sum⟩).storageDir = request.conf.storageDir := by
    intro request member
    obtain rfl := List.mem_singleton.mp member
    rfl
  exact @serveAll_settled newFileWorld [brokenRequest] matchesAll (by decide) stored
    (fun _ => soleRule [⟨0, 10⟩] ⟨[], 0, .sum⟩) sameDir

end Carbond.Whisper
