import Carbond.Whisper.CreateProofs
import Carbond.Whisper.PathProofs
import Carbond.Whisper.Requests

/-! A run of calls for many metrics, and for each file the run of its own calls. -/
namespace Carbond.Whisper
open Bytes Posix Text
variable {all requests : List Request} {request : Request} {path : Path} {w w' s : World Globals}

/-- The calls that write to one file. -/
def requestsTo (path : Path) (requests : List Request) : List Request :=
  requests.filter fun request => request.path = path

/-- The directories of all calls that write to one file. -/
def dirsTo (path : Path) (requests : List Request) : List Path :=
  (requestsTo path requests).flatMap Request.dirs

/-- No file of a request is in the place of a directory of a request. -/
def Separate (requests : List Request) : Prop :=
  ∀ request ∈ requests, ∀ other ∈ requests, request.path ∉ other.dirs

instance (requests : List Request) : Decidable (Separate requests) :=
  inferInstanceAs (Decidable (∀ request ∈ requests, ∀ other ∈ requests, request.path ∉ other.dirs))

/-- The directories of one storage have no dot in them that its files have. -/
theorem metricFilename_not_dir (named : strtok '.' metric ≠ []) (storageDir other : CString) :
    whisperMetricFilename storageDir metric ∉ metricDirs storageDir other := by
  intro member
  rw [whisperMetricFilename, metricPath_eq storageDir named] at member
  rcases List.mem_cons.mp member with same | deeper
  · simpa using congrArg List.length same
  · obtain ⟨front, rest, split, _, same⟩ := mem_componentDirs deeper
    have free : '.' ∉ joined front := joined_free fun component inside =>
      (mem_strtok (split ▸ List.mem_append_left rest inside)).2.1
    rw [← (List.cons.inj (List.append_cancel_left same)).2] at free
    exact free (by simp)

/-- The directories exist, or all calls succeed and no file is in the way. -/
def Ready (requests : List Request) (w : World Globals) : Prop :=
  ∀ request ∈ requests, ∀ dir ∈ request.dirs, w.nodes dir = some .directory ∨
    (∀ other ∈ requests, other.outcomes = []) ∧ NotFile w dir

/-- The file looks the same in the world of all calls and in the world of its own. -/
structure Isolated (all : List Request) (path : Path) (w w' : World Globals) : Prop where
  file : w'.nodes path = w.nodes path
  directories : ∀ dir ∈ dirsTo path all,
    w.nodes dir = some .directory ∧ w'.nodes dir = some .directory ∨
      (∀ other ∈ all, other.outcomes = []) ∧ NotFile w dir ∧ NotFile w' dir

theorem mem_dirsTo : dir ∈ dirsTo path all ↔
    ∃ request ∈ all, request.path = path ∧ dir ∈ request.dirs := by
  simp only [dirsTo, requestsTo, List.mem_flatMap, List.mem_filter, decide_eq_true_eq, and_assoc]

theorem Isolated.samePlaces (isolated : Isolated all path w w') (member : request ∈ all) :
    SamePlaces path (dirsTo path all) { w with outcomes := request.outcomes }
      { w' with outcomes := request.outcomes } where
  schedule := rfl
  file := isolated.file
  directories dir inside := by
    rcases isolated.directories dir inside with ⟨found, found'⟩ | ⟨quiet, absent, absent'⟩
    · exact .inl (found'.trans found.symm)
    · exact .inr ⟨quiet request member, absent, absent'⟩

theorem Isolated.touched (separate : Separate all) (isolated : Isolated all path w w')
    (named : ∃ target ∈ all, target.path = path)
    (same : SamePlaces path (dirsTo path all) s s') (left : Touches path (dirsTo path all) w s)
    (right : Touches path (dirsTo path all) w' s') : Isolated all path s s' where
  file := same.file
  directories dir inside := by
    have other : dir ≠ path := by
      obtain ⟨target, member, rfl⟩ := named
      obtain ⟨r, member', _, inside⟩ := mem_dirsTo.mp inside
      rintro rfl
      exact separate target member r member' inside
    rcases isolated.directories dir inside with ⟨found, found'⟩ | ⟨quiet, absent, absent'⟩
    · exact .inl ⟨left.directory found, right.directory found'⟩
    · exact .inr ⟨quiet, left.notFile absent other, right.notFile absent' other⟩

/-- A call for another file does not show. -/
theorem Isolated.other (separate : Separate all) (isolated : Isolated all path w w')
    (named : ∃ target ∈ all, target.path = path) (member : request ∈ all)
    (other : request.path ≠ path) (touches : Touches request.path request.dirs w s) :
    Isolated all path s w' where
  file := by
    obtain ⟨target, member', rfl⟩ := named
    rw [isolated.file, touches.others _ other.symm (separate target member' request member)]
  directories dir inside := by
    have apart : dir ≠ request.path := by
      obtain ⟨r, member', _, inside⟩ := mem_dirsTo.mp inside
      rintro rfl
      exact separate request member r member' inside
    rcases isolated.directories dir inside with ⟨found, found'⟩ | ⟨quiet, absent, absent'⟩
    · exact .inl ⟨touches.directory found, found'⟩
    · exact .inr ⟨quiet, touches.notFile absent apart, absent'⟩

theorem Ready.isolated (prepared : Ready all w) (path : Path) : Isolated all path w w where
  file := rfl
  directories dir inside := by
    obtain ⟨r, member, _, inside⟩ := mem_dirsTo.mp inside
    rcases prepared r member dir inside with found | ⟨quiet, absent⟩
    · exact .inl ⟨found, found⟩
    · exact .inr ⟨quiet, absent, absent⟩

section
variable [Platform]

/-- A call for the file does the same in both worlds. -/
theorem Isolated.own (separate : Separate all) (isolated : Isolated all path w w')
    (member : request ∈ all) (mine : request.path = path) :
    Both w w' (serve request) (serve request)
      (fun r r' s s' => r = r' ∧ Isolated all path s s') (Isolated all path) := by
  have places : Places request.conf request.metric path (dirsTo path all) :=
    ⟨mine, fun dir inside => mem_dirsTo.mpr ⟨request, member, mine, inside⟩⟩
  have both := whisperWriteValue_both places (.start (isolated.samePlaces member))
    request.timestamp request.value
  have keeps : ∀ s s', Alike path (dirsTo path all) { w with outcomes := request.outcomes }
      { w' with outcomes := request.outcomes } s s' → Isolated all path s s' := by
    intro s s' alike
    exact isolated.touched separate ⟨request, member, mine⟩ alike.same alike.left.scheduled
      alike.right.scheduled
  rw [Both, serve_eq, serve_eq]
  exact both.imply (fun _ _ s s' kept => ⟨kept.1, keeps s s' kept.2⟩) keeps

/-- While the run goes on, so does the run of the calls for one file. -/
theorem Isolated.run (separate : Separate all) (isolated : Isolated all path w w')
    (named : ∃ target ∈ all, target.path = path) (members : ∀ request ∈ requests, request ∈ all)
    (run : Yields (serveAll requests) w () s) :
    ∃ s', Yields (serveAll (requestsTo path requests)) w' () s' ∧ Isolated all path s s' := by
  induction requests generalizing w w' with
  | nil =>
    cases run
    exact ⟨w', .pure _ _, isolated⟩
  | cons request rest ih =>
    have member := members request List.mem_cons_self
    have members' := fun r later => members r (List.mem_cons_of_mem request later)
    obtain ⟨r, t, served, later⟩ := run.split
    by_cases mine : request.path = path
    · obtain ⟨_, t', served', rfl, next⟩ := (isolated.own separate member mine).returns served
      obtain ⟨s', run', kept⟩ := ih next members' later
      refine ⟨s', ?_, kept⟩
      rw [requestsTo, List.filter_cons_of_pos (by simpa using mine)]
      exact .bind served' run'
    · have touches := (serve_touches request w).returns r t served
      obtain ⟨s', run', kept⟩ :=
        ih (isolated.other separate named member mine touches) members' later
      refine ⟨s', ?_, kept⟩
      rwa [requestsTo, List.filter_cons_of_neg (by simpa using mine)]

/-- A run that stops does so in one of its calls. -/
theorem serveAll_stops (stopped : serveAll requests w = .error e s) :
    ∃ served failing later t, requests = served ++ failing :: later ∧
      Yields (serveAll served) w () t ∧ serve failing t = .error e s := by
  induction requests generalizing w with
  | nil => cases stopped
  | cons request rest ih =>
    rcases stops_split stopped with here | ⟨r, t, served, stopped⟩
    · exact ⟨[], request, rest, w, rfl, .pure _ _, here⟩
    · obtain ⟨before, failing, later, t', rfl, run, stop⟩ := ih stopped
      exact ⟨request :: before, failing, later, t', rfl, .bind served run, stop⟩

theorem serveAll_append (first second : List Request) (run : Yields (serveAll first) w () s) :
    serveAll (first ++ second) w = serveAll second s := by
  induction first generalizing w with
  | nil =>
    cases run
    rfl
  | cons request rest ih =>
    obtain ⟨r, t, served, later⟩ := run.split
    exact (served.rest_eq _).trans (ih later)

/-- Where a run stops, the calls for that file alone stop too. -/
theorem Ready.stops (prepared : Ready requests w) (separate : Separate requests)
    (split : requests = served ++ failing :: later) (run : Yields (serveAll served) w () t)
    (stop : serve failing t = .error e s) : ∃ s', s'.nodes failing.path = s.nodes failing.path ∧
      serveAll (requestsTo failing.path requests) w = .error e s' := by
  subst split
  have member : failing ∈ served ++ failing :: later := by simp
  obtain ⟨t', run', isolated⟩ := (prepared.isolated failing.path).run separate
    ⟨failing, member, rfl⟩ (fun r before => List.mem_append_left _ before) run
  obtain ⟨s', stop', isolated⟩ := (isolated.own separate member rfl).stops stop
  have mine : requestsTo failing.path (served ++ failing :: later) =
      requestsTo failing.path served ++ failing :: requestsTo failing.path later := by
    rw [requestsTo, List.filter_append, List.filter_cons_of_pos (by simp)]
    rfl
  refine ⟨s', isolated.file, ?_⟩
  rw [mine]
  exact (serveAll_append _ _ run').trans (stops_bind stop' _)

end

/-- The first points of two metrics, and a second point of the first one. -/
def twoMetrics : List Request :=
  let conf := soleRule [⟨1, 10⟩] ⟨[], 0, .average⟩
  [⟨conf, "a".toList, 5, 1, []⟩, ⟨conf, "b.c".toList, 6, 1, []⟩, ⟨conf, "a".toList, 7, 2, []⟩]

end Carbond.Whisper
