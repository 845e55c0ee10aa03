import Carbond.Receiver.SegmentProofs

/-! Messages of several lines. Where a message is cut between two lines makes no difference, and
every line adds a point, so a message adds the points of its well-formed lines only if it has no
others. -/
namespace Carbond.Receiver
open Text Posix Cache Heap Fifo
variable [Platform] {mem : Memory} {entries entries' : List Entry} {lines : List CString}

/-! ### Messages cut between lines -/

/-- The loop as it is written: a call of `strtok_r`, and then the next from its resume pointer. -/
theorem protocolProcessMetricsMultiline_eq (message : CString) :
    protocolProcessMetricsMultiline message = (match strtokR '\n' message with
      | none => pure ()
      | some (curLine, saveptr) => do
        protocolProcessMetricLine curLine
        protocolProcessMetricsMultiline saveptr) := by
  rw [protocolProcessMetricsMultiline, strtok_eq_strtokR]
  cases strtokR '\n' message with
  | none => rfl
  | some found => rfl

theorem protocolProcessMetricLines_append (front back : List CString) :
    protocolProcessMetricLines (front ++ back) = (do
      protocolProcessMetricLines front
      protocolProcessMetricLines back) := by
  induction front with
  | nil => exact (pure_bind () fun _ => protocolProcessMetricLines back).symm
  | cons line rest ih =>
    rw [List.cons_append, protocolProcessMetricLines, protocolProcessMetricLines, ih, bind_assoc]

theorem protocolProcessMetricsMultiline_append (a b : CString) :
    protocolProcessMetricsMultiline (a ++ '\n' :: b) = (do
      protocolProcessMetricsMultiline a
      protocolProcessMetricsMultiline b) := by
  rw [protocolProcessMetricsMultiline, strtok_append, protocolProcessMetricLines_append]
  rfl

/-- One message after the other. -/
def processMessages : List CString → Step Unit
  | [] => return ()
  | message :: rest => do
    protocolProcessMetricsMultiline message
    processMessages rest

omit [Platform] in
theorem streamOf_append (front back : List CString) :
    streamOf (front ++ back) = streamOf front ++ streamOf back := List.flatMap_append

theorem protocolProcessMetricsMultiline_lines (front : List CString) (back : CString) :
    protocolProcessMetricsMultiline (streamOf front ++ back) = (do
      protocolProcessMetricsMultiline (streamOf front)
      protocolProcessMetricsMultiline back) := by
  induction front with
  | nil => exact (pure_bind () fun _ => protocolProcessMetricsMultiline back).symm
  | cons line rest ih =>
    rw [streamOf_cons, List.append_assoc, List.cons_append, protocolProcessMetricsMultiline_append,
      protocolProcessMetricsMultiline_append, ih, bind_assoc]

theorem processMessages_lines (datagrams : List (List CString)) :
    processMessages (datagrams.map streamOf) =
      protocolProcessMetricsMultiline (streamOf datagrams.flatten) := by
  induction datagrams with
  | nil => rfl
  | cons first rest ih =>
    rw [List.map_cons, processMessages, ih, List.flatten_cons, streamOf_append,
      protocolProcessMetricsMultiline_lines]

/-! ### The points of a message -/

/-- `sscanf` converts all three fields, and the name fits into its buffer. -/
def WellFormedLine (line : CString) : Prop :=
  (scanMetricLine line).conversions = 3 ∧ (scanMetricLine line).metricName.length < metricNameMaxLen

instance (line : CString) : Decidable (WellFormedLine line) :=
  inferInstanceAs (Decidable (_ ∧ _))

theorem WellFormedLine.fits (wellFormed : WellFormedLine line) : NameFits line :=
  fun long => Nat.not_le_of_lt wellFormed.2 long.2

/-- The database after these points came in: each waits behind those of its name, and there are
metrics for the new names only, in the order they came. -/
structure Receives (points : List (CString × UInt32 × UInt64)) (entries entries' : List Entry) :
    Prop where
  names : metricNames entries' = (points.map Prod.fst).foldl withName (metricNames entries)
  waiting : ∀ name, cachedUnder entries' name = cachedUnder entries name ++ under points name

theorem protocolProcessMetricLines_yields (stands : Stands mem entries)
    (fit : ∀ line ∈ lines, NameFits line) :
    ∃ mem' entries', Yields (protocolProcessMetricLines lines) mem () mem' ∧ Stands mem' entries' ∧
      Receives (lines.map linePoint) entries entries' ∧ mem'.handed = mem.handed := by
  induction lines generalizing mem entries with
  | nil => exact ⟨mem, entries, .pure _ _, stands, ⟨rfl, fun _ => (List.append_nil _).symm⟩, rfl⟩
  | cons line rest ih =>
    have added := addPoint_yields stands (linePoint line).1 (linePoint line).2.1 (linePoint line).2.2
    obtain ⟨mem₁, entries₁, first, stands₁, waiting₁, names₁, _, handed₁⟩ := added
    obtain ⟨mem₂, entries₂, run, stands₂, receives₂, handed₂⟩ := ih stands₁ fun line member =>
      fit line (List.mem_cons_of_mem _ member)
    have head : Yields (protocolProcessMetricLine line) mem () mem₁ := by
      rw [protocolProcessMetricLine, if_neg (fit line List.mem_cons_self)]
      exact first
    refine ⟨mem₂, entries₂, .bind head run, stands₂, ⟨?_, ?_⟩, handed₂.trans handed₁⟩
    · rw [receives₂.names, names₁]
      rfl
    · intro name
      rw [receives₂.waiting, waiting₁]
      exact update_append_under _ _ _ _ _

/-- A message that runs through has no name that is too long. -/
theorem fits_of_yields (stands : Stands mem entries)
    (run : Yields (protocolProcessMetricLines lines) mem () mem') : ∀ line ∈ lines, NameFits line := by
  induction lines generalizing mem entries with
  | nil => exact fun _ member => nomatch member
  | cons line rest ih =>
    by_cases fits : NameFits line
    · have single : ∀ other ∈ [line], NameFits other := by simpa using fits
      obtain ⟨mem₁, entries₁, first, stands₁, _⟩ := protocolProcessMetricLines_yields stands single
      have split := protocolProcessMetricLines_append [line] rest
      rw [← List.singleton_append, split] at run
      have later := ih stands₁ ((first.rest_eq _).symm.trans run)
      exact List.forall_mem_cons.mpr ⟨fits, later⟩
    · have stopped : protocolProcessMetricLine line = throw .bufferOverrun :=
        if_pos (Decidable.not_not.mp fits)
      rw [protocolProcessMetricLines, stopped] at run
      contradiction

/-- For every division of a message at a newline, or of complete lines into datagrams, and from
every database, the effect is that of the whole message; with well-formed lines it runs through. -/
theorem protocolProcessMetricsMultiline_batched :
    (∀ a b : CString, protocolProcessMetricsMultiline (a ++ '\n' :: b) = (do
      protocolProcessMetricsMultiline a
      protocolProcessMetricsMultiline b)) ∧
    (∀ datagrams : List (List CString), processMessages (datagrams.map streamOf) =
      protocolProcessMetricsMultiline (streamOf datagrams.flatten)) ∧
    ∀ a b mem entries, Stands mem entries →
      (∀ line ∈ strtok '\n' a ++ strtok '\n' b, WellFormedLine line) → ∃ mem' entries',
        Yields (protocolProcessMetricsMultiline (a ++ '\n' :: b)) mem () mem' ∧
        Yields (do
          protocolProcessMetricsMultiline a
          protocolProcessMetricsMultiline b) mem () mem' ∧ Stands mem' entries' := by
  refine ⟨protocolProcessMetricsMultiline_append, processMessages_lines, ?_⟩
  intro a b mem entries stands wellFormed
  obtain ⟨mem', entries', run, stands', _⟩ :=
    protocolProcessMetricLines_yields stands fun line member => (wellFormed line member).fits
  have whole : Yields (protocolProcessMetricsMultiline (a ++ '\n' :: b)) mem () mem' := by
    rw [protocolProcessMetricsMultiline, strtok_append]
    exact run
  refine ⟨mem', entries', whole, ?_, stands'⟩
  rw [protocolProcessMetricsMultiline_append] at whole
  exact whole

omit [Platform] in
/-- Two messages with empty lines, and as one. -/
theorem protocolProcessMetricsMultiline_batched_witness : ∃ mem entries,
    Yields (@protocolProcessMetricsMultiline matchesAll "\na 0 10\n\n\nb 0 20".toList)
      emptyMemory () mem ∧
    Yields (do
      @protocolProcessMetricsMultiline matchesAll "\na 0 10\n".toList
      @protocolProcessMetricsMultiline matchesAll "\nb 0 20".toList) emptyMemory () mem ∧
    Stands mem entries :=
  (@protocolProcessMetricsMultiline_batched matchesAll).2.2 "\na 0 10\n".toList "\nb 0 20".toList
    emptyMemory [] stands_empty (by decide)

/-! ### Messages with malformed lines -/

/-- The points of the well-formed lines of a message. -/
def wellFormedPoints (message : CString) : List (CString × UInt32 × UInt64) :=
  ((strtok '\n' message).filter (WellFormedLine ·)).map linePoint

/-- From this database the message runs through, and adds the points of its well-formed lines. -/
def AddsWellFormed (message : CString) (mem : Memory) (entries : List Entry) : Prop :=
  ∃ mem' entries', Yields (protocolProcessMetricsMultiline message) mem () mem' ∧
    Stands mem' entries' ∧ Receives (wellFormedPoints message) entries entries' ∧
    mem'.handed = mem.handed

/-- A line that is left out is missing under its name. -/
theorem under_filter_lt (front back : List CString) (malformed : ¬ WellFormedLine line) :
    let lines := front ++ line :: back
    let name := (linePoint line).1
    (under ((lines.filter (WellFormedLine ·)).map linePoint) name).length <
      (under (lines.map linePoint) name).length := by
  have fewer (part : List CString) (name : CString) :
      (under ((part.filter (WellFormedLine ·)).map linePoint) name).length ≤
        (under (part.map linePoint) name).length := by
    exact (((List.filter_sublist.map linePoint).filter _).map _).length_le
  intro lines name
  have own := congrArg List.length (under_same name [(linePoint line).2])
  have whole : lines = front ++ [line] ++ back := by simp [lines]
  have none : [line].filter (WellFormedLine ·) = [] := by simpa using malformed
  rw [whole]
  simp only [List.filter_append, List.map_append, under_append, List.length_append, none]
  have before := fewer front name
  have after := fewer back name
  have single : (under ([line].map linePoint) name).length = 1 := own
  rw [single, List.map_nil, under_nil, List.length_nil]
  omega

/-- For every message and every database: the message adds the points of its well-formed lines
exactly if all of its lines are well-formed. -/
theorem addsWellFormed_iff (stands : Stands mem entries) (message : CString) :
    AddsWellFormed message mem entries ↔ ∀ line ∈ strtok '\n' message, WellFormedLine line := by
  constructor
  · rintro ⟨mem', entries', run, stands', receives, _⟩ line member
    by_contra malformed
    obtain ⟨mem'', entries'', run'', stands'', receives'', _⟩ :=
      protocolProcessMetricLines_yields stands (fits_of_yields stands run)
    obtain ⟨_, rfl⟩ := Yields.unique run run''
    obtain rfl := stands'.unique stands''
    have same := (receives.waiting (linePoint line).1).symm.trans (receives''.waiting _)
    obtain ⟨front, back, split⟩ := List.append_of_mem member
    have fewer := under_filter_lt front back malformed
    rw [← split] at fewer
    exact absurd (congrArg List.length (List.append_cancel_left same)) (Nat.ne_of_lt fewer)
  · intro wellFormed
    have all : wellFormedPoints message = (strtok '\n' message).map linePoint := by
      rw [wellFormedPoints, List.filter_eq_self.mpr]
      exact fun line member => decide_eq_true (wellFormed line member)
    rw [AddsWellFormed, all]
    exact protocolProcessMetricLines_yields stands fun line member => (wellFormed line member).fits

omit [Platform] in
theorem addsWellFormed_iff_witness : @AddsWellFormed matchesAll "a 0 10\nb 0 20".toList emptyMemory [] :=
  (@addsWellFormed_iff matchesAll _ _ stands_empty _).mpr (by decide)

omit [Platform] in
/-- A line that is only a name makes a metric, with a point of value 0 at timestamp 0. -/
theorem point_of_name : (∃ mem entries,
    Yields (@protocolProcessMetricsMultiline matchesAll "a".toList) emptyMemory () mem ∧
      Stands mem entries ∧ metricNames entries = ["a".toList] ∧
      cachedUnder entries "a".toList = [(0, 0)]) ∧
    ¬ @AddsWellFormed matchesAll "a".toList emptyMemory [] := by
  have fits : @NameFits matchesAll "a".toList := by
    unfold NameFits
    decide
  obtain ⟨mem, entries, run, stands, receives, _⟩ := @protocolProcessMetricLines_yields matchesAll
    _ _ ["a".toList] stands_empty (List.forall_mem_singleton.mpr fits)
  have names : metricNames entries = ["a".toList] := receives.names
  have waiting := receives.waiting "a".toList
  refine ⟨⟨mem, entries, run, stands, names, waiting.trans (by decide)⟩, ?_⟩
  rintro ⟨mem', entries', run', stands', receives', _⟩
  obtain ⟨_, rfl⟩ := Yields.unique run run'
  obtain rfl := stands.unique stands'
  have none : metricNames entries = [] := receives'.names
  exact List.cons_ne_nil _ _ (names.symm.trans none)

end Carbond.Receiver
