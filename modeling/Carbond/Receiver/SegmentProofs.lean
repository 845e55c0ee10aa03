import Carbond.Cache.DeliveryProofs
import Carbond.Receiver.Tcp
import Mathlib.Data.List.TakeWhile

/-! When the first segment of a connection is as good as its whole stream: it must be shorter than
the buffer, reach into the last line, and cut it where the line still scans the same. -/
namespace Carbond.Receiver
open Text Posix Cache
variable {lines : List CString} {first : CString}

def streamOf (lines : List CString) : CString := lines.flatMap fun line => line ++ ['\n']

theorem streamOf_cons (line : CString) (rest : List CString) :
    streamOf (line :: rest) = line ++ '\n' :: streamOf rest := by
  simp [streamOf]

/-- The segments that the kernel makes of a stream. -/
structure Cut (stream : CString) (segments : Connection) : Prop where
  whole : segments.flatten = stream
  sized : ∀ segment ∈ segments, 1 ≤ segment.length ∧ segment.length ≤ maxTcpRead

/-! ### The lines of a segment -/

/-- The beginning of a stream of lines is some of them, and the next one as far as it goes. -/
theorem strtok_prefix (proper : ∀ line ∈ lines, line ≠ [] ∧ '\n' ∉ line)
    (beginning : first <+: streamOf lines) : ∃ front part back, lines = front ++ back ∧
      strtok '\n' first = front ++ part ∧
      (part = [] ∨ ∃ cut line rest, part = [cut] ∧ back = line :: rest ∧ cut <+: line) := by
  induction lines generalizing first with
  | nil =>
    obtain rfl := List.prefix_nil.mp beginning
    exact ⟨[], [], [], rfl, strtok_nil _, .inl rfl⟩
  | cons line rest ih =>
    obtain ⟨some, free⟩ := proper line List.mem_cons_self
    rw [streamOf_cons] at beginning
    rcases List.prefix_or_prefix_of_prefix beginning (List.prefix_append line _) with short | long
    · by_cases empty : first = []
      · subst empty
        exact ⟨[], [], line :: rest, rfl, strtok_nil _, .inl rfl⟩
      · refine ⟨[], [first], line :: rest, rfl, ?_, .inr ⟨first, line, rest, rfl, rfl, short⟩⟩
        exact strtok_single (fun inside => free (short.subset inside)) empty
    · obtain ⟨tail, rfl⟩ := long
      cases tail with
      | nil =>
        rw [List.append_nil]
        exact ⟨[], [line], line :: rest, rfl, strtok_single free some,
          .inr ⟨line, line, rest, rfl, rfl, List.prefix_rfl⟩⟩
      | cons c tail =>
        obtain ⟨rfl, further⟩ := List.cons_prefix_cons.mp
          ((List.prefix_append_right_inj line).mp beginning)
        obtain ⟨front, part, back, split, pieces, cut⟩ := ih (fun line member =>
          proper line (List.mem_cons_of_mem _ member)) further
        refine ⟨line :: front, part, back, by rw [split, List.cons_append], ?_, cut⟩
        rw [strtok_append, strtok_single free some, pieces]
        rfl

/-! ### Lines cut short -/

section
variable [Platform]

/-- A line as the daemon expects it. -/
structure MetricLine (line : CString) : Prop where
  whole : '\n' ∉ line ∧ '\x00' ∉ line
  scans : (scanMetricLine line).conversions = 3
  named : (scanMetricLine line).metricName.length < metricNameMaxLen

omit [Platform] in
theorem takeWhile_prefix_append (p : Char → Bool) (front back : CString) :
    front.takeWhile p <+: (front ++ back).takeWhile p := by
  rw [List.takeWhile_append]
  split
  · exact (List.takeWhile_prefix p).trans (List.prefix_append _ _)
  · exact List.prefix_rfl

omit [Platform] in
/-- A word only gets longer when more of the line follows. -/
theorem scanWord_prefix {cut line : CString} (beginning : cut <+: line)
    (scanned : scanWord cut = some (word, rest)) :
    ∃ word' rest', scanWord line = some (word', rest') ∧ word <+: word' := by
  obtain ⟨back, rfl⟩ := beginning
  simp only [scanWord, Option.ite_none_left_eq_some, Option.some.injEq, Prod.mk.injEq] at scanned
  obtain ⟨nonempty, rfl, _⟩ := scanned
  have start : skipSpace (cut ++ back) = skipSpace cut ++ back := by
    rw [skipSpace, List.dropWhile_append, if_neg]
    · rfl
    · rintro blank
      apply nonempty
      rw [skipSpace, List.isEmpty_iff.mp blank]
      rfl
  have longer := takeWhile_prefix_append (! isSpace ·) (skipSpace cut) back
  have some : (skipSpace cut ++ back).takeWhile (! isSpace ·) ≠ [] := fun blank =>
    nonempty (List.prefix_nil.mp (blank ▸ longer))
  rw [scanWord, start]
  exact ⟨_, _, if_neg some, longer⟩

theorem nameFits_iff {line : CString} : NameFits line ↔
    ∀ word rest, scanWord line = some (word, rest) → word.length < metricNameMaxLen := by
  cases scanned : scanWord line with
  | none =>
    refine ⟨nofun, fun _ ⟨converted, _⟩ => converted ?_⟩
    simp only [scanMetricLine, scanned]
  | some result =>
    obtain ⟨word, rest⟩ := result
    have name : (scanMetricLine line).metricName = word ∧ (scanMetricLine line).conversions ≠ 0 := by
      simp only [scanMetricLine, scanned]
      split
      · exact ⟨rfl, Nat.one_ne_zero⟩
      · split
        · exact ⟨rfl, Nat.succ_ne_zero 1⟩
        · exact ⟨rfl, Nat.succ_ne_zero 2⟩
    rw [NameFits, name.1]
    constructor
    · rintro fits _ _ ⟨⟩
      exact Nat.lt_of_not_le fun long => fits ⟨name.2, long⟩
    · intro short long
      exact Nat.not_le_of_lt (short word rest rfl) long.2

theorem MetricLine.proper (metricLine : MetricLine line) : line ≠ [] ∧ '\n' ∉ line := by
  refine ⟨?_, metricLine.whole.1⟩
  rintro rfl
  exact nomatch metricLine.scans

/-- Even a line cut short has a name that fits. -/
theorem MetricLine.cut_fits (metricLine : MetricLine line) (beginning : cut <+: line) :
    NameFits cut := by
  have fits : NameFits line := fun long => Nat.not_le_of_lt metricLine.named long.2
  refine nameFits_iff.mpr fun word rest scanned => ?_
  obtain ⟨word', rest', scanned', longer⟩ := scanWord_prefix beginning scanned
  exact Nat.lt_of_le_of_lt longer.length_le (nameFits_iff.mp fits word' rest' scanned')

/-! ### The worker -/

/-- The points added are those of the stream's lines, whenever the connection is accepted. -/
def AddsStream (lines : List CString) (segments : Connection) : Prop :=
  ∀ mem entries, Integrity mem entries → ∀ earlier later, ∃ mem',
    Yields (receiverTcpWorker (List.replicate earlier none ++ some segments ::
      List.replicate later none)) mem () mem' ∧ mem'.added = mem.added ++ lines.map linePoint

/-- The first segment is shorter than the buffer and has all lines, the last one as far as it
scans the same. -/
def FirstHoldsAll (lines : List CString) (segments : Connection) : Prop :=
  let firstLines := strtok '\n' (segments.head?.getD [])
  (segments.head?.getD []).length < maxTcpRead ∧ firstLines.length = lines.length ∧
    firstLines.getLast?.map linePoint = lines.getLast?.map linePoint

theorem receiverTcpWorker_idle (turns : ℕ) (mem : Memory) :
    Yields (receiverTcpWorker (List.replicate turns none)) mem () mem := by
  induction turns with
  | zero => exact .pure _ _
  | succ turns ih => exact .bind (.pure _ _) ih

/-- Nothing but the turn that accepts the connection matters. -/
theorem receiverTcpWorker_single (earlier later : ℕ) (segments : Connection) (mem : Memory) :
    receiverTcpWorker (List.replicate earlier none ++ some segments :: List.replicate later none)
      mem = receiverTcpTurn (some segments) mem := by
  induction earlier with
  | zero =>
    have worker : receiverTcpWorker (some segments :: List.replicate later none) =
      receiverTcpTurn (some segments) >>= fun _ => receiverTcpWorker (List.replicate later none) := rfl
    rw [List.replicate_zero, List.nil_append, worker]
    cases executed : receiverTcpTurn (some segments) mem with
    | ok result mem' => exact (Yields.rest_eq executed _).trans (receiverTcpWorker_idle later mem')
    | error e mem' =>
      change EStateM.bind _ _ mem = _
      simp only [EStateM.bind, executed]
  | succ earlier ih => exact ((Yields.pure () mem).rest_eq _).trans ih

theorem receiverTcpTurn_eq (segments : Connection) : receiverTcpTurn (some segments) =
    if maxTcpRead ≤ (segments.head?.getD []).length then throw .bufferOverrun
    else protocolProcessMetricsMultiline (toNul (segments.head?.getD [])) := by
  cases segments with
  | nil => rfl
  | cons segment rest => rfl

/-- A message taken for lines adds a point for each of them. -/
theorem receiverTcpTurn_yields {entries : List Entry} (integrity : Integrity mem entries)
    (short : (segments.head?.getD []).length < maxTcpRead)
    (whole : '\x00' ∉ segments.head?.getD [])
    (fit : ∀ line ∈ strtok '\n' (segments.head?.getD []), NameFits line) :
    ∃ mem', Yields (receiverTcpTurn (some segments)) mem () mem' ∧ mem'.added = mem.added ++
      (strtok '\n' (segments.head?.getD [])).map linePoint := by
  have string : toNul (segments.head?.getD []) = segments.head?.getD [] := by
    rw [toNul, List.takeWhile_eq_self_iff]
    exact fun c inside => decide_eq_true fun nul => whole (nul ▸ inside)
  obtain ⟨mem', _, run, _, added⟩ := integrity.processLines fit
  refine ⟨mem', ?_, added⟩
  rw [receiverTcpTurn_eq, if_neg (Nat.not_le_of_lt short), string]
  exact run

/-- A full buffer has no room for the NUL. -/
theorem receiverTcpTurn_short (run : Yields (receiverTcpTurn (some segments)) mem () mem') :
    (segments.head?.getD []).length < maxTcpRead := by
  by_contra long
  rw [receiverTcpTurn_eq, if_pos (Nat.le_of_not_lt long)] at run
  exact nomatch run

omit [Platform] in
theorem Cut.head (cut : Cut stream segments) : segments.head?.getD [] <+: stream := by
  cases segments with
  | nil => exact List.nil_prefix
  | cons segment rest => exact ⟨rest.flatten, cut.whole⟩

omit [Platform] in
theorem nul_not_mem_streamOf (whole : ∀ line ∈ lines, '\x00' ∉ line) : '\x00' ∉ streamOf lines := by
  rw [streamOf, List.mem_flatMap]
  rintro ⟨line, member, inside⟩
  rcases List.mem_append.mp inside with own | newline
  · exact whole line member own
  · exact nomatch List.mem_singleton.mp newline

/-- The points of one segment are those of the whole stream exactly if there are as many of them
and the last ones agree. -/
theorem map_linePoint_iff (proper : ∀ line ∈ lines, MetricLine line)
    (beginning : first <+: streamOf lines) :
    (strtok '\n' first).map linePoint = lines.map linePoint ↔
      (strtok '\n' first).length = lines.length ∧
        (strtok '\n' first).getLast?.map linePoint = lines.getLast?.map linePoint := by
  constructor
  · intro same
    refine ⟨?_, ?_⟩
    · have lengths := congrArg List.length same
      rwa [List.length_map, List.length_map] at lengths
    · rw [← List.getLast?_map, ← List.getLast?_map, same]
  · rintro ⟨length, last⟩
    obtain ⟨front, part, back, rfl, pieces, none | ⟨cut, line, rest, rfl, rfl, _⟩⟩ :=
      strtok_prefix (fun line member => (proper line member).proper) beginning
    · rw [pieces, none, List.append_nil] at length ⊢
      rw [List.length_append] at length
      rw [List.length_eq_zero_iff.mp (by omega : back.length = 0), List.append_nil]
    · rw [pieces, List.length_append, List.length_append] at length
      obtain rfl : rest = [] := List.length_eq_zero_iff.mp (by simpa using length.symm)
      rw [pieces] at last ⊢
      simp only [List.getLast?_concat, Option.map_some, Option.some.injEq] at last
      rw [List.map_append, List.map_append, List.map_singleton, List.map_singleton, last]

/-- For every stream of metric lines and every cut of it: the points added are those of its lines
exactly if the first segment holds them all. -/
theorem addsStream_iff (proper : ∀ line ∈ lines, MetricLine line)
    (cut : Cut (streamOf lines) segments) :
    AddsStream lines segments ↔ FirstHoldsAll lines segments := by
  have beginning := cut.head
  have whole : '\x00' ∉ segments.head?.getD [] := fun inside => nul_not_mem_streamOf
    (fun line member => (proper line member).whole.2) (beginning.subset inside)
  have fit : ∀ line ∈ strtok '\n' (segments.head?.getD []), NameFits line := by
    intro piece member
    obtain ⟨front, part, back, rfl, pieces, kind⟩ :=
      strtok_prefix (fun line member => (proper line member).proper) beginning
    rw [pieces] at member
    rcases List.mem_append.mp member with complete | last
    · exact (proper piece (List.mem_append_left _ complete)).cut_fits List.prefix_rfl
    · obtain rfl | ⟨cut, line, rest, rfl, rfl, short⟩ := kind
      · contradiction
      · obtain rfl := List.mem_singleton.mp last
        exact (proper line (by simp)).cut_fits short
  constructor
  · intro adds
    obtain ⟨mem', run, added⟩ := adds emptyMemory [] integrity_empty 0 0
    have turn := (receiverTcpWorker_single 0 0 segments emptyMemory).symm.trans run
    have short := receiverTcpTurn_short turn
    obtain ⟨mem'', turn', added'⟩ := receiverTcpTurn_yields integrity_empty short whole fit
    obtain ⟨_, rfl⟩ := Yields.unique turn turn'
    exact ⟨short, (map_linePoint_iff proper beginning).mp
      (List.append_cancel_left (added'.symm.trans added))⟩
  · rintro ⟨short, same⟩ mem entries integrity earlier later
    obtain ⟨mem', turn, added⟩ := receiverTcpTurn_yields integrity short whole fit
    rw [(map_linePoint_iff proper beginning).mpr same] at added
    exact ⟨mem', (receiverTcpWorker_single earlier later segments mem).trans turn, added⟩

end

/-- A stream in one segment, without the newline at its end. -/
theorem addsStream_iff_witness : @AddsStream matchesAll ["a 0 10".toList, "b 0 20".toList]
    ["a 0 10\nb 0 20".toList, ['\n']] := by
  have proper : ∀ line ∈ ["a 0 10".toList, "b 0 20".toList], @MetricLine matchesAll line := by
    simp only [List.forall_mem_cons]
    exact ⟨@MetricLine.mk matchesAll _ (by decide) (by decide) (by decide),
      @MetricLine.mk matchesAll _ (by decide) (by decide) (by decide), nofun⟩
  exact (@addsStream_iff _ matchesAll _ proper ⟨by decide, by decide⟩).mpr
    ⟨by decide, by decide, by decide⟩

/-- A stream cut at the end of its first line: the second line is never received. -/
theorem second_segment_lost : @MetricLine matchesAll "a 0 10".toList ∧
    @MetricLine matchesAll "b 0 20".toList ∧
    Cut (streamOf ["a 0 10".toList, "b 0 20".toList]) ["a 0 10\n".toList, "b 0 20\n".toList] ∧
    ¬ @AddsStream matchesAll ["a 0 10".toList, "b 0 20".toList]
      ["a 0 10\n".toList, "b 0 20\n".toList] := by
  refine ⟨@MetricLine.mk matchesAll _ (by decide) (by decide) (by decide),
    @MetricLine.mk matchesAll _ (by decide) (by decide) (by decide), ⟨by decide, by decide⟩,
    fun adds => ?_⟩
  obtain ⟨mem, run, added⟩ := adds emptyMemory [] integrity_empty 0 0
  have ran : (match @receiverTcpWorker matchesAll [some ["a 0 10\n".toList, "b 0 20\n".toList]]
      emptyMemory with
    | .ok _ mem => mem.added.length
    | .error _ _ => 0) = 1 := by
    decide +kernel
  have executed : @receiverTcpWorker matchesAll [some ["a 0 10\n".toList, "b 0 20\n".toList]]
    emptyMemory = .ok () mem := run
  rw [executed] at ran
  have count := congrArg List.length added
  rw [List.length_append, List.length_map] at count
  exact nomatch ran.symm.trans count

end Carbond.Receiver
