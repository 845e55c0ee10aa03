import Carbond.Conf.Lines

/-! Which values the rules of an aggregation file have. The parser keeps the last `xFilesFactor` it
met behind a pattern, and makes a rule of it at the next method. -/
namespace Carbond.Conf
open Text Posix

/-! ### Sections -/

inductive AggregationKey where
  | pattern
  | xFilesFactor
  | aggregationMethod
  deriving DecidableEq, Repr

namespace AggregationKey

def text : AggregationKey → CString
  | pattern => "pattern=".toList
  | xFilesFactor => "xFilesFactor=".toList
  | aggregationMethod => "aggregationMethod=".toList

def letter : AggregationKey → Char
  | pattern => 'p'
  | xFilesFactor => 'x'
  | aggregationMethod => 'a'

theorem text_eq (key : AggregationKey) : ∃ rest, key.text = key.letter :: rest := by
  cases key with
  | pattern => exact ⟨"attern=".toList, by decide⟩
  | xFilesFactor => exact ⟨"FilesFactor=".toList, by decide⟩
  | aggregationMethod => exact ⟨"ggregationMethod=".toList, by decide⟩

theorem letter_injective {key key' : AggregationKey} (same : key.letter = key'.letter) : key = key' := by
  revert same
  cases key <;> cases key' <;> decide

/-- A line starts with its key and with no other. -/
theorem starts_eq (key key' : AggregationKey) {value : CString} (some : value ≠ []) :
    stringStartsWith (key.text ++ value) key'.text = decide (key = key') := by
  by_cases same : key = key'
  · subst same
    rw [stringStartsWith_key some, decide_eq_true rfl]
  · obtain ⟨rest, text⟩ := key.text_eq
    obtain ⟨rest', text'⟩ := key'.text_eq
    have other : (key.text ++ value).head? ≠ Option.some key'.letter := by
      rw [text, List.cons_append, List.head?_cons]
      exact fun letters => same (letter_injective (Option.some.inj letters))
    rw [decide_eq_false same, text', stringStartsWith_other other]

/-- A line with another first character has none of the keys. -/
theorem starts_other (key : AggregationKey) (bracket : line.head? ≠ some key.letter) :
    stringStartsWith line key.text = false := by
  obtain ⟨rest, text⟩ := key.text_eq
  rw [text, stringStartsWith_other bracket]

end AggregationKey

/-- A section with a value for each key, and the keys in the order of their lines. -/
structure AggregationSection where
  name : CString
  value : AggregationKey → CString
  order : List AggregationKey
  word : ∀ key, Word (value key)
  once : order.Perm [.pattern, .xFilesFactor, .aggregationMethod]

namespace AggregationSection
variable (aggregationSection : AggregationSection)

def line (key : AggregationKey) : CString := key.text ++ aggregationSection.value key

/-- The lines that write a section, without blanks. -/
def lines : List CString :=
  ('[' :: condensed aggregationSection.name ++ "]".toList) ::
    aggregationSection.order.map aggregationSection.line

def PatternFirst : Prop :=
  aggregationSection.order.idxOf .pattern < aggregationSection.order.idxOf .aggregationMethod

def Between : Prop := aggregationSection.order = [.pattern, .xFilesFactor, .aggregationMethod]

theorem order_cases : aggregationSection.Between ∨
    (¬ aggregationSection.Between ∧ aggregationSection.PatternFirst ∧
      (aggregationSection.order = [.pattern, .aggregationMethod, .xFilesFactor] ∨
        aggregationSection.order = [.xFilesFactor, .pattern, .aggregationMethod])) ∨
    (¬ aggregationSection.PatternFirst ∧
      (aggregationSection.order = [.xFilesFactor, .aggregationMethod, .pattern] ∨
        aggregationSection.order = [.aggregationMethod, .pattern, .xFilesFactor] ∨
        aggregationSection.order = [.aggregationMethod, .xFilesFactor, .pattern])) := by
  have once := aggregationSection.once
  unfold Between PatternFirst
  obtain ⟨first, second, third, order⟩ := List.length_eq_three.mp once.length_eq
  rw [order] at once ⊢
  revert once
  cases first <;> cases second <;> cases third <;> decide

variable [Platform]

def xff : UInt32 := Platform.strtof (aggregationSection.value .xFilesFactor)

/-- The rule of a section's own values. -/
def rule : PatternAggregation where
  pattern := aggregationSection.value .pattern
  xff := aggregationSection.xff
  method := confGetAggregationMethod (aggregationSection.value .aggregationMethod)

end AggregationSection

section
variable [Platform] {state : AggregationState} {aggregationSection : AggregationSection}

/-! ### One line -/

/-- A line without a key. -/
def Keyless (line : CString) : Prop := ∀ key : AggregationKey, line.head? ≠ some key.letter

omit [Platform] in
theorem Ignored.keyless (ignored : Ignored line) : Keyless line := by
  intro key
  rcases ignored with rfl | comment
  · exact fun same => nomatch same
  · rw [comment]
    cases key <;> decide

theorem aggregationLine_keyless (keyless : Keyless line) (state : AggregationState) :
    aggregationLine state line = state := by
  have pattern : stringStartsWith line "pattern=".toList = false :=
    AggregationKey.pattern.starts_other (keyless .pattern)
  have xff : stringStartsWith line "xFilesFactor=".toList = false :=
    AggregationKey.xFilesFactor.starts_other (keyless .xFilesFactor)
  have method : stringStartsWith line "aggregationMethod=".toList = false :=
    AggregationKey.aggregationMethod.starts_other (keyless .aggregationMethod)
  simp only [aggregationLine, pattern, xff, method, Bool.false_eq_true, if_false, ite_self]

omit [Platform] in
theorem line_starts (aggregationSection : AggregationSection) (key : AggregationKey) :
    let line := aggregationSection.line key
    stringStartsWith line "pattern=".toList = decide (key = .pattern) ∧
      stringStartsWith line "xFilesFactor=".toList = decide (key = .xFilesFactor) ∧
      stringStartsWith line "aggregationMethod=".toList = decide (key = .aggregationMethod) :=
  have some := (aggregationSection.word key).some
  ⟨key.starts_eq .pattern some, key.starts_eq .xFilesFactor some,
    key.starts_eq .aggregationMethod some⟩

theorem line_pattern (aggregationSection : AggregationSection) (idle : state.patternFound = false) :
    aggregationLine state (aggregationSection.line .pattern) =
      { state with patternFound := true, pattern := aggregationSection.value .pattern } := by
  obtain ⟨pattern, _⟩ := line_starts aggregationSection .pattern
  have value : scanValue (aggregationSection.line .pattern) "pattern=".toList state.pattern =
    aggregationSection.value .pattern := scanValue_key (aggregationSection.word .pattern) _ _
  rw [decide_eq_true rfl] at pattern
  simp only [aggregationLine, idle, pattern, value, Bool.false_eq_true, not_false_eq_true, if_true]

theorem line_idle (aggregationSection : AggregationSection) (idle : state.patternFound = false)
    (other : key ≠ .pattern) : aggregationLine state (aggregationSection.line key) = state := by
  obtain ⟨pattern, _⟩ := line_starts aggregationSection key
  rw [decide_eq_false other] at pattern
  simp only [aggregationLine, idle, pattern, Bool.false_eq_true, not_false_eq_true, if_true, if_false]

theorem line_xff (aggregationSection : AggregationSection) (waits : state.patternFound = true) :
    aggregationLine state (aggregationSection.line .xFilesFactor) =
      { state with
        xffS := aggregationSection.value .xFilesFactor
        xff := aggregationSection.xff } := by
  obtain ⟨_, xff, _⟩ := line_starts aggregationSection .xFilesFactor
  have value : scanValue (aggregationSection.line .xFilesFactor) "xFilesFactor=".toList state.xffS =
    aggregationSection.value .xFilesFactor := scanValue_key (aggregationSection.word .xFilesFactor) _ _
  rw [decide_eq_true rfl] at xff
  simp only [aggregationLine, waits, xff, value, not_true_eq_false, if_false, if_true]
  rfl

theorem line_method (aggregationSection : AggregationSection) (waits : state.patternFound = true) :
    aggregationLine state (aggregationSection.line .aggregationMethod) =
      { state with
        patternFound := false
        methodS := aggregationSection.value .aggregationMethod
        method := aggregationSection.rule.method
        rules := state.rules ++
          [{ aggregationSection.rule with pattern := state.pattern, xff := state.xff }] } := by
  obtain ⟨_, xff, method⟩ := line_starts aggregationSection .aggregationMethod
  have value : scanValue (aggregationSection.line .aggregationMethod) "aggregationMethod=".toList
      state.methodS = aggregationSection.value .aggregationMethod :=
    scanValue_key (aggregationSection.word .aggregationMethod) _ _
  rw [decide_eq_false (by decide)] at xff
  rw [decide_eq_true rfl] at method
  simp only [aggregationLine, waits, xff, method, value, not_true_eq_false, Bool.false_eq_true,
    if_false, if_true]
  rfl

/-! ### One section -/

omit [Platform] in
theorem header_keyless (name : CString) : Keyless ('[' :: condensed name ++ "]".toList) := by
  intro key
  rw [List.cons_append, List.head?_cons]
  cases key <;> decide

/-- The header says nothing; the keys follow one after the other. -/
theorem lines_foldl (order : aggregationSection.order = [first, second, third])
    (state : AggregationState) : aggregationSection.lines.foldl aggregationLine state =
      aggregationLine (aggregationLine (aggregationLine state (aggregationSection.line first))
        (aggregationSection.line second)) (aggregationSection.line third) := by
  rw [AggregationSection.lines, List.foldl_cons, aggregationLine_keyless (header_keyless _), order]
  rfl

/-- With the `xFilesFactor` behind the pattern and before the method, the rule is the section's. -/
theorem section_between (between : aggregationSection.Between) (idle : state.patternFound = false) :
    let final := aggregationSection.lines.foldl aggregationLine state
    final.patternFound = false ∧ final.xff = aggregationSection.xff ∧
      final.rules = state.rules ++ [aggregationSection.rule] := by
  rw [lines_foldl between, line_pattern _ idle, line_xff _ rfl, line_method _ rfl]
  exact ⟨rfl, rfl, rfl⟩

/-- Elsewhere it has no effect: the rule gets the one in use. -/
theorem section_apart (idle : state.patternFound = false)
    (order : aggregationSection.order = [.pattern, .aggregationMethod, .xFilesFactor] ∨
      aggregationSection.order = [.xFilesFactor, .pattern, .aggregationMethod]) :
    let final := aggregationSection.lines.foldl aggregationLine state
    final.patternFound = false ∧ final.xff = state.xff ∧
      final.rules = state.rules ++ [{ aggregationSection.rule with xff := state.xff }] := by
  rcases order with behind | before
  · rw [lines_foldl behind, line_pattern _ idle, line_method _ rfl, line_idle _ rfl (by decide)]
    exact ⟨rfl, rfl, rfl⟩
  · rw [lines_foldl before, line_idle _ idle (by decide), line_pattern _ idle, line_method _ rfl]
    exact ⟨rfl, rfl, rfl⟩

/-- A method before its pattern makes no rule. -/
theorem section_late (idle : state.patternFound = false)
    (order : aggregationSection.order = [.xFilesFactor, .aggregationMethod, .pattern] ∨
      aggregationSection.order = [.aggregationMethod, .pattern, .xFilesFactor] ∨
      aggregationSection.order = [.aggregationMethod, .xFilesFactor, .pattern]) :
    (aggregationSection.lines.foldl aggregationLine state).rules = state.rules := by
  rcases order with order | order | order
  · rw [lines_foldl order, line_idle _ idle (by decide), line_idle _ idle (by decide),
      line_pattern _ idle]
  · rw [lines_foldl order, line_idle _ idle (by decide), line_pattern _ idle, line_xff _ rfl]
  · rw [lines_foldl order, line_idle _ idle (by decide), line_idle _ idle (by decide),
      line_pattern _ idle]

/-! ### All sections -/

/-- Rules are only added, at most one for each line with a method. -/
theorem aggregationLine_rules (state : AggregationState) (line : CString) :
    ∃ more, (aggregationLine state line).rules = state.rules ++ more ∧
      more.length ≤ if stringStartsWith line "aggregationMethod=".toList then 1 else 0 := by
  unfold aggregationLine
  split
  · split
    · exact ⟨[], (List.append_nil _).symm, Nat.zero_le _⟩
    · exact ⟨[], (List.append_nil _).symm, Nat.zero_le _⟩
  · split
    · exact ⟨[], (List.append_nil _).symm, Nat.zero_le _⟩
    · split
      · exact ⟨_, rfl, le_rfl⟩
      · exact ⟨[], (List.append_nil _).symm, Nat.zero_le _⟩

theorem foldl_rules (lines : List CString) (state : AggregationState) :
    ∃ more, (lines.foldl aggregationLine state).rules = state.rules ++ more ∧
      more.length ≤ lines.countP (stringStartsWith · "aggregationMethod=".toList) := by
  induction lines generalizing state with
  | nil => exact ⟨[], (List.append_nil _).symm, le_rfl⟩
  | cons line rest ih =>
    obtain ⟨first, head, single⟩ := aggregationLine_rules state line
    obtain ⟨more, tail, few⟩ := ih (aggregationLine state line)
    refine ⟨first ++ more, ?_, ?_⟩
    · rw [List.foldl_cons, tail, head, List.append_assoc]
    · rw [List.countP_cons, List.length_append]
      omega

omit [Platform] in
theorem count_methods (sections : List AggregationSection) :
    (sections.flatMap AggregationSection.lines).countP
      (stringStartsWith · "aggregationMethod=".toList) = sections.length := by
  induction sections with
  | nil => rfl
  | cons first rest ih =>
    have header : stringStartsWith ('[' :: condensed first.name ++ "]".toList)
        "aggregationMethod=".toList = false :=
      AggregationKey.aggregationMethod.starts_other (header_keyless _ _)
    have keys : (first.order.map first.line).countP
        (stringStartsWith · "aggregationMethod=".toList) = 1 := by
      rw [List.countP_map, first.once.countP_eq]
      simp only [Function.comp_def, (line_starts first _).2.2]
      decide
    rw [List.flatMap_cons, List.countP_append, ih, AggregationSection.lines, List.countP_cons, keys,
      header, List.length_cons]
    simp only [Bool.false_eq_true, if_false]
    omega

/-- In each section the pattern stands before the method, and the `xFilesFactor` between them, if it
is not the same as in the section before anyway. -/
def Paired (previous : UInt32) : List AggregationSection → Prop
  | [] => True
  | first :: rest => first.PatternFirst ∧ (first.Between ∨ first.xff = previous) ∧
      Paired first.xff rest

theorem rules_iff (sections : List AggregationSection) (idle : state.patternFound = false) :
    ((sections.flatMap AggregationSection.lines).foldl aggregationLine state).rules =
      state.rules ++ sections.map (·.rule) ↔ Paired state.xff sections := by
  induction sections generalizing state with
  | nil => exact ⟨fun _ => trivial, fun _ => (List.append_nil _).symm⟩
  | cons first rest ih =>
    rw [List.flatMap_cons, List.foldl_append, List.map_cons, Paired]
    obtain ⟨more, later, few⟩ := foldl_rules (rest.flatMap AggregationSection.lines)
      (first.lines.foldl aggregationLine state)
    rcases first.order_cases with between | ⟨apart, before, order⟩ | ⟨late, order⟩
    · obtain ⟨idle', xff, rules⟩ := section_between between idle
      have first' : first.PatternFirst := by
        rw [AggregationSection.PatternFirst, show first.order = _ from between]
        decide
      rw [← List.singleton_append, ← List.append_assoc, ← rules, ih idle', xff]
      exact ⟨fun paired => ⟨first', .inl between, paired⟩, fun paired => paired.2.2⟩
    · obtain ⟨idle', xff, rules⟩ := section_apart idle order
      by_cases same : first.xff = state.xff
      · rw [← same] at rules xff
        have own : (first.lines.foldl aggregationLine state).rules = state.rules ++ [first.rule] := rules
        rw [← List.singleton_append, ← List.append_assoc, ← own, ih idle', xff]
        exact ⟨fun paired => ⟨before, .inr same, paired⟩, fun paired => paired.2.2⟩
      · constructor
        · intro own
          rw [later, rules, List.append_assoc] at own
          have head := (List.cons.inj (List.append_cancel_left own)).1
          exact absurd (congrArg PatternAggregation.xff head).symm same
        · rintro ⟨_, between | same', _⟩
          · exact absurd between apart
          · exact absurd same' same
    · constructor
      · intro own
        rw [later, section_late idle order] at own
        have lengths := congrArg List.length (List.append_cancel_left own)
        rw [count_methods] at few
        rw [List.length_cons, List.length_map] at lengths
        omega
      · rintro ⟨first', _⟩
        exact absurd first' late

/-! ### The file -/

/-- The text writes these sections in this order, with comments, empty lines and blanks anywhere. -/
structure WritesAggregation (file : CString) (sections : List AggregationSection) : Prop where
  text : ConfigText file
  lines : significant file = sections.flatMap AggregationSection.lines

theorem foldl_filter (lines : List CString) (state : AggregationState) :
    (lines.filter (¬ Ignored ·)).foldl aggregationLine state = lines.foldl aggregationLine state := by
  induction lines generalizing state with
  | nil => rfl
  | cons line rest ih =>
    by_cases ignored : Ignored line
    · rw [List.filter_cons, if_neg (by simpa using ignored), ih, List.foldl_cons,
        aggregationLine_keyless ignored.keyless]
    · rw [List.filter_cons, if_pos (by simpa using ignored), List.foldl_cons, ih, List.foldl_cons]

/-- The parse adds one rule for each section, in order, of the section's own values. -/
def OwnRules (files : Files) (newConf : CarbonConf) (sections : List AggregationSection) : Prop :=
  confParseStorageAggregationFile files newConf = (0, { newConf with
    aggregation := newConf.aggregation ++ sections.map (·.rule) })

end

/-- A section with 0.5 for its factor, and its keys in this order. -/
def halfSection (order : List AggregationKey)
    (once : order.Perm [.pattern, .xFilesFactor, .aggregationMethod]) : AggregationSection where
  name := "max".toList
  value
    | .pattern => "max$".toList
    | .xFilesFactor => "0.5".toList
    | .aggregationMethod => "max".toList
  order := order
  word := by
    rintro (_ | _ | _)
    · exact ⟨by decide, by decide⟩
    · exact ⟨by decide, by decide⟩
    · exact ⟨by decide, by decide⟩
  once := once

def documentedText : CString :=
  "# one rule\n[max]\n pattern = max$\nxFilesFactor = 0.5\n\naggregationMethod = max".toList

def factorFirstText : CString :=
  "[max]\nxFilesFactor = 0.5\npattern = max$\naggregationMethod = max\n".toList

/-- A platform that reads the factor. -/
@[reducible] def readsHalf : Platform :=
  { matchesAll with strtof := fun text => if text = "0.5".toList then 0x3f000000 else 0 }

end Carbond.Conf
