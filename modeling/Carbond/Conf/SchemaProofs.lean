import Carbond.Conf.RetentionProofs

/-! Storage schemas read back: whatever text writes a list of sections, the parser makes that list of
it. -/
namespace Carbond.Conf
open Text Posix

def patternMax : ℕ := 100

def retentionMax : ℕ := 100

/-! ### Digits -/

theorem digit_ne {c d : Char} (digit : c.isDigit = true) (other : d.isDigit = false) : c ≠ d := by
  rintro rfl
  rw [digit] at other
  contradiction

theorem isSpace_digit {c : Char} (digit : c.isDigit = true) : isSpace c = false := by
  have ne (d : Char) (other : d.isDigit = false) : c ≠ d := digit_ne digit other
  simp only [isSpace, decide_eq_false_iff_not, not_or]
  exact ⟨ne _ (by decide), ne _ (by decide), ne _ (by decide), ne _ (by decide), ne _ (by decide),
    ne _ (by decide)⟩

theorem splitSign_digit {first : Char} (digit : first.isDigit = true) (rest : CString) :
    splitSign (first :: rest) = (false, first :: rest) := by
  unfold splitSign
  split
  · rename_i same
    exact absurd (List.cons.inj same).1 (digit_ne digit (by decide))
  · rename_i same
    exact absurd (List.cons.inj same).1 (digit_ne digit (by decide))
  · rfl

/-! ### Durations -/

inductive DurationUnit where
  | second
  | hour
  | day
  | week
  deriving DecidableEq, Repr

namespace DurationUnit

def letter : DurationUnit → Char
  | second => 's'
  | hour => 'h'
  | day => 'd'
  | week => 'w'

def seconds : DurationUnit → ℕ
  | second => 1
  | hour => 3600
  | day => 86400
  | week => 604800

end DurationUnit

/-- A decimal number with or without a unit, below 2^32 seconds. -/
structure Duration where
  digits : CString
  unit : Option DurationUnit
  written : digits ≠ []
  decimal : ∀ c ∈ digits, c.isDigit = true
  small : digitsValue digits * (unit.map DurationUnit.seconds).getD 1 < 2 ^ 32

namespace Duration
variable (duration : Duration)

def text : CString := duration.digits ++ (duration.unit.map DurationUnit.letter).toList

def seconds : ℕ := digitsValue duration.digits * (duration.unit.map DurationUnit.seconds).getD 1

theorem strtoul_digits : strtoul duration.digits = digitsValue duration.digits := by
  have all : duration.digits.takeWhile Char.isDigit = duration.digits :=
    List.takeWhile_eq_self_iff.mpr duration.decimal
  have small : digitsValue duration.digits < 2 ^ 64 := by
    have below := duration.small
    have positive : 1 ≤ (duration.unit.map DurationUnit.seconds).getD 1 := by
      rcases duration.unit with _ | unit
      · exact le_rfl
      · cases unit <;> decide
    have le := Nat.le_mul_of_pos_right (digitsValue duration.digits) positive
    omega
  have start : skipSpace duration.digits = duration.digits ∧
      splitSign duration.digits = (false, duration.digits) := by
    have decimal := duration.decimal
    cases digits : duration.digits with
    | nil => exact absurd digits duration.written
    | cons first rest =>
      have digit := decimal first (digits ▸ List.mem_cons_self)
      refine ⟨?_, splitSign_digit digit rest⟩
      rw [skipSpace, List.dropWhile_cons, isSpace_digit digit]
      rfl
  rw [strtoul, start.1, start.2]
  simp only [all]
  rw [if_neg (Nat.not_le_of_lt small)]
  rfl

theorem splitUnit_text : splitUnit duration.text =
    (UInt32.ofNat ((duration.unit.map DurationUnit.seconds).getD 1), duration.digits) := by
  rw [text]
  rcases duration.unit with _ | unit
  · -- Without a unit the last character is a digit.
    have last : ∀ c ∈ duration.digits.getLast?, c.isDigit = true := fun c final =>
      duration.decimal c (List.mem_of_getLast? final)
    rw [Option.map_none, Option.toList_none, List.append_nil, splitUnit]
    split
    · exact absurd (last _ (by assumption)) (by decide)
    · exact absurd (last _ (by assumption)) (by decide)
    · exact absurd (last _ (by assumption)) (by decide)
    · exact absurd (last _ (by assumption)) (by decide)
    · rfl
  · rw [Option.map_some, Option.toList_some, splitUnit, List.getLast?_concat, List.dropLast_concat]
    cases unit <;> rfl

theorem strToSeconds_text : strToSeconds (some duration.text) =
    .ok (UInt32.ofNat duration.seconds) := by
  have parsed : strToSeconds (some duration.text) = .ok
    (UInt32.ofNat (strtoul (splitUnit duration.text).2) * (splitUnit duration.text).1) := rfl
  rw [parsed, splitUnit_text, strtoul_digits, seconds, UInt32.ofNat_mul]

/-- The letters of a duration separate nothing. -/
theorem text_free (separator : Char) (other : separator.isDigit = false)
    (noUnit : ∀ unit : DurationUnit, unit.letter ≠ separator) :
    separator ∉ duration.text ∧ duration.text ≠ [] := by
  refine ⟨?_, ?_⟩
  · rw [text, List.mem_append]
    rintro (inside | inside)
    · exact digit_ne (duration.decimal _ inside) other rfl
    · obtain ⟨unit, _, same⟩ := by simpa using inside
      exact noUnit unit same
  · rw [text]
    exact List.append_ne_nil_of_left_ne_nil duration.written _

end Duration

/-! ### Lists of retentions -/

/-- A time per point and a time to store. -/
abbrev RetentionSpec := Duration × Duration

namespace RetentionSpec

def text (spec : RetentionSpec) : CString := spec.1.text ++ ':' :: spec.2.text

def retention (spec : RetentionSpec) : Retention :=
  ⟨UInt32.ofNat spec.1.seconds, UInt32.ofNat spec.2.seconds⟩

theorem parse (spec : RetentionSpec) : parseRetentionItemStr spec.text = .ok spec.retention := by
  obtain ⟨free, some⟩ := spec.1.text_free ':' (by decide) (fun unit => by cases unit <;> decide)
  obtain ⟨free', some'⟩ := spec.2.text_free ':' (by decide) (fun unit => by cases unit <;> decide)
  have tokens : strtok ':' spec.text = [spec.1.text, spec.2.text] := by
    rw [text, strtok_append, strtok_single free some, strtok_single free' some']
    rfl
  rw [parseRetentionItemStr]
  simp only [tokens, List.getElem?_cons_zero, List.getElem?_cons_succ, Duration.strToSeconds_text]
  rfl

theorem text_free (spec : RetentionSpec) : ',' ∉ spec.text ∧ spec.text ≠ [] := by
  obtain ⟨free, some⟩ := spec.1.text_free ',' (by decide) (fun unit => by cases unit <;> decide)
  obtain ⟨free', _⟩ := spec.2.text_free ',' (by decide) (fun unit => by cases unit <;> decide)
  refine ⟨?_, List.append_ne_nil_of_left_ne_nil some _⟩
  rw [text, List.mem_append, List.mem_cons]
  rintro (inside | colon | inside)
  · exact free inside
  · exact absurd colon (by decide)
  · exact free' inside

end RetentionSpec

/-- The text of a list of retentions, with commas between them. -/
def retentionsText (specs : List RetentionSpec) : CString :=
  [','].intercalate (specs.map RetentionSpec.text)

theorem parseRetentionListStr_text {specs : List RetentionSpec} (some : specs ≠ []) :
    parseRetentionListStr (retentionsText specs) = .ok (specs.map RetentionSpec.retention) := by
  have free : ∀ text ∈ specs.map RetentionSpec.text, ',' ∉ text ∧ text ≠ [] := by
    intro text member
    obtain ⟨spec, _, rfl⟩ := List.mem_map.mp member
    exact spec.text_free
  have tokens : strtok ',' (retentionsText specs) = specs.map RetentionSpec.text := by
    rw [strtok, retentionsText, List.splitOn_intercalate ',' (fun text member => (free text member).1)
      (by simpa using some), List.filter_eq_self]
    exact fun text member => decide_eq_true (free text member).2
  rw [parseRetentionListStr, tokens]
  clear tokens free some
  induction specs with
  | nil => rfl
  | cons spec rest ih =>
    rw [List.map_cons, List.mapM_cons, spec.parse, ih]
    rfl

/-! ### Sections -/

/-- A section with values that fit into the buffers of the parser. -/
structure SchemaSection where
  name : CString
  pattern : CString
  retentions : List RetentionSpec
  word : Word pattern
  patternFits : pattern.length < patternMax
  some : retentions ≠ []
  retentionsFit : (retentionsText retentions).length < retentionMax

namespace SchemaSection
variable (schemaSection : SchemaSection)

/-- The lines that write a section, without blanks. -/
def lines : List CString :=
  ['[' :: condensed schemaSection.name ++ "]".toList,
    "pattern=".toList ++ schemaSection.pattern,
    "retentions=".toList ++ retentionsText schemaSection.retentions]

/-- What the parser makes of a section. -/
def schema : PatternRetention where
  strPattern := schemaSection.pattern
  strRetention := Option.some (retentionsText schemaSection.retentions)
  retentionList := schemaSection.retentions.map RetentionSpec.retention

end SchemaSection

/-- The text writes these sections in this order, with comments, empty lines and blanks anywhere. -/
structure WritesSchemas (file : CString) (sections : List SchemaSection) : Prop where
  text : ConfigText file
  lines : significant file = sections.flatMap SchemaSection.lines

theorem Duration.text_plain (duration : Duration) : ∀ c ∈ duration.text, isSpace c = false := by
  intro c inside
  rw [text, List.mem_append] at inside
  rcases inside with digit | letter
  · exact isSpace_digit (duration.decimal c digit)
  · obtain ⟨unit, _, rfl⟩ := by simpa using letter
    cases unit <;> rfl

theorem RetentionSpec.text_plain (spec : RetentionSpec) : ∀ c ∈ spec.text, isSpace c = false := by
  intro c inside
  rcases List.mem_append.mp inside with first | second
  · exact spec.1.text_plain c first
  · rcases List.mem_cons.mp second with rfl | second
    · rfl
    · exact spec.2.text_plain c second

theorem retentionsText_word {specs : List RetentionSpec} (some : specs ≠ []) :
    Word (retentionsText specs) := by
  induction specs with
  | nil => contradiction
  | cons spec rest ih =>
    cases rest with
    | nil =>
      have single : retentionsText [spec] = spec.text := by simp [retentionsText]
      rw [single]
      exact ⟨spec.text_free.2, spec.text_plain⟩
    | cons next rest =>
      have split : retentionsText (spec :: next :: rest) =
          spec.text ++ ',' :: retentionsText (next :: rest) := by
        rw [retentionsText, List.map_cons, List.intercalate_cons_of_ne_nil (by simp)]
        simp [retentionsText]
      rw [split]
      refine ⟨List.append_ne_nil_of_left_ne_nil spec.text_free.2 _, fun c inside => ?_⟩
      rcases List.mem_append.mp inside with first | later
      · exact spec.text_plain c first
      · rcases List.mem_cons.mp later with rfl | later
        · rfl
        · exact (ih (List.cons_ne_nil _ _)).plain c later

variable [Platform]

theorem schemaLines_filter (patternFound : Bool) (schemas : List PatternRetention)
    (lines : List CString) : schemaLines patternFound schemas (lines.filter (¬ Ignored ·)) =
      schemaLines patternFound schemas lines := by
  induction lines generalizing patternFound schemas with
  | nil => rfl
  | cons buffer rest ih =>
    by_cases ignored : Ignored buffer
    · rw [List.filter_cons, if_neg (by simpa using ignored), ih]
      cases patternFound with
      | false => exact (schemaLines_skips (ignored.no_key (by decide))).symm
      | true => exact (schemaLines_waits (ignored.no_key (by decide))).symm
    · rw [List.filter_cons, if_pos (by simpa using ignored)]
      simp only [schemaLines, ih]

omit [Platform] in
theorem setRetentions_concat (strRetention : CString) (retentionList : List Retention)
    (schemas : List PatternRetention) (last : PatternRetention) :
    setRetentions strRetention retentionList (schemas ++ [last]) = schemas ++
      [{ last with strRetention := some strRetention, retentionList := retentionList }] := by
  induction schemas with
  | nil => rfl
  | cons first rest ih =>
    cases rest with
    | nil => rfl
    | cons second rest => exact congrArg (first :: ·) ih

/-- A section is read as a whole, and leaves the parser ready for the next. -/
theorem schemaLines_section (schemaSection : SchemaSection) (schemas : List PatternRetention)
    (rest : List CString) : schemaLines false schemas (schemaSection.lines ++ rest) =
      schemaLines false (schemas ++ [schemaSection.schema]) rest := by
  have word := retentionsText_word schemaSection.some
  have text : retentionText ("retentions=".toList ++ retentionsText schemaSection.retentions) =
      retentionsText schemaSection.retentions := scanValue_key word _ _
  have header : ('[' :: condensed schemaSection.name ++ "]".toList).head? ≠ some 'p' := by
    rw [List.cons_append, List.head?_cons]
    decide
  rw [SchemaSection.lines, List.cons_append, schemaLines_skips (stringStartsWith_other header),
    List.cons_append, schemaLines_pattern (stringStartsWith_key schemaSection.word.some),
    List.cons_append, schemaLines_retentions (stringStartsWith_key word.some),
    scanValue_key schemaSection.word, text, parseRetentionListStr_text schemaSection.some]
  exact congrArg (schemaLines false · rest) (setRetentions_concat _ _ _ _)

theorem schemaLines_sections (sections : List SchemaSection) (schemas : List PatternRetention) :
    schemaLines false schemas (sections.flatMap SchemaSection.lines) =
      .ok (schemas ++ sections.map SchemaSection.schema) := by
  induction sections generalizing schemas with
  | nil => exact congrArg Except.ok (List.append_nil _).symm
  | cons first rest ih =>
    rw [List.flatMap_cons, schemaLines_section, ih, List.append_assoc]
    rfl

/-- For every list of sections and every text that writes it, the parser builds the patterns in file
order, each with its own retentions in seconds. -/
theorem confParseStorageSchemaFile_writes {files : Files} {newConf : CarbonConf}
    (opened : files (confPath newConf "storage-schemas.conf".toList) = some file)
    (writes : WritesSchemas file sections) (fresh : newConf.schema = []) :
    confParseStorageSchemaFile files newConf =
      .ok (0, { newConf with schema := sections.map SchemaSection.schema }) := by
  refine (confParseStorageSchemaFile_accepted fresh).mpr ⟨file, _, opened, ?_, rfl⟩
  rw [← schemaLines_filter, trimmedLines_filter writes.text, writes.lines]
  exact schemaLines_sections sections []

/-- One section, with two retentions. -/
def daySection : SchemaSection where
  name := "one day".toList
  pattern := ".*".toList
  retentions := [(⟨"60".toList, none, by decide, by decide, by decide⟩,
      ⟨"1".toList, some .day, by decide, by decide, by decide⟩),
    (⟨"03".toList, some .hour, by decide, by decide, by decide⟩,
      ⟨"2".toList, some .week, by decide, by decide, by decide⟩)]
  word := ⟨by decide, by decide⟩
  patternFits := by decide
  some := by decide
  retentionsFit := by decide

/-- The section among comments, with blanks, and without a newline at its end. -/
def daySectionText : CString :=
  "# schemas\n\n [one day]\n\tpattern = .*\n# 1 day\nretentions = 60:1d, 03h:2w".toList

omit [Platform] in
theorem daySectionText_writes : WritesSchemas daySectionText [daySection] :=
  ⟨⟨by decide, by decide⟩, by decide⟩

omit [Platform] in
theorem confParseStorageSchemaFile_writes_witness :
    @confParseStorageSchemaFile matchesAll (fun _ => some daySectionText)
      (defaultConf "/etc".toList "/var".toList) = .ok (0,
        { defaultConf "/etc".toList "/var".toList with
          schema := [⟨".*".toList, some "60:1d,03h:2w".toList, [⟨60, 86400⟩, ⟨10800, 1209600⟩]⟩] }) := by
  have opened : (fun _ => some daySectionText : Files)
      (confPath (defaultConf "/etc".toList "/var".toList) "storage-schemas.conf".toList) =
        some daySectionText := rfl
  exact @confParseStorageSchemaFile_writes matchesAll _ _ _ _ opened daySectionText_writes rfl

end Carbond.Conf
