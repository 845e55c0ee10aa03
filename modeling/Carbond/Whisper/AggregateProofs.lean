import Carbond.Conf.Parse
import Carbond.Ieee.Format
import Carbond.Whisper.Layout
import Carbond.Whisper.Write
import Mathlib.Data.List.Induction

/-! What the aggregation methods compute: the average and the sum as their names say, the other
methods nothing but zero. -/
namespace Carbond.Whisper
open Bytes Posix Text Ieee

/-- The number in a double. -/
def doubleValue (bits : UInt64) : ℚ := double.value bits.toNat

/-- What a method should make of values in the order of time. -/
def aggregated : AggregationType → List ℚ → ℚ
  | .undef, _ => 0
  | .average, values => values.sum / values.length
  | .sum, values => values.sum
  | .last, values => values.getLastD 0
  | .max, values => values.max?.getD 0
  | .min, values => values.min?.getD 0

/-- The additions of these values in order, and the division of their sum, give exact results. -/
structure Exact [Platform] (values : List UInt64) : Prop where
  adds : ∀ front value, front ++ [value] <+: values →
    doubleValue (Platform.add (front.foldl Platform.add 0) value) =
      doubleValue (front.foldl Platform.add 0) + doubleValue value
  divides : ∀ count : UInt32, count.toNat = values.length →
    doubleValue (Platform.divide (values.foldl Platform.add 0) count) =
      doubleValue (values.foldl Platform.add 0) / values.length

theorem Exact.sum [Platform] (exactly : Exact values) :
    doubleValue (values.foldl Platform.add 0) = (values.map doubleValue).sum := by
  have upTo (front : List UInt64) (inside : front <+: values) :
      doubleValue (front.foldl Platform.add 0) = (front.map doubleValue).sum := by
    induction front using List.reverseRecOn with
    | nil => exact Format.value_zero double
    | append_singleton front value ih =>
      have before : front <+: values := (List.prefix_append front [value]).trans inside
      rw [List.foldl_concat, exactly.adds front value inside, ih before, List.map_append,
        List.sum_append, List.map_singleton, List.sum_singleton]
  exact upTo values (List.prefix_refl values)

/-- A rule's method is the type that is read back from the file created for it. -/
theorem stored_aggregationType (ret : List Retention) (agg : PatternAggregation) :
    (metadataIn (newContents ret agg)).aggregationType = agg.method.code := by
  rw [metadataIn_newContents]
  rfl

theorem doubleValue_zero : doubleValue 0 = 0 := Format.value_zero double

/-- The value computed for a rule that names a method is right exactly if the method is the
average or the sum, or zero is what it should be. -/
theorem aggregateValues_iff [Platform] (named : Conf.confGetAggregationMethod methodS ≠ .undef)
    (rule : agg.method = Conf.confGetAggregationMethod methodS)
    (counted : nbKnownPoints.toNat = values.length) (exactly : Exact values)
    (ret : List Retention) :
    doubleValue (whisperAggregateValues values nbKnownPoints
        (metadataIn (newContents ret agg)).aggregationType) =
      aggregated (Conf.confGetAggregationMethod methodS) (values.map doubleValue) ↔
    Conf.confGetAggregationMethod methodS = .average ∨
      Conf.confGetAggregationMethod methodS = .sum ∨
      aggregated (Conf.confGetAggregationMethod methodS) (values.map doubleValue) = 0 := by
  rw [stored_aggregationType, rule]
  cases method : Conf.confGetAggregationMethod methodS with
  | undef => exact absurd method named
  | average =>
    refine ⟨fun _ => .inl rfl, fun _ => ?_⟩
    rw [whisperAggregateValues, if_pos rfl, exactly.divides nbKnownPoints counted, exactly.sum,
      aggregated, List.length_map]
  | sum =>
    refine ⟨fun _ => .inr (.inl rfl), fun _ => ?_⟩
    rw [whisperAggregateValues, if_neg (by decide), if_pos rfl, exactly.sum, aggregated]
  | last | max | min =>
    rw [whisperAggregateValues, if_neg (by decide), if_neg (by decide), doubleValue_zero]
    exact ⟨fun same => .inr (.inr same.symm), fun cases => by
      rcases cases with other | other | zero
      · contradiction
      · contradiction
      · exact zero.symm⟩

/-- A platform that adds 1 and 2, and halves 3. -/
@[reducible] def addsExactly : Platform where
  pcre := matchesAll.pcre
  add a b := if a = 0 then b else 0x4008000000000000
  divide _ _ := 0x3ff8000000000000
  atLeast := matchesAll.atLeast
  strtod := matchesAll.strtod
  strtof := matchesAll.strtof
  uninitialised := matchesAll.uninitialised
  stray := matchesAll.stray

theorem exact_oneTwo : @Exact addsExactly [0x3ff0000000000000, 0x4000000000000000] := by
  refine @Exact.mk addsExactly _ ?_ ?_
  · intro front value inside
    cases front with
    | nil =>
      obtain ⟨rfl, _⟩ := List.cons_prefix_cons.mp inside
      decide +kernel
    | cons first rest =>
      obtain ⟨rfl, further⟩ := List.cons_prefix_cons.mp inside
      clear inside
      cases rest with
      | nil =>
        obtain ⟨rfl, _⟩ := List.cons_prefix_cons.mp further
        decide +kernel
      | cons second rest =>
        have short := further.length_le
        simp at short
  · intro count counted
    have half : doubleValue 0x3ff8000000000000 = doubleValue 0x4008000000000000 / (2 : ℕ) := by
      decide +kernel
    exact half

theorem aggregateValues_iff_witness :
    doubleValue (@whisperAggregateValues addsExactly [0x3ff0000000000000, 0x4000000000000000] 2
        (metadataIn (newContents [⟨60, 120⟩] ⟨[], 0, .sum⟩)).aggregationType) =
      aggregated (Conf.confGetAggregationMethod "sum".toList)
        ([0x3ff0000000000000, 0x4000000000000000].map doubleValue) ↔
    Conf.confGetAggregationMethod "sum".toList = .average ∨
      Conf.confGetAggregationMethod "sum".toList = .sum ∨
      aggregated (Conf.confGetAggregationMethod "sum".toList)
        ([0x3ff0000000000000, 0x4000000000000000].map doubleValue) = 0 :=
  @aggregateValues_iff "sum".toList _ _ _ addsExactly (by decide) rfl rfl exact_oneTwo _

/-- The rule for names that end in max, as it is shipped, makes 0 of the values 1 and 2. -/
theorem max_gives_zero : Conf.confGetAggregationMethod "max".toList = .max ∧
    doubleValue (@whisperAggregateValues addsExactly [0x3ff0000000000000, 0x4000000000000000] 2
      (metadataIn (newContents [⟨60, 120⟩] ⟨"\\.max$".toList, 0x3dcccccd, .max⟩)).aggregationType) = 0 ∧
    aggregated .max ([0x3ff0000000000000, 0x4000000000000000].map doubleValue) = 2 :=
  ⟨by decide, by decide +kernel, by decide +kernel⟩

end Carbond.Whisper
