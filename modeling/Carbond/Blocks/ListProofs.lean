import Carbond.Blocks.Reload

/-! The lists of the configuration in memory: what their nodes own, what the parsers append to them,
and that freeing them leaves nothing behind. -/
namespace Carbond.Blocks
open Heap Posix Text

/-! ### What there is in memory -/

def retentionNode (a : Addr) (ret : Retention) (next : Option Addr) : Assertion Block :=
  blockAt .retention a ⟨ret.timePerPoint, ret.timeToStore, next⟩

/-- A text, or NULL. -/
def textOrNull (size : ℕ) (p : Option Addr) : Option CString → Assertion Block
  | none => ⨆ _ : p = none, 1
  | some contents => textAt size p contents

def schemaOwns (schema : PatternRetention) (fields : PatternRetentionT) : Assertion Block :=
  textAt Conf.patternMax fields.strPattern schema.strPattern *
    (textOrNull Conf.retentionMax fields.strRetention schema.strRetention *
      chain retentionNode fields.retentionList schema.retentionList none)

def schemaNode (a : Addr) (schema : PatternRetention) (next : Option Addr) : Assertion Block :=
  ⨆ (fields : PatternRetentionT) (_ : fields.next = next),
    blockAt .patternRetention a fields * schemaOwns schema fields

/-- The pattern's block has the size that `conf_add_pattern_aggregation` asks for. -/
def aggregationNode (a : Addr) (rule : PatternAggregation) (next : Option Addr) : Assertion Block :=
  ⨆ pattern, blockAt .patternAggregation a ⟨pattern, rule.xff, rule.method, next⟩ *
    textAt (rule.pattern.drop 1).length pattern rule.pattern

theorem retentionNode_sized (a : Addr) (ret : Retention) (next : Option Addr) :
    Sized 1 (retentionNode a ret next) := blockAt_sized _ _ _

theorem schemaNode_sized (a : Addr) (schema : PatternRetention) (next : Option Addr) :
    Sized 1 (schemaNode a schema next) :=
  .iSup fun _ => .iSup fun _ => (blockAt_sized _ _ _).mul (.zero _)

theorem aggregationNode_sized (a : Addr) (rule : PatternAggregation) (next : Option Addr) :
    Sized 1 (aggregationNode a rule next) := .iSup fun _ => (blockAt_sized _ _ _).mul (.zero _)

/-! ### Retentions -/

section
variable [Platform]

theorem ofParse_ok (parsed : result = .ok b) (P : Assertion Block) : Gives P (ofParse result) b P := by
  rw [parsed]
  exact .pure b P

theorem parseRetentionItemStr_triple {str : CString}
    (parsed : Conf.parseRetentionItemStr str = .ok ret) :
    Triple 1 (parseRetentionItemStr str) fun a => retentionNode a ret none := by
  rw [Conf.parseRetentionItemStr] at parsed
  cases first : Conf.strToSeconds (strtok ':' str)[0]? with
  | error fault =>
    rw [first] at parsed
    cases parsed
  | ok timePerPoint =>
    rw [first] at parsed
    cases second : Conf.strToSeconds (strtok ':' str)[1]? with
    | error fault =>
      rw [second] at parsed
      cases parsed
    | ok timeToStore =>
      rw [second] at parsed
      cases parsed
      apply (calloc_triple .retention _).bind
      intro a
      apply (ofParse_ok first _).before
      apply (store_gives .retention a _ _).before
      apply (ofParse_ok second _).before
      apply (store_gives .retention a _ _).before
      apply (store_gives .retention a _ _).before
      exact .of_le le_rfl

end
end Carbond.Blocks
