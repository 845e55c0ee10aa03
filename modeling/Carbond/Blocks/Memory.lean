import Carbond.Common
import Carbond.Heap.Triple

/-! The configuration as it lies in memory: the blocks it is made of, and how they are accessed. -/
namespace Carbond.Blocks
open Heap Posix Text

abbrev Addr := ℕ

/-- The size is what `malloc` was asked for. The text is kept whole, also where it does not fit. -/
structure TextT where
  size : ℕ
  contents : CString

structure RetentionT where
  timePerPoint : UInt32
  timeToStore : UInt32
  next : Option Addr

structure PatternRetentionT where
  strPattern : Option Addr
  strRetention : Option Addr
  retentionList : Option Addr
  next : Option Addr

structure PatternAggregationT where
  pattern : Option Addr
  xff : UInt32
  method : AggregationType
  next : Option Addr

structure CarbonConfT where
  schema : Option Addr
  aggregation : Option Addr
  confDir : Option Addr
  confFile : Option Addr
  storageDir : Option Addr
  lineReceiverPort : Int32
  udpReceiverPort : Int32
  run : Bool
  tracing : Bool
  logLevel : LogLevel

/-- One block of memory; `file` is what `fopen` allocates. -/
inductive Block where
  | text (text : TextT)
  | retention (retention : RetentionT)
  | patternRetention (schema : PatternRetentionT)
  | patternAggregation (aggregation : PatternAggregationT)
  | conf (conf : CarbonConfT)
  | file

/-- A type of blocks. -/
structure Kind (β : Type) where
  block : β → Block
  fields : Block → Option β
  fields_block : ∀ b, fields (block b) = some b

namespace Kind

def text : Kind TextT where
  block := .text
  fields | .text t => some t | _ => none
  fields_block _ := rfl

def retention : Kind RetentionT where
  block := .retention
  fields | .retention r => some r | _ => none
  fields_block _ := rfl

def patternRetention : Kind PatternRetentionT where
  block := .patternRetention
  fields | .patternRetention s => some s | _ => none
  fields_block _ := rfl

def patternAggregation : Kind PatternAggregationT where
  block := .patternAggregation
  fields | .patternAggregation g => some g | _ => none
  fields_block _ := rfl

def conf : Kind CarbonConfT where
  block := .conf
  fields | .conf c => some c | _ => none
  fields_block _ := rfl

end Kind

abbrev Step := EStateM Fault (Cells Block)

variable {β : Type}

def load (kind : Kind β) : Option Addr → Step β
  | none => throw .nullDereference
  | some a => do
    match kind.fields (← fetch .useAfterFree a) with
    | none => throw .useAfterFree
    | some b => return b

def store (kind : Kind β) : Option Addr → (β → β) → Step Unit
  | none, _ => throw .nullDereference
  | some a, f => do
    let b ← load kind (some a)
    replace .useAfterFree a (kind.block (f b))

def calloc (kind : Kind β) (zero : β) : Step Addr := allocate (kind.block zero)

/-- Nothing happens to NULL. -/
def free : Option Addr → Step Unit
  | none => return ()
  | some a => release .useAfterFree a

def malloc [Platform] (size : ℕ) : Step Addr := allocate (.text ⟨size, Platform.uninitialised⟩)

/-- What `memset` and `strncpy`, or `sscanf`, leave in a block. -/
def storeText (p : Option Addr) (contents : CString) : Step Unit :=
  store .text p fun text => { text with contents := contents }

/-- A new text, in a block of this size. -/
def newText [Platform] (size : ℕ) (contents : CString) : Step Addr := do
  let a ← malloc size
  storeText (some a) contents
  return a

/-! ### Accesses to a block that is there -/

/-- A block of this kind. -/
def blockAt (kind : Kind β) (a : Addr) (b : β) : Assertion Block := cell a (kind.block b)

theorem blockAt_sized (kind : Kind β) (a : Addr) (b : β) : Sized 1 (blockAt kind a b) := .cell a _

theorem load_gives (kind : Kind β) (a : Addr) (b : β) :
    Gives (blockAt kind a b) (load kind (some a)) b (blockAt kind a b) := by
  apply (fetch_gives _ _ _).bind
  rw [kind.fields_block]
  exact .pure _ _

theorem store_gives (kind : Kind β) (a : Addr) (b : β) (f : β → β) :
    Gives (blockAt kind a b) (store kind (some a) f) () (blockAt kind a (f b)) :=
  (load_gives kind a b).bind (replace_gives _ _ _ _)

theorem calloc_triple (kind : Kind β) (zero : β) :
    Triple 1 (calloc kind zero) fun a => blockAt kind a zero := allocate_triple _

theorem free_gives (kind : Kind β) (a : Addr) (b : β) :
    Gives (blockAt kind a b) (free (some a)) () 1 := release_gives _ _ _

theorem malloc_triple [Platform] (size : ℕ) :
    Triple 1 (malloc size) fun a => blockAt .text a ⟨size, Platform.uninitialised⟩ := allocate_triple _

/-- What a pointer leads to is a text in a block of this size. -/
def textAt (size : ℕ) (p : Option Addr) (contents : CString) : Assertion Block :=
  ⨆ (a : Addr) (_ : p = some a), blockAt .text a ⟨size, contents⟩

theorem textAt_some (size : ℕ) (a : Addr) (contents : CString) :
    textAt size (some a) contents = blockAt .text a ⟨size, contents⟩ := by
  apply le_antisymm
  · refine iSup_le fun b => iSup_le fun same => ?_
    obtain rfl := Option.some.inj same
    exact le_rfl
  · exact le_iSup_of_le a (le_iSup_of_le rfl le_rfl)

/-- A program on a text, wherever it is. -/
theorem textAt_gives {program : Option Addr → Step β} {Q : Option Addr → Assertion Block}
    (each : ∀ a, Gives (blockAt .text a ⟨size, contents⟩) (program (some a)) b (Q (some a)))
    (p : Option Addr) : Gives (textAt size p contents) (program p) b (Q p) := by
  apply Gives.iSup
  intro a
  apply Gives.iSup
  rintro rfl
  exact each a

theorem newText_triple [Platform] (size : ℕ) (contents : CString) :
    Triple 1 (newText size contents) fun a => textAt size (some a) contents := by
  simp only [textAt_some]
  apply (malloc_triple size).bind
  intro a
  apply (store_gives .text a _ _).before
  exact Triple.pure (Q := fun a => blockAt .text a ⟨size, contents⟩) a

theorem loadText_gives (size : ℕ) (p : Option Addr) (contents : CString) :
    Gives (textAt size p contents) (load .text p) ⟨size, contents⟩ (textAt size p contents) := by
  apply textAt_gives
  intro a
  rw [textAt_some]
  exact load_gives .text a _

theorem freeText_gives (size : ℕ) (p : Option Addr) (contents : CString) :
    Gives (textAt size p contents) (free p) () 1 :=
  textAt_gives (Q := fun _ => 1) (fun a => free_gives .text a _) p

end Carbond.Blocks
