import OutOfOrder.Config.Basic
import OutOfOrder.Json.Record

/-!
# Configurations as JSON text

A configuration is a record of two records, one for the core and one for the
page table walkers. Sizes, widths and cycles are words of sixty-four bits;
the budget and the level of serialization are shorter, and the register budget
has a sign.
-/

namespace OutOfOrder

open Json

/-- The fields of a core's parameters in order. -/
def CoreConfig.fields : List (RecordField CoreConfig) :=
  [ .of "fetch_width" Value.word? fun n c => { c with fetchWidth := n }
  , .of "issue_width" Value.word? fun n c => { c with issueWidth := n }
  , .of "retire_width" Value.word? fun n c => { c with retireWidth := n }
  , .of "realistic_width" Value.word? fun n c => { c with realisticWidth := n }
  , .of "inst_queue_size" Value.word? fun n c => { c with instQueueSize := n }
  , .of "max_rob_size" Value.word? fun n c => { c with maxRobSize := n }
  , .of "retire_delay" Value.word? fun n c => { c with retireDelay := n }
  , .of "total_regs" Value.signed? fun n c => { c with totalRegs := n }
  , .of "late_alloc_register" Value.bool? fun b c => { c with lateAlloc := b }
  , .of "memory_replay" Value.bool? fun b c => { c with memoryReplay := b }
  , .of "serialize" (Value.natBelow? UInt32.size) fun n c => { c with serialize := n }
  , .of "serialize_level" (Value.natBelow? UInt8.size) fun n c => { c with serializeLevel := n }
  , .of "forward_progress_threshold" Value.word? fun n c => { c with progressThreshold := n }
  , .of "lock_check_interval" Value.word? fun n c => { c with lockCheckInterval := n } ]

/-- The fields of the walkers' parameters in order. -/
def MmuConfig.fields : List (RecordField MmuConfig) :=
  [ .of "ptw_count" Value.word? fun n c => { c with walkers := n }
  , .of "l1tlb_entries" Value.word? fun n c => { c with cacheEntries := n }
  , .of "l1tlb_latency" Value.word? fun n c => { c with cacheLatency := n }
  , .of "memory_latency" Value.word? fun n c => { c with memoryLatency := n }
  , .of "root_ppn" Value.word? fun n c => { c with rootPpn := UInt64.ofNat n } ]

/-- Reads the parameters of a core. -/
def CoreConfig.ofValue? : Value → Option CoreConfig := RecordField.readRecord? fields {}

/-- Reads the parameters of the walkers. -/
def MmuConfig.ofValue? : Value → Option MmuConfig := RecordField.readRecord? fields {}

/-- The two records of a configuration in order. -/
def Config.fields : List (RecordField Config) :=
  [ .of "core" CoreConfig.ofValue? fun core c => { c with core }
  , .of "mmu" MmuConfig.ofValue? fun mmu c => { c with mmu } ]

/-- Reads a configuration. -/
def Config.ofValue? : Value → Option Config := RecordField.readRecord? fields {}

/-- Reads a configuration from JSON text without checking it. -/
def Config.parse (text : String) : Except ConfigError Config :=
  match (parse? text).bind Config.ofValue? with
  | some config => .ok config
  | none => .error .unreadable

/-- Reads a configuration from JSON text and checks it. -/
def Config.ofJson (text : String) : Except ConfigError Config := do
  let config ← Config.parse text
  config.validate
  return config

end OutOfOrder
