import BlockTree.Decimal.Shortest
import BlockTree.Error
import BlockTree.Metrics

/-! Metrics as text: families in the order of their names, each with a line of
help and a line with its type. -/

namespace BlockTree

namespace Exposition

inductive Reading where
  | counter (value : Nat)
  | gauge (value : Int)
  | histogram (value : Histogram)

structure Family where
  name : String
  help : String
  reading : Reading

def Reading.typeName : Reading → String
  | counter _ => "counter"
  | gauge _ => "gauge"
  | histogram _ => "histogram"

def wholeText (n : Int) : String :=
  Decimal.text (Float.ofInt n)

/-- One line per bucket. A bucket counts those below it too. -/
def bucketLines (name : String) : Nat → List Float → List Nat → List String
  | below, bound :: bounds, n :: counts =>
    let total := below + n
    let upper := Decimal.text bound
    s!"{name}_bucket\x7ble=\"{upper}\"\x7d {wholeText total}" ::
      bucketLines name total bounds counts
  | _, _, _ => []

def Family.sampleLines (f : Family) : List String :=
  match f.reading with
  | .counter value => [s!"{f.name} {wholeText value}"]
  | .gauge value => [s!"{f.name} {wholeText value}"]
  | .histogram h =>
    bucketLines f.name 0 h.bounds h.counts ++
      [s!"{f.name}_bucket\x7ble=\"+Inf\"\x7d {wholeText h.count}",
        s!"{f.name}_sum {Decimal.text h.sum}",
        s!"{f.name}_count {wholeText h.count}"]

def Family.lines (f : Family) : List String :=
  s!"# HELP {f.name} {f.help}" :: s!"# TYPE {f.name} {f.reading.typeName}" :: f.sampleLines

end Exposition

open Exposition in
def Metrics.families (m : Metrics) : List Family :=
  [⟨"ledgerlink_block_processing_duration_seconds", "Time spent in add_block",
      .histogram m.processing⟩,
    ⟨"ledgerlink_blocks_accepted_total", "Blocks stored as resolved links on arrival",
      .counter m.accepted⟩,
    ⟨"ledgerlink_blocks_duplicate_total", "Blocks that were already stored",
      .counter m.duplicate⟩,
    ⟨"ledgerlink_blocks_orphaned_total", "Blocks stored as orphans", .counter m.orphaned⟩,
    ⟨"ledgerlink_blocks_promoted_total", "Orphans resolved by a promotion cascade",
      .counter m.promoted⟩,
    ⟨"ledgerlink_blocks_rejected_total", "Blocks failing validation", .counter m.rejected⟩,
    ⟨"ledgerlink_orphan_count", "Unresolved orphans held", .gauge m.orphanCount⟩,
    ⟨"ledgerlink_orphans_evicted_total", "Orphans dropped to respect the orphan cap",
      .counter m.evicted⟩,
    ⟨"ledgerlink_reorgs_total", "Tip changes that abandoned part of the active chain",
      .counter m.reorgs⟩,
    ⟨"ledgerlink_tip_height", "Height of the active tip", .gauge m.tipHeight⟩]

def Metrics.text (m : Metrics) : String :=
  String.join (m.families.flatMap fun f => f.lines.map fun line => line ++ "\n")

/-- Adds the names of the metrics to those in use. No name is used twice. -/
def Metrics.register (m : Metrics) (used : List String) : Except Error (List String) :=
  let names := m.families.map Exposition.Family.name
  if names.any fun name => name ∈ used then .error (.config .metricsRegistered)
  else .ok (used ++ names)

end BlockTree
