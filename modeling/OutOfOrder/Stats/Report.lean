import OutOfOrder.Decimal.Fixed
import OutOfOrder.Stats.Counters

/-!
# The report of a core's counters

One line per counter: the name, filled up with blanks to a common column, and
the value. Rates have four places and means two. Every stall cause has a line,
also one that lost no slot.
-/

namespace OutOfOrder.Counters

/-- Rates are written with four places. -/
def rate : Decimal.Style := { places := 4 }

/-- Means are written with two places. -/
def mean : Decimal.Style := { places := 2 }

/-- Fills a text up with blanks to a width. -/
def fill (width : Nat) (text : String) : String :=
  String.ofList (text.toList.rightpad width ' ')

/-- A counter's line: names end at column 25. -/
def line (name value : String) : String := fill 25 name ++ value ++ "\n"

/-- The line of a stall cause: its name takes 20 columns and a blank. -/
def stallLine (s : Counters) (cause : StallCause) : String :=
  "core.stall." ++ fill 20 cause.name ++ " " ++ toString (s.stall cause) ++ "\n"

/-- The counters as text. -/
def report (s : Counters) : String :=
  String.join
    ([ line "core.clock_ticks" (toString s.clockTicks)
     , line "core.committed" (toString s.committed)
     , line "core.ipc" (rate.write s.ipc)
     , line "core.rob_used" (mean.write s.robUsed.mean)
     , line "core.rrob_used" (mean.write s.retiringUsed.mean)
     , line "core.fetch_width" (mean.write s.bucketSize.mean)
     , line "core.no_fetch" (toString s.queueFull)
     , line "core.no_fetch2" (toString s.bucketMissing)
     , line "core.replays" (toString s.replays)
     , line "core.replay_inst" (mean.write s.replayWaste.mean)
     , line "core.spec_loads" (toString s.specLoads)
     , line "core.safe_loads" (toString s.safeLoads)
     ] ++ StallCause.all.map s.stallLine)

end OutOfOrder.Counters
