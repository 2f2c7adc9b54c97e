/-
# Time zones

A zone turns the time that clocks show into UTC and back, both in seconds. A
wall-clock time that occurs twice is taken for the earlier instant; one that is
skipped is read with the offset in force a day before it. Dates without a time
name no instant and are the same in every zone.

Key definitions: `Zone`, `Zone.utc`, `Zone.fixed`, `TransitionTable.zone`,
`Zone.localToUtc`, `Zone.utcToLocal`.
-/
import Recurrence.Moment.Basic
import Recurrence.Zone.Transitions

namespace Recurrence

/-- The two conversions between wall-clock time and UTC. -/
structure Zone where
  toUtc : Int → Int
  fromUtc : Int → Int

namespace Zone

/-- The zone whose clocks show UTC. -/
def utc : Zone := ⟨id, id⟩

/-- The zone that is always the same number of seconds ahead of UTC. -/
def fixed (offset : Int) : Zone := ⟨(· - offset), (· + offset)⟩

/-- A date-time on the clocks of the zone, as the date-time in UTC. -/
def localToUtc (zone : Zone) (m : Moment) : Moment :=
  if m.hasTime then (m.seconds?.map fun s => .ofSeconds (zone.toUtc s)).getD m else m

/-- A date-time in UTC, as the clocks of the zone show it. -/
def utcToLocal (zone : Zone) (m : Moment) : Moment :=
  if m.hasTime then (m.seconds?.map fun s => .ofSeconds (zone.fromUtc s)).getD m else m

end Zone

namespace TransitionTable

/-- The offsets that are in force at some time. -/
def offsets (table : TransitionTable) : List Int :=
  (table.first :: table.transitions.map Transition.offset).eraseDups

/-- The instants at which clocks show a time, when `offsetAt` gives the offset
in force and `offsets` holds all offsets. -/
def instantsAt (offsetAt : Int → Int) (offsets : List Int) (wall : Int) : List Int :=
  (offsets.map (wall - ·)).filter fun u => u + offsetAt u = wall

/-- The zone of a table of transitions. -/
def zone (table : TransitionTable) : Zone :=
  let tree := OffsetTree.ofList table.first table.transitions
  let offsets := table.offsets
  { toUtc := fun wall =>
      ((instantsAt tree.offsetAt offsets wall).min?).getD (wall - tree.offsetAt (wall - 86400))
    fromUtc := fun u => u + tree.offsetAt u }

end TransitionTable

end Recurrence
