import Courier.Bytes

/-!
The progress of a message that is written in several goes, level by level.

Each level of nesting holds a cursor, the number of the next field, and whether the header is out. Going into a nested
message moves one level down, leaving it moves back up; a finished message clears its level, a suspended one keeps it
for the next attempt. Levels are allocated by doubling, and the current depth is always an allocated level: that is
the proof field `depth_lt`.

Allocating more levels than one allocation can hold is a stop of the program, and `allocate?` answers `none` then. Two
acts are stops too when they come at the wrong depth: leaving a message at depth zero and resetting below it. `stops`
tells them, and `step` answers `none` then.
-/

namespace Courier

/-- what is known of the message at one level -/
structure Level where
  cursor : Nat
  headerWritten : Bool
  deriving DecidableEq

/-- a level that no message has begun on -/
def Level.blank : Level :=
  ⟨0, false⟩

structure Nesting where
  levels : Array Level
  depth : Nat
  depth_lt : depth < levels.size
  deriving DecidableEq

namespace Nesting

/-- `n` clear levels, and at least one -/
def ofCapacity (n : Nat) : Nesting where
  levels := Array.replicate (max n 1) .blank
  depth := 0
  depth_lt := by
    rw [Array.size_replicate]
    omega

/-- bytes of a level in memory -/
def levelSize : Nat := 8

/-- `n` clear levels as a fresh allocation; `none` when no allocation can hold them -/
def allocate? (n : Nat) : Option Nesting :=
  if max n 1 * levelSize ≤ maxAllocation then some (ofCapacity n) else none

/-- number of allocated levels -/
def capacity (s : Nesting) : Nat :=
  s.levels.size

/-- one level down; when the levels run out their number doubles -/
def forward (s : Nesting) : Nesting :=
  if h : s.depth + 1 = s.levels.size then
    { levels := s.levels ++ Array.replicate s.levels.size .blank
      depth := s.depth + 1
      depth_lt := by simp; omega }
  else
    { levels := s.levels
      depth := s.depth + 1
      depth_lt := by have := s.depth_lt; omega }

/-- one level up, as long as there is one; the level that is left is cleared if its message finished -/
def retreat : Nesting → Bool → Nesting
  | ⟨levels, depth, h⟩, true => ⟨levels.set depth .blank h, depth - 1, by rw [Array.size_set]; omega⟩
  | ⟨levels, depth, h⟩, false => ⟨levels, depth - 1, by omega⟩

/-- the level of the message at hand -/
def current (s : Nesting) : Level :=
  have := s.depth_lt
  s.levels[s.depth]

/-- the number of the field to be written next -/
def cursor (s : Nesting) : Nat :=
  s.current.cursor

/-- whether the header of the message at hand is out -/
def headerWritten (s : Nesting) : Bool :=
  s.current.headerWritten

/-- the same nesting with another level at hand -/
def update : Nesting → Level → Nesting
  | ⟨levels, depth, h⟩, l => ⟨levels.set depth l h, depth, by rwa [Array.size_set]⟩

/-- one field further -/
def increment (s : Nesting) : Nesting :=
  s.update { s.current with cursor := s.cursor + 1 }

/-- notes that the header is out -/
def markHeader (s : Nesting) : Nesting :=
  s.update { s.current with headerWritten := true }

/-- forgets the progress of the message at hand -/
def wipe (s : Nesting) : Nesting :=
  s.update .blank

/-- forgets all progress -/
def clear (s : Nesting) : Nesting where
  levels := s.levels.map fun _ => .blank
  depth := 0
  depth_lt := by have := s.depth_lt; simp; omega

/-- the level of that number; one that has not been allocated is clear -/
def level (s : Nesting) (i : Nat) : Level :=
  s.levels.getD i .blank

/-- the deepest of the first `n` levels that is not clear -/
def deepest (s : Nesting) : Nat → Option Nat
  | 0 => none
  | n + 1 => if s.level n = .blank then s.deepest n else some n

/-- the deepest level that holds progress or is in use -/
def suspendedDepth (s : Nesting) : Option Nat :=
  match s.deepest s.capacity with
  | some i => some (max i s.depth)
  | none => if 0 < s.depth then some s.depth else none

/-- the acts on a nesting -/
inductive Act where
  | forward
  | backward (finished : Bool)
  | increment
  | markHeader
  | reset
  | clear
  deriving DecidableEq

/-- whether an act is a stop: leaving a message where none has been entered, a reset anywhere but there -/
def stops (s : Nesting) : Act → Bool
  | .backward _ => s.depth == 0
  | .reset => s.depth != 0
  | _ => false

/-- what an act does that is no stop -/
def perform (s : Nesting) : Act → Nesting
  | .forward => s.forward
  | .backward finished => s.retreat finished
  | .increment => s.increment
  | .markHeader => s.markHeader
  | .reset => s.wipe
  | .clear => s.clear

/-- one act; `none` is a stop -/
def step (s : Nesting) (a : Act) : Option Nesting :=
  if s.stops a then none else some (s.perform a)

/-- an act `n` times over; where one of them stops, the nesting as the ones before it left it -/
def stepTimes (a : Act) : Nat → Nesting → Except Nesting Nesting
  | 0, s => .ok s
  | n + 1, s => if s.stops a then .error s else stepTimes a n (s.perform a)

/-- a history of acts; one that stops leaves the nesting as it was -/
def run (s : Nesting) (acts : List Act) : Nesting :=
  acts.foldl (fun t a => (t.step a).getD t) s

end Nesting

end Courier
