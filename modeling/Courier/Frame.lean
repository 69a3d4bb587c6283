import Courier.Varint

/-!
The frame: what a session writes into and reads from.

A frame owns its bytes, a `position`, a `limit` and, once it has been finalized, its `size`. A reader sees the window
from the position up to the limit; a position past the limit or past the data shows an empty window. A write session
moves the position of the frame but leaves its bytes alone until it is closed, and then replaces them all.

The bytes are kept in packed `cells`; `data` is what they hold, and every rule is one on `data`.

`length_data`: the frame holds as many bytes as it has cells.
`data_truncate`: a truncated frame holds the first bytes of the frame.
`slice?_eq`: cutting bytes out of the frame is cutting them out of its data.
`length_readable`: a window holds `available` bytes.
`peek_eq_take`: peeking at `n` bytes shows the first `n` of the window.
`readable_advance`: moving on by `n` bytes takes the first `n` off the window.
-/

namespace Courier

structure Frame where
  cells : Array UInt8
  position : Nat
  limit : Nat
  size : Option Nat
  deriving DecidableEq

namespace Frame

/-- an empty frame that has not been finalized -/
def empty : Frame :=
  ⟨#[], 0, 0, none⟩

/-- a finalized frame over packed bytes, read from its start -/
def ofCells (cells : Array UInt8) : Frame :=
  ⟨cells, 0, cells.size, some cells.size⟩

/-- a finalized frame over `data`, read from its start -/
def ofBytes (data : Bytes) : Frame :=
  .ofCells data.toArray

/-- the bytes that a frame holds -/
def data (f : Frame) : Bytes :=
  f.cells.toList

/-- number of bytes that a frame holds -/
def extent (f : Frame) : Nat :=
  f.cells.size

def isFinalized (f : Frame) : Bool :=
  f.size.isSome

def setPosition (f : Frame) (n : Nat) : Frame :=
  { f with position := n }

/-- the same frame read up to `n`; `none` when the data end before `n` -/
def setLimit (f : Frame) (n : Nat) : Option Frame :=
  if n ≤ f.extent then some { f with limit := n } else none

/-- bytes from the position up to the limit -/
def remaining (f : Frame) : Nat :=
  f.limit - f.position

def rewind (f : Frame) : Frame :=
  { f with position := 0 }

/-- the frame as a write session finds it: no longer finalized, its bytes still there -/
def beginWrite (f : Frame) : Frame :=
  { f with position := 0, limit := 0, size := none }

/-- the frame as a closed write session leaves it -/
def finish (_ : Frame) (data : Bytes) : Frame :=
  { Frame.ofBytes data with position := data.length }

/-- number of bytes in the window -/
def available (f : Frame) : Nat :=
  if f.position ≤ f.limit ∧ f.limit ≤ f.extent then f.limit - f.position else 0

/-- the window: the bytes from the position up to the limit -/
def readable (f : Frame) : Bytes :=
  (f.data.drop f.position).take f.available

/-- the `n` bytes from the position on, as far as there are any -/
def cut (f : Frame) (n : Nat) : Bytes :=
  (f.cells.extract f.position (f.position + n)).toList

/-- the `n` bytes from the position on; `none` when the data end before -/
def slice? (f : Frame) (n : Nat) : Option Bytes :=
  if f.position + n ≤ f.extent then some (f.cut n) else none

/-- the first `n` bytes of the window, or all of it when it is shorter -/
def peek (f : Frame) (n : Nat) : Bytes :=
  f.cut (min n f.available)

/-- the refusal of a read that needs `needed` bytes here -/
def underflow (f : Frame) (needed : Nat) : WireError :=
  .bufferUnderflow f.position needed f.limit

/-- a refusal that speaks of a window, told in terms of the whole frame -/
def locate (f : Frame) : WireError → WireError
  | .bufferUnderflow _ needed _ => f.underflow needed
  | e => e

/-- a varint of 32 bits, and the frame after it -/
def readInt (f : Frame) : Except WireError (Int32 × Frame) :=
  match Varint.decode32 (f.peek maxVarint32) with
  | .ok (v, n) => .ok (v, f.setPosition (f.position + n))
  | .error e => .error (f.locate e)

/-- a varint of 64 bits, and the frame after it -/
def readLong (f : Frame) : Except WireError (Int64 × Frame) :=
  match Varint.decode64 (f.peek maxVarint64) with
  | .ok (v, n) => .ok (v, f.setPosition (f.position + n))
  | .error e => .error (f.locate e)

/-- one byte, and the frame after it -/
def readByte (f : Frame) : Except WireError (UInt8 × Frame) :=
  match f.peek 1 with
  | b :: _ => .ok (b, f.setPosition (f.position + 1))
  | [] => .error (f.underflow 1)

/-- a finalized frame of the first `n` bytes, or of all of them when there are fewer -/
def truncate (f : Frame) (n : Nat) : Frame :=
  .ofCells (f.cells.extract 0 n)

/-- a finalized frame whose bytes from `off` on are overwritten by `bs`; `none` when they do not fit -/
def patch (f : Frame) (off : Nat) (bs : Bytes) : Option Frame :=
  (f.data.overwrite off bs).map ofBytes

@[simp] theorem data_ofBytes (bs : Bytes) : (ofBytes bs).data = bs := rfl

@[simp] theorem length_data (f : Frame) : f.data.length = f.extent := by
  simp [data, extent]

theorem cut_eq (f : Frame) (n : Nat) : f.cut n = (f.data.drop f.position).take n := by
  simp [cut, data, List.extract_eq_take_drop]

@[simp] theorem data_truncate (f : Frame) (n : Nat) : (f.truncate n).data = f.data.take n := by
  simp [truncate, ofCells, data, List.extract_eq_take_drop]

theorem slice?_eq (f : Frame) (n : Nat) : f.slice? n = f.data.slice f.position (f.position + n) := by
  simp [slice?, Bytes.slice, cut_eq]

@[simp] theorem length_readable (f : Frame) : f.readable.length = f.available := by
  simp only [readable, available, List.length_take, List.length_drop, length_data]
  split <;> omega

theorem peek_eq_take (f : Frame) (n : Nat) : f.peek n = f.readable.take n := by
  simp [peek, cut_eq, readable, List.take_take]

theorem available_of_le {f : Frame} (hp : f.position ≤ f.limit) (hl : f.limit ≤ f.extent) :
    f.available = f.limit - f.position := by
  rw [available, if_pos ⟨hp, hl⟩]

theorem readable_advance {f : Frame} {n : Nat} (hl : f.limit ≤ f.extent) (hn : f.position + n ≤ f.limit) :
    (f.setPosition (f.position + n)).readable = f.readable.drop n := by
  have hsub : f.limit - (f.position + n) = f.limit - f.position - n := by omega
  rw [readable, readable, available_of_le (f := f.setPosition (f.position + n)) hn hl,
    available_of_le (by omega) hl]
  change (f.data.drop (f.position + n)).take (f.limit - (f.position + n)) = _
  rw [← List.drop_drop, hsub, ← List.drop_take]

end Frame

/-- what can be done to a frame from outside a session -/
inductive FrameAct where
  | new
  | load (data : Bytes)
  | rewind
  | setPosition (n : Nat)
  | setLimit (n : Nat)
  | truncate (n : Nat)
  | patch (off : Nat) (bs : Bytes)
  | readInt
  | readLong
  | readByte
  | freeze
  | equals (data : Bytes)
  deriving DecidableEq

/-- what such an act answers -/
inductive FrameReply where
  | done
  | int (v : Int32)
  | long (v : Int64)
  | byte (v : UInt8)
  | bytes (bs : Bytes)
  | flag (b : Bool)
  | error (e : WireError)
  deriving DecidableEq

namespace FrameAct

/-- the reply of a read and the frame after it; a refused read leaves the frame as it was -/
def ofRead {α : Type} (f : Frame) (reply : α → FrameReply) : Except WireError (α × Frame) → FrameReply × Frame
  | .ok (v, g) => (reply v, g)
  | .error e => (.error e, f)

/-- one act on a frame; `none` when it would step outside the data -/
def run : FrameAct → Frame → Option (FrameReply × Frame)
  | .new, _ => some (.done, .empty)
  | .load data, _ => some (.done, .ofBytes data)
  | .rewind, f => some (.done, f.rewind)
  | .setPosition n, f => some (.done, f.setPosition n)
  | .setLimit n, f => (f.setLimit n).map fun g => (.done, g)
  | .truncate n, f => some (.done, f.truncate n)
  | .patch off bs, f => (f.patch off bs).map fun g => (.done, g)
  | .readInt, f => some (ofRead f .int f.readInt)
  | .readLong, f => some (ofRead f .long f.readLong)
  | .readByte, f => some (ofRead f .byte f.readByte)
  | .freeze, f => some (.bytes f.data, f)
  | .equals data, f => some (.flag (f == .ofBytes data), f)

end FrameAct

end Courier
