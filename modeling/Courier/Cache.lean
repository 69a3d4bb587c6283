import Courier.Scratch

/-!
The one-slot cache that scratch buffers come from and go back to.

The slot holds the buffer released last, with whatever bytes it had then, unless that buffer was larger than the cache
keeps. Taking a buffer always empties the slot: a cached buffer that is too small is thrown away, and a fresh one is
all zeros. Each handler owns a cache, or shares the one of its thread.

`step` and `run` follow a whole history of such acts.
-/

namespace Courier

/-- whose cache a handler draws its scratch buffers from -/
inductive CacheScope where
  | handler
  | thread
  deriving DecidableEq

structure BufferCache where
  slot : Option Scratch
  maxRetained : Nat
  deriving DecidableEq

namespace BufferCache

/-- an empty cache that keeps buffers of up to `maxRetained` bytes -/
def ofMax (maxRetained : Nat) : BufferCache :=
  ⟨none, maxRetained⟩

def clear (c : BufferCache) : BufferCache :=
  { c with slot := none }

/-- a buffer of at least `least` bytes, and the cache with its slot empty -/
def acquire (c : BufferCache) (least : Nat) : Scratch × BufferCache :=
  match c.slot with
  | some buf => (if least ≤ buf.capacity then buf else .zeros least, c.clear)
  | none => (.zeros least, c.clear)

/-- the same where a fresh buffer may be more than one allocation can hold: no buffer then, and the slot is empty all
the same -/
def acquire? (c : BufferCache) (least : Nat) : Option Scratch × BufferCache :=
  if least ≤ maxAllocation then
    let (buf, d) := c.acquire least
    (some buf, d)
  else (none, c.clear)

/-- the cache with `buf` in its slot; a buffer that is too large is dropped and the slot stays as it is -/
def release (c : BufferCache) (buf : Scratch) : BufferCache :=
  if c.maxRetained < buf.capacity then c else { c with slot := some buf }

def cachedLength (c : BufferCache) : Option Nat :=
  c.slot.map Scratch.capacity

/-- the cache under a new bound; a cached buffer above it is dropped -/
def setMaxRetained (c : BufferCache) (n : Nat) : BufferCache :=
  match c.slot with
  | some buf => ⟨if n < buf.capacity then none else some buf, n⟩
  | none => ⟨none, n⟩

/-- a release into a cache that several handlers share: the releasing one sets the bound -/
def releaseWithin (c : BufferCache) (n : Nat) (buf : Scratch) : BufferCache :=
  (c.setMaxRetained n).release buf

/-- the acts on a cache -/
inductive Act where
  | acquire (least : Nat)
  | release (buf : Scratch)
  | setMax (n : Nat)
  | clear
  deriving DecidableEq

/-- one act, with the buffer it hands out -/
def step (c : BufferCache) : Act → Option Scratch × BufferCache
  | .acquire least => let (buf, d) := c.acquire least; (some buf, d)
  | .release buf => (none, c.release buf)
  | .setMax n => (none, c.setMaxRetained n)
  | .clear => (none, c.clear)

/-- the cache after a history of acts -/
def run (c : BufferCache) (acts : List Act) : BufferCache :=
  acts.foldl (fun d a => (d.step a).2) c

end BufferCache

end Courier
