import Courier.Reader.Message
import Courier.Writer.Message

/-!
The handler: it owns the nesting and the scratch buffer between sessions.

A `Bench` is what a session works on: a handler, the cache that the handlers of its thread share, and a frame. Opening
a write session takes a buffer out of the cache of the handler's scope; ending it puts the buffer back. A session that
is closed hands what it wrote to the frame and leaves the progress of the levels to the next one; a session that has
failed or is dropped leaves the frame without its end and clears all levels.

A read session needs a frame that has been finalized and levels that hold no progress. Dropping it clears the levels.

Levels are allocated when the handler is built, and a number of them that no allocation can hold is a stop.
-/

namespace Courier

structure Handler where
  factory : Factory
  config : Config
  nesting : Nesting
  cache : BufferCache

namespace Handler

/-- a handler under settings brought within their bounds; `none` where its levels are more than memory can hold -/
def build (factory : Factory) (config : Config) : Option Handler :=
  let config := config.normalize
  (Nesting.allocate? config.initialStateDepth).map fun nesting =>
    { factory := factory
      config := config
      nesting := nesting
      cache := .ofMax config.maxCachedBuffer }

/-- forgets all progress -/
def reset (h : Handler) : Handler :=
  { h with nesting := h.nesting.clear }

/-- size of the buffer that the handler keeps -/
def cachedCapacity (h : Handler) : Option Nat :=
  h.cache.cachedLength

/-- how an optional number is told -/
def optionText : Option Nat → String
  | none => "None"
  | some n => "Some(" ++ toString n ++ ")"

/-- how the settings are told -/
def configText (c : Config) : String :=
  let order := match c.byteOrder with
    | .little => "Little"
    | .big => "Big"
  let scope := match c.cacheScope with
    | .handler => "Handler"
    | .thread => "Thread"
  "CodecConfig \x7b byte_order: " ++ order ++ ", initial_buffer_size: " ++ toString c.initialBufferSize
    ++ ", initial_state_depth: " ++ toString c.initialStateDepth
    ++ ", max_cached_buffer: " ++ toString c.maxCachedBuffer
    ++ ", max_length: " ++ toString c.maxLength ++ ", cache_scope: " ++ scope ++ " \x7d"

/-- how a handler is told -/
def debugText (h : Handler) : String :=
  "MessageHandler \x7b config: " ++ configText h.config ++ ", depth: " ++ toString h.nesting.depth
    ++ ", cached_capacity: " ++ optionText h.cachedCapacity ++ ", .. \x7d"

end Handler

/-- what a session works on -/
structure Bench where
  handler : Handler
  /-- the cache of the thread -/
  shared : BufferCache
  frame : Frame

namespace Bench

/-- a buffer from the cache of the handler's scope -/
def acquire (b : Bench) : Scratch × Bench :=
  match b.handler.config.cacheScope with
  | .handler =>
    let (buf, cache) := b.handler.cache.acquire b.handler.config.initialBufferSize
    (buf, { b with handler := { b.handler with cache := cache } })
  | .thread =>
    let (buf, shared) := b.shared.acquire b.handler.config.initialBufferSize
    (buf, { b with shared := shared })

/-- a buffer back into the cache of the handler's scope -/
def release (b : Bench) (buf : Scratch) : Bench :=
  match b.handler.config.cacheScope with
  | .handler => { b with handler := { b.handler with cache := b.handler.cache.release buf } }
  | .thread => { b with shared := b.shared.releaseWithin b.handler.config.maxCachedBuffer buf }

/-- opens a write session -/
def openWrite (b : Bench) : Writer × Bench :=
  let (scratch, b) := b.acquire
  let frame := b.frame.beginWrite
  ({ frame := frame
     scratch := scratch
     nesting := b.handler.nesting
     order := b.handler.config.byteOrder
     failed := false }, { b with frame := frame })

/-- drops a write session -/
def dropWrite (b : Bench) (w : Writer) : Bench :=
  let b := b.release w.scratch
  { b with
    handler := { b.handler with nesting := w.nesting.clear }
    frame := w.frame }

/-- closes a write session and answers the number of bytes written; one that has failed is dropped -/
def closeWrite (b : Bench) (w : Writer) : Option (Nat × Bench) :=
  if w.failed then some (0, b.dropWrite w)
  else
    match w.scratch.take? w.position with
    | some data =>
      let b := b.release w.scratch
      some (w.position, { b with
        handler := { b.handler with nesting := w.nesting }
        frame := w.frame.finish data })
    | none => none

/-- opens a read session, unless the frame or the levels forbid it -/
def openRead (b : Bench) : Except WireError Reader :=
  if !b.frame.isFinalized then .error .frameNotFinalized
  else match b.handler.nesting.suspendedDepth with
    | some depth => .error (.writeSuspended depth)
    | none => .ok
      { frame := b.frame
        nesting := b.handler.nesting
        factory := b.handler.factory
        order := b.handler.config.byteOrder
        maxLength := b.handler.config.maxLength }

/-- closes a read session -/
def closeRead (b : Bench) (r : Reader) : Bench :=
  { b with
    handler := { b.handler with nesting := r.nesting }
    frame := r.frame }

/-- drops a read session -/
def dropRead (b : Bench) (r : Reader) : Bench :=
  b.closeRead { r with nesting := r.nesting.clear }

end Bench

end Courier
