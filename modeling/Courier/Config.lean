import Courier.Cache
import Courier.Length

/-!
The settings of a handler, and the bounds that they are brought within before use.
-/

namespace Courier

structure Config where
  byteOrder : ByteOrder
  /-- least size of the scratch buffer of a write session -/
  initialBufferSize : Nat
  /-- nesting levels allocated up front -/
  initialStateDepth : Nat
  /-- largest scratch buffer that is kept for the next session -/
  maxCachedBuffer : Nat
  /-- largest length that a reader takes off the wire -/
  maxLength : Nat
  cacheScope : CacheScope
  deriving DecidableEq

namespace Config

/-- largest length that can travel at all -/
def defaultMaxLength : Nat := 2147483647

def standard : Config where
  byteOrder := .little
  initialBufferSize := defaultBufferSize
  initialStateDepth := defaultStateDepth
  maxCachedBuffer := defaultMaxCachedBuffer
  maxLength := defaultMaxLength
  cacheScope := .handler

/-- the settings within their bounds -/
def normalize (c : Config) : Config :=
  { c with
    initialBufferSize := min (max c.initialBufferSize 1) maxBufferSize
    initialStateDepth := max c.initialStateDepth 1
    maxLength := min c.maxLength defaultMaxLength }

/-- whether numbers are turned end for end on the wire -/
def swap (c : Config) : Bool :=
  c.byteOrder.swap

end Config

end Courier
