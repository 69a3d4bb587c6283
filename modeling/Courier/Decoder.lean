import Courier.Bytes

/-!
Decoders that see their input only by asking for bytes.

A `Decoder` is finished, has failed, or asks for up to `n` bytes and goes on with what it was given: fewer than `n`
means that the input ends there. Whoever drives it decides where the bytes come from; `run` takes them from the front
of a run of bytes and gives back what was not asked for.
-/

namespace Courier

inductive Decoder (α : Type) where
  | done (a : α)
  | fail
  | read (n : Nat) (next : Bytes → Decoder α)

namespace Decoder

variable {α β : Type}

/-- one decoder after another -/
def bind : Decoder α → (α → Decoder β) → Decoder β
  | .done a, f => f a
  | .fail, _ => .fail
  | .read n next, f => .read n fun bs => (next bs).bind f

instance : Monad Decoder where
  pure := .done
  bind := .bind

/-- exactly `n` bytes -/
def exactly (n : Nat) : Decoder Bytes :=
  .read n fun bs => if bs.length = n then .done bs else .fail

/-- the same decoder `n` more times, behind what it has given so far, the last of that first -/
def timesAfter (d : Decoder α) : Nat → List α → Decoder (List α)
  | 0, as => .done as.reverse
  | n + 1, as => d.bind fun a => timesAfter d n (a :: as)

/-- the same decoder `n` times over -/
def times (n : Nat) (d : Decoder α) : Decoder (List α) :=
  timesAfter d n []

/-- the value of a decoder fed from `bs`, and the bytes it did not ask for -/
def run : Decoder α → Bytes → Option α × Bytes
  | .done a, bs => (some a, bs)
  | .fail, bs => (none, bs)
  | .read n next, bs => (next (bs.take n)).run (bs.drop n)

end Decoder

end Courier
