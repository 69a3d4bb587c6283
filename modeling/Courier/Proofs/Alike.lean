import Courier.Proofs.RoomDecides

/-!
Write sessions that differ in their buffers only.

Two sessions are `Alike` if they keep pace and have one byte order: what lies in their buffers, how large these are and
how many levels have been allocated may differ, as long as they can make the same room. Acts on them come to the same
and leave them alike, whether they succeed or not. What has been written is not spoken of here, since a refused act may
have left anything there; `Carries` says it for the acts that succeed.

`parallel_alike`: so it is with the acts that touch no level, drawn from the sessions' pace, and so with all calls.
-/

namespace Courier

namespace Writer

variable {α : Type}

structure Alike (w v : Writer) : Prop where
  position : w.position = v.position
  order : w.order = v.order
  failed : w.failed = v.failed
  levels : w.nesting.view = v.nesting.view
  room : max w.capacity maxBufferSize = max v.capacity maxBufferSize
  left_inside : w.Inside
  right_inside : v.Inside

namespace Alike

variable {w v : Writer}

theorem pace (h : Alike w v) : Pace Roomy w v :=
  ⟨h.position, h.failed, h.levels, h.room, h.left_inside, h.right_inside⟩

theorem of_pace (h : Pace Roomy w v) (order : w.order = v.order) : Alike w v :=
  ⟨h.position, order, h.failed, h.levels, h.capacity, h.left_inside, h.right_inside⟩

/-- an act on the levels that is one on their view -/
theorem onNesting (h : Alike w v) {f : Nesting → Nesting} {g : Levels → Levels} (hf : ∀ s, (f s).view = g s.view) :
    Alike (w.onNesting f) (v.onNesting f) :=
  of_pace (h.pace.onNesting hf) h.order

end Alike

/-- acts keep sessions alike -/
theorem parallel_alike : Parallel Alike where
  order h := h.order
  levels h := h.levels
  layout := by
    intro l w v h
    have hpace := (h.pace.layout sized_roomy (.refl l)).abreast
    have hw := (Carries.ofLayout (l := fun _ => l) (fun _ => rfl) h.left_inside ()).keeps.order
    have hv := (Carries.ofLayout (l := fun _ => l) (fun _ => rfl) h.right_inside ()).keeps.order
    exact ⟨hpace.result, hpace.left, .of_pace hpace.writer ((hw.trans h.order).trans hv.symm)⟩
  mark h := .of_pace h.pace.mark h.order
  onNesting h _ _ hf := h.onNesting hf

end Writer

/-- a code that does not tell sessions apart which are alike -/
def WriteCode.Discreet (c : WriteCode) : Prop :=
  c.Akin Writer.Alike c

end Courier
