import Courier.Proofs.NoTrace

/-!
The size of an object, filled in behind whatever was written meanwhile.

Four bytes are skipped, the pieces of the object are put out one by one, and then the size goes where the four bytes
were skipped. How that ends is worked out by `Emission.outcome` from where the session stands, from the pieces put
together and from whether they are all there is; neither how they were cut nor what the buffer holds comes into it.

`Writer.Reached`: the states of a write session, on a desk that has been at work.
`object_patched`: the main result, of each of these states and every emission.
-/

namespace Courier

open Writer

/-- how the write of an object ends in a session at this position -/
def Emission.outcome (e : Emission) (position : Nat) : Except WireError Unit :=
  if maxBufferSize < position + lengthPrefixSize then .error (.capacityOverflow (position + lengthPrefixSize))
  else if e.complete ∧ position + lengthPrefixSize + e.pieces.flatten.length ≤ maxBufferSize then .ok ()
  else .error .packEncode

namespace Writer

/-- the session that an act leaves -/
def after {α : Type} : EStateM.Result Fault Writer α → Writer
  | .ok _ w => w
  | .error _ w => w

/-- the states of a write session: as it is opened on a desk that has been at work, and as it is left by fields, by calls
on the outermost message, by headers, counts and whatever else touches no level, by changes of its levels, and by
refusals -/
inductive Reached : Writer → Prop
  | opened {d : Desk} (hd : d.Reached) {i : Nat} {name : String} {b : Bench} (hb : d.bench i name = some b) :
    Reached b.openWrite.1
  | field {w : Writer} (h : Reached w) (f : Field) : Reached (f.write w).writer
  | root {w : Writer} (h : Reached w) (m : Message) : Reached (w.writeRoot m).writer
  | act {w : Writer} (h : Reached w) (l : Layout) : Reached (after (l.run w))
  | onNesting {w : Writer} (h : Reached w) (f : Nesting → Nesting) : Reached (w.onNesting f)
  | failed {w : Writer} (h : Reached w) : Reached { w with failed := true }

theorem Goes.keeps_after {w : Writer} {o : Output} {res : Except WireError Unit}
    {x : EStateM.Result Fault Writer Unit} (h : Goes w o res x) : Keeps w (after x) := by
  rcases h with ⟨-, keeps⟩ | ⟨-, keeps⟩ | ⟨-, keeps⟩ <;> exact keeps

/-- the position lies within the buffer, and the buffer has not outgrown the largest one -/
theorem Reached.within {w : Writer} (h : w.Reached) : w.Inside ∧ w.capacity ≤ maxBufferSize := by
  have hkeeps : ∀ {w v : Writer}, w.Inside ∧ w.capacity ≤ maxBufferSize → Keeps w v →
      v.Inside ∧ v.capacity ≤ maxBufferSize := fun h hk =>
    ⟨hk.inside, Nat.le_trans hk.capacity_le_max (Nat.max_le.2 ⟨h.2, Nat.le_refl _⟩)⟩
  induction h with
  | opened hd hb =>
    obtain ⟨x, hx, rfl⟩ := Option.map_eq_some_iff.1 hb
    exact ⟨Bench.inside_openWrite _, Bench.Proper.capacity_openWrite
      ⟨hd.proper.handlers x (List.mem_of_getElem? hx), hd.proper.shared⟩⟩
  | field _ f ih => exact hkeeps ih (f.carries ih.1).keeps
  | root _ m ih => exact hkeeps ih (carries_writeRoot m ih.1).keeps
  | act _ l ih => exact hkeeps ih (l.goes ih.1).keeps_after
  | onNesting _ _ ih => exact ih
  | failed _ ih => exact ih

/-- what has become of a session that wrote an object -/
inductive Patched (w : Writer) (out : Bytes) : Except WireError Unit → EStateM.Result Fault Writer Unit → Prop
  /-- the size of the object and the object stand behind what was there before -/
  | ok {v : Writer} (keeps : Keeps w v) (levels : v.nesting = w.nesting) (failed : v.failed = w.failed)
      (small : out.length ≤ 2147483647)
      (written : v.written = w.written ++ (Fixed.bytes w.order.swap (Int32.ofNat out.length) ++ out)) :
    Patched w out (.ok ()) (.ok () v)
  /-- what was there before is there still, and the session has failed -/
  | refused {e : WireError} {v : Writer} (keeps : Keeps w v) (levels : v.nesting = w.nesting) (failed : v.failed = true) :
    Patched w out (.error e) (.error (.error e) v)

theorem fits_iff_of_le {w : Writer} (h : w.capacity ≤ maxBufferSize) {n : Nat} :
    w.Fits n ↔ w.position + n ≤ maxBufferSize := by
  rw [Fits, Nat.max_eq_right h]

/-- the session past the place that is kept for the size of an object -/
theorem keeps_skip {w : Writer} (hw : w.Inside) (hf : w.Fits lengthPrefixSize) :
    Keeps w { w.grow lengthPrefixSize with
      frame := (w.grow lengthPrefixSize).frame.setPosition ((w.grow lengthPrefixSize).position + lengthPrefixSize) } := by
  have hroom : (w.grow lengthPrefixSize).position + lengthPrefixSize ≤ (w.grow lengthPrefixSize).capacity := by
    rw [position_grow]
    exact le_capacity_grow hf
  exact (keeps_grow hw lengthPrefixSize).trans (keeps_advance hroom)

/-- an object is refused for want of room for its size, or as one that could not be written -/
theorem writeEmission_error {e : Emission} {w v : Writer} {err : WireError} (hw : w.Inside)
    (hcap : w.capacity ≤ maxBufferSize) (h : writeEmission e w = .error (.error err) v) :
    err = if maxBufferSize < w.position + lengthPrefixSize then .capacityOverflow (w.position + lengthPrefixSize)
      else .packEncode := by
  rw [writeEmission_eq, reserve_eq] at h
  by_cases hf : w.Fits lengthPrefixSize
  · have hin := (fits_iff_of_le hcap).1 hf
    rw [if_pos hf] at h
    rw [if_neg (Nat.not_lt.2 hin)]
    dsimp only at h
    have hk := keeps_skip hw hf
    have key := goes_putPieces e.pieces hk.inside
    generalize putPieces e.pieces _ = x at h key
    rcases key with ⟨-, keeps⟩ | _ | _
    · dsimp only at h
      split at h
      · -- no size is too large to be told that has found room
        rename_i u _ _ _ _ _
        have hu := (hk.trans keeps).capacity_le_max
        have hp : u.position ≤ u.capacity := keeps.inside
        rw [Nat.max_eq_right hcap] at hu
        have hsmall : u.position - w.position - lengthPrefixSize ≤ 2147483647 := by
          have hmax : maxBufferSize = 2147483647 := rfl
          omega
        simp only [fillSize, encodeLength, if_pos hsmall, splice] at h
        split at h <;> cases h
      · injection h with h
        exact (Fault.error.inj h).symm
    · injection h with h
      exact (Fault.error.inj h).symm
  · rw [if_neg hf] at h
    have hover := fun hin => hf ((fits_iff_of_le hcap).2 hin)
    rw [if_pos (Nat.not_le.1 hover)]
    injection h with h
    have hp : w.position ≤ w.capacity := hw
    have hmin : min (w.position + lengthPrefixSize) maxSize = w.position + lengthPrefixSize := by
      have hmax : maxBufferSize = 2147483647 := rfl
      have hsize : maxSize = 18446744073709551615 := rfl
      have hfour : lengthPrefixSize = 4 := rfl
      omega
    rw [← Fault.error.inj h, hmin]

/-- whether an object is taken is worked out from where the session stands and from its pieces put together -/
theorem patched {w : Writer} (hw : w.Inside) (hcap : w.capacity ≤ maxBufferSize) (e : Emission) :
    Patched w e.pieces.flatten (e.outcome w.position) (writeEmission e w) := by
  have hfits : w.Fits ((Layout.object e).output w.order).peak ↔
      w.position + lengthPrefixSize + e.pieces.flatten.length ≤ maxBufferSize := by
    rw [fits_iff_of_le hcap, Nat.add_assoc, ← peak_objectOutput w.order]
    rfl
  -- where it ends in a refusal, that is the one that has been worked out
  have hrefused : ∀ {err : WireError} {v : Writer}, writeEmission e w = .error (.error err) v → Keeps w v →
      v.nesting = w.nesting → v.failed = true →
      ¬(e.complete = true ∧ w.position + lengthPrefixSize + e.pieces.flatten.length ≤ maxBufferSize) →
      Patched w e.pieces.flatten (e.outcome w.position) (writeEmission e w) := by
    intro err v hx keeps levels failed hno
    have hout : e.outcome w.position = .error err := by
      rw [writeEmission_error hw hcap hx, Emission.outcome, if_neg hno]
      split <;> rfl
    rw [hout, hx]
    exact .refused keeps levels failed
  have key := goes_writeEmission e hw
  generalize hres : (Layout.object e).result = res at key
  generalize hx : writeEmission e w = x at key hrefused ⊢
  rcases key with ⟨fits, keeps, levels, failed, _, written⟩ | ⟨fits, keeps, levels, failed, _⟩ |
    ⟨fits, keeps, levels, failed⟩
  · rw [hfits] at fits
    have hcomplete : e.complete = true := by
      by_contra hc
      rw [Layout.result, if_neg hc] at hres
      cases hres
    have hout : e.outcome w.position = .ok () := by
      rw [Emission.outcome, if_neg (by omega), if_pos ⟨hcomplete, fits⟩]
    have hmax : maxBufferSize = 2147483647 := rfl
    rw [hout]
    exact .ok keeps levels failed (by omega) written
  · rw [hfits] at fits
    refine hrefused rfl keeps levels failed ?_
    rintro ⟨hcomplete, -⟩
    have hsmall : e.pieces.flatten.length ≤ 2147483647 := by
      have hmax : maxBufferSize = 2147483647 := rfl
      omega
    rw [Layout.result, if_pos hcomplete, encodeLength, if_pos hsmall] at hres
    cases hres
  · rw [hfits] at fits
    exact hrefused rfl keeps levels failed fun h => fits h.2

/-- writes of an object that come to the same: both append the same bytes, or both are refused alike -/
inductive Concurs (w u : Writer) : EStateM.Result Fault Writer Unit → EStateM.Result Fault Writer Unit → Prop
  | ok {v x : Writer} (bs : Bytes) (left : v.written = w.written ++ bs) (right : x.written = u.written ++ bs) :
    Concurs w u (.ok () v) (.ok () x)
  | refused (e : WireError) {v x : Writer} : Concurs w u (.error (.error e) v) (.error (.error e) x)

/-- **The size of an object is the one of what was put out.** In every state of a write session, an object is taken
just where its pieces are all there is and there is room for them: then the size of all pieces put together, in the byte
order of the session, and the pieces themselves are appended to what was there before. Elsewhere, and so wherever the
serializer fails, the object is refused, what was there before is there still, and the session has failed. How the
pieces were cut, how often the buffer grew and what it held makes no difference. -/
theorem object_patched {w : Writer} (hw : w.Reached) (e : Emission) :
    Patched w e.pieces.flatten (e.outcome w.position) (writeEmission e w) ∧
    (e.complete = false → e.outcome w.position ≠ .ok ()) ∧
    ∀ {u : Writer} {c : Emission}, u.Reached → u.position = w.position → u.order = w.order →
      c.pieces.flatten = e.pieces.flatten → c.complete = e.complete →
      Concurs w u (writeEmission e w) (writeEmission c u) := by
  obtain ⟨hin, hcap⟩ := hw.within
  refine ⟨patched hin hcap e, ?_, ?_⟩
  · intro hc
    simp only [Emission.outcome, hc, Bool.false_eq_true, false_and, if_false]
    split <;> nofun
  · intro u c hu hp ho hout hc
    obtain ⟨uin, ucap⟩ := hu.within
    have hsame : c.outcome u.position = e.outcome w.position := by
      rw [Emission.outcome, Emission.outcome, hp, hout, hc]
    have key := patched hin hcap e
    have kin := patched uin ucap c
    rw [hsame, hout] at kin
    generalize e.outcome w.position = res at key kin
    generalize writeEmission e w = x at key
    generalize writeEmission c u = y at kin
    rcases key with ⟨_, _, _, _, written⟩ | ⟨_, _, _⟩
    · rcases kin with ⟨_, _, _, _, alike⟩
      rw [ho] at alike
      exact .ok _ written alike
    · rcases kin with _ | ⟨_, _, _⟩
      exact .refused _

/-- a desk with one handler that writes the highest byte first, into buffers of one byte to begin with -/
def snugDesk : Desk where
  handlers := (Handler.build (fun _ => none) { Config.standard with byteOrder := .big, initialBufferSize := 1 }).toList
  shared := .ofMax 0
  frames := []
  drafts := []

/-- a session of that handler, with one byte written -/
def snugWriter : Option Writer :=
  (snugDesk.bench 0 "f").map fun b => (Field.write (.raw [9]) b.openWrite.1).writer

theorem reached_snugWriter {w : Writer} (h : snugWriter = some w) : w.Reached := by
  obtain ⟨b, hb, rfl⟩ := Option.map_eq_some_iff.1 h
  have hbuilt : ∀ h ∈ snugDesk.handlers,
      Handler.build (fun _ => none) { Config.standard with byteOrder := .big, initialBufferSize := 1 } = some h :=
    fun h hh => Option.mem_toList.1 hh
  have hd : snugDesk.Reached := .start (fun h hh => ⟨_, _, hbuilt h hh⟩) rfl
  exact .field (.opened hd hb) _

/-- an object cut in two ways, put out with the buffer as it is and with room made ahead -/
theorem cut_object_patched :
    ∃ w v x, snugWriter = some w ∧ writeEmission ⟨[[1, 2], [], [3]], true⟩ w = .ok () v ∧
      v.written = [9, 0, 0, 0, 3, 1, 2, 3] ∧
      writeEmission ⟨[[1], [2, 3]], true⟩ (after ((Layout.reserve 64 .done).run w)) = .ok () x ∧
      x.written = [9, 0, 0, 0, 3, 1, 2, 3] := by
  have hshape : snugWriter.map (fun w => (w.written, w.order)) = some ([9], .big) := by decide +kernel
  obtain ⟨w, hw, hshape⟩ := Option.map_eq_some_iff.1 hshape
  obtain ⟨hwritten, horder⟩ := Prod.mk.inj hshape
  have hr := reached_snugWriter hw
  have hin := hr.within.1
  have hp : w.position = 1 := by rw [← length_written hin, hwritten]; rfl
  have hroom : after ((Layout.reserve 64 .done).run w) = w.grow 64 := by
    have hfits : w.Fits 64 := by
      rw [Fits, hp]
      exact Nat.le_trans (by decide) (Nat.le_max_right ..)
    rw [Layout.run, bind_eq, reserve_eq, if_pos hfits]
    rfl
  have hu : (w.grow 64).Reached := hroom ▸ hr.act (.reserve 64 .done)
  obtain ⟨hkey, -, hsame⟩ := object_patched hr ⟨[[1, 2], [], [3]], true⟩
  have hsame := hsame (c := ⟨[[1], [2, 3]], true⟩) hu (w.position_grow 64) (keeps_grow hin 64).order rfl rfl
  rw [show Emission.outcome ⟨[[1, 2], [], [3]], true⟩ w.position = .ok () by rw [hp]; rfl] at hkey
  obtain ⟨v, hv, hleft⟩ : ∃ v, writeEmission ⟨[[1, 2], [], [3]], true⟩ w = .ok () v ∧
      v.written = [9, 0, 0, 0, 3, 1, 2, 3] := by
    generalize writeEmission _ w = x at hkey
    rcases hkey with @⟨v, _, _, _, _, written⟩
    exact ⟨v, rfl, by rw [written, hwritten, horder]; rfl⟩
  obtain ⟨x, hx, hright⟩ : ∃ x, writeEmission ⟨[[1], [2, 3]], true⟩ (w.grow 64) = .ok () x ∧
      x.written = v.written := by
    rw [hv] at hsame
    generalize writeEmission _ (w.grow 64) = y at hsame
    rcases hsame with @⟨_, x, bs, left, right⟩
    exact ⟨x, rfl, by rw [left, right, written_grow hin]⟩
  exact ⟨w, v, x, hw, hv, hleft, by rw [hroom, hx], hright.trans hleft⟩

end Writer

end Courier
