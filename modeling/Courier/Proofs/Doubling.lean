import Courier.Proofs.Levels

/-!
A nesting against the endless row of levels that it stands for.

A nesting allocates its levels by doubling. What it shows of itself is the same as if the levels were endless: the depth,
the level at hand, every other level, and the deepest one in use. That is `Shows`, and it holds after any acts, done to
both sides. Leaving a message where none has been entered, and a reset below the outermost level, are stops on both sides
and change nothing.

Memory has an end. Levels are not allocated where one allocation cannot hold them, and going down is a stop where
doubling them would take more than that. Such a stop leaves nothing that can be gone on with; a row that is never half
as deep does not come to it.

`endure`: a history of acts on a nesting, as far as memory goes.
`view_endure`, `capacity_endure`, `exists_endure`: what a history leaves, how many levels it takes, and that it comes to
its end.
`agrees_with_endless`: the main result.
-/

namespace Courier

namespace Levels

/-- whether an act is a stop -/
def stops (s : Levels) : Nesting.Act → Bool
  | .backward _ => s.depth == 0
  | .reset => s.depth != 0
  | _ => false

/-- what an act does that is no stop -/
def perform (s : Levels) : Nesting.Act → Levels
  | .forward => s.forward
  | .backward finished => s.retreat finished
  | .increment => s.increment
  | .markHeader => s.markHeader
  | .reset => s.wipe
  | .clear => .fresh

/-- one act; a stop changes nothing -/
def step (s : Levels) (a : Nesting.Act) : Levels :=
  if s.stops a then s else s.perform a

def run (s : Levels) (acts : List Nesting.Act) : Levels :=
  acts.foldl step s

/-- the greatest depth that is reached in the course of some acts -/
def greatest (s : Levels) : List Nesting.Act → Nat
  | [] => s.depth
  | a :: acts => max s.depth ((s.step a).greatest acts)

/-- what is to be told as the suspended depth: nothing where all levels are clear and none has been entered, and
otherwise the deepest level that is in use or holds progress -/
def Suspended (s : Levels) : Option Nat → Prop
  | none => s.depth = 0 ∧ ∀ i, s.level i = .blank
  | some n => (0 < s.depth ∨ ∃ i, s.level i ≠ .blank) ∧ IsGreatest {i | i = s.depth ∨ s.level i ≠ .blank} n

theorem depth_le_greatest (s : Levels) (acts : List Nesting.Act) : s.depth ≤ s.greatest acts := by
  cases acts with
  | nil => exact Nat.le_refl _
  | cons a acts => exact Nat.le_max_left ..

end Levels

namespace Nesting

/-! ## What a nesting shows -/

/-- what a nesting shows of itself is what the row shows -/
structure Shows (s : Nesting) (r : Levels) : Prop where
  depth : s.depth = r.depth
  level : ∀ i, s.levels[i]?.getD .blank = r.level i
  cursor : s.cursor = r.cursor
  headerWritten : s.headerWritten = r.headerWritten
  suspended : r.Suspended s.suspendedDepth

theorem suspended_view (s : Nesting) : s.view.Suspended s.suspendedDepth := by
  cases h : s.suspendedDepth with
  | none =>
    rw [s.suspendedDepth_eq_none_iff.1 h]
    exact ⟨rfl, fun _ => rfl⟩
  | some n =>
    unfold suspendedDepth at h
    split at h
    · rename_i i hi
      obtain rfl := Option.some.inj h
      obtain ⟨hprogress, hbelow⟩ := deepest_eq_some hi
      refine ⟨.inr ⟨i, hprogress⟩, ?_, ?_⟩
      · rcases Nat.le_total i s.depth with hle | hle
        · rw [Nat.max_eq_right hle]
          exact .inl rfl
        · rw [Nat.max_eq_left hle]
          exact .inr hprogress
      · rintro j (rfl | hj)
        · exact Nat.le_max_right ..
        · by_contra hlt
          have hcap : j < s.capacity := Nat.lt_of_not_le fun hle => hj (level_eq_blank hle)
          exact hj (hbelow j (by omega) hcap)
    · rename_i hnone
      obtain ⟨hpos, hn⟩ := Option.ite_none_right_eq_some.1 h
      obtain rfl := Option.some.inj hn
      refine ⟨.inl hpos, .inl rfl, ?_⟩
      rintro j (rfl | hj)
      · exact Nat.le_refl _
      · have hcap : j < s.capacity := Nat.lt_of_not_le fun hle => hj (level_eq_blank hle)
        exact absurd ((s.deepest_eq_none_iff _).1 hnone j hcap) hj

theorem shows_view (s : Nesting) : s.Shows s.view where
  depth := rfl
  level i := (s.level_eq_getD i).symm
  cursor := s.cursor_view.symm
  headerWritten := s.headerWritten_view.symm
  suspended := s.suspended_view

/-! ## Acts on both sides -/

theorem stops_view (s : Nesting) (a : Act) : s.view.stops a = s.stops a := by
  cases a <;> rfl

theorem view_perform (s : Nesting) (a : Act) : (s.perform a).view = s.view.perform a := by
  cases a with
  | forward => exact s.view_forward
  | backward finished => exact s.view_retreat finished
  | increment => exact s.view_increment
  | markHeader => exact s.view_markHeader
  | reset => exact s.view_wipe
  | clear => exact s.view_clear

theorem view_step (s : Nesting) (a : Act) : ((s.step a).getD s).view = s.view.step a := by
  rw [step, Levels.step, s.stops_view]
  split
  · rfl
  · exact s.view_perform a

/-! ## Histories -/

/-- whether going down would take more levels than one allocation can hold -/
def overruns (s : Nesting) (a : Act) : Bool :=
  decide (a = .forward ∧ s.depth + 1 = s.capacity ∧ maxAllocation < 2 * s.capacity * levelSize)

/-- one act, as far as memory goes; `none` is a stop -/
def attempt (s : Nesting) (a : Act) : Option Nesting :=
  if s.overruns a then none else s.step a

/-- a history of acts, as far as memory goes; an act at a depth where it is a stop leaves the nesting as it was -/
def endure (s : Nesting) : List Act → Option Nesting
  | [] => some s
  | a :: acts => if s.overruns a then none else ((s.step a).getD s).endure acts

variable {s t : Nesting} {a : Act} {acts : List Act}

theorem endure_cons_eq_some :
    s.endure (a :: acts) = some t ↔ s.overruns a = false ∧ ((s.step a).getD s).endure acts = some t := by
  rw [endure]
  cases s.overruns a <;> simp

/-- **A history does to a nesting what it does to the row.** -/
theorem view_endure (h : s.endure acts = some t) : t.view = s.view.run acts := by
  induction acts generalizing s with
  | nil =>
    obtain rfl := Option.some.inj h
    rfl
  | cons a acts ih =>
    rw [ih (endure_cons_eq_some.1 h).2, view_step]
    rfl

/-! ## How many levels there are -/

/-- levels are doubled on the way down to the last one, and never else -/
theorem capacity_forward (s : Nesting) :
    s.forward.capacity = if s.depth + 1 = s.capacity then 2 * s.capacity else s.capacity := by
  unfold forward capacity
  split
  · rw [Array.size_append, Array.size_replicate, Nat.two_mul]
  · rfl

theorem capacity_retreat (s : Nesting) (finished : Bool) : (s.retreat finished).capacity = s.capacity := by
  cases finished with
  | true => exact Array.size_set s.depth_lt
  | false => rfl

theorem capacity_update (s : Nesting) (l : Level) : (s.update l).capacity = s.capacity :=
  Array.size_set s.depth_lt

theorem capacity_clear (s : Nesting) : s.clear.capacity = s.capacity :=
  Array.size_map ..

theorem capacity_step (s : Nesting) (a : Act) :
    ((s.step a).getD s).capacity = s.capacity ∨
      ((s.step a).getD s).capacity = 2 * s.capacity ∧ (s.view.step a).depth = s.capacity := by
  unfold step
  split
  · exact .inl rfl
  · cases a with
    | forward =>
      change s.forward.capacity = _ ∨ s.forward.capacity = _ ∧ s.depth + 1 = _
      rw [capacity_forward]
      split
      · exact .inr ⟨rfl, ‹_›⟩
      · exact .inl rfl
    | backward finished => exact .inl (s.capacity_retreat finished)
    | increment | markHeader | reset => exact .inl (s.capacity_update _)
    | clear => exact .inl s.capacity_clear

theorem capacity_endure (h : s.endure acts = some t) :
    (∃ k, t.capacity = s.capacity * 2 ^ k) ∧ t.capacity ≤ max s.capacity (2 * s.view.greatest acts) := by
  induction acts generalizing s with
  | nil =>
    obtain rfl := Option.some.inj h
    exact ⟨⟨0, (Nat.mul_one _).symm⟩, Nat.le_max_left ..⟩
  | cons a acts ih =>
    obtain ⟨⟨k, hk⟩, hle⟩ := ih (endure_cons_eq_some.1 h).2
    rw [view_step] at hle
    have hrest : (s.view.step a).greatest acts ≤ s.view.greatest (a :: acts) := Nat.le_max_right ..
    rcases s.capacity_step a with hsame | ⟨hdouble, hdepth⟩
    · rw [hsame] at hk hle
      exact ⟨⟨k, hk⟩, by omega⟩
    · have hreached := (s.view.step a).depth_le_greatest acts
      rw [hdouble] at hk hle
      refine ⟨⟨k + 1, ?_⟩, by omega⟩
      rw [hk, Nat.pow_succ, Nat.mul_comm 2, Nat.mul_assoc, Nat.mul_comm 2]

/-- half of the levels that one allocation can hold have to be entered before memory runs out -/
theorem exists_endure (h : s.view.greatest acts < 576460752303423488) : ∃ t, s.endure acts = some t := by
  induction acts generalizing s with
  | nil => exact ⟨s, rfl⟩
  | cons a acts ih =>
    have hrest : (s.view.step a).greatest acts ≤ s.view.greatest (a :: acts) := Nat.le_max_right ..
    have hno : s.overruns a = false := by
      refine decide_eq_false ?_
      rintro ⟨rfl, hlast, hover⟩
      have hdeep : s.depth + 1 ≤ s.view.greatest (.forward :: acts) :=
        ((s.view.step .forward).depth_le_greatest acts).trans hrest
      simp only [maxAllocation, levelSize] at hover
      omega
    rw [← view_step] at hrest
    obtain ⟨t, ht⟩ := ih (hrest.trans_lt h)
    exact ⟨t, endure_cons_eq_some.2 ⟨hno, ht⟩⟩

/-! ## The main result -/

theorem allocate?_eq_some {n : Nat} : allocate? n = some s ↔ n ≤ 1152921504606846975 ∧ ofCapacity n = s := by
  rw [allocate?, Option.ite_none_right_eq_some, Option.some_inj]
  refine and_congr_left fun _ => ?_
  simp only [levelSize, maxAllocation]
  omega

/-- the acts that are stops, told by the depth and by the number of levels -/
theorem attempt_eq_none_iff (s : Nesting) (a : Act) :
    s.attempt a = none ↔ (∃ finished, a = .backward finished) ∧ s.depth = 0 ∨ a = .reset ∧ s.depth ≠ 0 ∨
      a = .forward ∧ s.depth + 1 = s.capacity ∧ 1152921504606846975 < 2 * s.capacity := by
  have hover : maxAllocation < 2 * s.capacity * levelSize ↔ 1152921504606846975 < 2 * s.capacity := by
    simp only [maxAllocation, levelSize]
    omega
  cases a <;> simp [attempt, overruns, step, stops, hover]

/-- **A nesting is an endless row of levels, as far as memory goes.** There is one for each initial capacity that an
allocation can hold, and it comes to the end of every history of acts that does not go half as deep as that. Whatever has
been done to it, it shows what an endless row shows to which the same has been done. It stands on a level that has been
allocated, and the number of these is the initial one, doubled some times, but never beyond twice the greatest depth. It
reports no level as suspended just where all levels are clear and none has been entered. What stops it is leaving a
message where none has been entered, a reset below the outermost level, and nothing else, except for the lack of memory
on the way down. -/
theorem agrees_with_endless (n : Nat) :
    ((∃ s, allocate? n = some s) ↔ n ≤ 1152921504606846975) ∧
      ∀ s, allocate? n = some s → ∀ acts,
        (Levels.fresh.greatest acts < 576460752303423488 → ∃ t, s.endure acts = some t) ∧
          ∀ t, s.endure acts = some t →
            t.Shows (Levels.fresh.run acts) ∧
              t.depth < t.capacity ∧
              (∃ k, t.capacity = max n 1 * 2 ^ k) ∧
              t.capacity ≤ max (max n 1) (2 * Levels.fresh.greatest acts) ∧
              (t.suspendedDepth = none ↔ t.depth = 0 ∧ ∀ i, t.level i = .blank) ∧
              ∀ a, t.attempt a = none ↔ (∃ finished, a = .backward finished) ∧ t.depth = 0 ∨
                a = .reset ∧ t.depth ≠ 0 ∨
                a = .forward ∧ t.depth + 1 = t.capacity ∧ 1152921504606846975 < 2 * t.capacity := by
  refine ⟨?_, fun s hs acts => ?_⟩
  · simp only [allocate?_eq_some, exists_and_left, exists_eq', and_true]
  · obtain ⟨-, rfl⟩ := allocate?_eq_some.1 hs
    have hcap : (ofCapacity n).capacity = max n 1 := Array.size_replicate
    have hfresh := view_ofCapacity n
    refine ⟨fun hshallow => exists_endure (by rwa [hfresh]), fun t ht => ?_⟩
    have hview := view_endure ht
    obtain ⟨hdoubled, hle⟩ := capacity_endure ht
    rw [hfresh] at hview hle
    rw [hcap] at hdoubled hle
    refine ⟨hview ▸ t.shows_view, t.depth_lt, hdoubled, hle, ?_, t.attempt_eq_none_iff⟩
    rw [suspendedDepth_eq_none_iff]
    constructor
    · intro h
      exact ⟨congrArg Levels.depth h, congrFun (congrArg Levels.level h)⟩
    · rintro ⟨hdepth, hlevel⟩
      exact Levels.ext (funext hlevel) hdepth

/-- two levels down from a single one, back up with progress left behind, and a reset that is a stop there -/
theorem suspended_level_shown :
    ∃ s t, allocate? 0 = some s ∧ s.endure [.forward, .forward, .markHeader, .backward false, .reset] = some t ∧
      t.depth = 1 ∧ t.levels[2]?.getD .blank = ⟨0, true⟩ ∧ t.suspendedDepth = some 2 ∧ t.capacity ≤ 4 ∧
      t.attempt .reset = none := by
  obtain ⟨hexists, hrun⟩ := agrees_with_endless 0
  obtain ⟨s, hs⟩ := hexists.2 (Nat.zero_le _)
  obtain ⟨hends, hall⟩ := hrun s hs [.forward, .forward, .markHeader, .backward false, .reset]
  obtain ⟨t, ht⟩ := hends (by decide)
  obtain ⟨hshows, -, -, hle, -, hstops⟩ := hall t ht
  have hdepth : t.depth = 1 := hshows.depth
  have hsuspended : t.suspendedDepth = some 2 := by
    obtain ⟨-, rfl⟩ := allocate?_eq_some.1 hs
    have key : ((ofCapacity 0).endure [.forward, .forward, .markHeader, .backward false, .reset]).map suspendedDepth =
        some (some 2) := by decide
    rwa [ht, Option.map_some, Option.some_inj] at key
  exact ⟨s, t, hs, ht, hdepth, hshows.level 2, hsuspended, hle, (hstops .reset).2 (.inr (.inl ⟨rfl, by omega⟩))⟩

/-- more levels than one allocation can hold: a row of them goes down, but there is no nesting -/
theorem levels_unallocated :
    allocate? 1152921504606846976 = none ∧ Levels.fresh.stops .forward = false ∧ (Levels.fresh.step .forward).depth = 1 :=
  ⟨by decide, rfl, rfl⟩

end Nesting

end Courier
