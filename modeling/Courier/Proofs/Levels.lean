import Courier.Nesting
import Mathlib

/-!
The nesting seen as an endless row of levels.

A `Nesting` allocates its levels as it goes down. What its acts do to it does not depend on how many it has: `view`
forgets that number, and every act on a nesting is the act of the same name on its view. A level that has not been
allocated counts as clear.

`view_forward`, `view_retreat`, `view_update`, `view_clear`: the acts, seen so.
`suspendedDepth_congr`: which level a nesting reports as suspended is a matter of its view.
`suspendedDepth_eq_none_iff`: it reports none exactly when all levels are clear and the depth is zero.
`exists_suspendedDepth`: otherwise, between sessions, it reports the deepest level that is not clear.
-/

namespace Courier

/-- an endless row of levels, and how deep one stands in it -/
@[ext] structure Levels where
  level : Nat → Level
  depth : Nat

namespace Levels

/-- all levels clear, standing on the outermost -/
def fresh : Levels :=
  ⟨fun _ => .blank, 0⟩

def forward (s : Levels) : Levels :=
  { s with depth := s.depth + 1 }

/-- the same row with another level at hand -/
def update (s : Levels) (l : Level) : Levels :=
  { s with level := Function.update s.level s.depth l }

/-- one level up; the level that is left is cleared if its message finished -/
def retreat (s : Levels) (finished : Bool) : Levels :=
  { (if finished then s.update .blank else s) with depth := s.depth - 1 }

/-- the level of the message at hand -/
def current (s : Levels) : Level :=
  s.level s.depth

def cursor (s : Levels) : Nat :=
  s.current.cursor

def headerWritten (s : Levels) : Bool :=
  s.current.headerWritten

/-- one field further -/
def increment (s : Levels) : Levels :=
  s.update { s.current with cursor := s.cursor + 1 }

/-- notes that the header is out -/
def markHeader (s : Levels) : Levels :=
  s.update { s.current with headerWritten := true }

/-- forgets the progress of the message at hand -/
def wipe (s : Levels) : Levels :=
  s.update .blank

@[simp] theorem depth_forward (s : Levels) : s.forward.depth = s.depth + 1 := rfl

@[simp] theorem depth_update (s : Levels) (l : Level) : (s.update l).depth = s.depth := rfl

@[simp] theorem depth_increment (s : Levels) : s.increment.depth = s.depth := rfl

@[simp] theorem depth_markHeader (s : Levels) : s.markHeader.depth = s.depth := rfl

@[simp] theorem depth_wipe (s : Levels) : s.wipe.depth = s.depth := rfl

@[simp] theorem depth_retreat (s : Levels) (b : Bool) : (s.retreat b).depth = s.depth - 1 := by
  cases b <;> rfl

@[simp] theorem level_forward (s : Levels) : s.forward.level = s.level := rfl

theorem level_update_self (s : Levels) (l : Level) : (s.update l).level s.depth = l :=
  Function.update_self ..

theorem level_update_of_ne (s : Levels) (l : Level) {i : Nat} (h : i ≠ s.depth) : (s.update l).level i = s.level i :=
  Function.update_of_ne h ..

@[simp] theorem current_update (s : Levels) (l : Level) : (s.update l).current = l :=
  s.level_update_self l

@[simp] theorem cursor_increment (s : Levels) : s.increment.cursor = s.cursor + 1 := by
  simp [increment, cursor]

@[simp] theorem headerWritten_increment (s : Levels) : s.increment.headerWritten = s.headerWritten := by
  simp [increment, headerWritten]

@[simp] theorem cursor_markHeader (s : Levels) : s.markHeader.cursor = s.cursor := by
  simp [markHeader, cursor]

@[simp] theorem headerWritten_markHeader (s : Levels) : s.markHeader.headerWritten = true := by
  simp [markHeader, headerWritten]

/-- a suspended level is found again as it was left -/
@[simp] theorem forward_retreat_false {s : Levels} (h : 0 < s.depth) : (s.retreat false).forward = s := by
  simp [retreat, forward, Nat.sub_add_cancel h]

end Levels

namespace Nesting

/-- a nesting without the number of its allocated levels -/
def view (s : Nesting) : Levels :=
  ⟨s.level, s.depth⟩

@[simp] theorem level_view (s : Nesting) : s.view.level = s.level := rfl

@[simp] theorem depth_view (s : Nesting) : s.view.depth = s.depth := rfl

theorem level_eq_getD (s : Nesting) (i : Nat) : s.level i = s.levels[i]?.getD .blank :=
  Array.getD_eq_getD_getElem? ..

theorem level_eq_blank {s : Nesting} {i : Nat} (h : s.capacity ≤ i) : s.level i = .blank := by
  rw [level_eq_getD, Array.getElem?_eq_none h]
  rfl

theorem current_eq_level (s : Nesting) : s.current = s.level s.depth := by
  have := s.depth_lt
  simp [current, level, this]

theorem current_view (s : Nesting) : s.view.current = s.current :=
  s.current_eq_level.symm

theorem cursor_view (s : Nesting) : s.view.cursor = s.cursor :=
  congrArg Level.cursor s.current_view

theorem headerWritten_view (s : Nesting) : s.view.headerWritten = s.headerWritten :=
  congrArg Level.headerWritten s.current_view

theorem view_ofCapacity (n : Nat) : (ofCapacity n).view = .fresh := by
  ext i
  · simp only [view, level_eq_getD, ofCapacity, Levels.fresh, Array.getElem?_replicate]
    split <;> rfl
  · rfl

theorem view_forward (s : Nesting) : s.forward.view = s.view.forward := by
  unfold forward
  split
  · ext i
    · simp only [view, level_eq_getD, Levels.forward]
      rcases Nat.lt_or_ge i s.levels.size with h | h
      · rw [Array.getElem?_append_left h]
      · rw [Array.getElem?_append_right h, Array.getElem?_eq_none h, Array.getElem?_replicate]
        split <;> rfl
    · rfl
  · rfl

theorem view_update (s : Nesting) (l : Level) : (s.update l).view = s.view.update l := by
  obtain ⟨levels, depth, h⟩ := s
  ext i
  · simp only [view, update, level_eq_getD, Levels.update, Array.getElem?_set]
    by_cases hi : depth = i
    · subst hi
      simp [Function.update_self]
    · rw [if_neg hi, Function.update_of_ne (Ne.symm hi), level_eq_getD]
  · rfl

theorem view_increment (s : Nesting) : s.increment.view = s.view.increment := by
  rw [increment, view_update, Levels.increment, current_view, cursor_view]

theorem view_markHeader (s : Nesting) : s.markHeader.view = s.view.markHeader := by
  rw [markHeader, view_update, Levels.markHeader, current_view]

theorem view_wipe (s : Nesting) : s.wipe.view = s.view.wipe :=
  s.view_update .blank

theorem view_retreat (s : Nesting) (finished : Bool) : (s.retreat finished).view = s.view.retreat finished := by
  cases finished with
  | false => rfl
  | true =>
    have h := congrArg (fun v : Levels => { v with depth := s.depth - 1 }) (s.view_update .blank)
    exact h

/-! Depths, read off the views. -/

theorem depth_forward (s : Nesting) : s.forward.depth = s.depth + 1 :=
  congrArg Levels.depth s.view_forward

theorem depth_increment (s : Nesting) : s.increment.depth = s.depth :=
  congrArg Levels.depth s.view_increment

theorem depth_markHeader (s : Nesting) : s.markHeader.depth = s.depth :=
  congrArg Levels.depth s.view_markHeader

theorem depth_wipe (s : Nesting) : s.wipe.depth = s.depth :=
  congrArg Levels.depth s.view_wipe

theorem depth_retreat (s : Nesting) (finished : Bool) : (s.retreat finished).depth = s.depth - 1 :=
  calc (s.retreat finished).depth = (s.view.retreat finished).depth := congrArg Levels.depth (s.view_retreat finished)
    _ = s.depth - 1 := s.view.depth_retreat finished

theorem view_clear (s : Nesting) : s.clear.view = .fresh := by
  ext i
  · simp only [view, level_eq_getD, clear, Levels.fresh, Array.getElem?_map]
    cases s.levels[i]? <;> rfl
  · rfl

/-! ## The suspended depth -/

theorem deepest_eq_none_iff (s : Nesting) (n : Nat) : s.deepest n = none ↔ ∀ i < n, s.level i = .blank := by
  induction n with
  | zero => simp [deepest]
  | succ n ih =>
    rw [deepest]
    split
    · rename_i h
      rw [ih]
      constructor
      · intro hn i hi
        rcases Nat.lt_succ_iff_lt_or_eq.1 hi with hi | rfl
        · exact hn i hi
        · exact h
      · exact fun hn i hi => hn i (Nat.lt_succ_of_lt hi)
    · rename_i h
      simp only [reduceCtorEq, false_iff, not_forall]
      exact ⟨n, Nat.lt_succ_self n, h⟩

theorem deepest_eq_some {s : Nesting} {n i : Nat} (h : s.deepest n = some i) :
    s.level i ≠ .blank ∧ ∀ j, i < j → j < n → s.level j = .blank := by
  induction n with
  | zero => cases h
  | succ n ih =>
    rw [deepest] at h
    split at h
    · rename_i hn
      obtain ⟨hi, hj⟩ := ih h
      refine ⟨hi, fun j hij hjn => ?_⟩
      rcases Nat.lt_succ_iff_lt_or_eq.1 hjn with hjn | rfl
      · exact hj j hij hjn
      · exact hn
    · rename_i hn
      obtain rfl := Option.some.inj h
      exact ⟨hn, fun j hij hjn => by omega⟩

/-- levels that have not been allocated do not count -/
theorem deepest_of_capacity_le (s : Nesting) (k : Nat) : s.deepest (s.capacity + k) = s.deepest s.capacity := by
  induction k with
  | zero => rfl
  | succ k ih => rw [← Nat.add_assoc, deepest, if_pos (level_eq_blank (Nat.le_add_right ..)), ih]

theorem deepest_congr {s t : Nesting} (h : s.level = t.level) (n : Nat) : s.deepest n = t.deepest n := by
  induction n with
  | zero => rfl
  | succ n ih => simp only [deepest, h, ih]

theorem suspendedDepth_congr {s t : Nesting} (h : s.view = t.view) : s.suspendedDepth = t.suspendedDepth := by
  have hl : s.level = t.level := congrArg Levels.level h
  have hd : s.depth = t.depth := congrArg Levels.depth h
  have key : s.deepest s.capacity = t.deepest t.capacity := by
    rw [← s.deepest_of_capacity_le t.capacity, Nat.add_comm, deepest_congr hl, deepest_of_capacity_le]
  simp only [suspendedDepth, key, hd]

theorem suspendedDepth_eq_none_iff (s : Nesting) : s.suspendedDepth = none ↔ s.view = .fresh := by
  unfold suspendedDepth
  constructor
  · intro h
    cases hd : s.deepest s.capacity with
    | some i => simp [hd] at h
    | none =>
      simp only [hd, ite_eq_right_iff, reduceCtorEq, imp_false] at h
      rw [deepest_eq_none_iff] at hd
      ext i
      · rcases Nat.lt_or_ge i s.capacity with hi | hi
        · exact hd i hi
        · exact level_eq_blank hi
      · exact Nat.eq_zero_of_not_pos h
  · intro h
    have hl : ∀ i, s.level i = .blank := fun i => congrFun (congrArg Levels.level h) i
    have h0 : s.depth = 0 := congrArg Levels.depth h
    rw [(deepest_eq_none_iff s s.capacity).2 fun i _ => hl i]
    simp [h0]

/-- where some level holds progress, the deepest of them is reported -/
theorem exists_suspendedDepth {s : Nesting} (h0 : s.depth = 0) (h : ∃ j, s.level j ≠ .blank) :
    ∃ n, s.suspendedDepth = some n ∧ s.level n ≠ .blank ∧ ∀ j, n < j → s.level j = .blank := by
  obtain ⟨j, hj⟩ := h
  have hlt : j < s.capacity := by
    by_contra hj'
    exact hj (level_eq_blank (Nat.le_of_not_lt hj'))
  cases hd : s.deepest s.capacity with
  | none => exact absurd ((deepest_eq_none_iff s s.capacity).1 hd j hlt) hj
  | some n =>
    obtain ⟨hn, hbelow⟩ := deepest_eq_some hd
    refine ⟨n, ?_, hn, fun i hi => ?_⟩
    · simp only [suspendedDepth, hd, h0, Nat.max_zero]
    · rcases Nat.lt_or_ge i s.capacity with hi' | hi'
      · exact hbelow i hi hi'
      · exact level_eq_blank hi'

end Nesting

end Courier
