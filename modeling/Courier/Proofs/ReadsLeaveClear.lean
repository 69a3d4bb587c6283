import Courier.Proofs.LevelsUnread

/-!
Reading leaves clear levels clear.

Leaves of reading do not touch the levels at all. A message goes one level down for its time; it finds that level clear,
moves no cursor and marks no header there, so that whether the level is cleared behind it or kept makes no difference:
a message that is refused in its middle leaves nothing behind either.

`Quiet` is closed under the ways of putting reads together; `quiet_field` says it of every read, and `run_fresh` of what
is asked of a session.
-/

namespace Courier

namespace Levels

variable {s : Levels}

/-- a clear level that is gone into and left again -/
theorem retreat_forward (h : s.level (s.depth + 1) = .blank) (finished : Bool) : s.forward.retreat finished = s := by
  cases finished with
  | false => rfl
  | true =>
    have hl : Function.update s.level (s.depth + 1) .blank = s.level := by rw [← h, Function.update_eq_self]
    ext1
    · exact hl
    · rfl

theorem wipe_of_blank (h : s.level s.depth = .blank) : s.wipe = s := by
  have hl : Function.update s.level s.depth .blank = s.level := by rw [← h, Function.update_eq_self]
  ext1
  · exact hl
  · rfl

end Levels

namespace Reader

variable {α β : Type}

/-- all levels clear, however deep the session stands -/
def Clear (r : Reader) : Prop :=
  ∀ i, r.nesting.level i = .blank

/-- an act that began with `r` has ended on the same levels; a stop is no end -/
def Rests (r : Reader) : EStateM.Result Fault Reader α → Prop
  | .ok _ s => s.nesting.view = r.nesting.view
  | .error (.error _) s => s.nesting.view = r.nesting.view
  | .error .panic _ => True

/-- an act that ends on the levels it began on, if these are clear -/
def Quiet (act : Reading α) : Prop :=
  ∀ r, r.Clear → Rests r (act r)

theorem Clear.of_view {r s : Reader} (h : r.Clear) (hs : s.nesting.view = r.nesting.view) : s.Clear := by
  intro i
  have hl : s.nesting.level = r.nesting.level := congrArg Levels.level hs
  rw [hl, h i]

theorem Rests.trans {r s : Reader} (hs : s.nesting.view = r.nesting.view) {x : EStateM.Result Fault Reader α}
    (hx : Rests s x) : Rests r x := by
  rcases x with ⟨a, t⟩ | ⟨_ | _, t⟩
  · exact Eq.trans hx hs
  · exact Eq.trans hx hs
  · trivial

theorem Blind.quiet {act : Reading α} (h : Blind act) : Quiet act := by
  intro r _
  rcases hr : act r with ⟨a, s⟩ | ⟨_ | _, s⟩
  · exact congrArg Nesting.view (h.nesting_ok hr)
  · exact congrArg Nesting.view (h.nesting_error hr)
  · trivial

theorem quiet_probe (p : Probe) : Quiet (probe p) := by
  intro r _
  cases p <;> exact Eq.refl r.nesting.view

namespace Quiet

theorem bind {act : Reading α} {next : α → Reading β} (h : Quiet act) (hn : ∀ a, Quiet (next a)) :
    Quiet (act >>= next) := by
  intro r hr
  have ha := h r hr
  rw [bind_eq]
  generalize act r = x at ha
  rcases x with ⟨a, s⟩ | ⟨_ | _, s⟩
  · have hs : s.nesting.view = r.nesting.view := ha
    exact .trans hs (hn a s (hr.of_view hs))
  · exact ha
  · trivial

theorem leaves : Leaves Quiet where
  pure a := (Blind.pure a).quiet
  bind := bind
  refuse e := (Blind.refuse e).quiet
  byte := (Blind.onFrame _).quiet
  int := (Blind.onFrame _).quiet
  long := (Blind.onFrame _).quiet
  fixed α _ _ := (Blind.fixed α).quiet
  length kind size := (Blind.length kind size).quiet
  array α := (Blind.array α).quiet
  byteArray := Blind.byteArray.quiet
  booleanArray := Blind.booleanArray.quiet
  string := Blind.string.quiet
  object _ := (Blind.objectWith _).quiet
  probe := quiet_probe

/-- one level down and back up -/
theorem below {act : Reading α} (h : Quiet act) : Quiet (below act) := by
  intro r hr
  have hdown : (r.onNesting .forward).nesting.view = r.nesting.view.forward := r.nesting.view_forward
  have hin : (r.onNesting .forward).Clear := fun i => (congrFun (congrArg Levels.level hdown) i).trans (hr i)
  have hup : ∀ (s : Reader) (b : Bool), s.nesting.view = (r.onNesting .forward).nesting.view →
      s.depth ≠ 0 ∧ (s.onNesting (·.retreat b)).nesting.view = r.nesting.view := by
    intro s b hs
    rw [hdown] at hs
    refine ⟨?_, ?_⟩
    · have hd : s.depth = r.nesting.depth + 1 := congrArg Levels.depth hs
      omega
    · calc (s.nesting.retreat b).view = s.nesting.view.retreat b := s.nesting.view_retreat b
        _ = r.nesting.view.forward.retreat b := by rw [hs]
        _ = r.nesting.view := Levels.retreat_forward (hr _) b
  have ha := h _ hin
  unfold Reader.below
  generalize act (r.onNesting .forward) = x at ha
  rcases x with ⟨a, s⟩ | ⟨e | _, s⟩
  · obtain ⟨hd, hv⟩ := hup s true ha
    simp only [if_neg hd]
    exact hv
  · obtain ⟨hd, hv⟩ := hup s false ha
    simp only [if_neg hd]
    exact hv
  · trivial

/-- a level that is cleared behind an act, where it was clear before -/
theorem onLevel {act : Reading α} (h : Quiet act) : Quiet (onLevel act) := by
  intro r hr
  have ha := h r hr
  unfold Reader.onLevel
  generalize act r = x at ha
  rcases x with ⟨a, s⟩ | ⟨_ | _, s⟩
  · have hs : s.nesting.view = r.nesting.view := ha
    dsimp only
    split
    · exact (s.nesting.view_wipe.trans (Levels.wipe_of_blank (hr.of_view hs _))).trans hs
    · trivial
  · exact ha
  · trivial

end Quiet

/-! ## Messages -/

theorem quiet_descends : Descends Quiet where
  toLeaves := Quiet.leaves
  panic := Blind.panic.quiet
  blueprint := Blind.blueprint.quiet
  into m := (Blind.into m).quiet
  below := Quiet.below
  onLevel := Quiet.onLevel

/-- **Every read ends on the levels it began on**, if these are clear and the read does not stop. -/
theorem quiet_field (k : FieldKind) : Quiet (readField k) :=
  quiet_descends.field (fun place r hr => quiet_descends.follow r.nestingBound place r hr) k

/-- what is asked of a session leaves clear levels clear, be it answered or refused -/
theorem run_fresh {r s : Reader} (h : r.nesting.view = .fresh) {k : FieldKind} {reply : Except WireError Field}
    (hs : r.run k = (some reply, s)) : s.nesting.view = .fresh := by
  have hclear : r.Clear := fun i => congrFun (congrArg Levels.level h) i
  have hk := quiet_field k r hclear
  unfold run at hs
  generalize readField k r = x at hk hs
  rcases x with ⟨f, t⟩ | ⟨e | _, t⟩
  · obtain ⟨-, rfl⟩ := Prod.mk.inj hs
    exact Eq.trans hk h
  · obtain ⟨-, rfl⟩ := Prod.mk.inj hs
    exact Eq.trans hk h
  · cases (Prod.mk.inj hs).1

end Reader

end Courier
