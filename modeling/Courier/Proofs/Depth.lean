import Courier.Proofs.Doubling
import Courier.Proofs.Hostile
import Courier.Proofs.LevelsUnread

/-!
How deep reads go, and how many levels they take.

Nothing in a factory keeps messages from holding messages of their own type, as fields, in containers or as keys and
values of maps; it is the bytes that end it. Every message read costs the two bytes of its header, whoever asks for it,
so with `n` bytes to begin with nobody stands deeper than `n / 2`. Levels are allocated by doubling when they run out,
so their number never passes twice that depth, unless there were more to begin with.

`followWithin` is `follow` with its two ends in view: at the bottom of the recursion, and wherever a body would be read
deeper than a limit, it does an act `stray` of anyone's choice. `bounded_follow` says that it does what `follow` does,
whatever that act is, so neither end is ever reached.

`Bench.read_bounded`: the main result.
-/

namespace Courier

/-- levels are doubled only on the way down to the last one -/
theorem Nesting.capacity_forward_le (s : Nesting) : s.forward.capacity ≤ max s.capacity (2 * s.forward.depth) := by
  rw [capacity_forward, depth_forward]
  split <;> omega

namespace Reader

variable {α β : Type}

/-- an act, as long as one stands no deeper than `limit` -/
def within (limit : Nat) (stray act : Reading α) : Reading α := fun r =>
  if r.depth ≤ limit then act r else stray r

/-- a message at a place, followed less than `n` deep and with no body deeper than `limit` -/
def followWithin (limit : Nat) (stray : Reading Message) : Nat → Place → Reading (Option Message)
  | 0, _ => return some (← stray)
  | n + 1, place => do
    match ← readBlueprint with
    | none => return none
    | some b =>
      let body := within limit stray (bodyWith (followWithin limit stray n) b)
      match place with
      | .nested => return some (← below body)
      | .root => return some (← onLevel body)

/-- fewer than `n` bytes are left, and each level down has cost two of `m` -/
structure Paid (m n : Nat) (r : Reader) : Prop extends Short n r where
  paid : 2 * r.depth + r.remaining ≤ m

theorem Paid.after {m n : Nat} {r s : Reader} (h : Paid m n r) (hu : Unharmed r s) : Paid m n s where
  toShort := h.toShort.after hu
  paid := by
    have := hu.remaining_le
    have := h.paid
    rw [hu.depth]
    omega

/-- an act that has done no harm, and has made do with `m` levels or those that were there; or it stopped -/
inductive Thrifty (m : Nat) (r : Reader) : EStateM.Result Fault Reader α → Prop
  | ok {a : α} {s : Reader} (h : Unharmed r s) (hc : s.nesting.capacity ≤ max r.nesting.capacity m) : Thrifty m r (.ok a s)
  | refused {e : WireError} {s : Reader} (h : Unharmed r s) (hc : s.nesting.capacity ≤ max r.nesting.capacity m) :
    Thrifty m r (.error (.error e) s)
  | stopped {s : Reader} : Thrifty m r (.error .panic s)

namespace Thrifty

variable {m : Nat} {r s : Reader}

/-- an act that leaves the levels alone takes none -/
theorem of_blind {Q : α → Reader → Prop} {act : Reading α} (hb : Blind act) (h : Fine r Q (act r)) :
    Thrifty m r (act r) := by
  cases hact : act r with
  | ok a s =>
    rw [hact] at h
    exact .ok h.unharmed (by rw [hb.nesting_ok hact]; exact Nat.le_max_left ..)
  | error f s =>
    rw [hact] at h
    cases h with
    | refused hu => exact .refused hu (by rw [hb.nesting_error hact]; exact Nat.le_max_left ..)

/-- an act that goes on where another one came to an answer -/
theorem after {x : EStateM.Result Fault Reader α} (h : Unharmed r s)
    (hc : s.nesting.capacity ≤ max r.nesting.capacity m) (hx : Thrifty m s x) : Thrifty m r x := by
  cases hx with
  | ok hu ht => exact .ok (h.trans hu) (by omega)
  | refused hu ht => exact .refused (h.trans hu) (by omega)
  | stopped => exact .stopped

/-- one level down and back: the level has been paid for, if it had to be allocated -/
theorem below {act : Reading α} (hm : 2 * (r.depth + 1) ≤ m)
    (h : Thrifty m (r.onNesting .forward) (act (r.onNesting .forward))) : Thrifty m r (below act r) := by
  have hdown : (r.onNesting .forward).depth = r.depth + 1 := r.nesting.depth_forward
  have hgrown : (r.onNesting .forward).nesting.capacity ≤ max r.nesting.capacity m :=
    calc r.nesting.forward.capacity ≤ max r.nesting.capacity (2 * r.nesting.forward.depth) :=
          r.nesting.capacity_forward_le
      _ ≤ max r.nesting.capacity m := max_le_max_left _ (by rw [Nesting.depth_forward]; exact hm)
  have hup : ∀ {s : Reader}, Unharmed (r.onNesting .forward) s → ∀ b, Unharmed r (s.onNesting (·.retreat b)) := by
    intro s hu b
    refine ⟨hu.frame, hu.position_le, hu.position_le_max, ?_, hu.factory⟩
    calc (s.onNesting (·.retreat b)).depth = s.depth - 1 := s.nesting.depth_retreat b
      _ = r.depth := by rw [hu.depth, hdown, Nat.add_sub_cancel]
  have hkept : ∀ {s : Reader}, s.nesting.capacity ≤ max (r.onNesting .forward).nesting.capacity m → ∀ b,
      (s.onNesting (·.retreat b)).nesting.capacity ≤ max r.nesting.capacity m := by
    intro s hs b
    calc (s.nesting.retreat b).capacity = s.nesting.capacity := s.nesting.capacity_retreat b
      _ ≤ max r.nesting.capacity m := by omega
  unfold Reader.below
  generalize act (r.onNesting .forward) = x at h
  cases h with
  | ok hu hc =>
    simp only [hu.depth, hdown, Nat.succ_ne_zero, if_false]
    exact .ok (hup hu true) (hkept hc true)
  | refused hu hc =>
    simp only [hu.depth, hdown, Nat.succ_ne_zero, if_false]
    exact .refused (hup hu false) (hkept hc false)
  | stopped => exact .stopped

theorem onLevel {act : Reading α} (h : Thrifty m r (act r)) : Thrifty m r (onLevel act r) := by
  unfold Reader.onLevel
  generalize act r = x at h
  cases h with
  | @ok a s hu hc =>
    dsimp only
    split
    · refine .ok ⟨hu.frame, hu.position_le, hu.position_le_max, s.nesting.depth_wipe.trans hu.depth, hu.factory⟩ ?_
      exact (s.nesting.capacity_update _).trans_le hc
    · exact .stopped
  | refused hu hc => exact .refused hu hc
  | stopped => exact .stopped

end Thrifty

/-- acts that do the same on the session `r`, and take no level that `m` does not pay for -/
structure Match (m : Nat) (r : Reader) (act act' : Reading α) : Prop where
  same : act' r = act r
  thrifty : Thrifty m r (act r)

namespace Match

variable {m : Nat} {r : Reader} {act act' : Reading α}

theorem of_blind {Q : α → Reader → Prop} (hb : Blind act) (h : Fine r Q (act r)) : Match m r act act :=
  ⟨rfl, .of_blind hb h⟩

theorem bind {next next' : α → Reading β} (h : Match m r act act')
    (hn : ∀ a s, act r = .ok a s → Unharmed r s → Match m s (next a) (next' a)) :
    Match m r (act >>= next) (act' >>= next') := by
  obtain ⟨heq, ht⟩ := h
  constructor
  · rw [bind_eq, bind_eq, heq]
    cases hact : act r with
    | ok a s =>
      rw [hact] at ht
      cases ht with
      | ok hu _ => exact (hn a s hact hu).same
    | error f s => rfl
  · rw [bind_eq]
    cases hact : act r with
    | ok a s =>
      rw [hact] at ht
      cases ht with
      | ok hu hc => exact (hn a s hact hu).thrifty.after hu hc
    | error f s =>
      rw [hact] at ht
      cases ht with
      | refused hu hc => exact .refused hu hc
      | stopped => exact .stopped

theorem map (h : Match m r act act') (f : α → β) : Match m r (do return f (← act)) (do return f (← act')) :=
  h.bind fun _ s _ _ => ⟨rfl, .ok (.refl s) (Nat.le_max_left ..)⟩

theorem below (hm : 2 * (r.depth + 1) ≤ m) (h : Match m (r.onNesting .forward) act act') :
    Match m r (below act) (below act') := by
  refine ⟨?_, h.thrifty.below hm⟩
  unfold Reader.below
  rw [h.same]

theorem onLevel (h : Match m r act act') : Match m r (onLevel act) (onLevel act') := by
  refine ⟨?_, h.thrifty.onLevel⟩
  unfold Reader.onLevel
  rw [h.same]

end Match

/-- acts that match wherever the levels are paid for -/
def Covered (m n : Nat) (act act' : Reading α) : Prop :=
  ∀ r, Paid m n r → Match m r act act'

namespace Covered

variable {m n : Nat}

theorem of_blind {Q : Reader → α → Reader → Prop} {act : Reading α} (hb : Blind act)
    (h : ∀ r, r.frame.limit ≤ r.frame.extent → Fine r (Q r) (act r)) : Covered m n act act :=
  fun r hr => .of_blind hb (h r hr.limit_le)

theorem pairs (m n : Nat) : Pairs (Covered m n) where
  pure a := of_blind (Q := fun _ _ _ => True) (.pure a) fun _ _ => .pure trivial
  bind h hn r hr := (h r hr).bind fun a s _ hu => hn a s (hr.after hu)
  byte := of_blind (.onFrame _) fun _ h => fine_byte h
  int := of_blind (.onFrame _) fun _ h => fine_int h
  long := of_blind (.onFrame _) fun _ h => fine_long h
  fixed α _ hs := of_blind (.fixed α) fun _ h => fine_fixed h α hs
  length kind size := of_blind (.length kind size) fun _ h => fine_length h kind size
  array α _ := of_blind (.array α) fun _ h => fine_array h α
  byteArray := of_blind .byteArray fun _ h => fine_byteArray h
  booleanArray := of_blind .booleanArray fun _ h => fine_booleanArray h
  string := of_blind .string fun _ h => fine_string h
  object _ := of_blind (.objectWith _) fun _ h => fine_objectWith h _

theorem into (k : Nat) : Covered m n (readInto k) (readInto k) := by
  unfold readInto
  split
  · exact of_blind (.readUpTo k) fun _ h => fine_upTo h k
  · exact fun r _ => ⟨rfl, .stopped⟩

theorem probe (p : Probe) : Covered m n (probe p) (probe p) := by
  intro r _
  refine ⟨rfl, ?_⟩
  cases p <;> exact .ok (.refl r) (Nat.le_max_left ..)

/-- fields whose messages are read in two ways that match -/
theorem field {at₁ at₂ : Place → Reading (Option Message)} (h : ∀ place, Covered m n (at₁ place) (at₂ place))
    (k : FieldKind) : Covered m n (fieldWith at₁ k) (fieldWith at₂ k) :=
  (pairs m n).field (h .nested) k (fun _ => h .root) (fun k _ => into k) (fun p _ => probe p) fun _ _ r _ =>
    ⟨rfl, .refused (.refl r) (Nat.le_max_left ..)⟩

end Covered

/-- **The two ends of `followWithin` are out of reach** where its limit is half of the bytes, and it goes as deep as the
bytes that are left can pay for. -/
theorem bounded_follow {m n k j : Nat} (hk : n ≤ 2 * k) (hj : n ≤ j) (stray : Reading Message) (place : Place) :
    Covered m n (follow j place) (followWithin (m / 2) stray k place) := by
  induction k generalizing n j place with
  | zero => exact fun r hr => absurd hr.remaining_lt (by omega)
  | succ k ih =>
    intro r hr
    obtain ⟨j, rfl⟩ : ∃ i, j = i + 1 := Nat.exists_eq_succ_of_ne_zero (Nat.ne_zero_of_lt (hr.remaining_lt.trans_le hj))
    have hhead := fine_blueprint hr.limit_le
    refine (Match.of_blind .blueprint hhead).bind fun o s hread hu => ?_
    cases o with
    | none => exact .of_blind (.pure none) (Fine.pure (Q := fun _ _ => True) trivial)
    | some b =>
      -- the header has paid for one level more
      have hcost : s.remaining + 2 ≤ r.remaining := by
        rw [hread] at hhead
        exact hhead.post.1
      have hroom : 2 * (s.depth + 1) + s.remaining ≤ m := by
        have := hr.paid
        rw [hu.depth]
        omega
      have hlt : s.remaining < n - 2 := by
        have := hr.remaining_lt
        omega
      have hbody : Covered m (n - 2) (bodyWith (follow j) b) (bodyWith (followWithin (m / 2) stray k) b) :=
        (Covered.pairs m (n - 2)).body fun f _ => .field (fun place => ih (by omega) (by omega) place) f
      have hwithin : Covered m (n - 2) (bodyWith (follow j) b)
          (within (m / 2) stray (bodyWith (followWithin (m / 2) stray k) b)) := by
        intro t ht
        have hdepth : t.depth ≤ m / 2 := by
          have := ht.paid
          omega
        exact ⟨(if_pos hdepth).trans (hbody t ht).same, (hbody t ht).thrifty⟩
      cases place with
      | nested =>
        have hdown : (s.onNesting .forward).depth = s.depth + 1 := s.nesting.depth_forward
        have hlow : Paid m (n - 2) (s.onNesting .forward) :=
          ⟨⟨(hr.after hu).limit_le, hlt⟩, by rw [hdown]; exact hroom⟩
        exact ((hwithin _ hlow).below (by omega)).map some
      | root => exact (hwithin s ⟨⟨(hr.after hu).limit_le, hlt⟩, by omega⟩).onLevel.map some

/-- a message at a place -/
theorem bounded_readAt {m n k : Nat} (hk : n ≤ 2 * k) (stray : Reading Message) (place : Place) :
    Covered m n (readAt place) (followWithin (m / 2) stray k place) := by
  intro r hr
  have hb : Paid m r.nestingBound r := ⟨⟨hr.limit_le, Nat.lt_succ_self _⟩, hr.paid⟩
  have hle : r.nestingBound ≤ n := hr.remaining_lt
  obtain ⟨heq, ht⟩ := bounded_follow (hle.trans hk) (Nat.le_refl r.nestingBound) stray place r hb
  exact ⟨heq, ht⟩

/-- **A read of any kind** goes no deeper than half of the bytes. -/
theorem bounded_field {m n k : Nat} (hk : n ≤ 2 * k) (stray : Reading Message) (f : FieldKind) :
    Covered m n (readField f) (fieldWith (followWithin (m / 2) stray k) f) :=
  .field (bounded_readAt hk stray) f

theorem run_thrifty {m : Nat} {r s : Reader} {k : FieldKind} {reply : Except WireError Field} (hr : Paid m (m + 1) r)
    (h : r.run k = (some reply, s)) : Unharmed r s ∧ s.nesting.capacity ≤ max r.nesting.capacity m := by
  have ht := (bounded_field (k := m + 1) (by omega) (throw .panic) k r hr).thrifty
  unfold run at h
  generalize readField k r = x at h ht
  cases ht with
  | ok hu hc =>
    obtain ⟨-, rfl⟩ := Prod.mk.inj h
    exact ⟨hu, hc⟩
  | refused hu hc =>
    obtain ⟨-, rfl⟩ := Prod.mk.inj h
    exact ⟨hu, hc⟩
  | stopped => cases h

end Reader

/-- reads in a row, as far as none of them stops -/
theorem Desk.readKinds_thrifty {m : Nat} {ks : List FieldKind} {r s : Reader} {rs : List Received}
    (hr : Reader.Paid m (m + 1) r) (h : readKinds r ks = some (rs, s)) :
    Reader.Unharmed r s ∧ s.nesting.capacity ≤ max r.nesting.capacity m := by
  induction ks generalizing r rs with
  | nil =>
    obtain ⟨-, rfl⟩ := Prod.mk.inj (Option.some.inj h)
    exact ⟨.refl r, Nat.le_max_left ..⟩
  | cons k ks ih =>
    rw [readKinds] at h
    cases hrun : r.run k with
    | mk reply t =>
      rw [hrun] at h
      cases reply with
      | none => cases h
      | some reply =>
        obtain ⟨⟨rest, last⟩, hrest, hlast⟩ := Option.map_eq_some_iff.1 h
        obtain ⟨-, rfl⟩ := Prod.mk.inj hlast
        obtain ⟨hu, hc⟩ := Reader.run_thrifty hr hrun
        obtain ⟨hu', hc'⟩ := ih (hr.after hu) hrest
        exact ⟨hu.trans hu', by omega⟩

namespace Bench

/-- **Reading ends, and no deeper than half of the bytes.** The factory is any at all, so that messages may hold messages
of their own type in every way; the `n` bytes are any, and the session has made any reads. Then a message and a root are
read as if a body deeper than `n / 2` were not read but strayed from, and as if the recursion had `n / 2 + 1` levels to
go: whatever is done beyond these ends, it makes no difference, since neither is reached. The same goes for a read of any
other kind. However the session ends, the handler has no more levels then than it had before, or than `n`. Where
messages are read without roots in them, every read comes to an answer or a refusal. -/
theorem read_bounded {b : Bench} {r : Reader} (ho : b.openRead = .ok r) (hlimit : b.frame.limit ≤ b.frame.extent)
    {n : Nat} (hn : b.frame.data.length = n) {ks : List FieldKind} {rs : List Received} {s : Reader}
    (hrun : Desk.readKinds r ks = some (rs, s)) :
    (∀ stray, Reader.readMessage s = Reader.followWithin (n / 2) stray (n / 2 + 1) .nested s) ∧
      (∀ stray, Reader.readRoot s = Reader.followWithin (n / 2) stray (n / 2 + 1) .root s) ∧
      (∀ stray k, Reader.readField k s = Reader.fieldWith (Reader.followWithin (n / 2) stray (n / 2 + 1)) k s) ∧
      (∀ ending, (Desk.finishRead b s ending).handler.nesting.capacity ≤ max b.handler.nesting.capacity n) ∧
      (b.handler.factory.Rootless → ∀ k : FieldKind, k.askable = true → ∃ reply t, s.run k = (some reply, t)) := by
  obtain ⟨rfl, hfresh⟩ := openRead_terms ho
  set r : Reader := ⟨b.frame, b.handler.nesting, b.handler.factory, b.handler.config.byteOrder, b.handler.config.maxLength⟩
  have hd : r.depth = 0 := congrArg Levels.depth hfresh
  have hrem : r.remaining ≤ n := by
    have := Frame.length_data b.frame
    change b.frame.limit - b.frame.position ≤ n
    omega
  have hr : Reader.Paid n (n + 1) r := ⟨⟨hlimit, Nat.lt_succ_of_le hrem⟩, by rw [hd]; omega⟩
  obtain ⟨hu, hc⟩ := Desk.readKinds_thrifty hr hrun
  have hs := hr.after hu
  have hk : n + 1 ≤ 2 * (n / 2 + 1) := by omega
  refine ⟨fun stray => (Reader.bounded_readAt hk stray .nested s hs).same.symm,
    fun stray => (Reader.bounded_readAt hk stray .root s hs).same.symm,
    fun stray k => (Reader.bounded_field hk stray k s hs).same.symm, fun ending => ?_, fun hfac k hask => ?_⟩
  · cases ending with
    | close => exact hc
    | drop => exact s.nesting.capacity_clear.trans_le hc
  · have hout : Reader.Outermost r := ⟨hlimit, hd⟩
    have hrootless : s.factory.Rootless := by rwa [hu.factory]
    obtain ⟨reply, t, hreply, -⟩ := Reader.run_unharmed (Reader.lasting_outermost.after r s hout hu) hrootless hask
    exact ⟨reply, t, hreply⟩

/-- nodes in a node, in bytes that a handler with one level is given -/
def nestedBench : Bench where
  handler := ⟨fun type => if type = 2 then some .node else none, .standard, .ofCapacity 1, .ofMax 0⟩
  shared := .ofMax 0
  frame := .ofBytes [2, 0, 8, 2, 0, 8, 2, 0, 8, 0, 128]

theorem nested_nodes_read_bounded :
    ∃ r rs s, nestedBench.openRead = .ok r ∧ Desk.readKinds r [.message] = some (rs, s) ∧ s.nesting.capacity = 4 ∧
      (Desk.finishRead nestedBench s .close).handler.nesting.capacity ≤ 11 ∧
      Reader.readRoot r = Reader.followWithin 5 (throw .panic) 6 .root r := by
  have ho : nestedBench.openRead = .ok ⟨nestedBench.frame, nestedBench.handler.nesting, nestedBench.handler.factory,
      .little, Config.defaultMaxLength⟩ := rfl
  have hfour : (Desk.readKinds ⟨nestedBench.frame, nestedBench.handler.nesting, nestedBench.handler.factory,
      .little, Config.defaultMaxLength⟩ [.message]).any (·.2.nesting.capacity = 4) = true := by decide +kernel
  obtain ⟨⟨rs, s⟩, hrun, hcap⟩ := (Option.any_eq_true _ _).1 hfour
  obtain ⟨-, -, -, hlevels, -⟩ := read_bounded ho (Nat.le_refl 11) rfl hrun
  obtain ⟨-, hroot, -⟩ := read_bounded ho (Nat.le_refl 11) rfl (Desk.readKinds.eq_1 _)
  exact ⟨_, rs, s, ho, hrun, of_decide_eq_true hcap, hlevels .close, hroot _⟩

end Bench

end Courier
