import Courier.Proofs.Presized
import Courier.Proofs.ReadYields

/-!
The least that an item takes.

`ItemType.minEncodedLength` is one number for each kind of item. That no item takes less is shown on both sides: of what
a session puts out for a value that it accepts, and of what a session takes for a value that it reads. A message puts
out its header first, if it finds its level clear, and whatever its fields do only adds to that; the level is clear again
behind it, so that items in a row add up. Nothing is said of a message whose header is out already: it may put out
nothing at all.

`Value.least_le`, `Value.least_all_le`: what is put out for an item, and for items in a row.
`Reader.yields_least`: what is taken for an item.
`ItemType.minEncodedLength_least`: the table is a bound on both sides, each of its numbers is attained, and the room
that is made ahead for a list is never more than the list takes.
-/

namespace Courier

open Writer Dispatch

/-- an item that takes the least: nothing, where it may be absent -/
def ItemType.briefest : ItemType → Value
  | .byte => .data (.byte 0)
  | .short => .data (.short 0)
  | .int => .data (.int 0)
  | .long => .data (.long 0)
  | .float => .data (.float ⟨0⟩)
  | .double => .data (.double ⟨0⟩)
  | .char => .data (.char 0)
  | .boolean => .data (.boolean false)
  | _ => .null

/-! ## What is put out -/

theorem ItemType.dispatch_briefest (t : ItemType) (order : ByteOrder) (s : Levels) :
    (t.briefest.dispatch order t s).result = .ok true ∧ (t.briefest.dispatch order t s).out.peak ≤ maxVarint64 ∧
      (t.briefest.dispatch order t s).out.bytes.length = t.minEncodedLength := by
  cases order <;> cases t <;> exact ⟨rfl, Nat.le_of_ble_eq_true rfl, rfl⟩

theorem Levels.headerWritten_retreat {s : Levels} (h : s.depth ≠ 0) : (s.retreat true).forward.headerWritten = false := by
  have hdepth : (s.retreat true).forward.depth = s.depth := by
    rw [depth_forward, depth_retreat, Nat.sub_add_cancel (Nat.pos_of_ne_zero h)]
  calc (s.retreat true).forward.headerWritten = ((s.update .blank).level s.depth).headerWritten := by
        rw [headerWritten, current, hdepth]
        rfl
    _ = false := by rw [level_update_self]; rfl

namespace Dispatch

variable {α β : Type}

theorem result_map (f : α → β) (d : Dispatch α) : (d.map f).result = d.result := rfl

theorem out_map (f : α → β) (d : Dispatch α) : (d.map f).out = d.out := rfl

theorem out_behind (d : Dispatch α) (o : Output) (failed : Bool) : (d.behind o failed).out = o ++ d.out := rfl

theorem levels_whole (d : Dispatch α) (type : Int16) : (d.whole type).levels = d.levels := by
  unfold whole
  split <;> rfl

/-- going over the fields again only adds to what is out -/
theorem length_le_rounds (n : Nat) (pass : Grant → Levels → Dispatch (Grant × α)) (k : Nat)
    (d : Dispatch (Grant × α)) : d.out.bytes.length ≤ (d.rounds n pass k).out.bytes.length := by
  induction k generalizing d with
  | zero =>
    unfold rounds
    split
    · split <;> exact Nat.le_refl _
    · exact Nat.le_refl _
  | succ k ih =>
    unfold rounds
    split
    · split
      · have hbehind : d.out.bytes.length ≤ ((pass d.left.1 d.levels).behind d.out d.failed).out.bytes.length := by
          rw [out_behind, Output.bytes_append, List.length_append]
          exact Nat.le_add_right ..
        exact hbehind.trans (ih _)
      · exact Nat.le_refl _
    · exact Nat.le_refl _

end Dispatch

variable {order : ByteOrder} {t : ItemType} {s : Levels}

/-- a message that finds its level clear puts its header out, whatever else it does -/
theorem Message.header_le {m : Message} (hs : s.headerWritten = false) (hr : (m.dispatch order s).result = .ok true) :
    directTypeSize ≤ (m.dispatch order s).out.bytes.length := by
  cases m with
  | mk kind fields pauses =>
    rw [Message.dispatch] at hr ⊢
    simp only [hs, Bool.false_eq_true, if_false] at hr ⊢
    cases hg : spend pauses.head? with
    | none =>
      rw [hg] at hr
      cases hr
    | some grant =>
      have hheader : directTypeSize ≤ ((Layout.fixed order kind.type .done).output order).bytes.length := by
        rw [Layout.bytes_fixed_done, Fixed.length_bytes]
        exact Nat.le_refl _
      rw [out_map]
      refine Nat.le_trans ?_ (length_le_rounds ..)
      rw [out_behind, Output.bytes_append, List.length_append]
      exact Nat.le_add_right_of_le hheader

/-- behind a header that is out already, a message may put out nothing at all -/
example : ((Message.record 7 []).dispatch .big Levels.fresh.markHeader).result = .ok true ∧
    ((Message.record 7 []).dispatch .big Levels.fresh.markHeader).out.bytes = [] :=
  ⟨rfl, rfl⟩

/-- **An accepted item puts out the least of its kind or more**, and leaves the level of the next one clear if it was -/
theorem Value.least_le {v : Value} (hs : ∀ m, v = .message m → s.forward.headerWritten = false)
    (hr : (v.dispatch order t s).result = .ok true) :
    t.minEncodedLength ≤ (v.dispatch order t s).out.bytes.length ∧
      (s.forward.headerWritten = false → (v.dispatch order t s).levels.forward.headerWritten = false) := by
  cases v with
  | null =>
    rw [Value.dispatch] at hr ⊢
    obtain ⟨hlayout, hlevels, hout⟩ := ofLayout_done hr
    rw [hlevels, hout]
    by_cases hn : t.isNullable = true
    · rw [if_pos hn]
      exact ⟨ItemType.minEncodedLength_le order hn, id⟩
    · rw [if_neg hn] at hlayout
      cases hlayout
  | data d =>
    rw [Value.dispatch] at hr ⊢
    obtain ⟨hlayout, hlevels, hout⟩ := ofLayout_done hr
    rw [hlevels, hout]
    by_cases hd : d.itemType = t
    · rw [if_pos hd] at hlayout ⊢
      subst hd
      exact ⟨d.minEncodedLength_le order hlayout, id⟩
    · rw [if_neg hd] at hlayout
      cases hlayout
  | message m =>
    rw [Value.dispatch] at hr ⊢
    by_cases ht : t = .message
    · rw [if_pos ht] at hr ⊢
      subst ht
      have hdepth : (m.dispatch order s.forward).levels.depth ≠ 0 := (m.sound order s.forward).depth_ne_zero
      have hdone : (m.dispatch order s.forward).result = .ok true :=
        (result_leave hdepth).symm.trans (result_of_whole hr)
      rw [out_whole, out_leave, levels_whole, levels_leave hdepth hdone]
      exact ⟨m.header_le (hs m rfl) hdone, fun _ => Levels.headerWritten_retreat hdepth⟩
    · rw [if_neg ht] at hr
      cases hr

theorem Value.least_all_le {vs : List Value} (hs : ∀ m, .message m ∈ vs → s.forward.headerWritten = false)
    (hr : (Value.dispatchAll order t vs s).result = .ok true) :
    vs.length * t.minEncodedLength ≤ (Value.dispatchAll order t vs s).out.bytes.length := by
  induction vs generalizing s with
  | nil => exact (Nat.zero_mul _).trans_le (Nat.zero_le _)
  | cons v vs ih =>
    rw [Value.dispatchAll] at hr ⊢
    obtain ⟨hv, hvs⟩ := bind_done hr
    obtain ⟨hleast, hclear⟩ := v.least_le (fun m hm => hs m (hm ▸ List.mem_cons_self)) hv
    have hrest := ih (fun m hm => hclear (hs m (List.mem_cons_of_mem _ hm))) hvs
    calc (v :: vs).length * t.minEncodedLength = t.minEncodedLength + vs.length * t.minEncodedLength := by
          rw [List.length_cons, Nat.succ_mul, Nat.add_comm]
      _ ≤ (v.dispatch order t s).out.bytes.length +
          (Value.dispatchAll order t vs (v.dispatch order t s).levels).out.bytes.length := Nat.add_le_add hleast hrest
      _ = ((v.dispatch order t s).bind (fun _ => Value.dispatchAll order t vs) id).out.bytes.length := by
          rw [bind_of_done hv, out_behind, Output.bytes_append, List.length_append]

/-- a container that comes to its end takes the room that would be made ahead for a list of its items -/
theorem Field.ahead_le {way : Listing} {vs : List Value} (hs : ∀ m, .message m ∈ vs → s.forward.headerWritten = false)
    (hr : ((Field.items way t vs).dispatch order s).result = .ok true) :
    t.ahead vs.length ≤ ((Field.items way t vs).dispatch order s).out.bytes.length := by
  rw [Field.dispatch] at hr ⊢
  rw [result_map] at hr
  obtain ⟨hcount, hvs⟩ := bind_done hr
  obtain ⟨hlayout, hlevels, hout⟩ := ofLayout_done hcount
  have hprefix : lengthPrefixSize ≤ ((Layout.counted order way t vs.length).output order).bytes.length := by
    unfold Layout.counted at hlayout ⊢
    by_cases hw : way = .list
    · rw [if_pos hw] at hlayout ⊢
      exact Layout.length_count order _ hlayout
    · rw [if_neg hw] at hlayout ⊢
      exact Layout.length_count order _ hlayout
  rw [hlevels] at hvs
  have hleast := Value.least_all_le hs hvs
  calc t.ahead vs.length = lengthPrefixSize + vs.length * t.minEncodedLength := Nat.add_comm ..
    _ ≤ ((Layout.counted order way t vs.length).output order).bytes.length +
        (Value.dispatchAll order t vs s).out.bytes.length := Nat.add_le_add hprefix hleast
    _ = _ := by
        rw [out_map, bind_of_done hcount, out_behind, hout, hlevels, Output.bytes_append, List.length_append]

/-! ## What is taken -/

namespace Reader

variable {c : Terms}

/-- a message takes its header, or the mark of an absent one, whatever it reads besides -/
theorem yields_header (n : Nat) : Yields c (follow n .nested) fun _ k => directTypeSize ≤ k := by
  cases n with
  | zero => exact .panic
  | succ n =>
    refine yields_blueprint.bind ?_
    rintro o k ⟨rfl, -⟩
    cases o with
    | none => exact .pure (Nat.le_refl _)
    | some b =>
      have hbody : Yields c (bodyWith (follow n) b) fun _ _ => True :=
        Consumes.descends.body (Consumes.descends.follow n) b c
      exact hbody.below.map fun _ _ _ => Nat.le_add_right ..

/-- **An item takes the least of its kind or more.** -/
theorem yields_least (t : ItemType) : Yields c (readItem t) fun _ n => t.minEncodedLength ≤ n := by
  unfold readItem itemWith
  split
  · rename_i ht
    subst ht
    have hnested : Yields c (readAt .nested) fun _ n => directTypeSize ≤ n := fun r => yields_header r.nestingBound r
    refine hnested.bind fun o n hn => ?_
    cases o <;> exact .pure hn
  · rename_i ht
    refine (yields_datum t).bind fun o n ho => ?_
    cases o with
    | none =>
      obtain ⟨hnull, hslim⟩ := ho ht
      exact .pure ((ItemType.minEncodedLength_le c.order hnull).trans hslim.length_le)
    | some d =>
      obtain ⟨rfl, -, hslim⟩ := ho
      exact .pure ((d.minEncodedLength_le c.order hslim.result).trans hslim.length_le)

end Reader

/-! ## In a session -/

namespace Writer

theorem headerWritten_enter (w : Writer) : (enter w).headerWritten = w.nesting.view.forward.headerWritten := by
  rw [← w.nesting.view_forward, Nesting.headerWritten_view]
  rfl

theorem act_ok_iff {act : Writing Unit} {w u : Writer} :
    act w = .ok () u ↔ (sent () act w).result = .ok true ∧ (sent () act w).writer = u := by
  unfold sent
  cases act w <;> simp

/-- an accepted value puts out the least of its kind or more, if a message finds its level clear -/
theorem write_least {v : Value} {t : ItemType} {w u : Writer} (hw : w.Inside)
    (hs : ∀ m, v = .message m → (enter w).headerWritten = false) (h : v.write t w = .ok () u) :
    ∃ out, u.written = w.written ++ out ∧ t.minEncodedLength ≤ out.length := by
  obtain ⟨hdone, rfl⟩ := act_ok_iff.1 h
  have htells := (v.carries t hw).tells_of_ok hdone
  have hr := htells.result.symm.trans hdone
  obtain ⟨hleast, -⟩ := v.least_le (fun m hm => (headerWritten_enter w).symm.trans (hs m hm)) hr
  exact ⟨_, htells.written true hr, hleast⟩

/-- the briefest item of a kind is accepted wherever there is room for any number, and takes the least of its kind -/
theorem write_briefest (t : ItemType) {w : Writer} (hw : w.Inside) (hfits : w.Fits maxVarint64) :
    ∃ u out, t.briefest.write t w = .ok () u ∧ u.written = w.written ++ out ∧ out.length = t.minEncodedLength := by
  obtain ⟨hr, hpeak, hlength⟩ := t.dispatch_briefest w.order w.nesting.view
  have htells := (t.briefest.carries t hw).tells (hfits.mono hpeak)
  exact ⟨_, _, act_ok_iff.2 ⟨htells.result.trans hr, rfl⟩, htells.written true hr, hlength⟩

/-- where a collection comes to its end, there is room to be made ahead for a list of the same values, for it is no more
than the collection takes -/
theorem collection_ahead {t : ItemType} {vs : List Value} {w : Writer} (hw : w.Inside)
    (hs : ∀ m, .message m ∈ vs → (enter w).headerWritten = false)
    (h : ((Field.items .collection t vs).write w).result = .ok true) :
    w.Fits (t.ahead vs.length) ∧ ∃ out,
      ((Field.items .collection t vs).write w).writer.written = w.written ++ out ∧ t.ahead vs.length ≤ out.length := by
  have hcarries := (Field.items .collection t vs).carries hw
  have htells := hcarries.tells_of_ok h
  have hr := htells.result.symm.trans h
  have hleast := Field.ahead_le (fun m hm => (headerWritten_enter w).symm.trans (hs m hm)) hr
  refine ⟨?_, _, htells.written true hr, hleast⟩
  calc w.position + t.ahead vs.length ≤ ((Field.items .collection t vs).write w).writer.position := by
        rw [htells.position]
        exact Nat.add_le_add_left hleast _
    _ ≤ ((Field.items .collection t vs).write w).writer.capacity := hcarries.keeps.inside
    _ ≤ max w.capacity maxBufferSize := hcarries.keeps.capacity_le_max

end Writer

/-- **The least that an item of a kind takes is a true bound, and it is attained.** Whatever a session accepts as an item
puts that many bytes or more behind those that were there, where a message finds its level clear. Whatever a session reads
as an item has taken that many or more. There is a value that any session accepts and that takes no more, room for a long
provided. Hence a list is never made more room ahead than it takes: where a collection comes to its end, the room for a
list of the same values can be made, the list is written as the collection is, and both take that room or more. -/
theorem ItemType.minEncodedLength_least (t : ItemType) :
    (∀ (v : Value) (w u : Writer), w.Inside → (∀ m, v = .message m → (enter w).headerWritten = false) →
        v.write t w = .ok () u → ∃ out, u.written = w.written ++ out ∧ t.minEncodedLength ≤ out.length) ∧
      (∀ (r s : Reader) (v : Value), r.readItem t = .ok v s →
        ∃ n, s.frame = r.frame.setPosition (r.position + n) ∧ t.minEncodedLength ≤ n) ∧
      (∃ v : Value, ∀ w : Writer, w.Inside → w.Fits maxVarint64 →
        ∃ u out, v.write t w = .ok () u ∧ u.written = w.written ++ out ∧ out.length = t.minEncodedLength) ∧
      ∀ (vs : List Value) (w : Writer), w.Inside → (∀ m, .message m ∈ vs → (enter w).headerWritten = false) →
        ((Field.items .collection t vs).write w).result = .ok true →
        ∃ u out, reserve (t.ahead vs.length) w = .ok w.position u ∧
          (Field.items .list t vs).write w = ((Field.items .collection t vs).write u).map (fun _ => .items .list t vs) ∧
          ((Field.items .list t vs).write w).result = .ok true ∧
          (∀ way, ((Field.items way t vs).write w).writer.written = w.written ++ out) ∧
          t.ahead vs.length ≤ out.length := by
  refine ⟨?_, ?_, ⟨t.briefest, ?_⟩, ?_⟩
  · intro v w u hw hs h
    exact write_least hw hs h
  · intro r s v hv
    obtain ⟨n, htook, hleast⟩ := Reader.yields_least t r v s rfl hv
    exact ⟨n, htook.frame, hleast⟩
  · intro w hw hfits
    exact write_briefest t hw hfits
  · intro vs w hw hs h
    obtain ⟨hfits, out, hwritten, hleast⟩ := collection_ahead hw hs h
    have hsame := fun way => coincide_items hw hfits way .collection
    have hroom : reserve (t.ahead vs.length) w = .ok w.position (w.grow (t.ahead vs.length)) := by
      rw [reserve_eq, if_pos hfits]
    refine ⟨_, out, hroom, ?_, (hsame .list).result.trans h, fun way => (hsame way).written.trans hwritten, hleast⟩
    rw [write_list, hroom]

namespace Reader

/-- a leaf with nothing behind it -/
def leafReader : Reader where
  frame := .ofBytes [0, 1, 8, 255, 255, 255, 255]
  nesting := .ofCapacity 1
  factory := .ofList [(1, .leaf)]
  order := .big
  maxLength := 0

end Reader

theorem ItemType.leaf_items_least :
    (∃ u out, Value.write .message (.message (.leaf 7 none)) usedSession = .ok () u ∧
      u.written = usedSession.written ++ out ∧ 2 ≤ out.length) ∧
    (∃ v s n, Reader.leafReader.readItem .message = .ok v s ∧ s.position = n ∧ 2 ≤ n) ∧
    (∃ v u out, Value.write .message v usedSession = .ok () u ∧ u.written = usedSession.written ++ out ∧ out.length = 2) ∧
    ∃ u out, reserve 8 usedSession = .ok 2 u ∧
      ((Field.items .list .message [.null, .message (.leaf 7 none)]).write usedSession).writer.written =
        usedSession.written ++ out ∧ 8 ≤ out.length := by
  have hw : usedSession.Inside := by
    change 2 ≤ 18
    decide
  obtain ⟨hwrite, hread, ⟨v, hattained⟩, hlist⟩ := ItemType.minEncodedLength_least .message
  have hleaf : ∃ u, Value.write .message (.message (.leaf 7 none)) usedSession = .ok () u := ⟨_, rfl⟩
  have hitem : ∃ v s, Reader.leafReader.readItem .message = .ok v s := ⟨_, _, rfl⟩
  have hitems : ((Field.items .collection .message [.null, .message (.leaf 7 none)]).write usedSession).result = .ok true := by
    decide +kernel
  obtain ⟨u, hu⟩ := hleaf
  obtain ⟨v', s, hs⟩ := hitem
  obtain ⟨n, hn, hleast⟩ := hread _ _ _ hs
  obtain ⟨x, out, hroom, -, -, hwritten, hahead⟩ := hlist _ usedSession hw (fun _ _ => rfl) hitems
  obtain ⟨y, o, hv⟩ := hattained usedSession hw (by decide)
  refine ⟨⟨u, ?_⟩, ⟨v', s, n, hs, ?_, hleast⟩, ⟨v, y, o, hv⟩, x, out, hroom, hwritten .list, hahead⟩
  · obtain ⟨out, h⟩ := hwrite _ _ _ hw (fun _ _ => rfl) hu
    exact ⟨out, hu, h⟩
  · rw [Reader.position, hn]
    exact Nat.zero_add n

end Courier
