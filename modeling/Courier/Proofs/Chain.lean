import Courier.Proofs.LevelsCleared

/-!
The chain of levels that a suspended message holds.

A message that suspends inside a nested one leaves its header out and its cursor on the field of that message, and so
on down to the message that was cut short; below that one all levels are clear. `Chain` says so of a row of levels.

A call that starts from the chain of its message either comes to its end and leaves nothing below its level, or
suspends and leaves a chain of the same message again. What level the chain ends on may be another one then: messages
on the way may have been finished, and others begun. A call that is refused leaves anything.

`Message.trail`: the result, by induction over the tree. A field that is no message starts with nothing below it, and is
written in one go; a nested message takes the rest of the chain.
`Dispatch.root_trail`: the same of the outermost message.
-/

namespace Courier

open Writer Dispatch

/-- the message that a field is -/
def Field.child? : Field → Option Message
  | .message m => m
  | _ => none

namespace Message

/-- the message that the field of that number is -/
def childAt (m : Message) (n : Nat) : Option Message :=
  m.fields[n]?.bind Field.child?

/-- the message of a tree that stands `n` levels down, as long as each cursor on the way is on a nested message -/
def down (level : Nat → Level) (m : Message) : Nat → Option Message
  | 0 => some m
  | n + 1 => (m.down level n).bind fun c => c.childAt (level n).cursor

/-- from level `i` to level `k` the progress of a message passes from one nested message to the next -/
inductive Chain (level : Nat → Level) : Message → Nat → Nat → Prop
  | last (m : Message) (i : Nat) (clear : ∀ j, i < j → level j = .blank) : Chain level m i i
  | pass {m c : Message} {i k : Nat} (header : (level i).headerWritten = true)
    (cursor : m.childAt (level i).cursor = some c) (rest : Chain level c (i + 1) k) : Chain level m i k

theorem childAt_steady (m : Message) (n : Nat) : m.steady.childAt n = (m.childAt n).map steady := by
  have hchild : ∀ f : Field, f.steady.child? = f.child?.map steady := by
    intro f
    cases f with
    | message m => cases m <;> rfl
    | _ => rfl
  obtain ⟨kind, fields, pauses⟩ := m
  simp only [childAt, Message.steady, Message.fields, Field.steadyAll_eq, List.getElem?_map]
  cases fields[n]? with
  | none => rfl
  | some f => exact hchild f

namespace Chain

variable {level : Nat → Level} {m n t : Message} {i k : Nat}

/-- how often the messages pause does not count -/
theorem congr (h : Chain level m i k) (hn : m.steady = n.steady) : Chain level n i k := by
  induction h generalizing n with
  | last m i clear => exact .last n i clear
  | @pass m c i k header cursor rest ih =>
    have hc : (n.childAt (level i).cursor).map steady = some c.steady := by
      rw [← childAt_steady, ← hn, childAt_steady, cursor, Option.map_some]
    obtain ⟨c', hc', hsame⟩ := Option.map_eq_some_iff.1 hc
    exact .pass header hc' (ih hsame.symm)

/-- a chain ends on its first level, or goes on in the message under the cursor there -/
theorem split (h : Chain level m i k) :
    (∀ j, i < j → level j = .blank) ∨
      (level i).headerWritten = true ∧ ∃ c, m.childAt (level i).cursor = some c ∧ Chain level c (i + 1) k := by
  cases h with
  | last m i clear => exact .inl clear
  | pass header cursor rest => exact .inr ⟨header, _, cursor, rest⟩

/-- the levels that a chain passes through, told from the top -/
theorem down (h : Chain level m i k) (hm : t.down level i = some m) :
    (∀ j, i ≤ j → j < k → (level j).headerWritten = true ∧ (t.down level (j + 1)).isSome = true) ∧
      ∀ j, k < j → level j = .blank := by
  induction h with
  | last m i clear => exact ⟨fun j hi hj => by omega, clear⟩
  | @pass m c i k header cursor rest ih =>
    have hc : t.down level (i + 1) = some c := by rw [Message.down, hm, Option.bind_some, cursor]
    obtain ⟨hpass, hclear⟩ := ih hc
    refine ⟨fun j hi hj => ?_, hclear⟩
    rcases Nat.eq_or_lt_of_le hi with rfl | hi
    · exact ⟨header, by rw [hc]; rfl⟩
    · exact hpass j hi hj

end Chain

end Message

/-- what is in progress below the level of a field: nothing, or the chain of the message that it is -/
def Field.Hangs (f : Field) (s : Levels) : Prop :=
  s.Shallow ∨ ∃ c k, f.child? = some c ∧ c.Chain s.level (s.depth + 1) k

/-- the same of the fields from number `k` on, of which the one under the cursor may hold something -/
def Field.HangsAt (k : Nat) (fs : List Field) (s : Levels) : Prop :=
  s.Shallow ∨ ∃ f, k ≤ s.cursor ∧ fs[s.cursor - k]? = some f ∧ f.Hangs s

/-- the field under the cursor holds what its message has left -/
theorem Field.HangsAt.head {k : Nat} {f : Field} {fs : List Field} {s : Levels} (h : HangsAt k (f :: fs) s)
    (hc : s.cursor = k) : f.Hangs s := by
  rcases h with h | ⟨g, -, hg, h⟩
  · exact .inl h
  · rw [hc, Nat.sub_self, List.getElem?_cons_zero] at hg
    obtain rfl : f = g := Option.some.inj hg
    exact h

theorem Field.HangsAt.tail {k : Nat} {f : Field} {fs : List Field} {s : Levels} (h : HangsAt k (f :: fs) s)
    (hc : s.cursor ≠ k) : HangsAt (k + 1) fs s := by
  rcases h with h | ⟨g, hk, hg, h⟩
  · exact .inl h
  · refine .inr ⟨g, by omega, ?_, h⟩
    rwa [show s.cursor - k = s.cursor - (k + 1) + 1 by omega, List.getElem?_cons_succ] at hg

theorem Field.HangsAt.cons {k : Nat} {f : Field} {fs : List Field} {s : Levels} (h : HangsAt (k + 1) fs s) :
    HangsAt k (f :: fs) s := by
  rcases h with h | ⟨g, hk, hg, h⟩
  · exact .inl h
  · refine .inr ⟨g, by omega, ?_, h⟩
    rwa [show s.cursor - k = s.cursor - (k + 1) + 1 by omega, List.getElem?_cons_succ]

/-- below a field that is no message nothing hangs -/
theorem Field.Hangs.shallow {f : Field} {s : Levels} (hs : f.Hangs s) (hc : f.child? = none) : s.Shallow := by
  rcases hs with hs | ⟨c, k, hc', -⟩
  · exact hs
  · cases hc.symm.trans hc'

/-- one level down there is a chain of the message that hangs -/
theorem Field.Hangs.chain {m : Message} {s : Levels} (hs : (Field.message (some m)).Hangs s) :
    ∃ k, m.Chain s.forward.level s.forward.depth k := by
  rcases hs with hs | ⟨c, k, hc, hk⟩
  · exact ⟨_, .last m _ hs.forward⟩
  · obtain rfl : m = c := Option.some.inj hc
    exact ⟨k, hk⟩

namespace Dispatch

variable {α β : Type} {order : ByteOrder}

/-- a call that leaves nothing below its level where it comes to its end, and `R` where it suspends -/
structure Trail (R : Levels → Prop) (d : Dispatch α) : Prop where
  done : d.result = .ok true → d.levels.Shallow
  paused : d.result = .ok false → R d.levels

namespace Trail

variable {R S : Levels → Prop} {d : Dispatch α} {e : Dispatch β}

theorem imp (h : Trail R d) (hRS : d.result = .ok false → R d.levels → S d.levels) : Trail S d :=
  ⟨h.done, fun hr => hRS hr (h.paused hr)⟩

/-- only the result and the levels count -/
theorem of_eq (h : Trail R d) (hr : e.result = d.result) (hl : e.levels = d.levels) : Trail R e := by
  constructor
  · intro hd
    rw [hl]
    exact h.done (hr.symm.trans hd)
  · intro hp
    rw [hl]
    exact h.paused (hr.symm.trans hp)

theorem of_bare (h : Trail R d.bare) : Trail R d :=
  ⟨h.done, h.paused⟩

end Trail

/-- a field that is no message suspends only where it does nothing -/
theorem levels_of_childless {f : Field} (hf : f.resumable = true) (hc : f.child? = none) {s : Levels}
    (hr : (f.dispatch order s).result = .ok false) : (f.dispatch order s).levels = s := by
  cases f with
  | stall => rfl
  | data | absent | fixedInt | fixedLong | range | raw | object | nothing =>
    rw [Field.dispatch] at hr
    exact absurd hr (result_ofLayout_ne _ _ _ _)
  | item t v => exact absurd hr (result_value_ne order v t s)
  | items way t vs =>
    rw [Field.dispatch] at hr
    exact absurd hr (result_bind_ne (result_ofLayout_ne _ _ _ _) fun _ u => result_values_ne order vs t u)
  | map kt vt linked es =>
    rw [Field.dispatch] at hr
    exact absurd hr (result_bind_ne (result_ofLayout_ne _ _ _ _) fun _ u => result_entries_ne order es kt vt u)
  | message m =>
    obtain rfl : m = none := hc
    rw [Field.dispatch] at hr
    exact absurd hr (result_ofLayout_ne _ _ _ _)
  | note | fail => cases hr
  | root | advance | markHeader => cases hf

theorem trail_childless {f : Field} (hf : f.resumable = true) (hc : f.child? = none) {s : Levels} (hs : f.Hangs s) :
    Trail f.Hangs (f.dispatch order s) := by
  have hshallow := hs.shallow hc
  refine ⟨fun hr => (f.tidy hf order s hshallow hr).1, fun hr => ?_⟩
  rw [levels_of_childless hf hc hr]
  exact .inl hshallow

/-- a call on a nested message takes the rest of the chain, and leaves its own -/
theorem trail_nested {m : Message}
    (h : ∀ s k, m.Chain s.level s.depth k → Trail (fun t => ∃ k, m.Chain t.level s.depth k) (m.dispatch order s))
    {s : Levels} (hs : (Field.message (some m)).Hangs s) :
    Trail (Field.message (some m)).Hangs ((Field.message (some m)).dispatch order s) := by
  obtain ⟨k, hk⟩ := hs.chain
  have key := h s.forward k hk
  have hdepth : (m.dispatch order s.forward).levels.depth = s.depth + 1 := (m.sound order s.forward).depth
  have hne : (m.dispatch order s.forward).levels.depth ≠ 0 := by omega
  have hres := result_leave (d := m.dispatch order s.forward) hne
  rw [Field.dispatch]
  refine Trail.of_eq (d := (m.dispatch order s.forward).leave) ⟨fun hr => ?_, fun hr => ?_⟩ rfl rfl
  · -- the level of the message is cleared behind it, and below there is nothing
    have hl := key.done (hres.symm.trans hr)
    rw [levels_leave hne (hres.symm.trans hr)]
    intro i hi
    rw [Levels.depth_retreat, hdepth, Nat.add_sub_cancel] at hi
    by_cases hi' : i = (m.dispatch order s.forward).levels.depth
    · rw [hi']
      exact (m.dispatch order s.forward).levels.level_update_self _
    · exact ((m.dispatch order s.forward).levels.level_update_of_ne _ hi').trans (hl i (by omega))
  · obtain ⟨k, hk⟩ := key.paused (hres.symm.trans hr)
    rw [levels_leave hne (hres.symm.trans hr)]
    refine .inr ⟨m, k, rfl, ?_⟩
    rw [Levels.depth_retreat, hdepth, Nat.add_sub_cancel]
    exact hk

theorem trail_fields {fs : List Field} (hr : ∀ f ∈ fs, f.resumable = true)
    (h : ∀ f ∈ fs, ∀ s, f.Hangs s → Trail f.Hangs (f.dispatch order s)) (k : Nat) (grant : Grant) {s : Levels}
    (hk : k ≤ s.cursor) (hs : Field.HangsAt k fs s) :
    Trail (Field.HangsAt k fs) (Field.dispatchAll order k grant fs s) := by
  induction fs generalizing k grant s with
  | nil =>
    refine ⟨fun _ => ?_, fun hr => by cases hr⟩
    rcases hs with hs | ⟨g, -, hg, -⟩
    · exact hs
    · cases hg
  | cons f fs ih =>
    have hrest := ih (fun f hf => hr f (List.mem_cons_of_mem _ hf)) fun f hf => h f (List.mem_cons_of_mem _ hf)
    rw [Field.dispatchAll]
    split
    · rename_i hc
      cases spend grant with
      | none => exact ⟨fun hr => (by cases hr), fun _ => hs⟩
      | some grant =>
        dsimp only
        have key := h f List.mem_cons_self s (hs.head hc)
        have hspare := spares_field order (hr f List.mem_cons_self) s
        rcases hres : (f.dispatch order s).result with e | (_ | _)
        · constructor <;> intro hr <;> simp [Dispatch.bind, hres, Dispatch.map] at hr
        · -- the field has suspended, and the cursor is still on it
          refine Trail.of_eq (d := f.dispatch order s) ⟨fun hr => ?_, fun _ => ?_⟩ ?_ ?_
          · cases hres.symm.trans hr
          · refine .inr ⟨f, Nat.le_of_eq (hspare.cursor.trans hc).symm, ?_, key.paused hres⟩
            rw [hspare.cursor, hc, Nat.sub_self, List.getElem?_cons_zero]
          all_goals simp only [Dispatch.bind, hres, Dispatch.map]
        · rw [bind_of_done hres]
          have hcur : k + 1 ≤ (f.dispatch order s).levels.increment.cursor := by
            rw [Levels.cursor_increment, hspare.cursor, hc]
          have hgo := hrest (k + 1) grant hcur (.inl ((key.done hres).update _))
          exact (hgo.imp fun _ h => h.cons).of_eq rfl rfl
    · rename_i hc
      exact ((hrest (k + 1) grant (by omega) (hs.tail hc)).imp fun _ h => h.cons).of_eq rfl rfl

/-- the fields of a message hang where its chain passes through them -/
theorem hangsAt_of_chain {kind : MessageKind} {fields : List Field} {pauses : List Nat} {s : Levels} {k : Nat}
    (hk : (Message.mk kind fields pauses).Chain s.level s.depth k) : Field.HangsAt 0 fields s := by
  rcases hk.split with hclear | ⟨-, c, hc, rest⟩
  · exact .inl hclear
  · obtain ⟨f, hf, hc⟩ := Option.bind_eq_some_iff.1 hc
    exact .inr ⟨f, Nat.zero_le _, hf, .inr ⟨c, k, hc, rest⟩⟩

/-- and where they hang, and the header is out, there is a chain -/
theorem chain_of_hangsAt (kind : MessageKind) {fields : List Field} (pauses : List Nat) {s : Levels}
    (hh : s.headerWritten = true) (hs : Field.HangsAt 0 fields s) :
    ∃ k, (Message.mk kind fields pauses).Chain s.level s.depth k := by
  rcases hs with hs | ⟨f, -, hf, hs | ⟨c, k, hc, hk⟩⟩
  · exact ⟨_, .last _ _ hs⟩
  · exact ⟨_, .last _ _ hs⟩
  · refine ⟨k, .pass hh ?_ hk⟩
    rw [Nat.sub_zero] at hf
    change (fields[s.cursor]?).bind Field.child? = some c
    rw [hf, Option.bind_some, hc]

theorem trail_message (kind : MessageKind) {fields : List Field} (pauses : List Nat)
    (hr : ∀ f ∈ fields, f.resumable = true)
    (h : ∀ f ∈ fields, ∀ s, f.Hangs s → Trail f.Hangs (f.dispatch order s)) {s : Levels} {k : Nat}
    (hk : (Message.mk kind fields pauses).Chain s.level s.depth k) :
    Trail (fun t => ∃ k, (Message.mk kind fields pauses).Chain t.level s.depth k)
      ((Message.mk kind fields pauses).dispatch order s) := by
  have hpass : ∀ (g : Grant) (t : Levels), t.headerWritten = true → t.depth = s.depth → Field.HangsAt 0 fields t →
      Trail (fun t => ∃ k, (Message.mk kind fields pauses).Chain t.level s.depth k)
        (Field.dispatchAll order 0 g fields t) := by
    intro g t ht hdep hang
    have hadv := advances_fields order hr 0 g t.cursor.zero_le
    refine (trail_fields hr h 0 g t.cursor.zero_le hang).imp fun _ hlev => ?_
    have hchain := chain_of_hangsAt kind pauses (hadv.headerWritten.trans ht) hlev
    rwa [hadv.depth, hdep] at hchain
  apply Trail.of_bare
  rw [dispatch_resumable order kind pauses hr s]
  split
  · rename_i hhead
    exact (hpass pauses.head? s hhead rfl (hangsAt_of_chain hk)).of_eq rfl rfl
  · rename_i hhead
    cases spend pauses.head? with
    | none => exact ⟨fun hr => (by cases hr), fun _ => ⟨k, hk⟩⟩
    | some grant =>
      -- where the header is not out yet, nothing is in progress below
      have hshallow : s.Shallow := by
        rcases hk.split with hclear | ⟨header, -⟩
        · exact hclear
        · exact absurd header hhead
      exact (hpass grant s.markHeader s.headerWritten_markHeader rfl (.inl (hshallow.update _))).of_eq rfl rfl

theorem trail_step (order : ByteOrder) :
    Tree.Step
      (fun m => m.resumable = true → ∀ s k, m.Chain s.level s.depth k →
        Trail (fun t => ∃ k, m.Chain t.level s.depth k) (m.dispatch order s))
      (fun f => f.resumable = true → ∀ s, f.Hangs s → Trail f.Hangs (f.dispatch order s))
      fun _ => True where
  message kind _ pauses h hr s k hk := by
    rw [Message.resumable, Field.resumableAll_iff] at hr
    exact trail_message kind pauses hr (fun f hf => h f hf (hr f hf)) hk
  plain f hf hr s hs := by
    refine trail_childless hr ?_ hs
    cases f with
    | message m =>
      cases m with
      | none => rfl
      | some m => cases hf
    | _ => rfl
  item t v _ hr s hs := trail_childless hr rfl hs
  items way t vs _ hr s hs := trail_childless hr rfl hs
  map kt vt linked es _ hr s hs := trail_childless hr rfl hs
  nested m h hr s hs := trail_nested (h hr) hs
  root m h hr := by cases hr
  null := trivial
  data _ := trivial
  inner _ _ := trivial

end Dispatch

open Dispatch

/-- **A call that starts from the chain of its message leaves nothing below its level if it comes to its end, and a chain
of its message if it suspends.** -/
theorem Message.trail {m : Message} (hm : m.resumable = true) (order : ByteOrder) {s : Levels} {k : Nat}
    (hk : m.Chain s.level s.depth k) : Trail (fun t => ∃ k, m.Chain t.level s.depth k) (m.dispatch order s) :=
  (trail_step order).all.1 m hm s k hk

/-- a field that is no message leaves nothing below its level, unless it is refused -/
theorem Field.trail {f : Field} (hf : f.resumable = true) (hc : f.child? = none) (order : ByteOrder) {s : Levels}
    (hs : s.Shallow) {b : Bool} (hr : (f.dispatch order s).result = .ok b) : (f.dispatch order s).levels.Shallow := by
  cases b with
  | true => exact (f.tidy hf order s hs hr).1
  | false => rwa [levels_of_childless hf hc hr]

/-- **A call on the outermost message leaves all levels clear if it comes to its end, and a chain of its message if it
suspends.** -/
theorem Dispatch.root_trail {m : Message} (hm : m.resumable = true) (order : ByteOrder) {s : Levels} (h0 : s.depth = 0)
    {k : Nat} (hk : m.Chain s.level 0 k) :
    ((root order m s).result = .ok true → (root order m s).levels = .fresh) ∧
      ((root order m s).result = .ok false →
        (root order m s).levels.depth = 0 ∧ ∃ k, m.Chain (root order m s).levels.level 0 k) := by
  have key := m.trail hm order (s := s) (k := k) (by rwa [h0])
  constructor
  · intro hr
    exact settle_fresh hr (key.done (settle_done hr).1)
  · intro hr
    obtain ⟨hp, heq⟩ := settle_paused hr
    have hchain := key.paused hp
    rw [h0] at hchain
    rw [root, heq]
    exact ⟨(m.sound order s).depth.trans h0, hchain⟩

end Courier
