import Courier.Proofs.Chain
import Courier.Proofs.Local
import Courier.Proofs.Moments

/-!
Suspension below a container is refused, and no item is cut off.

A message that suspends makes the message around it suspend too, and so on outwards, until the item of a container is
reached: that one is refused, with its direct type, and the refusal goes on outwards as it is. So the call ends as the
innermost container around the suspended message says, and a call that is not refused has written every container that
it began in full. The moments of the call tell which messages were called in it and which containers were begun.

Nothing may be in progress below the message but what earlier calls on it have left: its `Chain`. A container is begun
where nothing is in progress below, which is why its items are whole.

`Decides`: a moment at which a message suspends decides how the call ends, drawn through the tree by `decides_step`.
`Fills`: a call that is not refused has filled in its containers, drawn through the tree by `fills_step`.
`suspension_contained`: both, for a call on the outermost message and for one on a nested message.
-/

namespace Courier

open Writer

namespace Moment

/-- whether a message is called that suspends -/
def Suspends (x : Moment) : Prop :=
  ∃ m, x.deed = .call m ∧ (m.write x.session).result = .ok false

/-- how a call ends during which a message suspends: it suspends too, unless a container lies between -/
def verdict (x : Moment) : Except Fault Bool :=
  match x.item with
  | none => .ok false
  | some type => .error (.error (.suspendedInCollection type))

theorem verdict_ne (x : Moment) : x.verdict ≠ .ok true := by
  unfold verdict
  cases x.item <;> exact fun h => by cases h

end Moment

namespace Writer

variable {α β : Type}

theorem result_sent_ne (left : α) (act : Writing Unit) (w : Writer) : (sent left act w).result ≠ .ok false := by
  unfold sent
  cases act w <;> exact fun h => by cases h

theorem result_leave {s : Sent α} (h : s.writer.depth ≠ 0) : (leave s).result = s.result := by
  rw [leave_eq h]
  rcases s.result with (_ | _) | _ <;> rfl

/-- the outermost message that suspends is left as it is -/
theorem settle_suspended {s : Sent α} (h : (settle s).result = .ok false) : s.result = .ok false ∧ settle s = s := by
  rw [settle_eq] at h ⊢
  rcases hr : s.result with (e | _) | (_ | _) <;> simp only [hr] at h ⊢
  · cases h
  · cases h
  · exact ⟨trivial, trivial⟩
  · split at h <;> cases h

theorem depth_below (m : Message) {w : Writer} (hw : w.Inside) : (m.write (enter w)).writer.depth = w.depth + 1 := by
  have hi : (enter w).Inside := hw
  exact (m.carries hi).keeps.depth.trans w.nesting.depth_forward

end Writer

/-! ## Suspensions -/

/-- a moment at which a message suspends decides how the call ends -/
def Decides {α : Type} (xs : List Moment) (s : Sent α) : Prop :=
  ∀ x ∈ xs, x.Suspends → s.result = x.verdict

namespace Decides

variable {α β : Type} {xs : List Moment} {s : Sent α}

theorem nil (s : Sent α) : Decides [] s :=
  fun _ hx => nomatch hx

/-- moments at which nothing is called do not count -/
theorem cons {d : Deed} (hd : ∀ m, d ≠ .call m) (w : Writer) (i : Option Int16) (h : Decides xs s) :
    Decides (⟨d, w, i⟩ :: xs) s := by
  intro x hx hs
  rcases List.mem_cons.1 hx with rfl | hx
  · obtain ⟨m, hm, -⟩ := hs
    exact absurd hm (hd m)
  · exact h x hx hs

theorem map (h : Decides xs s) (f : α → β) : Decides xs (s.map f) :=
  h

theorem bind (h : Decides xs s) {ys : Writer → List Moment} {next : α → Writer → Sent β} {stop : α → β}
    (hn : s.result = .ok true → Decides (ys s.writer) (next s.left s.writer)) :
    Decides (xs ++ s.onward ys) (s.bind next stop) := by
  intro x hx hs
  by_cases hr : s.result = .ok true
  · rw [Sent.bind_of_done hr]
    simp only [Sent.onward, hr] at hx
    rcases List.mem_append.1 hx with hx | hx
    · exact absurd ((h x hx hs).symm.trans hr) x.verdict_ne
    · exact hn hr x hx hs
  · rw [Sent.bind_of_ne hr]
    rw [Sent.onward_of_ne hr, List.append_nil] at hx
    exact h x hx hs

/-- rounds behind a first one are gone into only where that one has come to its end -/
theorem rounds {s : Sent (Grant × α)} (h : Decides xs s) (hi : s.writer.Inside) {n : Nat}
    {pass : Grant → Writer → Sent (Grant × α)} {moments : Grant → Writer → List Moment}
    (hp : ∀ g w, w.Inside → Decides (moments g w) (pass g w) ∧ (pass g w).writer.Inside) (k : Nat) :
    Decides (xs ++ s.laps n pass moments k) (rounds n pass k s) := by
  induction k generalizing s xs with
  | zero =>
    rw [Sent.laps, List.append_nil]
    intro x hx hs
    have hr := h x hx hs
    rw [rounds_of_ne fun hdone => x.verdict_ne (hr.symm.trans hdone)]
    exact hr
  | succ k ih =>
    intro x hx hs
    rw [Sent.laps] at hx
    by_cases hdone : s.result = .ok true
    · have hnot : x ∉ xs := fun hx => absurd ((h x hx hs).symm.trans hdone) x.verdict_ne
      rw [Sent.onward_of_done hdone] at hx
      have hx := (List.mem_append.1 hx).resolve_left hnot
      by_cases hc : s.writer.cursor < n
      · obtain ⟨hpass, hinside⟩ := hp s.left.1 s.writer hi
        rw [if_pos hc] at hx
        simp only [Writer.rounds, hdone, if_pos hc]
        exact ih hpass hinside x hx hs
      · rw [if_neg hc] at hx
        cases hx
    · rw [Sent.onward_of_ne hdone, List.append_nil] at hx
      rw [rounds_of_ne hdone]
      exact h x hx hs

theorem leave (h : Decides xs s) (hd : s.writer.depth ≠ 0) : Decides xs (leave s) := by
  intro x hx hs
  rw [result_leave hd]
  exact h x hx hs

/-- a message that suspends as an item is refused, and a refusal goes on as it is -/
theorem whole (h : Decides xs s) (type : Int16) (w : Writer) :
    Decides (xs.map (.below type)) (sent () (fun _ => Writer.whole type s) w) := by
  intro y hy hs
  obtain ⟨x, hx, rfl⟩ := List.mem_map.1 hy
  have hr := h x hx hs
  unfold Moment.verdict at hr
  simp only [sent, Writer.whole]
  cases hi : x.item with
  | none =>
    rw [hi] at hr
    simp [hr, Writer.refuse, Moment.verdict, Moment.below, hi]
  | some t =>
    rw [hi] at hr
    simp [hr, Moment.verdict, Moment.below, hi]

theorem fields {fs : List Field} (h : ∀ f ∈ fs, ∀ w : Writer, w.Inside → Decides (f.moments w) (f.write w)) (k : Nat)
    (grant : Grant) {w : Writer} (hw : w.Inside) :
    Decides (Field.momentsAll k grant fs w) (Field.writeAll k grant fs w) := by
  induction fs generalizing k grant w with
  | nil => exact nil _
  | cons f fs ih =>
    have hrest := ih fun f hf => h f (List.mem_cons_of_mem _ hf)
    rw [Field.momentsAll, Field.writeAll_cons]
    split
    · cases spend grant with
      | none => exact nil _
      | some grant =>
        refine (h f List.mem_cons_self w hw).bind fun _ => ?_
        exact (hrest (k + 1) grant (keeps_increment (f.carries hw).keeps.inside).inside).map _
    · exact (hrest (k + 1) grant hw).map _

theorem values {vs : List Value} {t : ItemType}
    (h : ∀ v ∈ vs, ∀ w : Writer, w.Inside → Decides (v.moments t w) (sent () (v.write t) w)) {w : Writer}
    (hw : w.Inside) : Decides (Value.momentsAll t vs w) (sent () (Value.writeAll t vs) w) := by
  induction vs generalizing w with
  | nil => exact nil _
  | cons v vs ih =>
    rw [Value.momentsAll, Value.writeAll, sent_bind]
    refine (h v List.mem_cons_self w hw).bind fun _ => ?_
    exact ih (fun v hv => h v (List.mem_cons_of_mem _ hv)) (v.carries t hw).keeps.inside

theorem entries {es : List (Value × Value)} {kt vt : ItemType}
    (h : ∀ e ∈ es, (∀ w : Writer, w.Inside → Decides (e.1.moments kt w) (sent () (e.1.write kt) w)) ∧
      ∀ w : Writer, w.Inside → Decides (e.2.moments vt w) (sent () (e.2.write vt) w)) {w : Writer} (hw : w.Inside) :
    Decides (Value.momentsEntries kt vt es w) (sent () (Value.writeEntries kt vt es) w) := by
  induction es generalizing w with
  | nil => exact nil _
  | cons e es ih =>
    obtain ⟨k, v⟩ := e
    obtain ⟨hk, hv⟩ := h (k, v) List.mem_cons_self
    rw [Value.momentsEntries, Value.writeEntries, sent_bind]
    refine (hk w hw).bind fun _ => ?_
    have hi := (k.carries kt hw).keeps.inside
    rw [sent_bind]
    refine (hv _ hi).bind fun _ => ?_
    exact ih (fun e he => h e (List.mem_cons_of_mem _ he)) (v.carries vt hi).keeps.inside

theorem message (kind : MessageKind) {fields : List Field} (pauses : List Nat)
    (h : ∀ f ∈ fields, ∀ w : Writer, w.Inside → Decides (f.moments w) (f.write w)) {w : Writer} (hw : w.Inside) :
    Decides ((Message.mk kind fields pauses).moments w) ((Message.mk kind fields pauses).write w) := by
  have hall : ∀ f ∈ fields, ∀ w : Writer, w.Inside → Carries w (f.write w) (f.dispatch w.order w.nesting.view) :=
    fun f _ w hw => f.carries hw
  have hpass : ∀ g (w : Writer), w.Inside → Decides (Field.momentsAll 0 g fields w) (Field.writeAll 0 g fields w) ∧
      (Field.writeAll 0 g fields w).writer.Inside :=
    fun g w hw => ⟨Decides.fields h 0 g hw, (carries_fields hall 0 g hw).keeps.inside⟩
  have hgo : ∀ g (w : Writer), w.Inside → Decides (passMoments fields g w) (passes fields g w) :=
    fun g w hw => (hpass g w hw).1.rounds (hpass g w hw).2 hpass g.rounds
  rw [Message.moments_eq]
  intro x hx hs
  rcases List.mem_cons.1 hx with rfl | hx
  · -- the call at hand
    obtain ⟨m, hm, hr⟩ := hs
    obtain rfl : _ = m := Deed.call.inj hm
    exact hr
  · suffices hrest : Decides ((Message.mk kind fields pauses).onward w) ((Message.mk kind fields pauses).write w) from
      hrest x hx hs
    rw [Message.onward, Message.write_mk]
    split
    · exact (hgo _ w hw).map _
    · cases spend pauses.head? with
      | none => exact nil _
      | some grant =>
        have hhead := (carries_header kind.type hw).keeps.inside
        refine cons (by simp) w none ?_
        exact (nil (header kind.type w)).bind fun _ => (hgo grant _ hhead).map _

end Decides

/-- a suspension decides how a call ends, through all of a message that can be gone on with -/
theorem decides_step :
    Tree.Step (fun m => m.resumable = true → ∀ w : Writer, w.Inside → Decides (m.moments w) (m.write w))
      (fun f => f.resumable = true → ∀ w : Writer, w.Inside → Decides (f.moments w) (f.write w))
      fun v => v.resumable = true → ∀ t, ∀ w : Writer, w.Inside → Decides (v.moments t w) (sent () (v.write t) w) where
  message kind fields pauses h hr w hw := by
    rw [Message.resumable, Field.resumableAll_iff] at hr
    exact Decides.message kind pauses (fun f hf => h f hf (hr f hf)) hw
  plain f hf _ w _ := by
    rw [Field.moments_plain hf]
    exact .cons (by simp) _ _ (.nil _)
  item t v h hr w hw := by
    rw [Field.moments, Field.write_item]
    exact .cons (by simp) _ _ ((h hr t w hw).map _)
  items way t vs h hr w hw := by
    rw [Field.resumable, Value.resumableAll_iff] at hr
    rw [Field.moments, Field.write_items]
    have hi := (Carries.ofLayout (lays_writeCount way t vs.length) hw ()).keeps.inside
    refine .cons (by simp) _ _ (.cons (by simp) _ _ (.map (.bind (.nil _) fun _ => ?_) _))
    exact .values (fun v hv => h v hv (hr v hv) t) hi
  map kt vt linked es h hr w hw := by
    rw [Field.resumable, Value.resumableEntries_iff] at hr
    rw [Field.moments, Field.write_map]
    have hi := (Carries.ofLayout (Lays.count es.length Lays.done).alone hw ()).keeps.inside
    refine .cons (by simp) _ _ (.cons (by simp) _ _ (.map (.bind (.nil _) fun _ => ?_) _))
    exact .entries (fun e he => ⟨(h e he).1 (hr e he).1 kt, (h e he).2 (hr e he).2 vt⟩) hi
  nested m h hr w hw := by
    have hi : (enter w).Inside := hw
    rw [Field.moments, Field.write]
    exact ((h hr _ hi).leave (by rw [depth_below m hw]; exact Nat.succ_ne_zero _)).map (Field.message ∘ some)
  root m h hr := by cases hr
  null _ t w _ := by
    rw [Value.moments]
    split
    · exact .cons (by simp) _ _ (.nil _)
    · exact .nil _
  data d _ t w _ := by
    rw [Value.moments]
    split
    · exact .cons (by simp) _ _ (.nil _)
    · exact .nil _
  inner m h hr t w hw := by
    have hi : (enter w).Inside := hw
    rw [Value.moments]
    split
    · rename_i ht
      rw [Value.write_message ht]
      exact ((h hr _ hi).leave (by rw [depth_below m hw]; exact Nat.succ_ne_zero _)).whole m.type w
    · exact .nil _

/-! ## Containers -/

/-- a field of a message that can be gone on with uses no level but those below -/
theorem Field.uses_pos {f : Field} (hf : f.resumable = true) {n : Nat} (h : f.uses n) : 0 < n := by
  have hvalue : ∀ v : Value, v.uses n → 0 < n := by
    intro v hv
    cases v with
    | message m =>
      obtain ⟨k, rfl, -⟩ := hv
      exact Nat.succ_pos k
    | null | data => cases hv
  cases f with
  | item t v => exact hvalue v h
  | items way t vs =>
    rw [Field.uses] at h
    induction vs with
    | nil => cases h
    | cons v vs ih =>
      rw [Field.resumable, Value.resumableAll_iff] at hf
      rcases h with h | h
      · exact hvalue v h
      · exact ih (by rw [Field.resumable, Value.resumableAll_iff]; exact fun u hu => hf u (List.mem_cons_of_mem _ hu)) h
  | map kt vt linked es =>
    rw [Field.uses] at h
    induction es with
    | nil => cases h
    | cons e es ih =>
      rw [Field.resumable, Value.resumableEntries_iff] at hf
      rcases h with (h | h) | h
      · exact hvalue _ h
      · exact hvalue _ h
      · exact ih (by rw [Field.resumable, Value.resumableEntries_iff]; exact fun u hu => hf u (List.mem_cons_of_mem _ hu))
          h
  | message m =>
    cases m with
    | none => cases h
    | some m =>
      obtain ⟨k, rfl, -⟩ := h
      exact Nat.succ_pos k
  | root | advance | markHeader => cases hf
  | _ => cases h

/-- what a field puts out at some depth where nothing is in progress and its messages never pause -/
def Field.encoding (f : Field) (order : ByteOrder) (depth : Nat) : Bytes :=
  (f.steady.dispatch order ⟨fun _ => .blank, depth⟩).out.bytes

/-- a field that comes to its end puts out its encoding, where nothing is in progress below -/
theorem Field.out_of_shallow {f : Field} (hf : f.resumable = true) {order : ByteOrder} {s : Levels} (hs : s.Shallow)
    (hr : (f.dispatch order s).result = .ok true) : (f.dispatch order s).out.bytes = f.encoding order s.depth := by
  have hsteady : (f.steady.dispatch order s).bare = (f.dispatch order s).bare :=
    ((Dispatch.resumes_step order).all.2.1 f hf s).done hr
  have hclear : Levels.AgreeOn f.steady.uses s ⟨fun _ => .blank, s.depth⟩ := by
    refine ⟨rfl, fun n hn => hs _ ?_⟩
    have := Field.uses_pos (f.resumable_steady.trans hf) hn
    omega
  have hlocal := f.steady.local order f.steady.uses (fun _ h => h) _ _ hclear
  calc (f.dispatch order s).out.bytes = (f.steady.dispatch order s).out.bytes :=
        congrArg (fun d : Dispatch Unit => d.out.bytes) hsteady.symm
    _ = f.encoding order s.depth := congrArg Output.bytes hlocal.out

/-- whether the container that is begun, if one is, came to its end and stands in the output as a whole -/
def Moment.Complete (x : Moment) (out : Bytes) : Prop :=
  ∀ f, x.deed = .container f → (f.write x.session).result = .ok true ∧
    ∃ back, out = x.session.written ++ f.encoding x.session.order x.session.depth ++ back

theorem Moment.Complete.append {x : Moment} {out : Bytes} (h : x.Complete out) (more : Bytes) :
    x.Complete (out ++ more) := by
  intro f hf
  obtain ⟨hr, back, rfl⟩ := h f hf
  exact ⟨hr, back ++ more, List.append_assoc ..⟩

/-- a call that is not refused has filled in the containers it began -/
def Fills {α : Type} (xs : List Moment) (s : Sent α) : Prop :=
  ∀ b, s.result = .ok b → ∀ x ∈ xs, x.Complete s.writer.written

namespace Fills

variable {α β : Type} {xs : List Moment} {s : Sent α}

theorem nil (s : Sent α) : Fills [] s :=
  fun _ _ _ hx => nomatch hx

/-- moments at which no container is begun do not count -/
theorem cons {d : Deed} (hd : ∀ f, d ≠ .container f) (w : Writer) (i : Option Int16) (h : Fills xs s) :
    Fills (⟨d, w, i⟩ :: xs) s := by
  intro b hb x hx
  rcases List.mem_cons.1 hx with rfl | hx
  · exact fun f hf => absurd hf (hd f)
  · exact h b hb x hx

theorem map (h : Fills xs s) (f : α → β) : Fills xs (s.map f) :=
  h

theorem bind (h : Fills xs s) {ys : Writer → List Moment} {next : α → Writer → Sent β} {stop : α → β}
    (hn : s.result = .ok true →
      Fills (ys s.writer) (next s.left s.writer) ∧ Keeps s.writer (next s.left s.writer).writer) :
    Fills (xs ++ s.onward ys) (s.bind next stop) := by
  intro b hb x hx
  by_cases hr : s.result = .ok true
  · rw [Sent.bind_of_done hr] at hb ⊢
    rw [Sent.onward_of_done hr] at hx
    obtain ⟨hys, hkeeps⟩ := hn hr
    rcases List.mem_append.1 hx with hx | hx
    · obtain ⟨more, hmore⟩ := hkeeps.written_append
      rw [hmore]
      exact (h true hr x hx).append more
    · exact hys b hb x hx
  · rw [Sent.bind_of_ne hr] at hb ⊢
    rw [Sent.onward_of_ne hr, List.append_nil] at hx
    exact h b hb x hx

/-- a call that passes on one that has filled in its containers -/
theorem relay (h : Fills xs s) {t : Sent β} (ht : Relays s t) : Fills xs t := by
  intro b hb x hx
  obtain ⟨c, hc⟩ := ht.ended b hb
  rw [ht.written b hb]
  exact h c hc x hx

theorem whole (h : Fills xs s) (type : Int16) (w : Writer) :
    Fills (xs.map (.below type)) (sent () (fun _ => Writer.whole type s) w) := by
  intro b hb y hy
  obtain ⟨x, hx, rfl⟩ := List.mem_map.1 hy
  exact h.relay (relays_whole s type w) b hb x hx

/-- a container itself, begun where nothing is in progress below -/
theorem container {f : Field} (hf : f.resumable = true) {w : Writer} (hw : w.Inside) (hs : w.nesting.view.Shallow)
    (hne : (f.write w).result ≠ .ok false) (h : Fills xs (f.write w)) :
    Fills (⟨.container f, w, none⟩ :: xs) (f.write w) := by
  intro b hb x hx
  rcases List.mem_cons.1 hx with rfl | hx
  · intro g hg
    obtain rfl : f = g := Deed.container.inj hg
    have hdone : (f.write w).result = .ok true := by
      cases b with
      | true => exact hb
      | false => exact absurd hb hne
    have htells := (f.carries hw).tells_of_ok hdone
    have hr := htells.result.symm.trans hdone
    refine ⟨hdone, [], ?_⟩
    rw [htells.written true hr, f.out_of_shallow hf hs hr, List.append_nil]
    rfl
  · exact h b hb x hx

/-- the fields hang where the cursor stands, and behind a field that has come to its end nothing is in progress -/
theorem fields {fs : List Field} (hr : ∀ f ∈ fs, f.resumable = true)
    (h : ∀ f ∈ fs, ∀ w : Writer, w.Inside → f.Hangs w.nesting.view → Fills (f.moments w) (f.write w)) (k : Nat)
    (grant : Grant) {w : Writer} (hw : w.Inside) (hk : k ≤ w.cursor) (hs : Field.HangsAt k fs w.nesting.view) :
    Fills (Field.momentsAll k grant fs w) (Field.writeAll k grant fs w) := by
  induction fs generalizing k grant w with
  | nil => exact nil _
  | cons f fs ih =>
    have hrest := ih (fun f hf => hr f (List.mem_cons_of_mem _ hf)) fun f hf => h f (List.mem_cons_of_mem _ hf)
    have hcur : w.nesting.view.cursor = w.cursor := w.nesting.cursor_view
    rw [Field.momentsAll, Field.writeAll_cons]
    split
    · rename_i hc
      cases spend grant with
      | none => exact nil _
      | some grant =>
        have hf : f.Hangs w.nesting.view := hs.head (hcur.trans hc)
        have hres := hr f List.mem_cons_self
        refine (h f List.mem_cons_self w hw hf).bind fun hdone => ?_
        have hcarry := f.carries hw
        have htells := hcarry.tells_of_ok hdone
        have hdone' := htells.result.symm.trans hdone
        have hinc := keeps_increment hcarry.keeps.inside
        have hlevels : ((f.write w).writer.onNesting .increment).nesting.view =
            (f.dispatch w.order w.nesting.view).levels.increment :=
          ((f.write w).writer.nesting.view_increment).trans (congrArg Levels.increment htells.levels)
        have hshallow := (((Dispatch.trail_step w.order).all.2.1 f hres _ hf).done hdone').update
          { (f.dispatch w.order w.nesting.view).levels.current with
            cursor := (f.dispatch w.order w.nesting.view).levels.cursor + 1 }
        have hnext : k + 1 ≤ ((f.write w).writer.onNesting .increment).cursor := by
          have hspare := (Dispatch.spares_field w.order hres w.nesting.view).cursor
          change k + 1 ≤ ((f.write w).writer.onNesting .increment).nesting.cursor
          rw [← Nesting.cursor_view, hlevels, Levels.cursor_increment, hspare, hcur, hc]
        refine ⟨(hrest (k + 1) grant hinc.inside hnext (.inl ?_)).map _, hinc.trans ?_⟩
        · rw [hlevels]
          exact hshallow
        · exact (carries_fields (fun f _ w hw => f.carries hw) (k + 1) grant hinc.inside).keeps
    · rename_i hc
      exact (hrest (k + 1) grant hw (by omega) (hs.tail (by rwa [hcur]))).map _

/-- behind an item that has come to its end nothing is in progress below -/
theorem shallow_value {v : Value} (hv : v.resumable = true) (t : ItemType) {w : Writer} (hw : w.Inside)
    (hs : w.nesting.view.Shallow) (hdone : (sent () (v.write t) w).result = .ok true) :
    (sent () (v.write t) w).writer.nesting.view.Shallow := by
  have htells := (v.carries t hw).tells_of_ok hdone
  rw [htells.levels]
  exact (v.tidy hv w.order t _ hs (htells.result.symm.trans hdone)).1

theorem values {vs : List Value} (hr : ∀ v ∈ vs, v.resumable = true) {t : ItemType}
    (h : ∀ v ∈ vs, ∀ w : Writer, w.Inside → w.nesting.view.Shallow → Fills (v.moments t w) (sent () (v.write t) w))
    {w : Writer} (hw : w.Inside) (hs : w.nesting.view.Shallow) :
    Fills (Value.momentsAll t vs w) (sent () (Value.writeAll t vs) w) := by
  induction vs generalizing w with
  | nil => exact nil _
  | cons v vs ih =>
    rw [Value.momentsAll, Value.writeAll, sent_bind]
    refine (h v List.mem_cons_self w hw hs).bind fun hdone => ?_
    have hi := (v.carries t hw).keeps.inside
    exact ⟨ih (fun v hv => hr v (List.mem_cons_of_mem _ hv)) (fun v hv => h v (List.mem_cons_of_mem _ hv)) hi
        (shallow_value (hr v List.mem_cons_self) t hw hs hdone),
      (carries_values (fun v _ t w hw => v.carries t hw) t hi).keeps⟩

theorem entries {es : List (Value × Value)} (hr : ∀ e ∈ es, e.1.resumable = true ∧ e.2.resumable = true)
    {kt vt : ItemType}
    (h : ∀ e ∈ es, (∀ w : Writer, w.Inside → w.nesting.view.Shallow →
        Fills (e.1.moments kt w) (sent () (e.1.write kt) w)) ∧
      ∀ w : Writer, w.Inside → w.nesting.view.Shallow → Fills (e.2.moments vt w) (sent () (e.2.write vt) w))
    {w : Writer} (hw : w.Inside) (hs : w.nesting.view.Shallow) :
    Fills (Value.momentsEntries kt vt es w) (sent () (Value.writeEntries kt vt es) w) := by
  induction es generalizing w with
  | nil => exact nil _
  | cons e es ih =>
    obtain ⟨k, v⟩ := e
    obtain ⟨hk, hv⟩ := h (k, v) List.mem_cons_self
    obtain ⟨hrk, hrv⟩ := hr (k, v) List.mem_cons_self
    rw [Value.momentsEntries, Value.writeEntries, sent_bind]
    refine (hk w hw hs).bind fun hdone => ?_
    have hki := (k.carries kt hw).keeps.inside
    have hks := shallow_value hrk kt hw hs hdone
    rw [sent_bind]
    have hvk := v.carries vt hki
    have hrest := carries_entries
      (fun e (_ : e ∈ es) => ⟨fun t w hw => e.1.carries t hw, fun t w hw => e.2.carries t hw⟩) kt vt hvk.keeps.inside
    refine ⟨(hv _ hki hks).bind fun hdone => ⟨?_, hrest.keeps⟩, ?_⟩
    · exact ih (fun e he => hr e (List.mem_cons_of_mem _ he)) (fun e he => h e (List.mem_cons_of_mem _ he)) hvk.keeps.inside
        (shallow_value hrv vt hki hks hdone)
    · by_cases hd : (sent () (v.write vt) (sent () (k.write kt) w).writer).result = .ok true
      · rw [Sent.bind_of_done hd]
        exact hvk.keeps.trans hrest.keeps
      · rw [Sent.bind_of_ne hd]
        exact hvk.keeps

/-- the fields of a message are gone over once -/
theorem passes {fields : List Field} (hr : ∀ f ∈ fields, f.resumable = true) {grant : Grant} {w : Writer}
    (hw : w.Inside) (h : Fills (Field.momentsAll 0 grant fields w) (Field.writeAll 0 grant fields w)) :
    Fills (passMoments fields grant w) (passes fields grant w) := by
  have hcarry := carries_fields (fun f (_ : f ∈ fields) w hw => f.carries hw) 0 grant hw
  have honce : (Field.writeAll 0 grant fields w).result = .ok true →
      ¬ (Field.writeAll 0 grant fields w).writer.cursor < fields.length := by
    intro hdone
    have htells := hcarry.tells_of_ok hdone
    have hlast := (Dispatch.advances_fields w.order hr 0 grant (Nat.zero_le _)).last (htells.result.symm.trans hdone)
    have hcur := Nesting.cursor_view (Field.writeAll 0 grant fields w).writer.nesting
    rw [htells.levels] at hcur
    change ¬ (Field.writeAll 0 grant fields w).writer.nesting.cursor < _
    omega
  have hlaps : (Field.writeAll 0 grant fields w).laps fields.length (fun grant w => Field.writeAll 0 grant fields w)
      (fun grant w => Field.momentsAll 0 grant fields w) grant.rounds = [] := by
    cases grant.rounds with
    | zero => rfl
    | succ k =>
      rw [Sent.laps]
      by_cases hdone : (Field.writeAll 0 grant fields w).result = .ok true
      · rw [Sent.onward_of_done hdone, if_neg (honce hdone)]
      · rw [Sent.onward_of_ne hdone]
  have hrounds : Writer.passes fields grant w = Field.writeAll 0 grant fields w := by
    unfold Writer.passes
    cases grant.rounds <;> unfold rounds <;> split
    all_goals first
      | rfl
      | rename_i hdone
        rw [if_neg (honce hdone)]
  rwa [passMoments, hlaps, List.append_nil, hrounds]

theorem message (kind : MessageKind) {fields : List Field} (pauses : List Nat)
    (hr : ∀ f ∈ fields, f.resumable = true)
    (h : ∀ f ∈ fields, ∀ w : Writer, w.Inside → f.Hangs w.nesting.view → Fills (f.moments w) (f.write w)) {w : Writer}
    (hw : w.Inside) {k : Nat} (hk : (Message.mk kind fields pauses).Chain w.nesting.level w.depth k) :
    Fills ((Message.mk kind fields pauses).moments w) ((Message.mk kind fields pauses).write w) := by
  have hgo : ∀ (g : Grant) (v : Writer), v.Inside → Field.HangsAt 0 fields v.nesting.view →
      Fills (passMoments fields g v) (Writer.passes fields g v) :=
    fun g v hv hs => passes hr hv (Fills.fields hr h 0 g hv (Nat.zero_le _) hs)
  rw [Message.moments_eq]
  refine cons (by simp) _ _ ?_
  rw [Message.onward, Message.write_mk]
  split
  · exact (hgo _ w hw (Dispatch.hangsAt_of_chain hk)).map _
  · rename_i hhead
    cases spend pauses.head? with
    | none => exact nil _
    | some grant =>
      have hcarry := carries_header kind.type hw
      refine cons (by simp) _ _ ((nil (header kind.type w)).bind fun hdone => ?_)
      have hi := hcarry.keeps.inside
      have hrest := carries_fields (fun f (_ : f ∈ fields) w hw => f.carries hw) 0 grant hi
      -- where the header is not out yet, nothing is in progress below
      have hshallow : w.nesting.view.Shallow := by
        rcases hk.split with hclear | ⟨header, -⟩
        · exact hclear
        · refine absurd ?_ hhead
          change w.nesting.current.headerWritten = true
          rwa [Nesting.current_eq_level]
      refine ⟨(hgo grant _ hi (.inl ?_)).map _, ?_⟩
      · rw [(hcarry.tells_of_ok hdone).levels]
        exact hshallow.update _
      · exact (hrest.rounds (fun g v hv ho => ho ▸ carries_fields (fun f _ w hw => f.carries hw) 0 g hv) _).keeps

end Fills

/-- a call that is not refused has filled in its containers, through all of a message that can be gone on with -/
theorem fills_step :
    Tree.Step
      (fun m => m.resumable = true → ∀ w : Writer, w.Inside → ∀ k, m.Chain w.nesting.level w.depth k →
        Fills (m.moments w) (m.write w))
      (fun f => f.resumable = true → ∀ w : Writer, w.Inside → f.Hangs w.nesting.view → Fills (f.moments w) (f.write w))
      fun v => v.resumable = true → ∀ t, ∀ w : Writer, w.Inside → w.nesting.view.Shallow →
        Fills (v.moments t w) (sent () (v.write t) w) where
  message kind fields pauses h hr w hw k hk := by
    rw [Message.resumable, Field.resumableAll_iff] at hr
    exact Fills.message kind pauses hr (fun f hf => h f hf (hr f hf)) hw hk
  plain f hf _ w _ _ := by
    rw [Field.moments_plain hf]
    exact .cons (by simp) _ _ (.nil _)
  item t v h hr w hw hs := by
    have hshallow := hs.shallow rfl
    refine .container hr hw hshallow (by rw [Field.write]; exact result_sent_ne _ _ _) ?_
    rw [Field.write_item]
    exact (h hr t w hw hshallow).map _
  items way t vs h hr w hw hs := by
    have hshallow := hs.shallow rfl
    have hvs := (Value.resumableAll_iff vs).1 hr
    have hcarry := Carries.ofLayout (lays_writeCount way t vs.length) hw ()
    rw [Field.moments]
    refine .container hr hw hshallow (by rw [Field.write]; exact result_sent_ne _ _ _) ?_
    rw [Field.write_items]
    refine .cons (by simp) _ _ (.map (.bind (.nil _) fun hdone => ⟨?_, ?_⟩) _)
    · refine .values hvs (fun v hv => h v hv (hvs v hv) t) hcarry.keeps.inside ?_
      have htells := hcarry.tells_of_ok hdone
      rw [htells.levels, (Dispatch.ofLayout_done (htells.result.symm.trans hdone)).2.1]
      exact hshallow
    · exact (carries_values (fun v _ t w hw => v.carries t hw) t hcarry.keeps.inside).keeps
  map kt vt linked es h hr w hw hs := by
    have hshallow := hs.shallow rfl
    have hes := (Value.resumableEntries_iff es).1 hr
    have hcarry := Carries.ofLayout (Lays.count es.length Lays.done).alone hw ()
    rw [Field.moments]
    refine .container hr hw hshallow (by rw [Field.write]; exact result_sent_ne _ _ _) ?_
    rw [Field.write_map]
    refine .cons (by simp) _ _ (.map (.bind (.nil _) fun hdone => ⟨?_, ?_⟩) _)
    · refine .entries hes (fun e he => ⟨(h e he).1 (hes e he).1 kt, (h e he).2 (hes e he).2 vt⟩) hcarry.keeps.inside ?_
      have htells := hcarry.tells_of_ok hdone
      rw [htells.levels, (Dispatch.ofLayout_done (htells.result.symm.trans hdone)).2.1]
      exact hshallow
    · exact (carries_entries (fun e _ => ⟨fun t w hw => e.1.carries t hw, fun t w hw => e.2.carries t hw⟩) kt vt
        hcarry.keeps.inside).keeps
  nested m h hr w hw hs := by
    have hi : (enter w).Inside := hw
    obtain ⟨k, hk⟩ := hs.chain
    rw [← w.nesting.view_forward] at hk
    rw [Field.moments, Field.write]
    exact ((h hr _ hi k hk).relay (relays_leave _)).map (Field.message ∘ some)
  root m h hr := by cases hr
  null _ t w _ _ := by
    rw [Value.moments]
    split
    · exact .cons (by simp) _ _ (.nil _)
    · exact .nil _
  data d _ t w _ _ := by
    rw [Value.moments]
    split
    · exact .cons (by simp) _ _ (.nil _)
    · exact .nil _
  inner m h hr t w hw hs := by
    have hi : (enter w).Inside := hw
    have hforward : (enter w).nesting.view = w.nesting.view.forward := w.nesting.view_forward
    rw [Value.moments]
    split
    · rename_i ht
      rw [Value.write_message ht]
      have hshallow : (enter w).nesting.view.Shallow := by
        rw [hforward]
        exact hs.forward
      exact ((h hr _ hi _ (.last m _ hshallow)).relay (relays_leave _)).whole m.type w
    · exact .nil _

/-! ## Whole calls -/

namespace Writer

/-- what a call on a message comes to that starts in `w` and calls the message in `v`. Where nothing is in progress but
what earlier calls have left, containers are whole, and a suspended call can be gone on with in the same way. -/
structure Contained (m : Message) (v w : Writer) (s : Sent Message) : Prop where
  depth : s.writer.depth = w.depth
  refused : ∀ x ∈ m.moments v, x.Suspends → ∀ type, x.item = some type →
    s.result = .error (.error (.suspendedInCollection type)) ∧ s.writer.failed = true
  complete : ∀ k, m.Chain v.nesting.level v.depth k → ∀ b, s.result = .ok b →
    ∀ x ∈ m.moments v, x.Complete s.writer.written
  resumed : ∀ k, m.Chain v.nesting.level v.depth k → s.result = .ok false →
    ∃ k, s.left.Chain s.writer.nesting.level v.depth k

/-- a call that suspends leaves a chain of what is left of its message -/
theorem chain_left {m : Message} (hm : m.resumable = true) {w : Writer} (hw : w.Inside) {k : Nat}
    (hk : m.Chain w.nesting.level w.depth k) (hr : (m.write w).result = .ok false) :
    ∃ k, (m.write w).left.Chain (m.write w).writer.nesting.level w.depth k := by
  have htells := (m.carries hw).tells_of_ok hr
  obtain ⟨j, hj⟩ := (m.trail hm w.order (s := w.nesting.view) hk).paused (htells.result.symm.trans hr)
  refine ⟨j, ?_⟩
  rw [htells.left]
  have hlevel : (m.write w).writer.nesting.level = (m.dispatch w.order w.nesting.view).levels.level :=
    congrArg Levels.level htells.levels
  rw [hlevel]
  exact hj.congr (m.steady_left w.order w.nesting.view).symm

theorem contained_root {m : Message} (hm : m.resumable = true) {w : Writer} (hw : w.Inside) :
    Contained m w w (w.writeRoot m) := by
  refine ⟨(carries_writeRoot m hw).keeps.depth, fun x hx hs type hi => ?_, fun k hk b hb => ?_, fun k hk hb => ?_⟩
  · have hr := decides_step.all.1 m hm w hw x hx hs
    rw [Moment.verdict, hi] at hr
    have hroot : (w.writeRoot m).result = .error (.error (.suspendedInCollection type)) := by
      rw [writeRoot, settle_eq, hr]
    exact ⟨hroot, writeRoot_marks m hw hroot⟩
  · exact (fills_step.all.1 m hm w hw k hk).relay (relays_settle _) b hb
  · obtain ⟨hr, hsame⟩ := settle_suspended hb
    rw [writeRoot, hsame]
    exact chain_left hm hw hk hr

theorem contained_message {m : Message} (hm : m.resumable = true) {w : Writer} (hw : w.Inside) :
    Contained m (enter w) w (w.writeMessage m) := by
  have hi : (enter w).Inside := hw
  have hd : (m.write (enter w)).writer.depth ≠ 0 := by
    rw [depth_below m hw]
    exact Nat.succ_ne_zero _
  refine ⟨(m.carries hi).leave.keeps.depth, fun x hx hs type ht => ?_, fun k hk => ?_, fun k hk hb => ?_⟩
  · have hr := (decides_step.all.1 m hm _ hi).leave hd x hx hs
    rw [Moment.verdict, ht] at hr
    exact ⟨hr, writeMessage_marks m hw hr⟩
  · exact (fills_step.all.1 m hm _ hi k hk).relay (relays_leave _)
  · have hr := (result_leave hd).symm.trans hb
    have hleave := leave_eq hd
    rw [hr] at hleave
    rw [writeMessage, hleave]
    have hlevel : ((m.write (enter w)).writer.nesting.retreat false).level = (m.write (enter w)).writer.nesting.level :=
      congrArg Levels.level ((m.write (enter w)).writer.nesting.view_retreat false)
    change ∃ k, (m.write (enter w)).left.Chain ((m.write (enter w)).writer.nesting.retreat false).level _ k
    rw [hlevel]
    exact chain_left hm hi hk hr

/-- **Suspension below a container is refused, and no item is cut off.** In any call on the outermost message or on a
nested one, of any message that can be gone on with and whatever its pauses are: where a message suspends below an item,
the call is refused with the direct type of the item of the innermost container around that message, and the session is
marked failed; a call that is not refused has written each container that it began in full, exactly as the container is
put out by itself. The depth is what it was in either case. -/
theorem suspension_contained {m : Message} (hm : m.resumable = true) {w : Writer} (hw : w.Inside) :
    Contained m w w (w.writeRoot m) ∧ Contained m (enter w) w (w.writeMessage m) :=
  ⟨contained_root hm hw, contained_message hm hw⟩

/-- a message that suspends behind its header, the first time -/
def hesitant : Message :=
  .mk (.record 6) [.data (.byte 5)] [1]

/-- a message that suspends, and behind it lists whose items hold one more that does -/
def crate (inner : Message) : Message :=
  .record 9 [.message (some hesitant),
    .items .list .message [.message (.record 8 [.items .array .message [.message (.record 7 [.message (some inner)])]])]]

/-- an empty session -/
def emptySession : Writer where
  frame := Frame.empty
  scratch := .zeros 16
  nesting := .ofCapacity 1
  order := .big
  failed := false

/-- the session and the message as the first call has left them -/
def halfway (inner : Message) : Sent Message :=
  emptySession.writeRoot (crate inner)

theorem halfway_inside (inner : Message) : (halfway inner).writer.Inside :=
  (carries_writeRoot (crate inner) (w := emptySession) (Nat.zero_le _)).keeps.inside

/-- the item of a list within a list, and a message in it that suspends: the call that comes to it is refused. The same
with a message in its place that does not suspend comes to its end, and all of the lists are there. -/
theorem hesitant_item_contained :
    (∃ x ∈ (halfway hesitant).left.moments (halfway hesitant).writer, x.Suspends ∧ x.item = some 7) ∧
    ((halfway hesitant).writer.writeRoot (halfway hesitant).left).result =
      .error (.error (.suspendedInCollection 7)) ∧
    ((halfway (.leaf 1 none)).writer.writeRoot (halfway (.leaf 1 none)).left).result = .ok true ∧
    ∀ x ∈ (halfway (.leaf 1 none)).left.moments (halfway (.leaf 1 none)).writer,
      x.Complete ((halfway (.leaf 1 none)).writer.writeRoot (halfway (.leaf 1 none)).left).writer.written := by
  obtain ⟨x, hget, hsuspends, hitem⟩ : ∃ x, ((halfway hesitant).left.moments (halfway hesitant).writer)[11]? = some x ∧
      x.Suspends ∧ x.item = some 7 := ⟨_, rfl, ⟨hesitant, rfl, by decide +kernel⟩, rfl⟩
  have hx := List.mem_of_getElem? hget
  have hrefused := (suspension_contained (m := (halfway hesitant).left) (by decide +kernel)
    (halfway_inside hesitant)).1.refused x hx hsuspends 7 hitem
  have hdone : ((halfway (.leaf 1 none)).writer.writeRoot (halfway (.leaf 1 none)).left).result = .ok true := by
    decide +kernel
  -- the first call leaves a chain, since it starts where nothing is in progress
  obtain ⟨k, hk⟩ := (suspension_contained (m := crate (.leaf 1 none)) (w := emptySession) (by decide +kernel)
    (Nat.zero_le _)).1.resumed 0 (.last _ _ fun i _ => by
      rw [← Nesting.level_view, emptySession, Nesting.view_ofCapacity, Levels.fresh]) (by decide +kernel)
  refine ⟨⟨x, hx, hsuspends, hitem⟩, hrefused.1, hdone, ?_⟩
  exact (suspension_contained (m := (halfway (.leaf 1 none)).left) (by decide +kernel)
    (halfway_inside (.leaf 1 none))).1.complete k hk true hdone

end Writer

end Courier
