import Courier.Proofs.Alike
import Courier.Proofs.LevelsUnread
import Courier.Proofs.Refusals

/-!
Sessions of handlers that differ in their buffers only.

`Handler.Alike` are handlers of the same settings and the same progress: which buffers they keep and how many levels
they have allocated may differ. A cache is `Modest` if it keeps no buffer that is larger than a session can make one;
then every session can make the same room, whatever buffer it starts with.

`Twin` sessions are alike and have written the same, unless they have failed. `Desk.writeActs_twin` says that the acts
of a session are answered alike by twins and leave twins; `Desk.readKinds_alike` and `Desk.trials_alike` are the same
for read sessions.
-/

namespace Courier

open Writer

/-! ## Caches -/

namespace BufferCache

/-- no buffer in the cache is larger than a session can make one -/
def Modest (c : BufferCache) : Prop :=
  ∀ buf, c.slot = some buf → buf.capacity ≤ maxBufferSize

variable {c : BufferCache}

theorem modest_of_empty (h : c.slot = none) : c.Modest := by
  intro buf hb
  rw [h] at hb
  cases hb

theorem capacity_acquire (h : c.Modest) {least : Nat} (hl : least ≤ maxBufferSize) :
    (c.acquire least).1.capacity ≤ maxBufferSize := by
  unfold acquire
  cases hs : c.slot with
  | none => exact hl
  | some buf =>
    change (if least ≤ buf.capacity then buf else .zeros least).capacity ≤ maxBufferSize
    split
    · exact h buf hs
    · exact hl

theorem modest_acquire (c : BufferCache) (least : Nat) : (c.acquire least).2.Modest := by
  unfold acquire
  cases c.slot <;> exact modest_of_empty rfl

theorem Modest.release (h : c.Modest) {buf : Scratch} (hb : buf.capacity ≤ maxBufferSize) :
    (c.release buf).Modest := by
  unfold BufferCache.release
  split
  · exact h
  · intro buf' h'
    obtain rfl := Option.some.inj h'
    exact hb

theorem Modest.setMaxRetained (h : c.Modest) (n : Nat) : (c.setMaxRetained n).Modest := by
  unfold BufferCache.setMaxRetained
  cases hs : c.slot with
  | none => exact modest_of_empty rfl
  | some buf =>
    intro buf' h'
    dsimp only at h'
    split at h'
    · cases h'
    · obtain rfl := Option.some.inj h'
      exact h _ hs

theorem Modest.releaseWithin (h : c.Modest) (n : Nat) {buf : Scratch} (hb : buf.capacity ≤ maxBufferSize) :
    (c.releaseWithin n buf).Modest :=
  (h.setMaxRetained n).release hb

end BufferCache

/-! ## Handlers and benches -/

namespace Handler

/-- a handler as one can become: its settings are within their bounds, its levels can be allocated anew, its cache is
modest -/
structure Proper (h : Handler) : Prop where
  normal : h.config.normalize = h.config
  levels : max h.config.initialStateDepth 1 * Nesting.levelSize ≤ maxAllocation
  modest : h.cache.Modest

/-- handlers of the same settings and the same progress -/
structure Alike (h g : Handler) : Prop where
  factory : h.factory = g.factory
  config : h.config = g.config
  levels : h.nesting.view = g.nesting.view

theorem Alike.refl (h : Handler) : Alike h h :=
  ⟨rfl, rfl, rfl⟩

/-- handlers of the same progress that put bytes the same way: nothing is said of sizes, of scopes and of buffers -/
structure Kin (h g : Handler) : Prop where
  factory : h.factory = g.factory
  order : h.config.byteOrder = g.config.byteOrder
  maxLength : h.config.maxLength = g.config.maxLength
  levels : h.nesting.view = g.nesting.view

theorem Alike.kin {h g : Handler} (hg : Alike h g) : Kin h g :=
  ⟨hg.factory, congrArg Config.byteOrder hg.config, congrArg Config.maxLength hg.config, hg.levels⟩

theorem Proper.initialBufferSize_le {h : Handler} (hp : h.Proper) : h.config.initialBufferSize ≤ maxBufferSize := by
  rw [← hp.normal]
  exact Nat.min_le_right ..

/-- a handler that has just been built is proper, and clear -/
theorem proper_build {factory : Factory} {config : Config} {h : Handler} (hb : build factory config = some h) :
    h.Proper ∧ h.factory = factory ∧ h.config = config.normalize ∧ h.nesting.view = .fresh := by
  simp only [build, Nesting.allocate?, Option.map_eq_some_iff] at hb
  obtain ⟨n, hn, rfl⟩ := hb
  split at hn
  · rename_i hl
    obtain rfl := Option.some.inj hn
    refine ⟨⟨?_, hl, BufferCache.modest_of_empty rfl⟩, rfl, rfl, Nesting.view_ofCapacity _⟩
    have : 1 ≤ maxBufferSize := by decide
    simp only [Config.normalize]
    congr 1 <;> omega
  · cases hn

/-- a proper handler can be built anew, and that changes its progress and its buffers only -/
theorem Proper.build {h : Handler} (hp : h.Proper) :
    ∃ g, Handler.build h.factory h.config = some g ∧ g.Proper ∧ (h.nesting.view = .fresh → Alike h g) := by
  have hb : Handler.build h.factory h.config =
      some ⟨h.factory, h.config, .ofCapacity h.config.initialStateDepth, .ofMax h.config.maxCachedBuffer⟩ := by
    simp only [Handler.build, Nesting.allocate?, hp.normal, if_pos hp.levels, Option.map_some]
  obtain ⟨hg, -⟩ := proper_build hb
  exact ⟨_, hb, hg, fun hf => ⟨rfl, rfl, hf.trans (Nesting.view_ofCapacity _).symm⟩⟩

end Handler

namespace Bench

/-- a bench of a proper handler, where the shared cache is modest too -/
structure Proper (b : Bench) : Prop where
  handler : b.handler.Proper
  shared : b.shared.Modest

/-- proper benches with alike handlers and the same frame -/
structure Alike (b c : Bench) : Prop where
  handler : b.handler.Alike c.handler
  frame : b.frame = c.frame
  left : b.Proper
  right : c.Proper

/-- benches of such handlers with the same frame -/
structure Kin (b c : Bench) : Prop where
  handler : b.handler.Kin c.handler
  frame : b.frame = c.frame

theorem Proper.capacity_acquire {b : Bench} (h : b.Proper) : b.acquire.1.capacity ≤ maxBufferSize := by
  unfold acquire
  cases b.handler.config.cacheScope with
  | handler => exact BufferCache.capacity_acquire h.handler.modest h.handler.initialBufferSize_le
  | thread => exact BufferCache.capacity_acquire h.shared h.handler.initialBufferSize_le

theorem Proper.acquire {b : Bench} (h : b.Proper) : b.acquire.2.Proper := by
  unfold Bench.acquire
  cases b.handler.config.cacheScope with
  | handler => exact ⟨⟨h.handler.normal, h.handler.levels, BufferCache.modest_acquire _ _⟩, h.shared⟩
  | thread => exact ⟨h.handler, BufferCache.modest_acquire _ _⟩

theorem Proper.release {b : Bench} (h : b.Proper) {buf : Scratch} (hb : buf.capacity ≤ maxBufferSize) :
    (b.release buf).Proper := by
  unfold Bench.release
  cases b.handler.config.cacheScope with
  | handler => exact ⟨⟨h.handler.normal, h.handler.levels, h.handler.modest.release hb⟩, h.shared⟩
  | thread => exact ⟨h.handler, h.shared.releaseWithin _ hb⟩

/-- a bench with another frame and other levels in place -/
theorem Proper.settle {b : Bench} (h : b.Proper) (nesting : Nesting) (frame : Frame) :
    Proper { b with handler := { b.handler with nesting := nesting }, frame := frame } :=
  ⟨⟨h.handler.normal, h.handler.levels, h.handler.modest⟩, h.shared⟩

theorem Alike.withFrame {b c : Bench} (h : b.Alike c) (frame : Frame) :
    Alike { b with frame := frame } { c with frame := frame } :=
  ⟨h.handler, rfl, ⟨h.left.handler, h.left.shared⟩, ⟨h.right.handler, h.right.shared⟩⟩

end Bench

/-! ## Write sessions -/

/-- sessions that are alike and have written the same, unless they have failed -/
structure Twin (w v : Writer) : Prop extends Writer.Alike w v where
  frame : w.frame = v.frame
  written : w.failed = false → w.written = v.written
  left_modest : w.capacity ≤ maxBufferSize
  right_modest : v.capacity ≤ maxBufferSize

theorem Bench.Proper.capacity_openWrite {b : Bench} (h : b.Proper) : b.openWrite.1.capacity ≤ maxBufferSize := by
  rw [openWrite_eq]
  exact h.capacity_acquire

theorem Bench.Proper.openWrite {b : Bench} (h : b.Proper) : b.openWrite.2.Proper := by
  rw [openWrite_eq]
  exact ⟨h.acquire.handler, h.acquire.shared⟩

theorem Bench.Alike.openWrite {b c : Bench} (h : b.Alike c) : b.openWrite.2.Alike c.openWrite.2 where
  handler := by
    refine ⟨?_, ?_, ?_⟩
    · rw [factory_openWrite, factory_openWrite, h.handler.factory]
    · rw [config_openWrite, config_openWrite, h.handler.config]
    · rw [openWrite_eq, openWrite_eq]
      dsimp only
      rw [nesting_acquire, nesting_acquire, h.handler.levels]
  frame := by
    rw [openWrite_eq, openWrite_eq]
    exact congrArg Frame.beginWrite h.frame
  left := h.left.openWrite
  right := h.right.openWrite

theorem Bench.Alike.twin_openWrite {b c : Bench} (h : b.Alike c) : Twin b.openWrite.1 c.openWrite.1 where
  position := by rw [position_openWrite, position_openWrite]
  order := by rw [order_openWrite, order_openWrite, h.handler.config]
  failed := by rw [failed_openWrite, failed_openWrite]
  levels := by rw [nesting_openWrite, nesting_openWrite, h.handler.levels]
  room := by
    have hb := h.left.capacity_openWrite
    have hc := h.right.capacity_openWrite
    omega
  left_inside := b.inside_openWrite
  right_inside := c.inside_openWrite
  frame := by rw [frame_openWrite, frame_openWrite, h.frame]
  written _ := by rw [written_openWrite, written_openWrite]
  left_modest := h.left.capacity_openWrite
  right_modest := h.right.capacity_openWrite

namespace Twin

variable {w v : Writer}

/-- the buffers that acts leave behind are no larger than a session can make one -/
theorem modest {u : Writer} (h : u.capacity ≤ maxBufferSize) {w : Writer} (hk : Keeps u w) :
    w.capacity ≤ maxBufferSize :=
  calc w.capacity ≤ max u.capacity maxBufferSize := hk.capacity_le_max
    _ ≤ maxBufferSize := Nat.max_le.2 ⟨h, Nat.le_refl _⟩

/-- what an act has put out that leaves no mark -/
theorem written_act (l : Layout) {w : Writer} (hw : w.Inside) (hf : (sent () l.run w).writer.failed = false) :
    w.failed = false ∧ (sent () l.run w).writer.written = w.written ++ (l.output w.order).bytes := by
  have h := l.goes hw
  unfold sent at hf ⊢
  generalize l.run w = x at h hf
  generalize l.result = res at h
  rcases h with ⟨-, -, -, failed, -, written⟩ | ⟨-, -, -, failed, -⟩ | ⟨-, -, -, failed⟩
  · exact ⟨failed.symm.trans hf, written⟩
  · exact absurd hf (by rw [failed]; decide)
  · exact absurd hf (by rw [failed]; decide)

theorem layout (h : Twin w v) (l : Layout) : Abreast Twin (sent () l.run w) (sent () l.run v) := by
  have hboth := parallel_alike.layout l h.toAlike
  have hw := keeps_act l h.left_inside
  have hv := keeps_act l h.right_inside
  refine ⟨hboth.result, hboth.left, hboth.writer, ?_, fun hf => ?_, modest h.left_modest hw, modest h.right_modest hv⟩
  · rw [hw.frame, hv.frame, h.frame, hboth.writer.position]
  · obtain ⟨hc, hout⟩ := written_act l h.left_inside hf
    obtain ⟨-, hout'⟩ := written_act l h.right_inside (hboth.writer.failed ▸ hf)
    rw [hout, hout', h.written hc, h.order]

end Twin

/-- **Acts keep twins**, be they refused or not. -/
theorem parallel_twin : Parallel Twin where
  order h := h.order
  levels h := h.levels
  layout l _ _ h := h.layout l
  mark h := ⟨parallel_alike.mark h.toAlike, h.frame, nofun, h.left_modest, h.right_modest⟩
  onNesting h _ _ hf :=
    ⟨parallel_alike.onNesting h.toAlike hf, h.frame, h.written, h.left_modest, h.right_modest⟩

/-- replies that are the same, but for the capacity that a session tells of itself -/
inductive WriteReply.Alike : WriteReply → WriteReply → Prop
  | same (r : WriteReply) : Alike r r
  | text {w v : Writer} (h : Writer.Alike w v) : Alike (.text w.debugText) (.text v.debugText)

/-- sessions that stand alike after acts that were answered alike -/
structure Written.Alike (x y : Written) : Prop where
  reply : x.reply.Alike y.reply
  position : x.position = y.position
  depth : x.depth = y.depth
  cursor : x.cursor = y.cursor
  headerWritten : x.headerWritten = y.headerWritten
  failed : x.failed = y.failed

theorem Written.alike_of {x y : WriteReply} (hr : x.Alike y) {w v : Writer} (h : Writer.Alike w v) :
    Alike (.of x w) (.of y v) :=
  have hp := Writer.parallel_alike.tandem
  ⟨hr, h.position, hp.depth h, hp.cursor h, hp.headerWritten h, h.failed⟩

theorem rel_map {α β γ δ : Type} {R : α → β → Prop} {S : γ → δ → Prop} {x : Option α} {y : Option β} {f : α → γ}
    {g : β → δ} (h : Option.Rel R x y) (hfg : ∀ {a b}, R a b → S (f a) (g b)) : Option.Rel S (x.map f) (y.map g) := by
  cases h with
  | none => exact .none
  | some h => exact .some (hfg h)

namespace Desk

/-- an act that twins answer alike, and that leaves twins with the same messages kept, unless both stop -/
inductive TwinAct :
    Option WriteReply × Writer × List (String × Message) → Option WriteReply × Writer × List (String × Message) → Prop
  | stop {x y} (hx : x.1 = none) (hy : y.1 = none) : TwinAct x y
  | go {r q : WriteReply} {w v : Writer} {drafts : List (String × Message)} (hr : r.Alike q) (h : Twin w v) :
    TwinAct (some r, w, drafts) (some q, v, drafts)

/-- a call that twins answer by the same rule -/
theorem TwinAct.ofCall {α : Type} {s t : Sent α} {answer : Except Fault Bool → Option WriteReply}
    (ha : answer = WriteReply.ofCall ∨ answer = WriteReply.ofAct) (h : Abreast Twin s t)
    {drafts : List (String × Message)} : TwinAct (answer s.result, s.writer, drafts) (answer t.result, t.writer, drafts) := by
  rw [← h.result]
  rcases s.result with (e | _) | b
  · rcases ha with rfl | rfl <;> exact .go (.same _) h.writer
  · rcases ha with rfl | rfl <;> exact .stop rfl rfl
  · rcases ha with rfl | rfl <;> exact .go (.same _) h.writer

theorem writeAct_twin {w v : Writer} (h : Twin w v) (drafts : List (String × Message)) (a : WriteAct) :
    TwinAct (writeAct w drafts a) (writeAct v drafts a) := by
  have ht := parallel_twin.tandem
  have hroot : ∀ m, Abreast Twin (w.writeRoot m) (v.writeRoot m) := fun m => ht.settle (ht.message m h)
  have hnested : ∀ m, Abreast Twin (w.writeMessage m) (v.writeMessage m) := fun m =>
    ht.leave (ht.message m (ht.onNesting h Nesting.view_forward))
  cases a with
  | op op =>
    cases op with
    | debug => exact .go (.text h.toAlike) h
    | root m => exact .ofCall (.inl rfl) (hroot m)
    | field f =>
      obtain ⟨answer, ha, hrun⟩ := run_field_eq f
      simp only [writeAct, hrun]
      exact .ofCall ha (ht.field f h)
  | rootDraft name =>
    simp only [writeAct]
    cases lookUp drafts name with
    | none => exact .stop rfl rfl
    | some m =>
      simp only [(hroot m).left]
      exact .ofCall (.inl rfl) (hroot m)
  | messageDraft name =>
    simp only [writeAct]
    cases lookUp drafts name with
    | none => exact .stop rfl rfl
    | some m =>
      simp only [(hnested m).left]
      exact .ofCall (.inl rfl) (hnested m)

/-- **The acts of a session are answered alike** by twins and leave twins. -/
theorem writeActs_twin (acts : List WriteAct) {w v : Writer} (h : Twin w v) (drafts : List (String × Message)) :
    Option.Rel (fun x y => List.Forall₂ Written.Alike x.1 y.1 ∧ Twin x.2.1 y.2.1 ∧ x.2.2 = y.2.2)
      (writeActs w drafts acts) (writeActs v drafts acts) := by
  induction acts generalizing w v drafts with
  | nil => exact .some ⟨.nil, h, rfl⟩
  | cons a acts ih =>
    have ha := writeAct_twin h drafts a
    rw [writeActs, writeActs]
    generalize writeAct w drafts a = x at ha
    generalize writeAct v drafts a = y at ha
    cases ha with
    | stop hx hy =>
      obtain ⟨_, _, _⟩ := x
      obtain ⟨_, _, _⟩ := y
      obtain rfl := hx
      obtain rfl := hy
      exact .none
    | go hr h =>
      exact rel_map (ih h _) fun hrest =>
        ⟨.cons (Written.alike_of hr h.toAlike) hrest.1, hrest.2.1, hrest.2.2⟩

/-- the ends of twins -/
theorem finish_twin {b c : Bench} (h : b.Alike c) {w v : Writer} (hw : Twin w v) (ending : Ending) :
    (finish b w ending).1 = (finish c v ending).1 ∧ (finish b w ending).2.Alike (finish c v ending).2 := by
  have hb := h.left.release hw.left_modest
  have hc := h.right.release hw.right_modest
  have hdrop : (b.dropWrite w).Alike (c.dropWrite v) := by
    refine ⟨⟨?_, ?_, ?_⟩, hw.frame, hb.settle .., hc.settle ..⟩
    · rw [Bench.factory_dropWrite, Bench.factory_dropWrite, h.handler.factory]
    · rw [Bench.config_dropWrite, Bench.config_dropWrite, h.handler.config]
    · rw [Bench.nesting_dropWrite, Bench.nesting_dropWrite, Nesting.view_clear, Nesting.view_clear]
  cases ending with
  | drop => exact ⟨rfl, hdrop⟩
  | close =>
    simp only [finish, hw.failed]
    split
    · exact ⟨rfl, hdrop⟩
    · rename_i hv
      have hwr := hw.written (hw.failed.trans (Bool.eq_false_of_not_eq_true hv))
      refine ⟨congrArg some hw.position, ⟨?_, ?_, hw.levels⟩, ?_, hb.settle .., hc.settle ..⟩
      · rw [Bench.factory_finishWrite, Bench.factory_finishWrite, h.handler.factory]
      · rw [Bench.config_finishWrite, Bench.config_finishWrite, h.handler.config]
      · change w.frame.finish w.written = v.frame.finish v.written
        rw [hw.frame, hwr]

end Desk

/-! ## Read sessions -/

namespace Bench

variable {b c : Bench}

/-- sessions that are opened alike -/
inductive OpenAlike : Except WireError Reader → Except WireError Reader → Prop
  | refused (e : WireError) : OpenAlike (.error e) (.error e)
  | opened {r s : Reader} (h : Reader.Alike r s) : OpenAlike (.ok r) (.ok s)

theorem Kin.openRead (h : b.Kin c) : OpenAlike b.openRead c.openRead := by
  unfold Bench.openRead
  rw [h.frame, Nesting.suspendedDepth_congr h.handler.levels]
  split
  · exact .refused _
  · cases c.handler.nesting.suspendedDepth with
    | some depth => exact .refused _
    | none => exact .opened ⟨rfl, h.handler.factory, h.handler.order, h.handler.maxLength, h.handler.levels⟩

theorem Alike.openRead (h : b.Alike c) : OpenAlike b.openRead c.openRead :=
  Kin.openRead ⟨h.handler.kin, h.frame⟩

theorem Alike.closeRead (h : b.Alike c) {r s : Reader} (hr : Reader.Alike r s) :
    (b.closeRead r).Alike (c.closeRead s) :=
  ⟨⟨h.handler.factory, h.handler.config, hr.levels⟩, hr.frame, h.left.settle .., h.right.settle ..⟩

theorem Alike.dropRead (h : b.Alike c) {r s : Reader} (hr : Reader.Alike r s) : (b.dropRead r).Alike (c.dropRead s) :=
  h.closeRead ⟨hr.frame, hr.factory, hr.order, hr.maxLength, by rw [Nesting.view_clear, Nesting.view_clear]⟩

theorem Alike.finishRead (h : b.Alike c) {r s : Reader} (hr : Reader.Alike r s) (ending : Ending) :
    (Desk.finishRead b r ending).Alike (Desk.finishRead c s ending) := by
  cases ending with
  | close => exact h.closeRead hr
  | drop => exact h.dropRead hr

end Bench

/-- readings that are alike and answer the same -/
def Reader.Agree {α : Type} (x y : α × Reader) : Prop :=
  x.1 = y.1 ∧ Reader.Alike x.2 y.2

theorem Reader.run_alike {r s : Reader} (h : Reader.Alike r s) (k : FieldKind) :
    Agree (r.run k) (s.run k) := by
  have key := level_field k r s h
  unfold run
  generalize readField k r = x at key
  generalize readField k s = y at key
  cases key with
  | ok f h => exact ⟨rfl, h⟩
  | error f h => cases f <;> exact ⟨rfl, h⟩

namespace Desk

/-- **The acts of a read session are answered the same.** -/
theorem readKinds_alike (ks : List FieldKind) {r s : Reader} (h : Reader.Alike r s) :
    Option.Rel Reader.Agree (readKinds r ks) (readKinds s ks) := by
  induction ks generalizing r s with
  | nil => exact .some ⟨rfl, h⟩
  | cons k ks ih =>
    have hk := Reader.run_alike h k
    rw [readKinds, readKinds]
    generalize r.run k = x at hk
    generalize s.run k = y at hk
    obtain ⟨reply, r⟩ := x
    obtain ⟨reply', s⟩ := y
    obtain ⟨rfl, h⟩ := hk
    cases reply with
    | none => exact .none
    | some reply =>
      have hr : Reader.Alike r s := h
      have hof : Received.of reply r = Received.of reply s := by
        simp only [Received.of, Reader.position, Reader.remaining, hr.frame, hr.depth]
      exact rel_map (ih h) fun hrest => ⟨congrArg₂ List.cons hof hrest.1, hrest.2⟩

theorem tryKinds_alike (ks : List FieldKind) {r s : Reader} (h : Reader.Alike r s) :
    Option.Rel Reader.Agree (tryKinds r ks) (tryKinds s ks) := by
  induction ks generalizing r s with
  | nil => exact .some ⟨rfl, h⟩
  | cons k ks ih =>
    have hk := Reader.run_alike h k
    rw [tryKinds, tryKinds]
    generalize r.run k = x at hk
    generalize s.run k = y at hk
    obtain ⟨reply, r⟩ := x
    obtain ⟨reply', s⟩ := y
    obtain ⟨rfl, h⟩ := hk
    rcases reply with _ | e | f
    · exact .none
    · exact .some ⟨rfl, h⟩
    · exact rel_map (ih h) fun hrest => ⟨congrArg (Except.map (f :: ·)) hrest.1, hrest.2⟩

theorem trials_alike (f : Frame) (kinds : List FieldKind) (damage : Damage) (is : List Nat) {b c : Bench}
    (h : b.Alike c) :
    Option.Rel (fun x y => x.1 = y.1 ∧ x.2.Alike y.2) (trials b f kinds damage is) (trials c f kinds damage is) := by
  induction is generalizing b c with
  | nil => exact .some ⟨rfl, h⟩
  | cons i is ih =>
    have hcopy := h.withFrame (damaged f i damage)
    rw [trials, trials]
    have ho := hcopy.openRead
    dsimp only
    generalize Bench.openRead { b with frame := damaged f i damage } = x at ho
    generalize Bench.openRead { c with frame := damaged f i damage } = y at ho
    cases ho with
    | refused e => exact rel_map (ih h) fun hrest => ⟨congrArg (Trial.closed e :: ·) hrest.1, hrest.2⟩
    | @opened r s hr =>
      have ht := tryKinds_alike kinds hr
      dsimp only
      generalize tryKinds r kinds = x at ht
      generalize tryKinds s kinds = y at ht
      cases ht with
      | none => exact .none
      | @some x y ht =>
        obtain ⟨fields, r'⟩ := x
        obtain ⟨fields', s'⟩ := y
        obtain ⟨rfl, hr'⟩ := ht
        have hp : r'.position = s'.position := congrArg Frame.position hr'.frame
        exact rel_map (ih (hcopy.dropRead hr')) fun hrest =>
          ⟨congrArg₂ List.cons (congrArg _ hp) hrest.1, hrest.2⟩

end Desk

end Courier
