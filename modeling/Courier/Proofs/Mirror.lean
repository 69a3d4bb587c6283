import Courier.Proofs.NoTrace
import Courier.Proofs.Spelling

/-!
The same writing in both byte orders.

Two desks mirror one another if every handler of the one writes in little order, the handler in its place on the other
writes in big order, and they are the same in everything else: their other settings, their progress, the sizes of the
buffers they keep and the messages kept by name. Of what their frames hold it is asked that it consists of the same
segments.

`Desk.segments` is the segmentation of what a write session puts out. It is read off the moments of the session, so it
follows the acts one by one: which units and which bytes each of them puts out, however it is nested or suspended.

`writeAct_spelled`, `writeAct_mirror`: an act of a session.
`writeActs_mirror`: all acts of a session.
`Desk.Mirror.step`: a session from its opening to its end.
`Desk.run_mirrored`: the main result.
-/

namespace Courier

open Writer Moment Segment

/-! ## Caches and frames -/

/-- caches that keep buffers of the same size under the same bound -/
structure BufferCache.Mirror (c d : BufferCache) : Prop where
  maxRetained : c.maxRetained = d.maxRetained
  cachedLength : c.cachedLength = d.cachedLength

namespace BufferCache.Mirror

variable {c d : BufferCache}

theorem slots (h : c.Mirror d) :
    Option.Rel (fun a b : Scratch => a.capacity = b.capacity) c.slot d.slot := by
  have hl : c.slot.map Scratch.capacity = d.slot.map Scratch.capacity := h.cachedLength
  generalize c.slot = x at hl
  generalize d.slot = y at hl
  cases x <;> cases y
  · exact .none
  · cases hl
  · cases hl
  · exact .some (Option.some.inj hl)

theorem acquire (h : c.Mirror d) (least : Nat) :
    (c.acquire least).1.capacity = (d.acquire least).1.capacity ∧ (c.acquire least).2.Mirror (d.acquire least).2 := by
  have hs := h.slots
  have hm := h.maxRetained
  unfold BufferCache.acquire
  generalize c.slot = x at hs
  generalize d.slot = y at hs
  cases hs with
  | none => exact ⟨rfl, hm, rfl⟩
  | some hab =>
    refine ⟨?_, hm, rfl⟩
    dsimp only
    rw [hab]
    split
    · exact hab
    · rfl

theorem release (h : c.Mirror d) {a b : Scratch} (hab : a.capacity = b.capacity) :
    (c.release a).Mirror (d.release b) := by
  unfold BufferCache.release
  rw [h.maxRetained, hab]
  split
  · exact h
  · exact ⟨rfl, congrArg some hab⟩

theorem setMaxRetained (h : c.Mirror d) (n : Nat) : (c.setMaxRetained n).Mirror (d.setMaxRetained n) := by
  have hs := h.slots
  unfold BufferCache.setMaxRetained
  generalize c.slot = x at hs
  generalize d.slot = y at hs
  cases hs with
  | none => exact ⟨rfl, rfl⟩
  | some hab =>
    refine ⟨rfl, ?_⟩
    dsimp only [cachedLength]
    rw [hab]
    split
    · rfl
    · exact congrArg some hab

end BufferCache.Mirror

/-- frames that stand alike and hold the same segments, one of them in little order and the other in big order -/
structure Frame.Mirror (f g : Frame) : Prop where
  position : f.position = g.position
  limit : f.limit = g.limit
  size : f.size = g.size
  data : ∃ segs, f.data = spell .little segs ∧ g.data = spell .big segs

namespace Frame.Mirror

variable {f g : Frame}

/-- no byte order touches what is taken as it is -/
theorem refl (f : Frame) : f.Mirror f :=
  ⟨rfl, rfl, rfl, [.plain f.data], by simp, by simp⟩

theorem extent (h : f.Mirror g) : f.extent = g.extent := by
  obtain ⟨segs, hf, hg⟩ := h.data
  rw [← length_data, ← length_data, hf, hg]
  exact length_spell _ _ _

theorem setPosition (h : f.Mirror g) (n : Nat) : (f.setPosition n).Mirror (g.setPosition n) :=
  ⟨rfl, h.limit, h.size, h.data⟩

theorem beginWrite (h : f.Mirror g) : f.beginWrite.Mirror g.beginWrite :=
  ⟨rfl, rfl, rfl, h.data⟩

theorem finish (f g : Frame) (segs : List Segment) :
    (f.finish (spell .little segs)).Mirror (g.finish (spell .big segs)) := by
  have hl := length_spell .little .big segs
  refine ⟨hl, ?_, ?_, segs, rfl, rfl⟩
  · simp only [Frame.finish, ofBytes, ofCells, List.size_toArray, hl]
  · simp only [Frame.finish, ofBytes, ofCells, List.size_toArray, hl]

end Frame.Mirror

/-! ## Handlers and benches -/

/-- handlers that are the same but for their byte orders, little and big, and for what is in their buffers -/
structure Handler.Mirror (h g : Handler) : Prop where
  factory : h.factory = g.factory
  little : h.config.byteOrder = .little
  config : g.config = { h.config with byteOrder := .big }
  levels : h.nesting.view = g.nesting.view
  cache : h.cache.Mirror g.cache

/-- handlers that have just been built from settings that differ in their byte order -/
theorem Handler.mirror_build {factory : Factory} {config : Config} {h : Handler}
    (hb : build factory { config with byteOrder := .little } = some h) :
    ∃ g, build factory { config with byteOrder := .big } = some g ∧ h.Mirror g := by
  simp only [build, Option.map_eq_some_iff] at hb ⊢
  obtain ⟨nesting, hn, rfl⟩ := hb
  exact ⟨_, ⟨nesting, hn, rfl⟩, rfl, rfl, rfl, rfl, rfl, rfl⟩

structure Bench.Mirror (b c : Bench) : Prop where
  handler : b.handler.Mirror c.handler
  shared : b.shared.Mirror c.shared
  frame : b.frame.Mirror c.frame

namespace Bench.Mirror

variable {b c : Bench}

theorem acquire (h : b.Mirror c) :
    b.acquire.1.capacity = c.acquire.1.capacity ∧ b.acquire.2.Mirror c.acquire.2 := by
  obtain ⟨hf, ho, hc, hl, hcache⟩ := h.handler
  unfold Bench.acquire
  rw [hc]
  cases b.handler.config.cacheScope with
  | handler =>
    obtain ⟨hcap, hrest⟩ := hcache.acquire b.handler.config.initialBufferSize
    exact ⟨hcap, ⟨hf, ho, hc, hl, hrest⟩, h.shared, h.frame⟩
  | thread =>
    obtain ⟨hcap, hrest⟩ := h.shared.acquire b.handler.config.initialBufferSize
    exact ⟨hcap, h.handler, hrest, h.frame⟩

theorem release (h : b.Mirror c) {x y : Scratch} (hxy : x.capacity = y.capacity) :
    (b.release x).Mirror (c.release y) := by
  obtain ⟨hf, ho, hc, hl, hcache⟩ := h.handler
  unfold Bench.release
  rw [hc]
  cases b.handler.config.cacheScope with
  | handler => exact ⟨⟨hf, ho, hc, hl, hcache.release hxy⟩, h.shared, h.frame⟩
  | thread => exact ⟨h.handler, (h.shared.setMaxRetained _).release hxy, h.frame⟩

/-- benches with other levels and other frames in place -/
theorem settle (h : b.Mirror c) {n m : Nesting} (hn : n.view = m.view) {f g : Frame} (hf : f.Mirror g) :
    Mirror { b with handler := { b.handler with nesting := n }, frame := f }
      { c with handler := { c.handler with nesting := m }, frame := g } :=
  ⟨⟨h.handler.factory, h.handler.little, h.handler.config, hn, h.handler.cache⟩, h.shared, hf⟩

end Bench.Mirror

/-! ## Sessions -/

/-- sessions in little and in big order that have put out the given segments unless they have failed -/
structure Writer.Mirror (segs : List Segment) (w v : Writer) : Prop where
  pace : Pace (· = ·) w v
  little : w.order = .little
  big : v.order = .big
  frame : w.frame.Mirror v.frame
  unfinished : w.frame.size = none
  left : w.failed = false → w.written = spell .little segs
  right : w.failed = false → v.written = spell .big segs

theorem Bench.Mirror.openWrite {b c : Bench} (h : b.Mirror c) :
    Writer.Mirror [] b.openWrite.1 c.openWrite.1 ∧ b.openWrite.2.Mirror c.openWrite.2 := by
  obtain ⟨hcap, hrest⟩ := h.acquire
  rw [openWrite_eq, openWrite_eq]
  refine ⟨⟨⟨rfl, rfl, h.handler.levels, hcap, Nat.zero_le _, Nat.zero_le _⟩, h.handler.little, ?_, h.frame.beginWrite,
    rfl, fun _ => List.take_zero, fun _ => List.take_zero⟩, hrest.handler, hrest.shared, h.frame.beginWrite⟩
  dsimp only
  rw [h.handler.config]

/-- what an act asks about the session instead of writing -/
def WriteAct.asks : WriteAct → Bool
  | .op .debug => true
  | _ => false

namespace Desk

/-- what happens during an act of a session -/
def actMoments (w : Writer) (drafts : List (String × Message)) : WriteAct → List Moment
  | .op (.field f) => f.moments w
  | .op (.root m) => m.moments w
  | .op .debug => []
  | .rootDraft name =>
    match lookUp drafts name with
    | some m => m.moments w
    | none => []
  | .messageDraft name =>
    match lookUp drafts name with
    | some m => m.moments (enter w)
    | none => []

/-- what happens during the acts of a session -/
def sessionMoments (w : Writer) (drafts : List (String × Message)) : List WriteAct → List Moment
  | [] => []
  | a :: acts =>
    actMoments w drafts a ++
      match writeAct w drafts a with
      | (some _, w, drafts) => sessionMoments w drafts acts
      | (none, _, _) => []

/-- the segments that a write session puts out -/
def segments (d : Desk) : Step → List Segment
  | .write i f acts _ =>
    match d.bench i f with
    | some b => puts (sessionMoments b.openWrite.1 d.drafts acts)
    | none => []
  | _ => []

/-- the segments that each of the steps puts out, up to one that stops -/
def outputs (d : Desk) : List Step → List (List Segment)
  | [] => []
  | s :: ss =>
    d.segments s ::
      match d.step s with
      | some (_, e) => outputs e ss
      | none => []

/-- an act that two sessions answer the same, each of which has put out the same segments unless the act is refused -/
structure ActSpelled (w v : Writer) (x y : Option WriteReply × Writer × List (String × Message))
    (xs ys : List Moment) : Prop where
  reply : x.1 = y.1
  drafts : x.2.2 = y.2.2
  pace : Pace (· = ·) x.2.1 y.2.1
  proper : ∀ s ∈ Moment.puts xs, s.Proper
  puts : Moment.puts ys = Moment.puts xs
  left : ∀ r, x.1 = some r → r.isError = false → x.2.1.written = w.written ++ spell w.order (Moment.puts xs)
  right : ∀ r, x.1 = some r → r.isError = false → y.2.1.written = v.written ++ spell v.order (Moment.puts ys)

/-- a call that two sessions answer by the same rule -/
theorem ActSpelled.ofCall {α : Type} {w v : Writer} {s t : Sent α} {xs ys : List Moment}
    (h : Spelled (· = ·) w v s t xs ys) {answer : Except Fault Bool → Option WriteReply}
    (ha : answer = WriteReply.ofCall ∨ answer = WriteReply.ofAct) (keep : α → List (String × Message)) :
    ActSpelled w v (answer s.result, s.writer, keep s.left) (answer t.result, t.writer, keep t.left) xs ys := by
  have hok : ∀ r, answer s.result = some r → r.isError = false → ∃ b, s.result = .ok b := by
    intro r hr he
    rcases hs : s.result with (e | _) | b
    · rcases ha with rfl | rfl <;> rw [hs] at hr <;> cases hr <;> cases he
    · rcases ha with rfl | rfl <;> rw [hs] at hr <;> cases hr
    · exact ⟨b, rfl⟩
  refine ⟨congrArg answer h.abreast.result, congrArg keep h.abreast.left, h.abreast.writer, h.proper, h.puts, ?_, ?_⟩
  · intro r hr he
    obtain ⟨b, hb⟩ := hok r hr he
    exact h.left b hb
  · intro r hr he
    obtain ⟨b, hb⟩ := hok r hr he
    exact h.right b hb

/-- an act that asks for a message that is not there stops -/
theorem ActSpelled.missing {w v : Writer} (h : Pace (· = ·) w v) (drafts : List (String × Message)) :
    ActSpelled w v (none, w, drafts) (none, v, drafts) [] [] :=
  ⟨rfl, rfl, h, fun _ hs => (by cases hs), rfl, fun _ hr => (by cases hr), fun _ hr => (by cases hr)⟩

theorem writeAct_spelled {w v : Writer} (h : Pace (· = ·) w v) (drafts : List (String × Message)) {a : WriteAct}
    (ha : a.asks = false) :
    ActSpelled w v (writeAct w drafts a) (writeAct v drafts a) (actMoments w drafts a) (actMoments v drafts a) := by
  cases a with
  | op op =>
    cases op with
    | debug => cases ha
    | root m => exact .ofCall (spelled_root sized_eq m h) (.inl rfl) fun _ => drafts
    | field f =>
      obtain ⟨answer, hanswer, hrun⟩ := run_field_eq f
      simp only [writeAct, hrun]
      exact .ofCall (f.spelled sized_eq h) hanswer fun _ => drafts
  | rootDraft name =>
    simp only [writeAct, actMoments]
    cases lookUp drafts name with
    | none => exact .missing h drafts
    | some m => exact .ofCall (spelled_root sized_eq m h) (.inl rfl) (store drafts name)
  | messageDraft name =>
    simp only [writeAct, actMoments]
    cases lookUp drafts name with
    | none => exact .missing h drafts
    | some m => exact .ofCall (spelled_nested sized_eq m h) (.inl rfl) (store drafts name)

/-- an act puts its segments behind those that are out -/
theorem writeAct_mirror {segs : List Segment} {w v : Writer} (h : Writer.Mirror segs w v)
    (drafts : List (String × Message)) {a : WriteAct} (ha : a.asks = false) {r : WriteReply}
    (hr : (writeAct w drafts a).1 = some r) :
    Writer.Mirror (segs ++ puts (actMoments w drafts a)) (writeAct w drafts a).2.1 (writeAct v drafts a).2.1 := by
  by_cases hwrites : a.writes = true
  · have hs := writeAct_spelled h.pace drafts ha
    have hk := writeAct_keeps a drafts h.pace.left_inside
    have hk' := writeAct_keeps a drafts h.pace.right_inside
    -- a refusal would have marked the session, so where it is unmarked all segments are out
    have hcalm : (writeAct w drafts a).2.1.failed = false → w.failed = false ∧ r.isError = false := by
      intro hf
      refine ⟨Bool.eq_false_of_not_eq_true fun hw => ?_, Bool.eq_false_of_not_eq_true fun he => ?_⟩
      · rw [hk.failed hw] at hf
        cases hf
      · rw [writeAct_marks h.pace.left_inside (Prod.ext hr rfl) hwrites he] at hf
        cases hf
    refine ⟨hs.pace, hk.order.trans h.little, hk'.order.trans h.big, ?_, ?_, fun hf => ?_, fun hf => ?_⟩
    · rw [hk.frame, hk'.frame, hs.pace.position]
      exact h.frame.setPosition _
    · rw [hk.frame]
      exact h.unfinished
    · obtain ⟨hw, he⟩ := hcalm hf
      rw [hs.left r hr he, h.left hw, h.little, spell_append]
    · obtain ⟨hw, he⟩ := hcalm hf
      rw [hs.right r hr he, h.right hw, h.big, hs.puts, spell_append]
  · -- to refuse without a call leaves everything as it was
    obtain ⟨e, rfl⟩ : ∃ e, a = .op (.field (.fail e)) := by
      unfold WriteAct.writes at hwrites
      split at hwrites
      · exact ⟨_, rfl⟩
      · exact absurd rfl hwrites
    change Writer.Mirror (segs ++ []) w v
    rwa [List.append_nil]

/-- **The acts of a session are answered the same in both byte orders**, and set about the same segments. -/
theorem writeActs_mirror {acts : List WriteAct} (ha : ∀ a ∈ acts, a.asks = false) {segs : List Segment} {w v : Writer}
    (h : Writer.Mirror segs w v) (drafts : List (String × Message)) :
    (∀ s ∈ puts (sessionMoments w drafts acts), s.Proper) ∧
      puts (sessionMoments v drafts acts) = puts (sessionMoments w drafts acts) ∧
      Option.Rel
        (fun x y => x.1 = y.1 ∧ Writer.Mirror (segs ++ puts (sessionMoments w drafts acts)) x.2.1 y.2.1 ∧ x.2.2 = y.2.2)
        (writeActs w drafts acts) (writeActs v drafts acts) := by
  induction acts generalizing segs w v drafts with
  | nil =>
    refine ⟨fun _ hs => (by cases hs), rfl, .some ⟨rfl, ?_, rfl⟩⟩
    change Writer.Mirror (segs ++ []) w v
    rwa [List.append_nil]
  | cons a acts ih =>
    have hs := writeAct_spelled h.pace drafts (ha a List.mem_cons_self)
    have hm := fun r => writeAct_mirror h drafts (ha a List.mem_cons_self) (r := r)
    have hrest := @ih fun a hacts => ha a (List.mem_cons_of_mem _ hacts)
    simp only [writeActs, sessionMoments, puts_append]
    generalize actMoments w drafts a = xs at hs hm
    generalize actMoments v drafts a = ys at hs
    generalize writeAct w drafts a = x at hs hm
    generalize writeAct v drafts a = y at hs hm
    obtain ⟨reply, w', later⟩ := x
    obtain ⟨reply', v', later'⟩ := y
    obtain rfl : reply = reply' := hs.reply
    obtain rfl : later = later' := hs.drafts
    rw [hs.puts]
    cases reply with
    | none => exact ⟨List.forall_mem_append.2 ⟨hs.proper, fun _ h => (by cases h)⟩, rfl, .none⟩
    | some r =>
      have hp := tandem_pace sized_eq
      obtain ⟨hproper, hputs, hacts⟩ := hrest (hm r rfl) later
      have hof : Written.of r w' = Written.of r v' := by
        have hpace : Pace (· = ·) w' v' := hs.pace
        simp only [Written.of, hpace.position, hpace.capacity, hp.depth hpace, hp.cursor hpace,
          hp.headerWritten hpace, hpace.failed]
      dsimp only
      rw [hputs, ← List.append_assoc]
      exact ⟨List.forall_mem_append.2 ⟨hs.proper, hproper⟩, rfl,
        rel_map hacts fun hxy => ⟨congrArg₂ List.cons hof hxy.1, hxy.2⟩⟩

/-- sessions end alike, and what a closed one that has not failed leaves in its frame are its segments -/
theorem finish_mirror {segs : List Segment} {b c : Bench} (h : b.Mirror c) {w v : Writer}
    (hw : Writer.Mirror segs w v) (ending : Ending) :
    (finish b w ending).1 = (finish c v ending).1 ∧ (finish b w ending).2.Mirror (finish c v ending).2 ∧
      ((finish b w ending).2.frame.isFinalized = true →
        (finish b w ending).2.frame.data = spell .little segs ∧
          (finish c v ending).2.frame.data = spell .big segs) := by
  have hrelease : (b.release w.scratch).Mirror (c.release v.scratch) := h.release hw.pace.capacity
  have hdrop : (b.dropWrite w).Mirror (c.dropWrite v) :=
    hrelease.settle (by rw [Nesting.view_clear, Nesting.view_clear]) hw.frame
  have hopen : (b.dropWrite w).frame.isFinalized = true → (b.dropWrite w).frame.data = spell .little segs ∧
      (c.dropWrite v).frame.data = spell .big segs := by
    intro hf
    rw [Bench.frame_dropWrite, Frame.isFinalized, hw.unfinished] at hf
    cases hf
  cases ending with
  | drop => exact ⟨rfl, hdrop, hopen⟩
  | close =>
    simp only [finish, ← hw.pace.failed]
    cases hfailed : w.failed with
    | true => exact ⟨rfl, hdrop, hopen⟩
    | false =>
      have hleft := hw.left hfailed
      have hright := hw.right hfailed
      refine ⟨congrArg some hw.pace.position, hrelease.settle hw.pace.levels ?_, fun _ => ⟨hleft, hright⟩⟩
      rw [hleft, hright]
      exact .finish _ _ segs

end Desk

/-! ## Steps and runs -/

/-- answers of a write session in both byte orders: the same results, the same size, frames of the same length, and
where the session has finished its frame, the given segments in it -/
inductive Answer.Mirror (segs : List Segment) : Answer → Answer → Prop
  | written (acts : List Written) (size : Option Nat) {f g : Frame} {h k : Handler} (frame : f.Mirror g)
    (extent : f.extent = g.extent)
    (data : f.isFinalized = true → f.data = spell .little segs ∧ g.data = spell .big segs) (handler : h.Mirror k) :
    Mirror segs (.written acts size f h) (.written acts size g k)

/-- whether a step is a session that writes and asks nothing -/
def Step.writes : Step → Bool
  | .write _ _ acts _ => acts.all fun a => !a.asks
  | _ => false

/-- desks that are the same but for the byte orders of their handlers -/
structure Desk.Mirror (d e : Desk) : Prop where
  handlers : List.Forall₂ Handler.Mirror d.handlers e.handlers
  shared : d.shared.Mirror e.shared
  frames : List.Forall₂ (fun x y => x.1 = y.1 ∧ x.2.Mirror y.2) d.frames e.frames
  drafts : d.drafts = e.drafts

namespace Desk

/-- runs that answer the same and leave desks that mirror one another, step by step, with what each step puts out -/
inductive Mirrored : List (List Segment) → List (Option (Answer × Desk)) → List (Option (Answer × Desk)) → Prop
  | nil : Mirrored [] [] []
  | stop (segs : List Segment) : Mirrored [segs] [none] [none]
  | cons {segs : List Segment} {a b : Answer} {d e : Desk} {rest : List (List Segment)}
    {xs ys : List (Option (Answer × Desk))} (answer : a.Mirror segs b) (desk : d.Mirror e) (h : Mirrored rest xs ys) :
    Mirrored (segs :: rest) (some (a, d) :: xs) (some (b, e) :: ys)

section Frames

variable {xs ys : List (String × Frame)}

theorem lookUp_mirror (h : List.Forall₂ (fun x y => x.1 = y.1 ∧ x.2.Mirror y.2) xs ys) (name : String) :
    Option.Rel Frame.Mirror (lookUp xs name) (lookUp ys name) := by
  induction h with
  | nil => exact .none
  | @cons x y xs ys hxy hrest ih =>
    unfold lookUp at ih ⊢
    rw [List.find?_cons, List.find?_cons, hxy.1]
    split
    · exact .some hxy.2
    · exact ih

theorem store_mirror (h : List.Forall₂ (fun x y => x.1 = y.1 ∧ x.2.Mirror y.2) xs ys) (name : String) {f g : Frame}
    (hfg : f.Mirror g) :
    List.Forall₂ (fun x y => x.1 = y.1 ∧ x.2.Mirror y.2) (store xs name f) (store ys name g) := by
  induction h with
  | nil => exact .cons ⟨rfl, hfg⟩ .nil
  | @cons x y xs ys hxy hrest ih =>
    rw [store, store, hxy.1]
    split
    · exact .cons ⟨rfl, hfg⟩ hrest
    · exact .cons hxy ih

end Frames

namespace Mirror

variable {d e : Desk}

theorem frameNamed (h : d.Mirror e) (f : String) : (d.frameNamed f).Mirror (e.frameNamed f) := by
  have hf := lookUp_mirror h.frames f
  unfold Desk.frameNamed
  generalize lookUp d.frames f = x at hf
  generalize lookUp e.frames f = y at hf
  cases hf with
  | none => exact .refl _
  | some hxy => exact hxy

theorem bench (h : d.Mirror e) (i : Nat) (f : String) : Option.Rel Bench.Mirror (d.bench i f) (e.bench i f) :=
  rel_map (forall₂_getElem? h.handlers i) fun hg => ⟨hg, h.shared, h.frameNamed f⟩

/-- a session on desks that mirror one another -/
theorem step (h : d.Mirror e) {s : Step} (hs : s.writes = true) :
    (∀ x ∈ d.segments s, x.Proper) ∧ e.segments s = d.segments s ∧
      Option.Rel (fun x y => x.1.Mirror (d.segments s) y.1 ∧ x.2.Mirror y.2) (d.step s) (e.step s) := by
  cases s with
  | write i f acts ending =>
    have hacts : ∀ a ∈ acts, a.asks = false := by
      intro a ha
      simpa using List.all_eq_true.1 hs a ha
    have hb := h.bench i f
    rw [step_write_eq, step_write_eq, Desk.segments, Desk.segments, h.drafts]
    generalize d.bench i f = x at hb
    generalize e.bench i f = y at hb
    cases hb with
    | none => exact ⟨fun _ hx => (by cases hx), rfl, .none⟩
    | @some b c hb =>
      obtain ⟨hw, hrest⟩ := hb.openWrite
      obtain ⟨hproper, hputs, hacts⟩ := writeActs_mirror hacts hw e.drafts
      refine ⟨hproper, hputs, rel_map hacts ?_⟩
      rintro x y ⟨hws, hlast, hdrafts⟩
      obtain ⟨hsize, hend, hdata⟩ := finish_mirror hrest hlast ending
      rw [hws, hsize, hdrafts]
      exact ⟨.written _ _ hend.frame hend.frame.extent hdata hend.handler,
        forall₂_set h.handlers hend.handler i, hend.shared, store_mirror h.frames f hend.frame, rfl⟩
  | read | damage | reset | config | debug | join | frame => cases hs

end Mirror

/-- **Byte orders differ only inside units of fixed width.** Write sessions are answered the same on desks that differ
in the byte orders of their handlers only, and put out the same row of segments, whose units are numbers of the fixed
kinds. The little frame spells it in little order and the big frame in big order: each unit is turned end for end, all
other bytes are the same, and the frames are of the same length. -/
theorem run_mirrored {d e : Desk} (h : d.Mirror e) {steps : List Step} (hs : ∀ s ∈ steps, s.writes = true) :
    (∀ segs ∈ d.outputs steps, ∀ x ∈ segs, x.Proper) ∧ e.outputs steps = d.outputs steps ∧
      Mirrored (d.outputs steps) (d.run steps) (e.run steps) := by
  induction steps generalizing d e with
  | nil => exact ⟨fun _ h => (by cases h), rfl, .nil⟩
  | cons s steps ih =>
    obtain ⟨hproper, hsegs, hstep⟩ := h.step (hs s List.mem_cons_self)
    have hrest := fun {d e : Desk} (h : d.Mirror e) => ih h fun s hss => hs s (List.mem_cons_of_mem _ hss)
    rw [run, run, outputs, outputs, hsegs]
    generalize d.step s = x at hstep
    generalize e.step s = y at hstep
    cases hstep with
    | none => exact ⟨List.forall_mem_cons.2 ⟨hproper, fun _ h => (by cases h)⟩, rfl, .stop _⟩
    | @some x y hxy =>
      obtain ⟨hall, hout, hrun⟩ := hrest hxy.2
      exact ⟨List.forall_mem_cons.2 ⟨hproper, hall⟩, congrArg (_ :: ·) hout, .cons hxy.1 hxy.2 hrun⟩

/-- a message whose nested message suspends behind its header the first time, with a list and a document behind it -/
def parcel : Message :=
  .record 7 [.data (.int 300), .message (some (.mk (.record 8) [.data (.shortArray [1, -2])] [1])),
    .items .list .string [.data (.string "x")], .object .any (.int 300)]

/-- a desk with one handler that has just been built for the given order, and the message kept -/
def parcelDesk (order : ByteOrder) : Desk where
  handlers := (Handler.build (fun _ => none) { Config.standard with byteOrder := order }).toList
  shared := .ofMax 0
  frames := []
  drafts := [("parcel", parcel)]

/-- the message over two sessions, a number of fixed width behind it -/
def parcelSteps : List Step :=
  [.write 0 "a" [.rootDraft "parcel"] .close, .write 0 "b" [.rootDraft "parcel", .op (.field (.fixedInt 1))] .close]

/-- the data that such a desk has in its second frame in the end -/
def parcelData (order : ByteOrder) : Option Bytes :=
  ((parcelDesk order).run parcelSteps).getLast?.join.map fun x => (x.2.frameNamed "b").data

/-- the first session ends within the nested message and the second goes on there: numbers and counts are turned, the
varint, the text and the document are not -/
theorem parcel_mirrored :
    (parcelDesk .little).outputs parcelSteps =
      [[.unit [7, 0], .plain [173, 2], .unit [8, 0]],
        [.unit [2, 0, 0, 0], .unit [1, 0], .unit [254, 255], .unit [1, 0, 0, 0], .unit [1, 0, 0, 0], .plain [120],
          .unit [3, 0, 0, 0], .plain [205, 1, 44], .unit [1, 0, 0, 0]]] ∧
    parcelData .little =
      some [2, 0, 0, 0, 1, 0, 254, 255, 1, 0, 0, 0, 1, 0, 0, 0, 120, 3, 0, 0, 0, 205, 1, 44, 1, 0, 0, 0] ∧
    parcelData .big =
      some [0, 0, 0, 2, 0, 1, 255, 254, 0, 0, 0, 1, 0, 0, 0, 1, 120, 0, 0, 0, 3, 205, 1, 44, 0, 0, 0, 1] ∧
    (parcelDesk .big).outputs parcelSteps = (parcelDesk .little).outputs parcelSteps ∧
    Mirrored ((parcelDesk .little).outputs parcelSteps) ((parcelDesk .little).run parcelSteps)
      ((parcelDesk .big).run parcelSteps) := by
  have hd : (parcelDesk .little).Mirror (parcelDesk .big) := by
    obtain ⟨h, hh⟩ : ∃ h, Handler.build (fun _ => none) { Config.standard with byteOrder := .little } = some h :=
      ⟨_, rfl⟩
    obtain ⟨g, hg, hmirror⟩ := Handler.mirror_build hh
    refine ⟨?_, ⟨rfl, rfl⟩, .nil, rfl⟩
    rw [parcelDesk, parcelDesk, hh, hg]
    exact .cons hmirror .nil
  exact ⟨by decide +kernel, by decide +kernel, by decide +kernel, (run_mirrored hd (by decide)).2⟩

end Desk

end Courier
