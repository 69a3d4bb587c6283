import Courier.Proofs.BuffersUnseen
import Courier.Proofs.Custody

/-!
Scratch buffers over whole runs, in caches and in sessions that overlap.

Buffers are told apart by labels. `relabel` lets each label go with its buffer, and a buffer that was made gets a new
one. That no two keepers have buffers of the same label says that no buffer is in two hands.

What events in a row do to a cache is its `history`. A cache has come about by its history from an empty one, so that
what is known of caches and their acts holds of the caches that sessions draw from.

`Apart.step`, `Apart.after`: buffers stay apart, event by event and over events in a row.
`cacheAt_after`: a cache after events in a row.
`Seated.openWrite`, `Seated.endWrite`: how a session is opened and ended.
`caches_over_runs`: the main result.
-/

namespace Courier

namespace Workshop

variable {k l : Workshop} {ev : Event} {x : Effect}

/-! ## Labels -/

/-- the labels after an event: each goes with its buffer, and a buffer that was made gets the label `made` -/
def relabel (k : Workshop) (ev : Event) (labels : Keeper → Nat) (made : Nat) (y : Keeper) : Nat :=
  ((k.source ev y).map labels).getD made

/-- the labels after events in a row, when buffers are numbered from `made` on as they are made -/
def labelled (k : Workshop) (labels : Keeper → Nat) (made : Nat) : List Event → Keeper → Nat
  | [] => labels
  | ev :: evs =>
    match k.step ev with
    | some x => x.2.labelled (k.relabel ev labels made) (made + 1) evs
    | none => labels

/-- no two keepers have the same buffer -/
structure Apart (k : Workshop) (labels : Keeper → Nat) (made : Nat) : Prop where
  apart : ∀ y z, (k.bufferAt y).isSome → (k.bufferAt z).isSome → labels y = labels z → y = z
  earlier : ∀ y, (k.bufferAt y).isSome → labels y < made

/-- a buffer that was not made in an event was some keeper's before -/
theorem Handed.source {y : Keeper} {buf : Scratch} (h : k.Handed ev y buf) :
    (k.source ev y = none ∧ ∃ i f, ev = .openWrite i f ∧ y = .session i) ∨
      ∃ s, k.source ev y = some s ∧ (k.bufferAt s).isSome := by
  cases h with
  | brought source had => exact .inr ⟨_, source, by rw [had]; rfl⟩
  | written session act => exact .inr ⟨_, rfl, by rw [bufferAt_session session]; rfl⟩
  | made handler source => exact .inl ⟨source, _, _, rfl, rfl⟩

variable {labels : Keeper → Nat} {made : Nat}

theorem Apart.step (ha : k.Apart labels made) (hk : k.Seated) (h : Does k ev x l) :
    l.Apart (k.relabel ev labels made) (made + 1) := by
  have hsource : ∀ {y : Keeper}, (l.bufferAt y).isSome →
      (k.relabel ev labels made y = made ∧ ∃ i f, ev = .openWrite i f ∧ y = .session i) ∨
        ∃ s, k.source ev y = some s ∧ k.relabel ev labels made y = labels s ∧ (k.bufferAt s).isSome := by
    intro y hy
    obtain ⟨buf, hbuf⟩ := Option.isSome_iff_exists.1 hy
    rcases (handed hk h hbuf).source with ⟨hs, hopen⟩ | ⟨s, hs, hheld⟩
    · exact .inl ⟨by rw [relabel, hs]; rfl, hopen⟩
    · exact .inr ⟨s, hs, by rw [relabel, hs]; rfl, hheld⟩
  constructor
  · intro y z hy hz hyz
    rcases hsource hy with ⟨hmade, i, f, rfl, rfl⟩ | ⟨s, hys, hls, hs⟩
    · rcases hsource hz with ⟨-, _, _, hev, rfl⟩ | ⟨t, -, hlt, ht⟩
      · cases hev
        rfl
      · -- a label that was given before is not the new one
        have := ha.earlier t ht
        omega
    · rcases hsource hz with ⟨hmade, -⟩ | ⟨t, hzt, hlt, ht⟩
      · have := ha.earlier s hs
        omega
      · obtain rfl := ha.apart s t hs ht (hls.symm.trans (hyz.trans hlt))
        exact source_inj h hy hz hys hzt
  · intro y hy
    rcases hsource hy with ⟨hmade, -⟩ | ⟨s, -, hls, hs⟩
    · omega
    · have := ha.earlier s hs
      omega

/-! ## Events in a row -/

theorem after_cons_eq_some {evs : List Event} :
    k.after (ev :: evs) = some l ↔ ∃ x m, k.step ev = some (x, m) ∧ m.after evs = some l := by
  rw [after, Option.bind_eq_some_iff, Prod.exists]

/-- what is done to a cache by events in a row -/
def history (k : Workshop) (p : Depot) : List Event → List BufferCache.Act
  | [] => []
  | ev :: evs =>
    k.cacheActs p ev ++ match k.step ev with
      | some x => x.2.history p evs
      | none => []

theorem cacheAt_after {evs : List Event} (h : k.after evs = some l) (p : Depot) :
    l.desk.cacheAt p = (k.desk.cacheAt p).map fun c => c.run (k.history p evs) := by
  induction evs generalizing k with
  | nil =>
    obtain rfl := Option.some.inj h
    cases k.desk.cacheAt p <;> rfl
  | cons ev evs ih =>
    obtain ⟨x, m, hs, hm⟩ := after_cons_eq_some.1 h
    rw [ih hm, cacheAt_of_does (does_of_step hs), Option.map_map]
    simp only [history, hs, Function.comp_def, BufferCache.run_append]

theorem Seated.after {evs : List Event} (hk : k.Seated) (h : k.after evs = some l) : l.Seated := by
  induction evs generalizing k with
  | nil =>
    obtain rfl := Option.some.inj h
    exact hk
  | cons ev evs ih =>
    obtain ⟨x, m, hs, hm⟩ := after_cons_eq_some.1 h
    exact ih (hk.step (does_of_step hs)) hm

/-- **Buffers stay apart**, over events in a row. -/
theorem Apart.after {evs : List Event} (ha : k.Apart labels made) (hk : k.Seated) (h : k.after evs = some l) :
    ∃ n, l.Apart (k.labelled labels made evs) n := by
  induction evs generalizing k labels made with
  | nil =>
    obtain rfl := Option.some.inj h
    exact ⟨made, ha⟩
  | cons ev evs ih =>
    obtain ⟨x, m, hs, hm⟩ := after_cons_eq_some.1 h
    obtain ⟨n, hn⟩ := ih (ha.step hk (does_of_step hs)) (hk.step (does_of_step hs)) hm
    refine ⟨n, ?_⟩
    rw [labelled, hs]
    exact hn

/-- a cache of a desk on which nothing has been done yet is empty -/
theorem cacheAt_new {d : Desk} {m : Nat} (hshared : d.shared = .ofMax m)
    (hbuilt : ∀ h ∈ d.handlers, ∃ factory c, Handler.build factory c = some h) {p : Depot} {c : BufferCache}
    (hc : d.cacheAt p = some c) : c = .ofMax c.maxRetained := by
  cases p with
  | thread =>
    obtain rfl := Option.some.inj hc
    rw [hshared]
    rfl
  | handler i =>
    obtain ⟨h, hh, rfl⟩ := Option.map_eq_some_iff.1 hc
    obtain ⟨factory, config, hb⟩ := hbuilt h (List.mem_of_getElem? hh)
    rw [Handler.cache_of_build hb]
    rfl

theorem seated_start {d : Desk} (hbuilt : ∀ h ∈ d.handlers, ∃ factory c, Handler.build factory c = some h) :
    (start d).Seated := by
  intro i
  change Seat d.handlers[i]? none
  cases hh : d.handlers[i]? with
  | none => exact .vacant
  | some h =>
    obtain ⟨factory, config, hb⟩ := hbuilt h (List.mem_of_getElem? hh)
    refine .idle (Handler.proper_build hb).1.normal ?_ (by simp)
    rw [Handler.cache_of_build hb]
    rfl

theorem apart_start {d : Desk} {m : Nat} (hshared : d.shared = .ofMax m)
    (hbuilt : ∀ h ∈ d.handlers, ∃ factory c, Handler.build factory c = some h) :
    (start d).Apart (fun _ => 0) 0 := by
  have hnone : ∀ y, (start d).bufferAt y = none := by
    rintro (p | i)
    · change (d.cacheAt p).bind BufferCache.slot = none
      rw [Option.bind_eq_none_iff]
      intro c hc
      rw [cacheAt_new hshared hbuilt hc]
      rfl
    · rfl
  constructor <;> intro y <;> simp [hnone]

/-- a write session can be opened, and it is handed what an acquisition is -/
theorem Seated.openWrite (hk : k.Seated) {i : Nat} {h : Handler} (hh : k.desk.handlers[i]? = some h)
    (hfree : k.sessions i = none) (f : String) : ∃ w l c,
      k.step (.openWrite i f) = some (.opened, l) ∧ l.sessions i = some (.write f w []) ∧
        k.desk.cacheAt (.seen i h.config.cacheScope) = some c ∧
        l.desk.cacheAt (.seen i h.config.cacheScope) = some c.clear ∧
        c.acquire? h.config.initialBufferSize = (some w.scratch, c.clear) := by
  have hb := Desk.bench_of_handler hh f
  generalize hbench : (⟨h, k.desk.shared, k.desk.frameNamed f⟩ : Bench) = b at hb
  obtain rfl : h = b.handler := by rw [← hbench]
  have hstep : k.step (.openWrite i f) =
      some (.opened, k.putBack i f b.openWrite.2 (some (.write f b.openWrite.1 []))) := by
    simp only [Workshop.step, hfree, Workshop.openWrite, hb, Option.map_some]
  have hc := Desk.cacheAt_seen hb b.handler.config.cacheScope
  refine ⟨_, _, _, hstep, Function.update_self .., hc, ?_, ?_⟩
  · rw [cacheAt_of_does (does_of_step hstep), hc, Option.map_some]
    simp only [cacheActs, hh, if_true]
    exact congrArg some (BufferCache.acquire_snd _ _)
  · have hsize : b.handler.config.initialBufferSize ≤ maxAllocation := by
      rw [← (hk.bound hh).1]
      exact Nat.le_trans (Nat.min_le_right ..) (by decide)
    rw [BufferCache.acquire?_eq, if_pos hsize, Bench.scratch_openWrite]

/-- an open write session can be ended either way; under its own scope the handler then keeps the buffer of the session,
unless that is too large -/
theorem Seated.endWrite (hk : k.Seated) {i : Nat} {f : String} {w : Writer} {log : List Bytes}
    (hs : k.sessions i = some (.write f w log)) : ∃ h, k.desk.handlers[i]? = some h ∧
      ∀ ending, ∃ x l g, k.step (.endWrite i ending) = some (x, l) ∧ l.desk.handlers[i]? = some g ∧
        (h.config.cacheScope = .handler →
          g.cachedCapacity = if w.capacity ≤ h.config.maxCachedBuffer then some w.capacity else none) := by
  obtain ⟨h, hh, hin, hempty⟩ := hk.writing hs
  refine ⟨h, hh, fun ending => ?_⟩
  have hb := Desk.bench_of_handler hh f
  obtain ⟨⟨size, c⟩, hc⟩ : ∃ x, Bench.endWrite ⟨h, k.desk.shared, k.desk.frameNamed f⟩ w ending = some x :=
    ⟨_, Bench.endWrite_eq _ hin ending⟩
  refine ⟨.ended size c.frame log, k.putBack i f c none, c.handler, ?_, Desk.handler_putBack hb c, fun hscope => ?_⟩
  · simp only [Workshop.step, hs, Workshop.endWrite, hb, Option.bind_some, hc, Option.map_some]
  have hown : c.handler.cache = h.cache.run (h.returns w.scratch) := by
    have ho := Bench.cacheOf_endWrite hc .handler
    rw [Bench.cacheOf_release, if_pos hscope.symm] at ho
    exact ho
  have hslot := Handler.slot_returns_iff (c := h.cache) (fun _ => (hk.bound hh).2) w.scratch
  simp only [hempty hscope, reduceCtorEq, false_and, or_false, ← hown] at hslot
  change c.handler.cache.slot.map Scratch.capacity = if w.scratch.capacity ≤ _ then some w.scratch.capacity else none
  split
  · rename_i hle
    rw [(hslot w.scratch).2 ⟨rfl, hle⟩]
    rfl
  · rename_i hlt
    rw [Option.map_eq_none_iff, Option.eq_none_iff_forall_ne_some]
    exact fun buf hbuf => hlt ((hslot buf).1 hbuf).2

/-! ## The main result -/

/-- how the caches of a thread stand after some events, and what the next event does about buffers -/
structure Orderly (d : Desk) (evs : List Event) (k : Workshop) : Prop where
  /-- no cached buffer is larger than its cache keeps -/
  bounded : ∀ p c, k.desk.cacheAt p = some c → c.Bounded
  /-- no two keepers have the same buffer, so no two open sessions have -/
  apart : ∀ y z, (k.bufferAt y).isSome → (k.bufferAt z).isSome →
    (start d).labelled (fun _ => 0) 0 evs y = (start d).labelled (fun _ => 0) 0 evs z → y = z
  /-- buffers go where their labels go -/
  handed : ∀ ev x l, k.step ev = some (x, l) → ∀ y buf, l.bufferAt y = some buf → k.Handed ev y buf
  /-- a write session can be opened, it is handed a buffer as an acquisition is, and the slot is empty then -/
  opens : ∀ i f h, k.desk.handlers[i]? = some h → k.sessions i = none → ∃ w l c m,
    k.step (.openWrite i f) = some (.opened, l) ∧ l.sessions i = some (.write f w []) ∧
      k.desk.cacheAt (.seen i h.config.cacheScope) = some c ∧
      l.desk.cacheAt (.seen i h.config.cacheScope) = some c.clear ∧
      c.acquire? h.config.initialBufferSize = (some w.scratch, c.clear) ∧
      (d.cacheAt (.seen i h.config.cacheScope)).map BufferCache.maxRetained = some m ∧
      BufferCache.Served m ((start d).history (.seen i h.config.cacheScope) evs) h.config.initialBufferSize w.scratch
  /-- an open write session can be ended either way, and under its own scope the handler then has the buffer of the
  session, or none if that is too large -/
  ends : ∀ i f w log, k.sessions i = some (.write f w log) → ∃ h, k.desk.handlers[i]? = some h ∧
    ∀ ending, ∃ x l g, k.step (.endWrite i ending) = some (x, l) ∧ l.desk.handlers[i]? = some g ∧
      (h.config.cacheScope = .handler →
        g.cachedCapacity = if w.capacity ≤ h.config.maxCachedBuffer then some w.capacity else none)

theorem orderly_after {d : Desk} {m : Nat} (hshared : d.shared = .ofMax m)
    (hbuilt : ∀ h ∈ d.handlers, ∃ factory c, Handler.build factory c = some h) {evs : List Event}
    (h : (start d).after evs = some k) : Orderly d evs k := by
  have hk : k.Seated := (seated_start hbuilt).after h
  -- each cache has come about by its history from an empty one
  have hcache : ∀ {p c}, k.desk.cacheAt p = some c → ∃ m, (d.cacheAt p).map BufferCache.maxRetained = some m ∧
      c = (BufferCache.ofMax m).run ((start d).history p evs) := by
    intro p c hc
    rw [cacheAt_after h] at hc
    obtain ⟨c₀, hc₀, rfl⟩ := Option.map_eq_some_iff.1 hc
    refine ⟨c₀.maxRetained, congrArg (Option.map BufferCache.maxRetained) hc₀, ?_⟩
    rw [← cacheAt_new hshared hbuilt hc₀]
  obtain ⟨n, hapart⟩ := (apart_start hshared hbuilt).after (seated_start hbuilt) h
  constructor
  case bounded =>
    intro p c hc
    obtain ⟨m, -, rfl⟩ := hcache hc
    exact (BufferCache.bounded_ofMax m).run _
  case apart => exact hapart.apart
  case handed => exact fun ev x l hs y buf => handed hk (does_of_step hs)
  case opens =>
    intro i f g hg hfree
    obtain ⟨w, l, c, hstep, hl, hc, hclear, hacquire⟩ := hk.openWrite hg hfree f
    obtain ⟨m, hm, hrun⟩ := hcache hc
    refine ⟨w, l, c, m, hstep, hl, hc, hclear, hacquire, hm, ?_⟩
    have hbuf : some (c.acquire g.config.initialBufferSize).1 = some w.scratch := by
      rw [BufferCache.acquire?_eq] at hacquire
      split at hacquire
      · exact (Prod.mk.inj hacquire).1
      · cases (Prod.mk.inj hacquire).1
    rw [← Option.some.inj hbuf, hrun]
    exact BufferCache.served_acquire m _ _
  case ends => exact fun i f w log hs => hk.endWrite hs

/-- **Scratch buffers over whole runs.** Whatever is done to a cache that starts empty, the buffer in its slot is never
larger than it keeps. An acquisition of as many bytes as one allocation can hold is answered with at least that many:
with the buffer that was kept last, just as it came back, or with that many zeros. One of more bytes is a stop. Either
way the slot is empty then, and what lies in it later has been released since.

The same holds of the caches that write sessions of several handlers draw from, one of the thread and one of each
handler, however the sessions overlap and however they end: a session always opens, and no two keepers ever have the
same buffer. A handler that keeps its own buffers has the buffer of the session that ended last, or none if that was too
large. -/
theorem caches_over_runs :
    (∀ (m : Nat) (acts : List BufferCache.Act),
      ((BufferCache.ofMax m).run acts).Bounded ∧
        ∀ n,
          (n ≤ maxAllocation → ∃ buf,
            ((BufferCache.ofMax m).run acts).acquire? n = (some buf, ((BufferCache.ofMax m).run acts).clear) ∧
              BufferCache.Served m acts n buf) ∧
          (maxAllocation < n →
            ((BufferCache.ofMax m).run acts).acquire? n = (none, ((BufferCache.ofMax m).run acts).clear)) ∧
          ∀ between buf, BufferCache.KeptLast m (acts ++ .acquire n :: between) buf → .release buf ∈ between) ∧
    ∀ {d : Desk} {m : Nat} {evs : List Event} {k : Workshop}, d.shared = .ofMax m →
      (∀ h ∈ d.handlers, ∃ factory c, Handler.build factory c = some h) → (start d).after evs = some k →
      Orderly d evs k := by
  refine ⟨fun m acts => ⟨(BufferCache.bounded_ofMax m).run acts, fun n => ⟨fun hn => ?_, fun hn => ?_, ?_⟩⟩,
    fun hshared hbuilt h => orderly_after hshared hbuilt h⟩
  · exact ⟨_, by rw [BufferCache.acquire?_eq, if_pos hn], BufferCache.served_acquire m acts n⟩
  · rw [BufferCache.acquire?_eq, if_neg (Nat.not_le_of_lt hn)]
  · exact fun between buf => BufferCache.mem_release_of_keptLast

/-- two handlers that share the cache of the thread and keep buffers of different sizes there, and one that keeps its
own -/
def scopesDesk : Desk where
  handlers := [
    { Config.standard with initialBufferSize := 4, maxCachedBuffer := 16, cacheScope := .thread },
    { Config.standard with initialBufferSize := 8, maxCachedBuffer := 64, cacheScope := .thread },
    { Config.standard with initialBufferSize := 4, maxCachedBuffer := 8 }].filterMap (Handler.build (.ofList []))
  shared := .ofMax defaultMaxCachedBuffer
  frames := []
  drafts := []

/-- sessions that overlap, grow their buffers, and end either way -/
def overlapping : List Event :=
  [.openWrite 0 "a", .openWrite 1 "b", .openWrite 2 "c", .write 1 (.op (.field (.raw (List.replicate 20 1)))),
    .endWrite 1 .drop, .openWrite 1 "b", .endWrite 0 .close, .endWrite 1 .close,
    .write 2 (.op (.field (.raw (List.replicate 20 2)))), .endWrite 2 .drop, .openWrite 2 "c", .endWrite 2 .close,
    .openWrite 0 "a"]

theorem overlapping_sessions_orderly : ∃ k,
    (start scopesDesk).after overlapping = some k ∧
      (k.desk.shared.cachedLength, k.desk.handlers.map Handler.cachedCapacity,
        (k.bufferAt (.session 0)).map Scratch.capacity) = (none, [none, none, some 4], some 32) ∧
      Orderly scopesDesk overlapping k := by
  have hbuilt : ∀ h ∈ scopesDesk.handlers, ∃ factory c, Handler.build factory c = some h := by
    intro h hh
    obtain ⟨c, -, hc⟩ := List.mem_filterMap.1 hh
    exact ⟨_, c, hc⟩
  have hrun : ((start scopesDesk).after overlapping).map (fun k =>
      (k.desk.shared.cachedLength, k.desk.handlers.map Handler.cachedCapacity,
        (k.bufferAt (.session 0)).map Scratch.capacity)) = some (none, [none, none, some 4], some 32) := by
    decide +kernel
  obtain ⟨k, hk, hends⟩ := Option.map_eq_some_iff.1 hrun
  exact ⟨k, hk, hends, caches_over_runs.2 rfl hbuilt hk⟩

/-- a request for more bytes than one allocation can hold is not met, by any cache -/
theorem oversize_request_unmet :
    ¬ ∃ buf, (((BufferCache.ofMax 1024).run []).acquire? 9223372036854775808).1 = some buf := by
  rintro ⟨buf, h⟩
  cases h

end Workshop

end Courier
