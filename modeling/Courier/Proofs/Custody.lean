import Courier.Proofs.Retained
import Courier.Proofs.Workshop

/-!
Who has which scratch buffer while sessions of several handlers come and go.

A buffer lies in a cache, that of the thread or that of a handler, or an open write session has it: these are the
keepers. An event of a workshop does something to caches (`cacheActs`), and it hands buffers on: `source` tells which
keeper had the buffer before that a keeper has afterwards, and that it was made in the event where none had. A session
that is opened takes what lies in the cache of its handler's scope if that is large enough; a session that is ended
leaves its buffer there unless it is too large.

`cacheAt_of_does`: what an event does to each cache, as acts of the cache.
`Seated.step`: what holds of each handler and of what it has open.
`source_inj`: no buffer is handed to two keepers.
`handed`: a buffer that is handed on is handed on unchanged, unless its own session writes into it.
-/

namespace Courier

open Writer

/-! ## Caches and events -/

/-- where a cache is -/
inductive Depot where
  | thread
  | handler (i : Nat)
  deriving DecidableEq

/-- who has a buffer: a cache, or the write session that a handler has open -/
inductive Keeper where
  | cache (p : Depot)
  | session (i : Nat)
  deriving DecidableEq

/-- the cache that handler `i` draws from under a scope -/
def Depot.seen (i : Nat) : CacheScope → Depot
  | .handler => .handler i
  | .thread => .thread

theorem Depot.seen_or_other (i : Nat) (p : Depot) : (∃ s, p = .seen i s) ∨ ∃ j, j ≠ i ∧ p = .handler j := by
  cases p with
  | thread => exact .inl ⟨.thread, rfl⟩
  | handler j =>
    by_cases hj : j = i
    · exact .inl ⟨.handler, by rw [hj]; rfl⟩
    · exact .inr ⟨j, hj, rfl⟩

theorem Depot.seen_inj {i : Nat} {s t : CacheScope} : seen i s = seen i t ↔ s = t := by
  cases s <;> cases t <;> simp [seen]

theorem Depot.seen_ne_handler {i j : Nat} (h : j ≠ i) (s : CacheScope) : seen i s ≠ .handler j := by
  cases s with
  | thread => simp [seen]
  | handler => exact fun he => h (Depot.handler.inj he).symm

namespace Desk

theorem handler_putBack {d : Desk} {i : Nat} {f : String} {b : Bench} (hb : d.bench i f = some b) (c : Bench) :
    (d.putBack i f c).handlers[i]? = some c.handler :=
  handler_of_bench (bench_putBack hb c)

/-- the cache that lies at a depot -/
def cacheAt (d : Desk) : Depot → Option BufferCache
  | .thread => some d.shared
  | .handler i => d.handlers[i]?.map Handler.cache

theorem cacheAt_seen {d : Desk} {i : Nat} {f : String} {b : Bench} (hb : d.bench i f = some b) (s : CacheScope) :
    d.cacheAt (.seen i s) = some (b.cacheOf s) := by
  obtain ⟨h, hh, rfl⟩ := Option.map_eq_some_iff.1 hb
  cases s with
  | thread => rfl
  | handler =>
    change d.handlers[i]?.map Handler.cache = _
    rw [hh]
    rfl

theorem cacheAt_putBack_seen {d : Desk} {i : Nat} {f : String} {b : Bench} (hb : d.bench i f = some b) (c : Bench)
    (s : CacheScope) : (d.putBack i f c).cacheAt (.seen i s) = some (c.cacheOf s) :=
  cacheAt_seen (bench_putBack hb c) s

theorem cacheAt_putBack_other (d : Desk) {i j : Nat} (h : j ≠ i) (f : String) (c : Bench) :
    (d.putBack i f c).cacheAt (.handler j) = d.cacheAt (.handler j) := by
  change ((d.handlers.set i c.handler)[j]?).map _ = _
  rw [List.getElem?_set_ne h.symm]
  rfl

/-- a bench put back with the caches as they were taken -/
theorem cacheAt_putBack {d : Desk} {i : Nat} {f : String} {b c : Bench} (hb : d.bench i f = some b)
    (hc : ∀ s, c.cacheOf s = b.cacheOf s) (p : Depot) : (d.putBack i f c).cacheAt p = d.cacheAt p := by
  rcases p.seen_or_other i with ⟨s, rfl⟩ | ⟨j, hj, rfl⟩
  · rw [cacheAt_putBack_seen hb, cacheAt_seen hb, hc]
  · exact d.cacheAt_putBack_other hj f c

end Desk

namespace Bench

/-- a write session leaves the bench with its buffer given back, and with levels and a frame of its own -/
theorem eq_of_endWrite {b c : Bench} {w : Writer} {ending : Ending} {size : Option Nat}
    (h : b.endWrite w ending = some (size, c)) :
    ∃ (nesting : Nesting) (frame : Frame), c =
      { b.release w.scratch with
        handler := { (b.release w.scratch).handler with nesting := nesting }
        frame := frame } := by
  cases ending with
  | drop =>
    obtain ⟨-, rfl⟩ := Prod.mk.inj (Option.some.inj h)
    exact ⟨_, _, rfl⟩
  | close =>
    obtain ⟨⟨n, c'⟩, hc, hx⟩ := Option.map_eq_some_iff.1 h
    obtain ⟨-, rfl⟩ := Prod.mk.inj hx
    unfold closeWrite at hc
    split at hc
    · obtain ⟨-, rfl⟩ := Prod.mk.inj (Option.some.inj hc)
      exact ⟨_, _, rfl⟩
    · split at hc
      · obtain ⟨-, rfl⟩ := Prod.mk.inj (Option.some.inj hc)
        exact ⟨_, _, rfl⟩
      · cases hc

theorem cacheOf_endWrite {b c : Bench} {w : Writer} {ending : Ending} {size : Option Nat}
    (h : b.endWrite w ending = some (size, c)) (s : CacheScope) :
    c.cacheOf s = (b.release w.scratch).cacheOf s := by
  obtain ⟨nesting, frame, rfl⟩ := eq_of_endWrite h
  cases s <;> rfl

theorem config_endWrite {b c : Bench} {w : Writer} {ending : Ending} {size : Option Nat}
    (h : b.endWrite w ending = some (size, c)) : c.handler.config = b.handler.config := by
  obtain ⟨nesting, frame, rfl⟩ := eq_of_endWrite h
  exact b.config_release w.scratch

theorem cacheOf_finishRead (b : Bench) (r : Reader) (ending : Ending) (s : CacheScope) :
    (Desk.finishRead b r ending).cacheOf s = b.cacheOf s := by
  cases ending <;> cases s <;> rfl

end Bench

namespace Workshop

/-- what an event does to a cache -/
def cacheActs (k : Workshop) (p : Depot) : Event → List BufferCache.Act
  | .openWrite i _ =>
    match k.desk.handlers[i]? with
    | some h => if p = .seen i h.config.cacheScope then [.acquire h.config.initialBufferSize] else []
    | none => []
  | .endWrite i _ =>
    match k.desk.handlers[i]?, k.sessions i with
    | some h, some (.write _ w _) => if p = .seen i h.config.cacheScope then h.returns w.scratch else []
    | _, _ => []
  | _ => []

variable {k l : Workshop} {ev : Event} {x : Effect}

/-- **What an event does to each cache**, as acts of the cache. -/
theorem cacheAt_of_does (h : Does k ev x l) (p : Depot) :
    l.desk.cacheAt p = (k.desk.cacheAt p).map fun c => c.run (k.cacheActs p ev) := by
  have hidle : ∀ c : Option BufferCache, c = c.map fun c => c.run [] := fun c => by cases c <;> rfl
  cases h with
  | @openWrite i f b free bench =>
    simp only [cacheActs, Desk.handler_of_bench bench]
    rcases p.seen_or_other i with ⟨s, rfl⟩ | ⟨j, hj, rfl⟩
    · change (k.desk.putBack i f _).cacheAt _ = _
      rw [Desk.cacheAt_putBack_seen bench, Desk.cacheAt_seen bench, Option.map_some, Bench.cacheOf_openWrite]
      simp only [Depot.seen_inj]
      split
      · exact congrArg some (BufferCache.acquire_snd _ _).symm
      · rfl
    · rw [if_neg (Depot.seen_ne_handler hj _).symm, ← hidle]
      exact k.desk.cacheAt_putBack_other hj f _
  | @endWrite i ending f w log b c size session bench closed =>
    simp only [cacheActs, Desk.handler_of_bench bench, session]
    rcases p.seen_or_other i with ⟨s, rfl⟩ | ⟨j, hj, rfl⟩
    · change (k.desk.putBack i f c).cacheAt _ = _
      rw [Desk.cacheAt_putBack_seen bench, Desk.cacheAt_seen bench, Option.map_some, Bench.cacheOf_endWrite closed,
        Bench.cacheOf_release]
      simp only [Depot.seen_inj]
      split <;> rfl
    · rw [if_neg (Depot.seen_ne_handler hj _).symm, ← hidle]
      exact k.desk.cacheAt_putBack_other hj f c
  | write | openRead | read | frame =>
    refine Eq.trans ?_ (hidle _)
    cases p <;> rfl
  | refused free bench _ =>
    refine Eq.trans ?_ (hidle _)
    exact Desk.cacheAt_putBack bench (fun _ => rfl) p
  | endRead session bench =>
    refine Eq.trans ?_ (hidle _)
    exact Desk.cacheAt_putBack bench (Bench.cacheOf_finishRead _ _ _) p
  | @reset i g free handler =>
    refine Eq.trans ?_ (hidle _)
    cases p with
    | thread => rfl
    | handler j =>
      change ((k.desk.handlers.set i g.reset)[j]?).map Handler.cache = (k.desk.handlers[j]?).map Handler.cache
      by_cases hj : i = j
      · subst hj
        rw [List.getElem?_set_self (List.getElem?_eq_some_iff.1 handler).1, handler]
        rfl
      · rw [List.getElem?_set_ne hj]

/-! ## Buffers and events -/

/-- the buffer that a keeper has -/
def bufferAt (k : Workshop) : Keeper → Option Scratch
  | .cache p => (k.desk.cacheAt p).bind BufferCache.slot
  | .session i =>
    match k.sessions i with
    | some (.write _ w _) => some w.scratch
    | _ => none

/-- the cache whose buffer the next write session of a handler is handed; `none` where one is made for it -/
def drawn (k : Workshop) (i : Nat) : Option Depot :=
  k.desk.handlers[i]?.bind fun h =>
    let p := Depot.seen i h.config.cacheScope
    ((k.bufferAt (.cache p)).filter fun buf => h.config.initialBufferSize ≤ buf.capacity).map fun _ => p

/-- the cache that the buffer of an open write session will lie in once the session ends; `none` where it is too large
to be kept -/
def kept (k : Workshop) (i : Nat) : Option Depot :=
  k.desk.handlers[i]?.bind fun h =>
    ((k.bufferAt (.session i)).filter fun buf => buf.capacity ≤ h.config.maxCachedBuffer).map fun _ =>
      .seen i h.config.cacheScope

/-- the keeper from which an event brings a buffer to a keeper; `none` where the event makes a buffer -/
def source (k : Workshop) : Event → Keeper → Option Keeper
  | .openWrite i _, .session j => if j = i then (k.drawn i).map .cache else some (.session j)
  | .endWrite i _, .cache p => if k.kept i = some p then some (.session i) else some (.cache p)
  | _, x => some x

/-- how a keeper came by the buffer that it has after an event -/
inductive Handed (k : Workshop) : Event → Keeper → Scratch → Prop
  /-- it was brought from where it was before, and nothing was written into it -/
  | brought {ev : Event} {x y : Keeper} {buf : Scratch} (source : k.source ev x = some y)
    (had : k.bufferAt y = some buf) : Handed k ev x buf
  /-- its session has written into it -/
  | written {i : Nat} {a : WriteAct} {f : String} {w v : Writer} {log : List Bytes}
    (session : k.sessions i = some (.write f w log)) (act : (Desk.writeAct w k.desk.drafts a).2.1 = v) :
    Handed k (.write i a) (.session i) v.scratch
  /-- it was made, all zeros, for a session that was opened -/
  | made {i : Nat} {f : String} {h : Handler} (handler : k.desk.handlers[i]? = some h)
    (source : k.source (.openWrite i f) (.session i) = none) :
    Handed k (.openWrite i f) (.session i) (.zeros h.config.initialBufferSize)

/-! ## What holds of each handler -/

/-- what holds at any time of a handler and of what it has open -/
inductive Seat : Option Handler → Option Session → Prop
  | vacant : Seat none none
  | taken {h : Handler} {s : Option Session} (normal : h.config.normalize = h.config)
    (bound : h.cache.maxRetained = h.config.maxCachedBuffer)
    (writing : ∀ f w log, s = some (.write f w log) →
      w.Inside ∧ (h.config.cacheScope = .handler → h.cache.slot = none)) : Seat (some h) s

/-- a handler that has no write session open -/
theorem Seat.idle {h : Handler} {s : Option Session} (normal : h.config.normalize = h.config)
    (bound : h.cache.maxRetained = h.config.maxCachedBuffer) (hs : ∀ f w log, s ≠ some (.write f w log)) :
    Seat (some h) s :=
  .taken normal bound fun f w log h => absurd h (hs f w log)

def Seated (k : Workshop) : Prop :=
  ∀ i, Seat k.desk.handlers[i]? (k.sessions i)

/-- what a seat says of an open write session -/
theorem Seated.writing (hk : k.Seated) {i : Nat} {f : String} {w : Writer} {log : List Bytes}
    (hs : k.sessions i = some (.write f w log)) :
    ∃ h, k.desk.handlers[i]? = some h ∧ w.Inside ∧ (h.config.cacheScope = .handler → h.cache.slot = none) := by
  have hi := hk i
  rw [hs] at hi
  generalize k.desk.handlers[i]? = o at hi
  cases hi with
  | taken _ _ writing => exact ⟨_, rfl, writing f w log rfl⟩

theorem Seated.bound (hk : k.Seated) {i : Nat} {h : Handler} (hh : k.desk.handlers[i]? = some h) :
    h.config.normalize = h.config ∧ h.cache.maxRetained = h.config.maxCachedBuffer := by
  have hi := hk i
  rw [hh] at hi
  cases hi with
  | taken normal bound _ => exact ⟨normal, bound⟩

theorem Seated.step (hk : k.Seated) (h : Does k ev x l) : l.Seated := by
  intro j
  by_cases hj : ev.handler? = some j
  swap
  · rw [(h.other hj).1, (h.other hj).2]
    exact hk j
  cases h with
  | frame => cases hj
  | @openWrite i f b free bench =>
    obtain rfl := Option.some.inj hj
    obtain ⟨normal, bound⟩ := hk.bound (Desk.handler_of_bench bench)
    have hcache := b.cacheOf_openWrite .handler
    simp only [putBack, Desk.handler_putBack bench, Function.update_self]
    refine .taken ?_ ?_ ?_
    · rw [Bench.config_openWrite, normal]
    · rw [Bench.config_openWrite, ← bound]
      change (b.openWrite.2.cacheOf .handler).maxRetained = _
      rw [hcache]
      split <;> rfl
    · intro g w log hw
      obtain ⟨-, rfl, -⟩ := Session.write.inj (Option.some.inj hw)
      refine ⟨b.inside_openWrite, fun hscope => ?_⟩
      rw [Bench.config_openWrite] at hscope
      change (b.openWrite.2.cacheOf .handler).slot = none
      rw [hcache, if_pos hscope.symm]
      rfl
  | @write i a f w v log reply drafts session act =>
    obtain rfl := Option.some.inj hj
    obtain ⟨h, hh, hin, hempty⟩ := hk.writing session
    obtain ⟨normal, bound⟩ := hk.bound hh
    simp only [Desk.keeping, hh, Function.update_self]
    refine .taken normal bound fun g u more hu => ?_
    obtain ⟨-, rfl, -⟩ := Session.write.inj (Option.some.inj hu)
    have hkeeps := Desk.writeAct_keeps a k.desk.drafts hin
    rw [act] at hkeeps
    exact ⟨hkeeps.inside, hempty⟩
  | @endWrite i ending f w log b c size session bench closed =>
    obtain rfl := Option.some.inj hj
    obtain ⟨normal, bound⟩ := hk.bound (Desk.handler_of_bench bench)
    simp only [putBack, Desk.handler_putBack bench, Function.update_self]
    refine .idle ?_ ?_ (by simp)
    · rw [Bench.config_endWrite closed, normal]
    · rw [Bench.config_endWrite closed, ← bound]
      change (c.cacheOf .handler).maxRetained = (b.cacheOf .handler).maxRetained
      rw [Bench.cacheOf_endWrite closed, Bench.cacheOf_release]
      split
      · rename_i hscope
        rw [Handler.returns, ← hscope]
        exact BufferCache.maxRetained_step _ _
      · rfl
  | @openRead i f b r free bench =>
    obtain rfl := Option.some.inj hj
    obtain ⟨normal, bound⟩ := hk.bound (Desk.handler_of_bench bench)
    simp only [hold, Desk.handler_of_bench bench, Function.update_self]
    exact .idle normal bound (by simp)
  | @refused i f b e free bench =>
    obtain rfl := Option.some.inj hj
    obtain ⟨normal, bound⟩ := hk.bound (Desk.handler_of_bench bench)
    simp only [putBack, Desk.handler_putBack bench, Function.update_self]
    exact .idle normal bound (by simp)
  | @read i kind f r s reply session =>
    obtain rfl := Option.some.inj hj
    have hi := hk i
    rw [session] at hi
    simp only [hold, Function.update_self]
    generalize k.desk.handlers[i]? = o at hi
    cases hi with
    | taken normal bound _ => exact .idle normal bound (by simp)
  | @endRead i ending f r b session bench =>
    obtain rfl := Option.some.inj hj
    obtain ⟨normal, bound⟩ := hk.bound (Desk.handler_of_bench bench)
    simp only [putBack, Desk.handler_putBack bench, Function.update_self]
    cases ending <;> exact .idle normal bound (by simp)
  | @reset i g free handler =>
    obtain rfl := Option.some.inj hj
    obtain ⟨normal, bound⟩ := hk.bound handler
    simp only [List.getElem?_set_self (List.getElem?_eq_some_iff.1 handler).1, free]
    exact .idle normal bound (by simp)

/-! ## Where buffers go -/

theorem bufferAt_cache (h : Does k ev x l) (p : Depot) :
    l.bufferAt (.cache p) = (k.desk.cacheAt p).bind fun c => (c.run (k.cacheActs p ev)).slot := by
  change (l.desk.cacheAt p).bind BufferCache.slot = _
  rw [cacheAt_of_does h, Option.bind_map]
  rfl

theorem bufferAt_session {i : Nat} {f : String} {w : Writer} {log : List Bytes}
    (hs : k.sessions i = some (.write f w log)) : k.bufferAt (.session i) = some w.scratch := by
  simp only [bufferAt, hs]

theorem kept_eq {i : Nat} {h : Handler} {f : String} {w : Writer} {log : List Bytes}
    (hh : k.desk.handlers[i]? = some h) (hs : k.sessions i = some (.write f w log)) :
    k.kept i = if w.scratch.capacity ≤ h.config.maxCachedBuffer then some (.seen i h.config.cacheScope) else none := by
  simp only [kept, hh, bufferAt_session hs, Option.bind_some, Option.filter, decide_eq_true_eq]
  split <;> rfl

theorem drawn_eq {i : Nat} {f : String} {b : Bench} (hb : k.desk.bench i f = some b) :
    k.drawn i =
      ((b.cacheOf b.handler.config.cacheScope).slot.filter fun buf =>
        b.handler.config.initialBufferSize ≤ buf.capacity).map fun _ => .seen i b.handler.config.cacheScope := by
  simp only [drawn, Desk.handler_of_bench hb, Option.bind_some, bufferAt, Desk.cacheAt_seen hb]

/-- a buffer stays where it is, but for the one that a new session is handed and the one that an ended session leaves -/
theorem source_cases {y z : Keeper} (h : k.source ev y = some z) :
    y = z ∨ (∃ i f p, ev = .openWrite i f ∧ k.drawn i = some p ∧ y = .session i ∧ z = .cache p) ∨
      ∃ i ending p, ev = .endWrite i ending ∧ k.kept i = some p ∧ y = .cache p ∧ z = .session i := by
  unfold source at h
  split at h
  · rename_i i f j
    split at h
    · rename_i hj
      obtain ⟨p, hp, rfl⟩ := Option.map_eq_some_iff.1 h
      exact .inr (.inl ⟨i, f, p, rfl, hp, congrArg _ hj, rfl⟩)
    · exact .inl (Option.some.inj h)
  · rename_i i ending p
    split at h
    · rename_i hp
      exact .inr (.inr ⟨i, ending, p, rfl, hp, rfl, (Option.some.inj h).symm⟩)
    · exact .inl (Option.some.inj h)
  · exact .inl (Option.some.inj h)

theorem source_session_of_ne {j : Nat} (hj : ev.handler? ≠ some j) :
    k.source ev (.session j) = some (.session j) := by
  cases ev with
  | openWrite i f => exact if_neg fun he => hj (congrArg some he.symm)
  | _ => rfl

/-- the cache that a new session is handed its buffer from is empty afterwards -/
theorem bufferAt_drawn {i : Nat} {f : String} {p : Depot} (h : Does k (.openWrite i f) x l)
    (hp : k.drawn i = some p) : l.bufferAt (.cache p) = none := by
  rw [bufferAt_cache h]
  cases h with
  | openWrite free bench =>
    rw [drawn_eq bench] at hp
    obtain ⟨buf, -, rfl⟩ := Option.map_eq_some_iff.1 hp
    simp only [cacheActs, Desk.handler_of_bench bench, if_true, Desk.cacheAt_seen bench, Option.bind_some]
    change (BufferCache.acquire _ _).2.slot = none
    rw [BufferCache.acquire_snd]
    rfl

theorem bufferAt_ended {i : Nat} {ending : Ending} (h : Does k (.endWrite i ending) x l) :
    l.bufferAt (.session i) = none := by
  cases h with
  | endWrite => simp only [bufferAt, putBack, Function.update_self]

/-- **No buffer is brought to two keepers.** -/
theorem source_inj (h : Does k ev x l) {y z s : Keeper} (hy : (l.bufferAt y).isSome) (hz : (l.bufferAt z).isSome)
    (hys : k.source ev y = some s) (hzs : k.source ev z = some s) : y = z := by
  -- where a buffer was brought from, none is left
  have hleft : ∀ {a : Keeper}, k.source ev a = some s → a = s ∨ l.bufferAt s = none := by
    intro a ha
    rcases source_cases ha with rfl | ⟨i, f, p, rfl, hp, -, rfl⟩ | ⟨i, ending, p, rfl, -, -, rfl⟩
    · exact .inl rfl
    · exact .inr (bufferAt_drawn h hp)
    · exact .inr (bufferAt_ended h)
  by_cases hs : (l.bufferAt s).isSome
  · have hstay : ∀ {a : Keeper}, k.source ev a = some s → a = s := fun ha =>
      (hleft ha).resolve_right fun hnone => by simp [hnone] at hs
    exact (hstay hys).trans (hstay hzs).symm
  · rcases source_cases hys with rfl | ⟨i, f, p, rfl, hp, rfl, rfl⟩ | ⟨i, ending, p, rfl, hp, rfl, rfl⟩
    · exact absurd hy hs
    all_goals
      rcases source_cases hzs with rfl | ⟨_, _, _, hev, hq, rfl, hsq⟩ | ⟨_, _, _, hev, hq, rfl, hsq⟩
      · exact absurd hz hs
      all_goals cases hev
    · rfl
    · exact congrArg Keeper.cache (Option.some.inj (hp.symm.trans hq))

/-- the buffer of a session that was just opened: from the cache that it was drawn from, or made -/
theorem handed_opened {i : Nat} {f : String} {b : Bench} (bench : k.desk.bench i f = some b) :
    k.Handed (.openWrite i f) (.session i) b.openWrite.1.scratch := by
  have hdrawn := drawn_eq bench
  rw [Bench.scratch_openWrite, BufferCache.acquire_fst]
  rcases hc : (b.cacheOf b.handler.config.cacheScope).slot.filter
    fun buf => b.handler.config.initialBufferSize ≤ buf.capacity with _ | buf <;> rw [hc] at hdrawn ⊢
  · exact .made (Desk.handler_of_bench bench) (by simp only [source, if_true, hdrawn, Option.map_none])
  · refine .brought (y := .cache (.seen i b.handler.config.cacheScope)) ?_ ?_
    · simp only [source, if_true, hdrawn, Option.map_some]
    · simp only [bufferAt, Desk.cacheAt_seen bench, Option.bind_some]
      exact (Option.filter_eq_some_iff.1 hc).1

theorem handed_session (h : Does k ev x l) {j : Nat} {buf : Scratch} (hy : l.bufferAt (.session j) = some buf) :
    k.Handed ev (.session j) buf := by
  by_cases hj : ev.handler? = some j
  swap
  · refine .brought (source_session_of_ne hj) ?_
    simp only [bufferAt, (h.other hj).1] at hy
    exact hy
  cases h with
  | frame => cases hj
  | openWrite free bench =>
    obtain rfl := Option.some.inj hj
    rw [bufferAt_session (Function.update_self ..)] at hy
    obtain rfl := Option.some.inj hy
    exact handed_opened bench
  | write session act =>
    obtain rfl := Option.some.inj hj
    rw [bufferAt_session (Function.update_self ..)] at hy
    obtain rfl := Option.some.inj hy
    exact .written session (by rw [act])
  | endWrite | openRead | refused | read | endRead =>
    obtain rfl := Option.some.inj hj
    simp [bufferAt, putBack, hold] at hy
  | reset free =>
    obtain rfl := Option.some.inj hj
    simp [bufferAt, free] at hy

theorem handed_cache (hk : k.Seated) (h : Does k ev x l) {p : Depot} {buf : Scratch}
    (hy : l.bufferAt (.cache p) = some buf) : k.Handed ev (.cache p) buf := by
  rw [bufferAt_cache h] at hy
  obtain ⟨c, hc, hslot⟩ := Option.bind_eq_some_iff.1 hy
  have hstay : c.slot = some buf → k.bufferAt (.cache p) = some buf := by
    intro hs
    rw [bufferAt, hc]
    exact hs
  cases h with
  | openWrite free bench =>
    simp only [cacheActs, Desk.handler_of_bench bench] at hslot
    split at hslot
    · change (BufferCache.acquire _ _).2.slot = _ at hslot
      rw [BufferCache.acquire_snd] at hslot
      cases hslot
    · exact .brought rfl (hstay hslot)
  | @endWrite i ending f w log b c' size session bench closed =>
    have hh := Desk.handler_of_bench bench
    have hkept := kept_eq hh session
    simp only [cacheActs, hh, session] at hslot
    split at hslot
    · rename_i hp
      have hbound : b.handler.config.cacheScope = .handler → c.maxRetained = b.handler.config.maxCachedBuffer := by
        intro hscope
        rw [hp, Desk.cacheAt_seen bench, hscope] at hc
        rw [← Option.some.inj hc]
        exact (hk.bound hh).2
      rcases (Handler.slot_returns_iff hbound w.scratch buf).1 hslot with ⟨rfl, hle⟩ | ⟨hold, hlt, -⟩
      · rw [if_pos hle, ← hp] at hkept
        exact .brought (if_pos hkept) (bufferAt_session session)
      · rw [if_neg (Nat.not_le_of_lt hlt)] at hkept
        exact .brought (if_neg (by simp [hkept])) (hstay hold)
    · -- the session leaves its buffer to another cache, or to none
      rename_i hp
      refine .brought (if_neg ?_) (hstay hslot)
      rw [hkept]
      split
      · exact fun he => hp (Option.some.inj he).symm
      · simp
  | write | openRead | refused | read | endRead | reset | frame => exact .brought rfl (hstay hslot)

/-- **A buffer is handed on as it was**, unless its own session writes into it or it is made in the event. -/
theorem handed (hk : k.Seated) (h : Does k ev x l) {y : Keeper} {buf : Scratch} (hy : l.bufferAt y = some buf) :
    k.Handed ev y buf := by
  cases y with
  | session j => exact handed_session h hy
  | cache p => exact handed_cache hk h hy

end Workshop

end Courier
