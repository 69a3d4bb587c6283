import Courier.Proofs.Session

/-!
What a cache keeps, over whole histories.

A cache that starts empty is followed through any row of acts. `Bounded` says that no buffer in the slot is larger than
the cache keeps. `KeptLast` tells from the acts alone which buffer should lie there: the one that was released last and
was small enough, unless something has taken it or dropped it since. `slot_run_iff` says that this is the one that does.

A write session draws its buffer from the cache of its handler's scope and gives it back there. What this does to
either cache is told in acts of the cache, so that histories of sessions are histories of acts.

`Bounded.run`, `slot_run_iff`: the invariant, and what lies in the slot.
`mem_release_of_keptLast`: what lies in the slot after an acquisition was released after it.
`acquire_cases`, `served_acquire`: what is handed out.
`Bench.cacheOf_openWrite`, `Bench.cacheOf_release`: sessions as acts of caches.
-/

namespace Courier

namespace BufferCache

/-- no buffer in the slot is larger than the cache keeps -/
def Bounded (c : BufferCache) : Prop :=
  ∀ buf, c.slot = some buf → buf.capacity ≤ c.maxRetained

/-- the largest size that is kept after some acts, from one that was kept before them -/
def bound (m : Nat) (acts : List Act) : Nat :=
  acts.foldl (fun b a => match a with | .setMax n => n | _ => b) m

/-- whether an act leaves a buffer that lies in the slot there, while buffers of up to `b` bytes are kept -/
def Act.Spares (b : Nat) (buf : Scratch) : Act → Prop
  | .acquire _ => False
  | .release other => b < other.capacity
  | .setMax n => buf.capacity ≤ n
  | .clear => False

/-- `buf` is the buffer that was released last and kept, and no act since has taken or dropped it -/
inductive KeptLast (m : Nat) : List Act → Scratch → Prop
  | release {acts : List Act} {buf : Scratch} (fits : buf.capacity ≤ bound m acts) :
    KeptLast m (acts ++ [.release buf]) buf
  | spared {acts : List Act} {a : Act} {buf : Scratch} (kept : KeptLast m acts buf)
    (spares : a.Spares (bound m acts) buf) : KeptLast m (acts ++ [a]) buf

theorem run_concat (c : BufferCache) (acts : List Act) (a : Act) : c.run (acts ++ [a]) = ((c.run acts).step a).2 :=
  List.foldl_concat ..

theorem run_append (c : BufferCache) (acts more : List Act) : c.run (acts ++ more) = (c.run acts).run more :=
  List.foldl_append ..

/-! ## One act -/

theorem maxRetained_step (c : BufferCache) (a : Act) :
    (c.step a).2.maxRetained = match a with | .setMax n => n | _ => c.maxRetained := by
  cases a with
  | acquire n =>
    simp only [step, acquire]
    split <;> rfl
  | release buf =>
    simp only [step, release]
    split <;> rfl
  | setMax n =>
    simp only [step, setMaxRetained]
    split <;> rfl
  | clear => rfl

theorem acquire_snd (c : BufferCache) (n : Nat) : (c.acquire n).2 = c.clear := by
  unfold acquire
  split <;> rfl

/-- what lies in the slot after an act: a small buffer that was just released, or what lay there and was spared -/
theorem slot_step_iff (c : BufferCache) (a : Act) (buf : Scratch) :
    (c.step a).2.slot = some buf ↔
      (a = .release buf ∧ buf.capacity ≤ c.maxRetained) ∨ (c.slot = some buf ∧ a.Spares c.maxRetained buf) := by
  cases a with
  | acquire n =>
    simp only [step, acquire_snd]
    simp [clear, Act.Spares]
  | clear => simp [step, clear, Act.Spares]
  | setMax n =>
    simp only [step, setMaxRetained]
    rcases c.slot with _ | old
    · simp
    · by_cases h : n < old.capacity
      · simp only [if_pos h, reduceCtorEq, false_and, false_or, Option.some.injEq, Act.Spares, false_iff, not_and]
        rintro rfl
        exact Nat.not_le_of_lt h
      · simp only [if_neg h, reduceCtorEq, false_and, false_or, Option.some.injEq, Act.Spares]
        exact (and_iff_left_of_imp fun h' => h' ▸ Nat.le_of_not_lt h).symm
  | release other =>
    simp only [step, release]
    by_cases h : c.maxRetained < other.capacity
    · rw [if_pos h]
      simp only [Act.release.injEq, Act.Spares, h, and_true]
      refine ⟨.inr, fun h' => h'.resolve_left ?_⟩
      rintro ⟨rfl, hle⟩
      exact absurd h (Nat.not_lt_of_le hle)
    · rw [if_neg h]
      simp only [Option.some.injEq, Act.release.injEq, Act.Spares, h, and_false, or_false]
      exact (and_iff_left_of_imp fun h' => h' ▸ Nat.le_of_not_lt h).symm

theorem Bounded.step {c : BufferCache} (h : c.Bounded) (a : Act) : (c.step a).2.Bounded := by
  intro buf hbuf
  rw [maxRetained_step]
  rcases (slot_step_iff c a buf).1 hbuf with ⟨rfl, hle⟩ | ⟨hslot, hspares⟩
  · exact hle
  · cases a with
    | setMax n => exact hspares
    | release other => exact h buf hslot
    | acquire n | clear => cases hspares

/-! ## Histories -/

theorem bounded_ofMax (m : Nat) : (ofMax m).Bounded := by
  intro buf h
  cases h

/-- **A cached buffer is never larger than the cache keeps.** -/
theorem Bounded.run {c : BufferCache} (h : c.Bounded) (acts : List Act) : (c.run acts).Bounded := by
  induction acts using List.reverseRecOn with
  | nil => exact h
  | append_singleton acts a ih =>
    rw [run_concat]
    exact ih.step a

theorem maxRetained_run (c : BufferCache) (acts : List Act) : (c.run acts).maxRetained = bound c.maxRetained acts := by
  induction acts using List.reverseRecOn with
  | nil => rfl
  | append_singleton acts a ih =>
    rw [run_concat, maxRetained_step, bound, List.foldl_concat, ih]
    rfl

theorem not_keptLast_nil (m : Nat) (buf : Scratch) : ¬ KeptLast m [] buf := by
  generalize hnil : ([] : List Act) = acts
  rintro (- | -) <;> simp at hnil

theorem keptLast_concat_iff (m : Nat) (acts : List Act) (a : Act) (buf : Scratch) :
    KeptLast m (acts ++ [a]) buf ↔
      (a = .release buf ∧ buf.capacity ≤ bound m acts) ∨ (KeptLast m acts buf ∧ a.Spares (bound m acts) buf) := by
  constructor
  · generalize hrow : acts ++ [a] = row
    rintro (⟨fits⟩ | ⟨kept, spares⟩) <;> obtain ⟨rfl, rfl⟩ := List.append_singleton_inj.1 hrow
    · exact .inl ⟨rfl, fits⟩
    · exact .inr ⟨kept, spares⟩
  · rintro (⟨rfl, fits⟩ | ⟨kept, spares⟩)
    · exact .release fits
    · exact .spared kept spares

/-- **What lies in the slot** is the buffer that was released last and kept. -/
theorem slot_run_iff (m : Nat) (acts : List Act) (buf : Scratch) :
    ((ofMax m).run acts).slot = some buf ↔ KeptLast m acts buf := by
  induction acts using List.reverseRecOn with
  | nil => exact ⟨fun h => (nomatch h), fun h => absurd h (not_keptLast_nil m buf)⟩
  | append_singleton acts a ih =>
    rw [run_concat, slot_step_iff, keptLast_concat_iff, ih, maxRetained_run]
    rfl

/-- what lies in the slot some time after an acquisition was released in the meantime -/
theorem mem_release_of_keptLast {m n : Nat} {before between : List Act} {buf : Scratch}
    (h : KeptLast m (before ++ .acquire n :: between) buf) : .release buf ∈ between := by
  induction between using List.reverseRecOn with
  | nil =>
    rcases (keptLast_concat_iff ..).1 h with ⟨ha, -⟩ | ⟨-, hs⟩
    · cases ha
    · cases hs
  | append_singleton between a ih =>
    rw [← List.cons_append, ← List.append_assoc, keptLast_concat_iff] at h
    rcases h with ⟨rfl, -⟩ | ⟨hk, -⟩
    · exact List.mem_append_right _ List.mem_cons_self
    · exact List.mem_append_left _ (ih hk)

/-! ## What is handed out -/

/-- a buffer from the slot, large enough and as it lay there, or a fresh one of just the size asked for -/
theorem acquire_cases (c : BufferCache) (n : Nat) :
    (c.slot = some (c.acquire n).1 ∧ n ≤ (c.acquire n).1.capacity) ∨ (c.acquire n).1 = .zeros n := by
  unfold acquire
  split
  · rename_i buf hslot
    by_cases h : n ≤ buf.capacity
    · rw [if_pos h]
      exact .inl ⟨hslot, h⟩
    · rw [if_neg h]
      exact .inr rfl
  · exact .inr rfl

theorem le_capacity_acquire (c : BufferCache) (n : Nat) : n ≤ (c.acquire n).1.capacity := by
  rcases c.acquire_cases n with ⟨-, h⟩ | h
  · exact h
  · rw [h]
    exact Nat.le_refl n

theorem acquire_fst (c : BufferCache) (n : Nat) :
    (c.acquire n).1 = (c.slot.filter fun buf => n ≤ buf.capacity).getD (.zeros n) := by
  unfold acquire
  split
  · rename_i buf hslot
    by_cases h : n ≤ buf.capacity <;> simp [hslot, Option.filter, h]
  · rename_i hslot
    simp [hslot]

/-- what `n` bytes may be asked for and be answered with after a history: the buffer that was kept last, just as it came
back, or that many zeros -/
def Served (m : Nat) (acts : List Act) (n : Nat) (buf : Scratch) : Prop :=
  n ≤ buf.capacity ∧ (KeptLast m acts buf ∨ buf.bytes = List.replicate n 0)

theorem served_acquire (m : Nat) (acts : List Act) (n : Nat) :
    Served m acts n (((ofMax m).run acts).acquire n).1 := by
  refine ⟨le_capacity_acquire _ n, ?_⟩
  rcases acquire_cases ((ofMax m).run acts) n with ⟨hslot, -⟩ | hzeros
  · exact .inl ((slot_run_iff m acts _).1 hslot)
  · rw [hzeros]
    exact .inr (Scratch.bytes_zeros n)

theorem acquire?_eq (c : BufferCache) (n : Nat) :
    c.acquire? n = (if n ≤ maxAllocation then some (c.acquire n).1 else none, c.clear) := by
  unfold acquire?
  split
  · exact Prod.ext rfl (c.acquire_snd n)
  · rfl

end BufferCache

/-! ## Sessions -/

theorem Handler.cache_of_build {factory : Factory} {c : Config} {h : Handler} (hb : build factory c = some h) :
    h.cache = .ofMax h.config.maxCachedBuffer := by
  obtain ⟨n, -, rfl⟩ := Option.map_eq_some_iff.1 hb
  rfl

/-- what giving a buffer back does to the cache of the handler's scope -/
def Handler.returns (h : Handler) (buf : Scratch) : List BufferCache.Act :=
  match h.config.cacheScope with
  | .handler => [.release buf]
  | .thread => [.setMax h.config.maxCachedBuffer, .release buf]

/-- what lies in a cache once a buffer has come back to it: that one if it is small enough, and what lay there if not -/
theorem Handler.slot_returns_iff {h : Handler} {c : BufferCache}
    (hc : h.config.cacheScope = .handler → c.maxRetained = h.config.maxCachedBuffer) (buf other : Scratch) :
    (c.run (h.returns buf)).slot = some other ↔
      (other = buf ∧ buf.capacity ≤ h.config.maxCachedBuffer) ∨
        (c.slot = some other ∧ h.config.maxCachedBuffer < buf.capacity ∧
          (h.config.cacheScope = .thread → other.capacity ≤ h.config.maxCachedBuffer)) := by
  unfold returns
  cases hs : h.config.cacheScope with
  | handler =>
    change (c.step (.release buf)).2.slot = some other ↔ _
    rw [BufferCache.slot_step_iff, hc hs]
    simp only [BufferCache.Act.release.injEq, BufferCache.Act.Spares, reduceCtorEq, false_implies, and_true]
    rw [eq_comm (a := buf)]
    refine or_congr_left (and_congr_right ?_)
    rintro rfl
    rfl
  | thread =>
    change ((c.step (.setMax h.config.maxCachedBuffer)).2.step (.release buf)).2.slot = some other ↔ _
    rw [BufferCache.slot_step_iff, BufferCache.slot_step_iff, BufferCache.maxRetained_step]
    simp only [BufferCache.Act.release.injEq, BufferCache.Act.Spares, reduceCtorEq, false_and, false_or, forall_const]
    rw [eq_comm (a := buf), and_assoc, and_comm (a := other.capacity ≤ _)]
    refine or_congr_left (and_congr_right ?_)
    rintro rfl
    rfl

namespace Bench

/-- the cache of a scope -/
def cacheOf (b : Bench) : CacheScope → BufferCache
  | .handler => b.handler.cache
  | .thread => b.shared

theorem scratch_openWrite (b : Bench) :
    b.openWrite.1.scratch =
      ((b.cacheOf b.handler.config.cacheScope).acquire b.handler.config.initialBufferSize).1 := by
  rw [openWrite_eq]
  unfold acquire
  cases b.handler.config.cacheScope <;> rfl

/-- opening a session takes a buffer out of the cache of its scope, and leaves the other one alone -/
theorem cacheOf_openWrite (b : Bench) (s : CacheScope) :
    b.openWrite.2.cacheOf s =
      if s = b.handler.config.cacheScope then (b.cacheOf s).clear else b.cacheOf s := by
  rw [openWrite_eq]
  unfold acquire cacheOf
  cases b.handler.config.cacheScope <;> cases s <;> simp [BufferCache.acquire_snd]

theorem cacheOf_release (b : Bench) (buf : Scratch) (s : CacheScope) :
    (b.release buf).cacheOf s =
      if s = b.handler.config.cacheScope then (b.cacheOf s).run (b.handler.returns buf) else b.cacheOf s := by
  unfold release cacheOf Handler.returns
  cases b.handler.config.cacheScope <;> cases s <;> simp [BufferCache.run, BufferCache.step, BufferCache.releaseWithin]

end Bench

end Courier
