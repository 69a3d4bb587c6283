import Courier.Config.Text
import Courier.Proofs.BuffersUnseen
import Courier.Proofs.Retained

/-!
What is allocated before a session has written anything: the levels of a handler, when it is built, and the scratch
buffer of its first write session.

Settings are brought within their bounds before use, and those that a text gives are within them already. The bounds
keep the buffer far below what one allocation can hold. The number of levels has a lower bound only: a handler of too
many of them cannot be built, and `exists_build_iff` says how many are too many.

`Config.Normal`: settings within their bounds, which are those that `normalize` leaves alone.
`allocations`: the main result.
-/

namespace Courier

namespace Config

/-- settings within their bounds -/
structure Normal (c : Config) : Prop where
  buffer_pos : 1 ≤ c.initialBufferSize
  buffer_le : c.initialBufferSize ≤ maxBufferSize
  depth_pos : 1 ≤ c.initialStateDepth
  length_le : c.maxLength ≤ defaultMaxLength

theorem normal_normalize (c : Config) : c.normalize.Normal where
  buffer_pos := Nat.le_min.2 ⟨Nat.le_max_right .., by decide⟩
  buffer_le := Nat.min_le_right ..
  depth_pos := Nat.le_max_right ..
  length_le := Nat.min_le_right ..

theorem normalize_eq_iff {c : Config} : c.normalize = c ↔ c.Normal := by
  refine ⟨fun h => h ▸ normal_normalize c, fun h => ?_⟩
  have hbuffer : min (max c.initialBufferSize 1) maxBufferSize = c.initialBufferSize := by
    rw [Nat.max_eq_left h.buffer_pos, Nat.min_eq_left h.buffer_le]
  simp only [normalize, hbuffer, Nat.max_eq_left h.depth_pos, Nat.min_eq_left h.length_le]

/-- settings that a text gives are within their bounds -/
theorem normal_of_parse {s : String} {c : Config} (h : parse s = .ok c) : c.Normal := by
  unfold parse at h
  split at h
  · obtain rfl := Except.ok.inj h
    exact normal_normalize _
  · cases h

theorem Normal.buffer_le_maxAllocation {c : Config} (h : c.Normal) : c.initialBufferSize ≤ maxAllocation :=
  Nat.le_trans h.buffer_le (by decide)

end Config

namespace Handler

/-- a handler can be built where one allocation can hold its levels -/
theorem exists_build_iff (factory : Factory) (c : Config) :
    (∃ h, build factory c = some h) ↔ c.normalize.initialStateDepth * Nesting.levelSize ≤ maxAllocation := by
  rw [← Option.isSome_iff_exists]
  simp only [build, Nesting.allocate?, Option.isSome_map, Nat.max_eq_left c.normal_normalize.depth_pos]
  split
  · exact iff_of_true rfl ‹_›
  · exact iff_of_false Bool.false_ne_true ‹_›

/-- **What is allocated up front.** Under any settings, the scratch buffer that a first write session is handed is one
that an allocation can hold, whatever lies in the cache of the thread. The levels are not bounded from above: a handler
can be built under exactly those settings that ask for at most `1152921504606846975` of them, which are as many as one
allocation can hold. The settings that a text gives are within their bounds, and a handler has them as they are. -/
theorem allocations (factory : Factory) (c : Config) :
    c.normalize.initialBufferSize ≤ maxAllocation ∧
      (c.normalize.initialStateDepth * Nesting.levelSize ≤ maxAllocation ↔
        c.initialStateDepth ≤ 1152921504606846975) ∧
      ((∃ h, build factory c = some h) ↔ c.initialStateDepth ≤ 1152921504606846975) ∧
      (∀ h, build factory c = some h → ∀ shared frame,
        let b : Bench := ⟨h, shared, frame⟩
        ((b.cacheOf h.config.cacheScope).acquire? h.config.initialBufferSize).1 = some b.openWrite.1.scratch) ∧
      ∀ s, Config.parse s = .ok c → ∀ h, build factory c = some h → h.config = c := by
  have hbuffer := c.normal_normalize.buffer_le_maxAllocation
  have hconfig : ∀ {h}, build factory c = some h → h.config = c.normalize := fun hb => (proper_build hb).2.2.1
  have hdepth : c.normalize.initialStateDepth * Nesting.levelSize ≤ maxAllocation ↔
      c.initialStateDepth ≤ 1152921504606846975 := by
    simp only [Config.normalize, Nesting.levelSize, maxAllocation]
    omega
  refine ⟨hbuffer, hdepth, (exists_build_iff factory c).trans hdepth, fun h hb shared frame => ?_, fun s hs h hb => ?_⟩
  · rw [← hconfig hb] at hbuffer
    simp only [BufferCache.acquire?_eq, if_pos hbuffer, Bench.scratch_openWrite]
  · rw [hconfig hb, Config.normalize_eq_iff.2 (Config.normal_of_parse hs)]

theorem terse_settings_allocate : ∃ c h,
    Config.parse "\x7b\"initial_buffer_size\":0,\"initial_state_depth\":0\x7d" = .ok c ∧
      build (.ofList []) c = some h ∧ h.config = c ∧
        (h.cache.acquire? 1).1 = some (Bench.openWrite ⟨h, .ofMax 0, .empty⟩).1.scratch := by
  obtain ⟨c, hc, hsizes⟩ : ∃ c, Config.parse "\x7b\"initial_buffer_size\":0,\"initial_state_depth\":0\x7d" = .ok c ∧
      (c.initialBufferSize, c.initialStateDepth, c.cacheScope) = (1, 1, .handler) :=
    ⟨_, rfl, by decide +kernel⟩
  obtain ⟨hbuffer, hdepth, hscope⟩ : c.initialBufferSize = 1 ∧ c.initialStateDepth = 1 ∧ c.cacheScope = .handler := by
    simpa using hsizes
  obtain ⟨-, -, hbuild, hopen, hparse⟩ := allocations (.ofList []) c
  obtain ⟨h, hh⟩ := hbuild.2 (by omega)
  have hconfig := hparse _ hc h hh
  refine ⟨c, h, hc, hh, hconfig, ?_⟩
  have hacquire := hopen h hh (.ofMax 0) .empty
  simp only [hconfig, hbuffer, hscope] at hacquire
  exact hacquire

/-- settings that a text gives, and that no handler can be built under -/
theorem depth_unbounded : ∃ c,
    Config.parse "\x7b\"initial_state_depth\":1152921504606846976\x7d" = .ok c ∧
      maxAllocation < c.normalize.initialStateDepth * Nesting.levelSize ∧ build (.ofList []) c = none := by
  obtain ⟨c, hc, hdepth⟩ : ∃ c, Config.parse "\x7b\"initial_state_depth\":1152921504606846976\x7d" = .ok c ∧
      c.initialStateDepth = 1152921504606846976 :=
    ⟨_, rfl, by decide +kernel⟩
  have hlevels : maxAllocation < c.normalize.initialStateDepth * Nesting.levelSize := by
    simp only [Config.normalize, hdepth]
    decide
  refine ⟨c, hc, hlevels, ?_⟩
  rw [Option.eq_none_iff_forall_ne_some]
  exact fun h hb => absurd ((exists_build_iff _ c).1 ⟨h, hb⟩) (Nat.not_le_of_lt hlevels)

end Handler

end Courier
