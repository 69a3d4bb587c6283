import Courier.Proofs.BuffersUnseen
import Courier.Proofs.Hostile
import Courier.Proofs.WindowCodes

/-!
What a read session sees of its frame.

Two sessions are opened on frames whose windows lie anywhere, among any other bytes, and the window of the second shows
the bytes of the first and then `x`. Reads that succeed in the first session succeed in the second with the same values
and take as many bytes; if `x` is empty, reads are also refused alike, each session speaking of its own frame.

`Desk.tryKinds_follows`: reads that are answered, one after another.
`Desk.readKinds_follows`: reads answered or refused, with nothing behind.
`Bench.read_window`: the main result.
-/

namespace Courier

/-- answers of two sessions that began at `p` and at `q`, and where these stand then -/
structure Received.Shifted (p q : Nat) (a b : Received) : Prop where
  reply : a.reply = b.reply ∨ ∃ e e', a.reply = .error e ∧ b.reply = .error e' ∧ e.Shifted p q e'
  position : b.position + p = a.position + q
  remaining : b.remaining = a.remaining
  depth : b.depth = a.depth

namespace Reader

variable {g : Gap} {d : Nat} {r s : Reader}

/-- a read that is answered is answered with the same field -/
theorem run_follows_ok (hg : g.Fair) (hf : g.fewer = g.factory) {k : FieldKind} (hk : k.Suits g.behind)
    (h : Wider g d r s) {f : Field} {t : Reader} (hr : r.run k = (some (.ok f), t)) :
    ∃ u, s.run k = (some (.ok f), u) ∧ Wider g d t u := by
  have key := follows_readField hg hk d r s h
  unfold run at hr ⊢
  cases hx : readField k r with
  | ok a t' =>
    rw [hx] at hr key
    cases hr
    generalize readField k s = y at key
    cases key with
    | @ok _ _ u h => exact ⟨u, rfl, h⟩
    | lost hne => exact absurd hf hne
  | error fault t' =>
    rw [hx] at hr
    cases fault <;> cases hr

/-- what two sessions answer to a read, with nothing behind, unless both stop -/
theorem run_follows (hg : g.Fair) (hf : g.fewer = g.factory) (hx : g.behind = []) {k : FieldKind}
    (hk : k.Suits g.behind) (h : Wider g d r s) :
    ((r.run k).1 = none ∧ (s.run k).1 = none) ∨
      ∃ reply reply' t u, r.run k = (some reply, t) ∧ s.run k = (some reply', u) ∧ Wider g d t u ∧
        (Received.of reply t).Shifted g.narrow g.wide (Received.of reply' u) := by
  have key := follows_readField hg hk d r s h
  unfold run
  generalize readField k r = y at key
  generalize readField k s = z at key
  cases key with
  | @ok f t u k =>
    exact .inr ⟨.ok f, .ok f, t, u, rfl, rfl, k, .inl rfl, k.offset, k.remaining_eq hx, k.wide_depth.trans k.depth.symm⟩
  | @refused e e' t u he k =>
    exact .inr ⟨.error e, .error e', t, u, rfl, rfl, k, .inr ⟨e, e', rfl, rfl, he⟩, k.offset, k.remaining_eq hx,
      k.wide_depth.trans k.depth.symm⟩
  | panic => exact .inl ⟨rfl, rfl⟩
  | short hne => exact absurd hx hne
  | lost hne => exact absurd hf hne

end Reader

namespace Desk

variable {g : Reader.Gap} {d : Nat}

theorem tryKinds_follows (hg : g.Fair) (hf : g.fewer = g.factory) {ks : List FieldKind}
    (hks : ∀ k ∈ ks, k.Suits g.behind) {r s t : Reader} (h : Reader.Wider g d r s) {fs : List Field}
    (hr : tryKinds r ks = some (.ok fs, t)) : ∃ u, tryKinds s ks = some (.ok fs, u) ∧ Reader.Wider g d t u := by
  induction ks generalizing r s fs with
  | nil =>
    cases hr
    exact ⟨s, rfl, h⟩
  | cons k ks ih =>
    rw [tryKinds] at hr ⊢
    rcases hrun : r.run k with ⟨_ | e | f, r'⟩
    · rw [hrun] at hr
      cases hr
    · rw [hrun] at hr
      cases hr
    · rw [hrun] at hr
      obtain ⟨⟨result, t'⟩, hrest, hcons⟩ := Option.map_eq_some_iff.1 hr
      obtain ⟨hfs, rfl⟩ := Prod.mk.inj hcons
      cases result with
      | error e => cases hfs
      | ok gs =>
        obtain ⟨s', hrun', hw⟩ := Reader.run_follows_ok hg hf (hks k List.mem_cons_self) h hrun
        obtain ⟨u, hu, htu⟩ := ih (fun k hk => hks k (List.mem_cons_of_mem _ hk)) hw hrest
        refine ⟨u, ?_, htu⟩
        rw [hrun']
        dsimp only
        rw [hu, Option.map_some, hfs]

theorem readKinds_follows (hg : g.Fair) (hf : g.fewer = g.factory) (hx : g.behind = []) {ks : List FieldKind}
    (hks : ∀ k ∈ ks, k.Suits g.behind) {r s : Reader} (h : Reader.Wider g d r s) :
    Option.Rel (fun a b => List.Forall₂ (Received.Shifted g.narrow g.wide) a.1 b.1 ∧ Reader.Wider g d a.2 b.2)
      (readKinds r ks) (readKinds s ks) := by
  induction ks generalizing r s with
  | nil => exact .some ⟨.nil, h⟩
  | cons k ks ih =>
    rw [readKinds, readKinds]
    rcases Reader.run_follows hg hf hx (hks k List.mem_cons_self) h with ⟨hr, hs⟩ | ⟨reply, reply', t, u, hr, hs, hw, ha⟩
    · rcases hrun : r.run k with ⟨_ | _, r'⟩ <;> rw [hrun] at hr
      · rcases hrun' : s.run k with ⟨_ | _, s'⟩ <;> rw [hrun'] at hs
        · exact .none
        · cases hs
      · cases hr
    · rw [hr, hs]
      exact rel_map (ih (fun k hk => hks k (List.mem_cons_of_mem _ hk)) hw) fun hrest => ⟨.cons ha hrest.1, hrest.2⟩

end Desk

namespace Bench

/-- **Reads see only the window between position and limit.** Two sessions on the same terms are opened on frames with
their positions within their limits and their limits within their data; the window of the second shows that of the
first and then `x`. The reads are those of any code that abides by its window, of messages given by such codes, and of
objects taken up by any decoders. If no read of the first session is refused, at whatever depth, the second answers the
same and takes as many bytes. If `x` is empty, the sessions come to the same whatever is refused: a refusal is of the
same kind, and the positions and limits it tells lie as far apart as the sessions began. The same is true of the reads
of the handlers, one by one, if all of them are typed where `x` is not empty, also those that messages are made of. -/
theorem read_window {b c : Bench} {r s : Reader} {x : Bytes} (hb : b.openRead = .ok r) (hc : c.openRead = .ok s)
    (hfactory : c.handler.factory = b.handler.factory)
    (horder : c.handler.config.byteOrder = b.handler.config.byteOrder)
    (hlength : c.handler.config.maxLength = b.handler.config.maxLength)
    (hbp : b.frame.position ≤ b.frame.limit) (hbl : b.frame.limit ≤ b.frame.extent)
    (hcp : c.frame.position ≤ c.frame.limit) (hcl : c.frame.limit ≤ c.frame.extent)
    (hwindow : c.frame.readable = b.frame.readable ++ x) :
    (∀ codes : CodeFactory, codes.Abides x → ∀ {α : Type} {code : ReadCode α}, code.Abides x →
      (∀ a v, Reader.runCoded codes.strict code.strict r = .ok a v →
        ∃ t u, Reader.runCoded codes code r = .ok a t ∧ Reader.runCoded codes code s = .ok a u ∧
          t.position = v.position ∧ u.position + r.position = t.position + s.position) ∧
      (x = [] → Option.Rel (fun y z => WireError.Told r.position s.position α y.1 z.1 ∧
        z.2.position + r.position = y.2.position + s.position)
        (Reader.told (Reader.runCoded codes code r)) (Reader.told (Reader.runCoded codes code s)))) ∧
    ((∀ type blueprint, b.handler.factory type = some blueprint → ∀ k ∈ blueprint.schema, k.Suits x) →
      ∀ ks : List FieldKind, (∀ k ∈ ks, k.Suits x) →
      (∀ fs t, Desk.tryKinds r ks = some (.ok fs, t) →
        ∃ u, Desk.tryKinds s ks = some (.ok fs, u) ∧ u.position + r.position = t.position + s.position) ∧
      (x = [] → Option.Rel (fun y z => List.Forall₂ (Received.Shifted r.position s.position) y.1 z.1 ∧
        z.2.position + r.position = y.2.position + s.position) (Desk.readKinds r ks) (Desk.readKinds s ks))) := by
  obtain ⟨rfl, hbfresh⟩ := openRead_terms hb
  obtain ⟨rfl, hcfresh⟩ := openRead_terms hc
  set r : Reader := ⟨b.frame, b.handler.nesting, b.handler.factory, b.handler.config.byteOrder, b.handler.config.maxLength⟩
  set s : Reader := ⟨c.frame, c.handler.nesting, c.handler.factory, c.handler.config.byteOrder, c.handler.config.maxLength⟩
  have hw : Reader.Wider ⟨x, r.position, s.position, r.factory, r.factory⟩ 0 r s :=
    ⟨rfl, hfactory, horder, hlength, hbfresh.trans hcfresh.symm, congrArg Levels.depth hbfresh, hbp, hbl, hcp, hcl,
      hwindow, Nat.add_comm ..⟩
  have hself : Reader.Wider ⟨[], r.position, r.position, r.factory, r.factory⟩ 0 r r :=
    ⟨rfl, rfl, rfl, rfl, rfl, congrArg Levels.depth hbfresh, hbp, hbl, hbp, hbl, (List.append_nil _).symm, rfl⟩
  refine ⟨fun codes hcodes {α code} hcode => ⟨fun a v hv => ?_, fun hx => ?_⟩, fun hmessages ks hks => ?_⟩
  · obtain ⟨t, ht, hvt⟩ := Reader.grants_runCoded rfl hcodes.alone hcode.alone 0 _ _ hself a v hv
    obtain ⟨u, hu, hvu⟩ := Reader.grants_runCoded rfl hcodes hcode 0 _ _ hw a v hv
    have hp : t.position = v.position := Nat.add_right_cancel hvt.offset
    exact ⟨t, u, ht, hu, hp, by rw [hp]; exact hvu.offset⟩
  · have key := Reader.follows_runCoded hx rfl hcodes hcode 0 _ _ hw
    generalize Reader.runCoded codes code r = y at key
    generalize Reader.runCoded codes code s = z at key
    cases key with
    | ok a h => exact .some ⟨.ok a, h.offset⟩
    | refused he h => exact .some ⟨.error he, h.offset⟩
    | panic => exact .none
    | short hne => exact absurd hx hne
    | lost hne => exact absurd rfl hne
  · have hg : Reader.Gap.Fair ⟨x, r.position, s.position, r.factory, r.factory⟩ := ⟨fun _ _ h => h, hmessages⟩
    constructor
    · intro fs t ht
      obtain ⟨u, hu, htu⟩ := Desk.tryKinds_follows hg rfl hks hw ht
      exact ⟨u, hu, htu.offset⟩
    · intro hx
      have hrel := Desk.readKinds_follows hg rfl hx hks hw
      generalize Desk.readKinds r ks = y at hrel ⊢
      generalize Desk.readKinds s ks = z at hrel ⊢
      cases hrel with
      | none => exact .none
      | some h => exact .some ⟨h.1, h.2.offset⟩

/-- a handler that knows nodes, and a frame of these bytes with a window in it -/
def windowBench (data : Bytes) (position limit : Nat) : Bench where
  handler := ⟨.ofList [(2, .node)], .standard, .ofCapacity 1, .ofMax 0⟩
  shared := .ofMax 0
  frame := { Frame.ofBytes data with position := position, limit := limit }

/-- the session that is opened there -/
def windowReader (data : Bytes) (position limit : Nat) : Reader :=
  ⟨{ Frame.ofBytes data with position := position, limit := limit }, .ofCapacity 1, .ofList [(2, .node)], .little,
    Config.defaultMaxLength⟩

/-- a node in a node and an object of one byte -/
def windowBytes : Bytes :=
  [2, 0, 8, 2, 0, 9, 0, 128, 1, 0, 0, 0, 192]

/-- messages with numbers, by their code -/
def numbersCodes : CodeFactory :=
  fun type => if type = 2 then some numbersCode else none

/-- a root, and an object of one byte behind it -/
def windowCode : ReadCode (Field × Bytes) :=
  .field .root fun
    | .ok f, _ => .object (Decoder.exactly 1) fun a _ => .finish (a.map (f, ·))
    | .error e, _ => .finish (.error e)

/-- two numbers in a message, and an object of one byte -/
def numbersBytes : Bytes :=
  [2, 0, 3, 7, 9, 1, 0, 0, 0, 192]

theorem abides_numbersCode (x : Bytes) : numbersCode.Abides x := by
  refine fun p q => .field (FieldKind.suits_of_typed rfl x) fun a b r s hab _ => ?_
  cases hab with
  | error he => exact .finish (.error he)
  | ok f =>
    change (numbersBehind f).Akin _ _ _ (numbersBehind f)
    unfold numbersBehind
    split
    · refine ReadCode.abides_ofKinds (fun k hk => ?_) _ _ p q
      rw [List.eq_of_mem_replicate hk]
      exact FieldKind.suits_of_typed rfl x
    · exact .finish (.error (.same fun _ _ _ he => by cases he))

theorem abides_numbersCodes (x : Bytes) : numbersCodes.Abides x := by
  intro type c hc
  unfold numbersCodes at hc
  split at hc
  · obtain rfl := Option.some.inj hc
    exact abides_numbersCode x
  · cases hc

theorem abides_windowCode (x : Bytes) : windowCode.Abides x := by
  refine fun p q => .field (FieldKind.suits_of_typed rfl x) fun a b r s hab _ => ?_
  cases hab with
  | error he => exact .finish (.error he)
  | ok f =>
    refine .object _ fun a b r s hab _ => .finish ?_
    cases hab with
    | error he => exact .error he
    | ok bs => exact .ok (f, bs)

/-- the first session reads its bytes one byte into its frame and with nothing behind, the others at the start of theirs:
the second with some bytes behind, the third until a text is wanted that is not there -/
theorem node_read_in_two_windows :
    (∃ a t u, Reader.runCoded numbersCodes windowCode (windowReader (255 :: numbersBytes ++ [1]) 1 11) = .ok a t ∧
        Reader.runCoded numbersCodes windowCode (windowReader (numbersBytes ++ [7, 7]) 0 11) = .ok a u ∧
        u.position + 1 = t.position + 0) ∧
      (∃ fs t u, Desk.tryKinds (windowReader (255 :: windowBytes ++ [1]) 1 14) [.root, .object .any] = some (.ok fs, t) ∧
        Desk.tryKinds (windowReader (windowBytes ++ [7, 7, 7]) 0 15) [.root, .object .any] = some (.ok fs, u) ∧
        u.position + 1 = t.position + 0) ∧
      Option.Rel (fun a b => List.Forall₂ (Received.Shifted 1 0) a.1 b.1 ∧ b.2.position + 1 = a.2.position + 0)
        (Desk.readKinds (windowReader (255 :: windowBytes ++ [1]) 1 14) [.root, .object .any, .data .string])
        (Desk.readKinds (windowReader windowBytes 0 13) [.root, .object .any, .data .string]) := by
  have hopen : ∀ data position limit, (windowBench data position limit).openRead = .ok (windowReader data position limit) :=
    fun _ _ _ => rfl
  have hmessages : ∀ x type blueprint, Factory.ofList [(2, .node)] type = some blueprint →
      ∀ k ∈ blueprint.schema, k.Suits x := by
    intro x type blueprint h k hk
    obtain ⟨e, he, rfl⟩ := Option.map_eq_some_iff.1 h
    rw [List.mem_singleton.1 (List.mem_of_find?_eq_some he)] at hk
    refine FieldKind.suits_of_typed ?_ x
    revert k
    decide
  have hks : ∀ (ks : List FieldKind) x, (∀ k ∈ ks, k.typed = true) → ∀ k ∈ ks, k.Suits x :=
    fun ks x h k hk => FieldKind.suits_of_typed (h k hk) x
  refine ⟨?_, ?_, ?_⟩
  · have hok : (match Reader.runCoded numbersCodes.strict windowCode.strict
        (windowReader (255 :: numbersBytes ++ [1]) 1 11) with | .ok _ _ => true | .error _ _ => false) = true := by
      decide +kernel
    rcases hv : Reader.runCoded numbersCodes.strict windowCode.strict (windowReader (255 :: numbersBytes ++ [1]) 1 11)
      with ⟨a, v⟩ | ⟨_, _⟩ <;> rw [hv] at hok
    swap
    · cases hok
    obtain ⟨h, -⟩ := read_window (hopen (255 :: numbersBytes ++ [1]) 1 11) (hopen (numbersBytes ++ [7, 7]) 0 11) rfl rfl
      rfl (by decide) (by decide) (by decide) (by decide) (x := [7]) (by decide +kernel)
    obtain ⟨t, u, ht, hu, -, hpos⟩ := (h numbersCodes (abides_numbersCodes _) (abides_windowCode _)).1 a v hv
    exact ⟨a, t, u, ht, hu, hpos⟩
  · have hok : ((Desk.tryKinds (windowReader (255 :: windowBytes ++ [1]) 1 14) [.root, .object .any]).map
        fun y => y.1.isOk) = some true := by decide +kernel
    obtain ⟨⟨result, t⟩, ht, hres⟩ := Option.map_eq_some_iff.1 hok
    cases result with
    | error e => cases hres
    | ok fs =>
      obtain ⟨-, h⟩ := read_window (hopen (255 :: windowBytes ++ [1]) 1 14) (hopen (windowBytes ++ [7, 7, 7]) 0 15) rfl
        rfl rfl (by decide) (by decide) (by decide) (by decide) (x := [7, 7]) (by decide +kernel)
      obtain ⟨u, hu, hpos⟩ := (h (hmessages _) [.root, .object .any] (hks _ _ (by decide))).1 fs t ht
      exact ⟨fs, t, u, ht, hu, hpos⟩
  · obtain ⟨-, h⟩ := read_window (hopen (255 :: windowBytes ++ [1]) 1 14) (hopen windowBytes 0 13) rfl rfl rfl (by decide)
      (by decide) (by decide) (by decide) (x := []) (by decide +kernel)
    exact (h (hmessages _) [.root, .object .any, .data .string] (hks _ _ (by decide))).2 rfl

end Bench

end Courier
