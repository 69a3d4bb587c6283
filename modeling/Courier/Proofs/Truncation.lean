import Courier.Proofs.RoundTrip
import Courier.Proofs.WindowExtension

/-!
What ends early is refused.

A message that was written is read back and takes all of its bytes. A session that has only the first of these bytes in
its window is the narrow one of two whose wide one reads the whole message. The narrow session cannot come to the same
answer, since both would have to end with as many bytes left behind; so it is the one that runs short.

What the narrow session knows besides the messages of the tree does not matter: the wide one is given those messages of
its factory only that are made of typed reads.

`Reader.short_of_all`: a read that takes the whole of a wide window is refused in a narrower one.
`Bench.read_truncated`: the main result.
-/

namespace Courier

open Writer Reader Dispatch

/-- the messages of a factory that are made of typed reads -/
def Factory.typed (factory : Factory) : Factory :=
  fun type => (factory type).filter fun b => b.schema.all FieldKind.typed

theorem Factory.eq_some_of_typed {factory : Factory} {type : Int16} {b : Blueprint}
    (h : factory.typed type = some b) : factory type = some b ∧ ∀ k ∈ b.schema, k.typed = true := by
  obtain ⟨hb, hk⟩ := Option.filter_eq_some_iff.1 h
  exact ⟨hb, List.all_eq_true.1 hk⟩

namespace Reader

variable {α : Type}

/-- a session that knows the typed messages of another, or all of them, and shows what that shows and `x` behind -/
def typedGap (factory : Factory) (x : Bytes) (p q : Nat) : Gap :=
  ⟨x, p, q, factory, factory.typed⟩

theorem fair_typedGap (factory : Factory) (x : Bytes) (p q : Nat) : (typedGap factory x p q).Fair where
  known _ _ h := (Factory.eq_some_of_typed h).1
  suits _ _ h k hk := FieldKind.suits_of_typed ((Factory.eq_some_of_typed h).2 k hk) x

/-- a read that takes the whole of a wide window is refused in one that shows less of it -/
theorem short_of_all {factory : Factory} {order : ByteOrder} {maxLength : Nat} {r s u : Reader} {bs x : Bytes}
    (hr : Shows ⟨factory, order, maxLength⟩ r bs) (hs : Shows ⟨factory.typed, order, maxLength⟩ s (bs ++ x))
    (hd : s.depth = r.depth) (hx : x ≠ []) {act : Reading α}
    (hact : Follows (typedGap factory x r.position s.position) act act) {a : α} (ha : act s = .ok a u)
    (hu : Moved s u (bs ++ x).length) : ∃ e t, act r = .error (.error e) t := by
  have hrt := hr.terms
  have hst := hs.terms
  simp only [terms, Terms.mk.injEq] at hrt hst
  have hlevels : r.nesting.view = s.nesting.view := by
    refine Levels.ext (funext fun i => ?_) hd.symm
    exact (hr.clear i).trans (hs.clear i).symm
  have hw : Wider (typedGap factory x r.position s.position) r.depth r s :=
    ⟨hrt.1, hst.1, hst.2.1.trans hrt.2.1.symm, hst.2.2.trans hrt.2.2.symm, hlevels, rfl, hr.position_le, hr.limit_le,
      hs.position_le, hs.limit_le, by rw [hs.window, hr.window]; rfl, Nat.add_comm ..⟩
  have key := hact r.depth r s hw
  rw [ha] at key
  generalize hy : act r = y at key
  cases key with
  | @ok _ t _ k =>
    -- the wide session has nothing left in front of it, and the narrow one would have `x` less
    rw [← List.append_nil (bs ++ x)] at hs
    have hend : u.frame.readable = [] := (hs.moved hu).window
    have hwin := k.window
    rw [hend] at hwin
    exact absurd (List.append_eq_nil_iff.1 hwin.symm).2 hx
  | @short e t _ _ _ => exact ⟨e, t, rfl⟩

end Reader

namespace Bench

variable {α : Type}

/-- a read that gives something on all of `bs` is refused on a frame that ends before -/
theorem read_cut {d : Bench} {bs : Bytes} {n : Nat} (hd : d.handler.nesting.view = .fresh) (hn : n < bs.length)
    (hframe : d.frame = .ofBytes (bs.take n)) {act : Reading α}
    (hact : ∀ x p q, Follows (typedGap d.handler.factory x p q) act act)
    (hread : ∀ s, Shows ⟨d.handler.factory.typed, d.handler.config.byteOrder, d.handler.config.maxLength⟩ s bs →
      s.depth = 0 → ∃ a u, act s = .ok a u ∧ Moved s u bs.length) :
    ∃ r e t, d.openRead = .ok r ∧ act r = .error (.error e) t := by
  obtain ⟨r, hopen, hrd, -, hr⟩ := openRead_ofBytes hd hframe
  obtain ⟨s, -, hsd, -, hs⟩ := openRead_ofBytes hd rfl
    (b := { d with handler := { d.handler with factory := d.handler.factory.typed }, frame := .ofBytes bs })
  obtain ⟨a, u, ha, hu⟩ := hread s hs hsd
  have hcut : bs.take n ++ bs.drop n = bs := List.take_append_drop n bs
  have hx : bs.drop n ≠ [] := by
    rw [Ne, List.drop_eq_nil_iff]
    omega
  obtain ⟨e, t, he⟩ := short_of_all hr (by rw [hcut]; exact hs) (hsd.trans hrd.symm) hx
    (hact _ r.position s.position) ha (by rw [hcut]; exact hu)
  exact ⟨r, e, t, hopen, he⟩

/-- **Every truncation is detected.** A message, or a field of any sort, is written to its end in a session on a clear
handler; a clear handler of the same byte order expects it, by messages that are made of typed reads and within its
largest length. Where a frame holds fewer bytes than the session wrote, and no others, the matching read is refused:
`readRoot` where the message was the outermost one, and for an item of any kind, an array, a list, a collection or a
map the typed read of the field. -/
theorem read_truncated {b d : Bench} {n : Nat} (hb : b.handler.nesting.view = .fresh)
    (hd : d.handler.nesting.view = .fresh) (horder : d.handler.config.byteOrder = b.handler.config.byteOrder) :
    (∀ m size c, (b.openWrite.1.writeRoot m).result = .ok true →
      b.openWrite.2.closeWrite (b.openWrite.1.writeRoot m).writer = some (size, c) →
      m.Expected d.handler.factory.typed d.handler.config.maxLength →
      n < c.frame.data.length → d.frame = .ofBytes (c.frame.data.take n) →
      ∃ r e s, d.openRead = .ok r ∧ r.readRoot = .error (.error e) s) ∧
    ∀ (f : Field) k size c, (f.write b.openWrite.1).result = .ok true →
      b.openWrite.2.closeWrite (f.write b.openWrite.1).writer = some (size, c) →
      f.Expected d.handler.factory.typed d.handler.config.maxLength k → k.typed = true →
      n < c.frame.data.length → d.frame = .ofBytes (c.frame.data.take n) →
      ∃ r e s, d.openRead = .ok r ∧ readField k r = .error (.error e) s := by
  have hround := (roundTrip_step
    ⟨d.handler.factory.typed, d.handler.config.byteOrder, d.handler.config.maxLength⟩).all
  constructor
  · intro m size c hwrite hclose hm hn hframe
    obtain ⟨c', hclose', hdata, -, hres⟩ := closeWrite_writeRoot hwrite
    obtain rfl : c' = c := by
      rw [hclose'] at hclose
      exact (Prod.mk.inj (Option.some.inj hclose)).2
    rw [hb, ← horder] at hdata hres
    obtain ⟨hdone, -, -⟩ := settle_done hres
    have hhead := hround.1 m hm .fresh Levels.shallow_fresh rfl hdone
    rw [← out_settle] at hhead
    rw [hdata] at hn hframe
    refine read_cut hd hn hframe (fun x p q => follows_readAt (fair_typedGap ..) .root) fun s hs hsd => ?_
    obtain ⟨m', u, hu, hmoved, -⟩ := hhead.root (Message.type_ne_of_expected hm)
      (show Shows _ s (_ ++ []) by rw [List.append_nil]; exact hs) hsd
    exact ⟨some m', u, hu, hmoved⟩
  · intro f k size c hwrite hclose hf hk hn hframe
    obtain ⟨c', hclose', hdata, -, hres⟩ := closeWrite_field hwrite
    obtain rfl : c' = c := by
      rw [hclose'] at hclose
      exact (Prod.mk.inj (Option.some.inj hclose)).2
    rw [hb, ← horder] at hdata hres
    rw [hdata] at hn hframe
    have hback := hround.2.1 f k hf .fresh Levels.shallow_fresh hres
    refine read_cut hd hn hframe
      (fun x p q => follows_readField (fair_typedGap ..) (FieldKind.suits_of_typed hk x)) fun s hs _ => ?_
    obtain ⟨g, u, hu, hmoved, -⟩ := hback _ (Nat.lt_succ_self _) s [] (by rw [List.append_nil]; exact hs)
    refine ⟨g, u, ?_, hmoved⟩
    rw [readField_eq k ⟨hs.limit_le, by rw [hs.remaining]; exact Nat.lt_succ_self _⟩]
    exact hu

/-- a node and a named leaf in it -/
def namedNode : Message :=
  .node 7 (some (.leaf 1 (some "hé")))

/-- a list with that node in it and none -/
def namedList : Field :=
  .items .list .message [.message namedNode, .null]

/-- a clear handler that knows both, and a message that takes what there is -/
def namedBench (frame : Frame) : Bench :=
  ⟨⟨.ofList [(1, .leaf), (2, .node), (3, .record 3 [.raw 9])], .standard, .ofCapacity 1, .ofMax 0⟩, .ofMax 0, frame⟩

/-- the node is cut in its leaf, and the list in front of the message that is none -/
theorem named_node_cut :
    (∃ size c r e s,
      (namedBench .empty).openWrite.2.closeWrite ((namedBench .empty).openWrite.1.writeRoot namedNode).writer =
          some (size, c) ∧ 6 < c.frame.data.length ∧
        (namedBench (.ofBytes (c.frame.data.take 6))).openRead = .ok r ∧ r.readRoot = .error (.error e) s) ∧
      ∃ size c r e s,
        (namedBench .empty).openWrite.2.closeWrite (namedList.write (namedBench .empty).openWrite.1).writer =
            some (size, c) ∧ 17 < c.frame.data.length ∧
          (namedBench (.ofBytes (c.frame.data.take 17))).openRead = .ok r ∧
          readField (.items .collection .message) r = .error (.error e) s := by
  have hfresh : (Nesting.ofCapacity 1).view = .fresh := Nesting.view_ofCapacity 1
  have hm : namedNode.Expected (namedBench .empty).handler.factory.typed Config.standard.maxLength := by
    have htext : (Datum.string "hé").count ≤ Config.standard.maxLength := by decide +kernel
    have hleaf : (Message.leaf 1 (some "hé")).Expected (namedBench .empty).handler.factory.typed
        Config.standard.maxLength := ⟨by decide, .leaf, rfl, ⟨rfl, by decide⟩, ⟨rfl, htext⟩, trivial⟩
    exact ⟨by decide, .node, rfl, ⟨rfl, by decide⟩, hleaf, trivial⟩
  constructor
  · have hwrite : ((namedBench .empty).openWrite.1.writeRoot namedNode).result = .ok true := by decide +kernel
    obtain ⟨c, hclose, hdata, -⟩ := closeWrite_writeRoot hwrite
    have hn : 6 < c.frame.data.length := by
      rw [hdata]
      decide +kernel
    obtain ⟨r, e, s, hopen, hread⟩ :=
      (read_truncated (b := namedBench .empty) (d := namedBench (.ofBytes (c.frame.data.take 6))) hfresh hfresh rfl).1
        namedNode _ c hwrite hclose hm hn rfl
    exact ⟨_, c, r, e, s, hclose, hn, hopen, hread⟩
  · have hf : namedList.Expected (namedBench .empty).handler.factory.typed Config.standard.maxLength
        (.items .collection .message) := ⟨rfl, by decide, hm, trivial, trivial⟩
    have hwrite : (namedList.write (namedBench .empty).openWrite.1).result = .ok true := by decide +kernel
    obtain ⟨c, hclose, hdata, -⟩ := closeWrite_field hwrite
    have hn : 17 < c.frame.data.length := by
      rw [hdata]
      decide +kernel
    obtain ⟨r, e, s, hopen, hread⟩ :=
      (read_truncated (b := namedBench .empty) (d := namedBench (.ofBytes (c.frame.data.take 17))) hfresh hfresh rfl).2
        namedList (.items .collection .message) _ c hwrite hclose hf rfl hn rfl
    exact ⟨_, c, r, e, s, hclose, hn, hopen, hread⟩

end Bench

end Courier
