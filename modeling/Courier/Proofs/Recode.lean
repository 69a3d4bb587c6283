import Courier.Proofs.Depth
import Courier.Proofs.Rewriting

/-!
Reading and writing come to rest after one round.

The bytes that a session reads may be anything that the reader accepts, and it accepts more than a writer emits. What is
written of the answer is no longer than what was read, and from there on nothing changes any more: it is read back as
the same answer, which is written as the same bytes.

`Bench.write_echo`, `Bench.read_echo`: what echoes, written and read by sessions on clear handlers.
`Bench.recode`: the main result.
-/

namespace Courier

open Writer Reader Dispatch

namespace Bench

variable {c : Terms} {k : FieldKind} {f : Field} {n : Nat}

/-- a field that echoes is written to its end by a session on a clear handler, where there is room for it -/
theorem write_echo (h : f.Echo c k n) (hn : n + maxVarint64 ≤ maxBufferSize) {w : Bench}
    (hw : w.handler.nesting.view = .fresh) (ho : w.handler.config.byteOrder = c.order) :
    (f.write w.openWrite.1).result = .ok true ∧ ∃ e : Bench,
      w.openWrite.2.closeWrite (f.write w.openWrite.1).writer =
          some ((f.dispatch c.order .fresh).out.bytes.length, e) ∧
        e.frame.data = (f.dispatch c.order .fresh).out.bytes := by
  have he := h.echoes .fresh Levels.shallow_fresh
  have hsnug := (f.tidy h.resumable c.order .fresh Levels.shallow_fresh he.result).2.1
  have hcarries := f.carries w.inside_openWrite
  rw [order_openWrite, nesting_openWrite, hw, ho] at hcarries
  have hfits : w.openWrite.1.Fits (f.dispatch c.order .fresh).out.peak := by
    have hpos := position_openWrite w
    have hle := he.length_le
    unfold Output.Snug at hsnug
    simp only [Writer.Fits, hpos]
    omega
  have hwrite : (f.write w.openWrite.1).result = .ok true := (hcarries.tells hfits).result.trans he.result
  obtain ⟨e, hclose, hdata, -, -⟩ := closeWrite_field hwrite
  rw [hw, ho] at hclose hdata
  exact ⟨hwrite, e, hclose, hdata⟩

/-- what a field that echoes puts out is read back by a session on a clear handler, whatever comes behind it -/
theorem read_echo (h : f.Echo c k n) {rest : Bytes} {d : Bench} (hd : d.handler.nesting.view = .fresh)
    (hterms : (⟨d.handler.factory, d.handler.config.byteOrder, d.handler.config.maxLength⟩ : Terms) = c)
    (hframe : d.frame = .ofBytes ((f.dispatch c.order .fresh).out.bytes ++ rest)) :
    ∃ r s, d.openRead = .ok r ∧ readField k r = .ok f s ∧
      s.position = (f.dispatch c.order .fresh).out.bytes.length := by
  have he := h.echoes .fresh Levels.shallow_fresh
  obtain ⟨r, hopen, -, hpos, hshow⟩ := openRead_ofBytes hd hframe
  rw [hterms] at hshow
  have hshort : Short (r.remaining + 1) r := ⟨hshow.limit_le, Nat.lt_succ_self _⟩
  have hlt : (f.dispatch c.order .fresh).out.bytes.length < r.remaining + 1 := by
    rw [hshow.remaining, List.length_append]
    exact Nat.lt_succ_of_le (Nat.le_add_right ..)
  obtain ⟨_, s, hread, hmoved, rfl⟩ := he.back he.result (r.remaining + 1) hlt r rest hshow
  refine ⟨r, s, hopen, (readField_eq k hshort).trans hread, ?_⟩
  rw [Reader.position, hmoved.frame, hpos, Nat.zero_add]
  rfl

/-- what a read answered echoes within the bytes that it took, and those are no more than there were -/
theorem echo_of_read {data : Bytes} {b : Bench} {r s : Reader} (hfac : b.handler.factory.Plain)
    (hframe : b.frame = .ofBytes data) (hopen : b.openRead = .ok r) (hk : k.plain = true)
    (hread : readField k r = .ok f s) :
    s.position ≤ data.length ∧
      f.Echo ⟨b.handler.factory, b.handler.config.byteOrder, b.handler.config.maxLength⟩ k s.position := by
  obtain ⟨rfl, -⟩ := openRead_terms hopen
  obtain ⟨n, htook, hecho⟩ := yields_field (c := ⟨b.handler.factory, b.handler.config.byteOrder, b.handler.config.maxLength⟩)
    hfac hk _ f s rfl hread
  have hstart : b.frame.position = 0 := by rw [hframe]; rfl
  have hn : s.position = n := by
    rw [Reader.position, htook.frame]
    change b.frame.position + n = n
    rw [hstart, Nat.zero_add]
  rw [← hn] at hecho
  refine ⟨?_, hecho⟩
  have hlimit : b.frame.limit = data.length := by rw [hframe]; rfl
  have hextent : b.frame.limit ≤ b.frame.extent := by rw [hframe]; exact Nat.le_refl _
  have hpaid : Paid (2 * b.handler.nesting.depth + b.frame.remaining) (b.frame.remaining + 1)
      ⟨b.frame, b.handler.nesting, b.handler.factory, b.handler.config.byteOrder, b.handler.config.maxLength⟩ :=
    ⟨⟨hextent, Nat.lt_succ_self _⟩, Nat.le_refl _⟩
  have ht := (bounded_field (k := b.frame.remaining + 1) (by omega) (throw .panic) k _ hpaid).thrifty
  rw [hread] at ht
  cases ht with
  | ok hu _ =>
    have hle := hu.position_le_max
    simp only [Reader.position, hstart, hlimit] at hle
    exact hle.trans_eq (Nat.zero_max _)

/-- **What was decoded is encoded again, no longer than it was.** The handler knows leaves and nodes, the bytes are any
that leave ten bytes of the largest buffer, and the field that is read of them is of any plain kind: an item, a
collection or a linked map of items of any kinds among them. Any clear handler under the same settings writes what was
read, in no more bytes than were taken; any that knows the same messages reads that back, whatever comes behind it, as
the very same field, and takes just those bytes; and it writes the same bytes again. -/
theorem recode {data : Bytes} (hsize : data.length ≤ maxBufferSize - 10) {b : Bench} {r s : Reader}
    (hfac : b.handler.factory = .ofList [(1, .leaf), (2, .node)]) (hframe : b.frame = .ofBytes data)
    (hopen : b.openRead = .ok r) (hk : k.plain = true) (hread : readField k r = .ok f s) {w : Bench}
    (hw : w.handler.nesting.view = .fresh) (hconfig : w.handler.config = b.handler.config) :
    (f.write w.openWrite.1).result = .ok true ∧ ∃ m e,
      w.openWrite.2.closeWrite (f.write w.openWrite.1).writer = some (m, e) ∧ e.frame.data.length = m ∧
        m ≤ s.position ∧
        ∀ d : Bench, d.handler.nesting.view = .fresh → d.handler.config = b.handler.config →
          d.handler.factory = b.handler.factory →
          (∀ rest, d.frame = .ofBytes (e.frame.data ++ rest) →
            ∃ r' s', d.openRead = .ok r' ∧ readField k r' = .ok f s' ∧ s'.position = m) ∧
          ∃ e', d.openWrite.2.closeWrite (f.write d.openWrite.1).writer = some (m, e') ∧
            e'.frame.data = e.frame.data := by
  obtain ⟨hle, hecho⟩ := echo_of_read (hfac ▸ Factory.plain_stock) hframe hopen hk hread
  have hroom : s.position + maxVarint64 ≤ maxBufferSize := by
    have hmax : maxVarint64 = 10 := rfl
    have hbig : 10 ≤ maxBufferSize := by decide
    omega
  obtain ⟨hwrite, e, hclose, hdata⟩ := write_echo hecho hroom hw (congrArg Config.byteOrder hconfig)
  refine ⟨hwrite, _, e, hclose, congrArg List.length hdata, (hecho.echoes .fresh Levels.shallow_fresh).length_le,
    fun d hd hcfg hknown => ⟨fun rest hrest => ?_, ?_⟩⟩
  · rw [hdata] at hrest
    exact read_echo hecho hd (by rw [hcfg, hknown]) hrest
  · obtain ⟨-, e', hclose', hdata'⟩ := write_echo hecho hroom hd (congrArg Config.byteOrder hcfg)
    exact ⟨e', hclose', hdata'.trans hdata.symm⟩

/-- a map that names the number 1 twice, once with a group to spare, and gives it two leaves -/
def wordyBytes : Bytes :=
  [2, 0, 0, 0, 0x82, 0x80, 0, 1, 0, 5, 1, 0, 0, 0, 97, 2, 1, 0, 6, 255, 255, 255, 255]

/-- an act that is seen to come to an answer -/
theorem exists_answer {α : Type} {x : EStateM.Result Fault Reader α}
    (h : (match x with | .ok _ _ => true | .error _ _ => false) = true) : ∃ a s, x = .ok a s := by
  cases x with
  | ok a s => exact ⟨a, s, rfl⟩
  | error f s => cases h

theorem wordy_map_recoded :
    ∃ r f s m e r' s', (stockBench (.ofBytes wordyBytes)).openRead = .ok r ∧
      readField (.map .int .message true) r = .ok f s ∧
      (stockBench .empty).openWrite.2.closeWrite (f.write (stockBench .empty).openWrite.1).writer = some (m, e) ∧
      m ≤ s.position ∧ (stockBench (.ofBytes (e.frame.data ++ [7]))).openRead = .ok r' ∧
      readField (.map .int .message true) r' = .ok f s' ∧ s'.position = m := by
  have hopen : (stockBench (.ofBytes wordyBytes)).openRead = .ok ⟨.ofBytes wordyBytes, .ofCapacity 1,
      .ofList [(1, .leaf), (2, .node)], .little, Config.defaultMaxLength⟩ := rfl
  obtain ⟨f, s, hread⟩ := exists_answer (x := readField (.map .int .message true) ⟨.ofBytes wordyBytes, .ofCapacity 1,
    .ofList [(1, .leaf), (2, .node)], .little, Config.defaultMaxLength⟩) (by decide +kernel)
  have hsize : wordyBytes.length ≤ maxBufferSize - 10 := by decide
  obtain ⟨-, m, e, hclose, -, hle, hagain⟩ := recode hsize (b := stockBench (.ofBytes wordyBytes)) rfl rfl hopen rfl hread
    (w := stockBench .empty) (Nesting.view_ofCapacity 1) rfl
  obtain ⟨r', s', hopen', hread', hpos⟩ :=
    (hagain (stockBench (.ofBytes (e.frame.data ++ [7]))) (Nesting.view_ofCapacity 1) rfl rfl).1 [7] rfl
  exact ⟨_, f, s, m, e, r', s', hopen, hread, hclose, hle, hopen', hread', hpos⟩

end Bench

end Courier
