import Courier.Bytes

/-!
The scratch buffer of a write session: a block of bytes that is written in place and grows at its end.

`bytes` is what a block holds, and the block is nothing more than that: each operation is one on runs of bytes. The
zeros at the end that nobody has written to are not stored: `cells` are the bytes in front of them, so that a block may
be large as long as little of it is used.

`length_bytes`: the capacity is the number of bytes held.
`bytes_overwrite`: writing over a part of the block is writing over that part of what it holds.
`bytes_enlarge`: growing the block puts zeros behind what it holds.
`front_eq_take`: the front of a block is the front of what it holds.
-/

namespace Courier

structure Scratch where
  cells : Array UInt8
  capacity : Nat
  size_le : cells.size ≤ capacity
  deriving DecidableEq

namespace Scratch

/-- a block of `n` zeros -/
def zeros (n : Nat) : Scratch :=
  ⟨#[], n, Nat.zero_le n⟩

def ofBytes (bs : Bytes) : Scratch :=
  ⟨bs.toArray, bs.length, Nat.le_of_eq rfl⟩

/-- a block of `n` bytes that are all `b` -/
def filled (n : Nat) (b : UInt8) : Scratch :=
  if b = 0 then .zeros n else .ofBytes (List.replicate n b)

/-- what a block holds -/
def bytes (s : Scratch) : Bytes :=
  s.cells.toList ++ List.replicate (s.capacity - s.cells.size) 0

/-- the cells with zeros put behind them until there are `n` -/
def pad (cells : Array UInt8) (n : Nat) : Array UInt8 :=
  cells ++ Array.replicate (n - cells.size) 0

/-- the cells with `src` put into them one by one, from number `i` on -/
def fill (cells : Array UInt8) (i : Nat) : Bytes → Array UInt8
  | [] => cells
  | b :: bs => fill (cells.setIfInBounds i b) (i + 1) bs

@[simp] theorem size_pad (cells : Array UInt8) (n : Nat) : (pad cells n).size = max cells.size n := by
  simp only [pad, Array.size_append, Array.size_replicate]
  omega

@[simp] theorem size_fill (cells : Array UInt8) (i : Nat) (src : Bytes) : (fill cells i src).size = cells.size := by
  induction src generalizing cells i with
  | nil => rfl
  | cons b bs ih => simp [fill, ih]

/-- the block with `src` written over it from `off` on; what would run past the end is lost -/
def overwrite (s : Scratch) (off : Nat) (src : Bytes) : Scratch where
  cells := fill (pad s.cells (min (off + src.length) s.capacity)) off src
  capacity := s.capacity
  size_le := by
    have := s.size_le
    rw [size_fill, size_pad]
    omega

/-- the block with zeros put behind it up to a capacity of `n` -/
def enlarge (s : Scratch) (n : Nat) : Scratch :=
  ⟨s.cells, max s.capacity n, Nat.le_trans s.size_le (Nat.le_max_left ..)⟩

/-- the first `n` bytes of what a block holds, or all of it when it holds fewer -/
def front (s : Scratch) (n : Nat) : Bytes :=
  (s.cells.extract 0 n).toList ++ List.replicate (min n s.capacity - s.cells.size) 0

/-- the first `n` bytes of what a block holds; `none` when it holds fewer -/
def take? (s : Scratch) (n : Nat) : Option Bytes :=
  if n ≤ s.capacity then some (s.front n) else none

@[simp] theorem bytes_zeros (n : Nat) : (zeros n).bytes = List.replicate n 0 := by
  simp [zeros, bytes]

@[simp] theorem bytes_ofBytes (bs : Bytes) : (ofBytes bs).bytes = bs := by
  simp [ofBytes, bytes]

@[simp] theorem bytes_filled (n : Nat) (b : UInt8) : (filled n b).bytes = List.replicate n b := by
  unfold filled
  split
  · rename_i h
    rw [bytes_zeros, h]
  · exact bytes_ofBytes _

@[simp] theorem length_bytes (s : Scratch) : s.bytes.length = s.capacity := by
  have := s.size_le
  simp only [bytes, List.length_append, Array.length_toList, List.length_replicate]
  omega

theorem toList_fill (cells : Array UInt8) (i : Nat) (src : Bytes) (h : i + src.length ≤ cells.size) :
    (fill cells i src).toList = cells.toList.take i ++ src ++ cells.toList.drop (i + src.length) := by
  induction src generalizing cells i with
  | nil => simp [fill]
  | cons b bs ih =>
    simp only [List.length_cons] at h
    have hi : i < (cells.toList.set i b).length := by simp; omega
    rw [fill, ih (cells.setIfInBounds i b) (i + 1) (by simp; omega), Array.toList_setIfInBounds,
      List.drop_set_of_lt (by omega), List.take_succ_eq_append_getElem hi, List.getElem_set_self,
      List.take_set_of_le (Nat.le_refl i)]
    simp [Nat.add_right_comm, Nat.add_assoc]

/-- a block holds its padded cells and zeros behind them -/
theorem bytes_eq_pad (s : Scratch) {n : Nat} (h : n ≤ s.capacity) :
    s.bytes = (pad s.cells n).toList ++ List.replicate (s.capacity - (pad s.cells n).size) 0 := by
  have := s.size_le
  rw [size_pad]
  simp only [bytes, pad, Array.toList_append, Array.toList_replicate, List.append_assoc, List.replicate_append_replicate]
  congr 2
  omega

theorem bytes_overwrite (s : Scratch) {off : Nat} {src : Bytes} (h : off + src.length ≤ s.capacity) :
    s.bytes.overwrite off src = some (s.overwrite off src).bytes := by
  have hp : off + src.length ≤ (pad s.cells (off + src.length)).size := by
    rw [size_pad]
    exact Nat.le_max_right ..
  have hf := toList_fill (pad s.cells (off + src.length)) off src hp
  rw [← Array.length_toList] at hp
  simp only [Bytes.overwrite, length_bytes, if_pos h, overwrite, Nat.min_eq_left h]
  rw [s.bytes_eq_pad h, List.take_append_of_le_length (by omega), List.drop_append_of_le_length hp]
  simp [bytes, hf]

theorem bytes_enlarge (s : Scratch) (n : Nat) : (s.enlarge n).bytes = s.bytes.enlarge n := by
  have := s.size_le
  simp only [enlarge, bytes, Bytes.enlarge, List.append_assoc, List.replicate_append_replicate, List.length_append,
    Array.length_toList, List.length_replicate]
  congr 2
  omega

theorem front_eq_take (s : Scratch) (n : Nat) : s.front n = s.bytes.take n := by
  have := s.size_le
  simp only [front, bytes, Array.toList_extract, List.extract_eq_take_drop, List.drop_zero, List.take_append,
    List.take_replicate, Array.length_toList, Nat.sub_zero]
  congr 2
  omega

theorem take?_eq_slice (s : Scratch) (n : Nat) : s.take? n = s.bytes.slice 0 n := by
  simp [take?, front_eq_take, Bytes.slice]

end Scratch

end Courier
