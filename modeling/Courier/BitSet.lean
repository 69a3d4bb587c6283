/-!
Sets of small numbers, kept as words of 64 bits, the lowest word first.

The words never end in a zero word (`trimmed`), so that equal sets have equal words: the words are what equality,
hashing and the wire see. Adding a number lengthens the words as far as it needs; removing one trims them.

`trimmed_trim`, `trimmed_insertWord`: what keeps the invariant.
-/

namespace Courier

namespace BitSet

/-- the words without the zero words at their end -/
def trim (ws : List UInt64) : List UInt64 :=
  (ws.reverse.dropWhile (· == 0)).reverse

/-- the word in which only bit `k` is set -/
def bit (k : Nat) : UInt64 :=
  UInt64.ofNat (1 <<< k)

/-- the words with bit `k` of word `i` set, lengthened by zero words as needed -/
def insertWord : List UInt64 → Nat → Nat → List UInt64
  | [], 0, k => [bit k]
  | w :: ws, 0, k => (w ||| bit k) :: ws
  | [], i + 1, k => 0 :: insertWord [] i k
  | w :: ws, i + 1, k => w :: insertWord ws i k

theorem trimmed_trim (ws : List UInt64) : (trim ws).getLast? ≠ some 0 := by
  intro h
  have hd := List.head?_dropWhile_not (· == 0) ws.reverse
  simp only [trim, List.getLast?_reverse] at h
  rw [h] at hd
  simp at hd

theorem toNat_bit {k : Nat} (hk : k < 64) : (bit k).toNat = 1 <<< k := by
  rw [bit, UInt64.toNat_ofNat', Nat.one_shiftLeft]
  exact Nat.mod_eq_of_lt (Nat.pow_lt_pow_right (by decide) hk)

/-- a word with bit `k` set besides others is not zero -/
theorem or_bit_ne_zero (w : UInt64) {k : Nat} (hk : k < 64) : w ||| bit k ≠ 0 := by
  intro h
  have hb := congrArg (fun v : UInt64 => v.toNat.testBit k) h
  simp [toNat_bit hk, Nat.one_shiftLeft, Nat.testBit_two_pow_self] at hb

theorem bit_ne_zero {k : Nat} (hk : k < 64) : bit k ≠ 0 := by
  simpa using or_bit_ne_zero 0 hk

theorem insertWord_ne_nil (ws : List UInt64) (i k : Nat) : insertWord ws i k ≠ [] := by
  cases ws <;> cases i <;> simp [insertWord]

theorem trimmed_insertWord (ws : List UInt64) (i : Nat) {k : Nat} (hk : k < 64) (h : ws.getLast? ≠ some 0) :
    (insertWord ws i k).getLast? ≠ some 0 := by
  induction i generalizing ws with
  | zero =>
    cases ws with
    | nil => simpa [insertWord] using bit_ne_zero hk
    | cons w ws =>
      cases ws with
      | nil => simpa [insertWord] using or_bit_ne_zero w hk
      | cons v ws => simpa [insertWord, List.getLast?_cons_cons] using h
  | succ i ih =>
    cases ws with
    | nil =>
      obtain ⟨v, vs, hv⟩ := List.exists_cons_of_ne_nil (insertWord_ne_nil [] i k)
      have := ih [] (by simp)
      simp only [insertWord]
      rw [hv] at this ⊢
      rwa [List.getLast?_cons_cons]
    | cons w ws =>
      have hws : ws.getLast? ≠ some 0 := by
        cases ws with
        | nil => simp
        | cons v ws => rwa [List.getLast?_cons_cons] at h
      obtain ⟨v, vs, hv⟩ := List.exists_cons_of_ne_nil (insertWord_ne_nil ws i k)
      have := ih ws hws
      simp only [insertWord]
      rw [hv] at this ⊢
      rwa [List.getLast?_cons_cons]

end BitSet

structure BitSet where
  words : List UInt64
  trimmed : words.getLast? ≠ some 0
  deriving DecidableEq

namespace BitSet

def empty : BitSet :=
  ⟨[], by simp⟩

def ofWords (ws : List UInt64) : BitSet :=
  ⟨trim ws, trimmed_trim ws⟩

/-- the set with `i` in it -/
def insert (s : BitSet) (i : Nat) : BitSet :=
  ⟨insertWord s.words (i / 64) (i % 64), trimmed_insertWord s.words (i / 64) (Nat.mod_lt i (by decide)) s.trimmed⟩

/-- the set without `i` -/
def erase (s : BitSet) (i : Nat) : BitSet :=
  ofWords (s.words.modify (i / 64) fun w => w &&& ~~~ bit (i % 64))

/-- whether `i` is in the set -/
def contains (s : BitSet) (i : Nat) : Bool :=
  match s.words[i / 64]? with
  | some w => w.toNat.testBit (i % 64)
  | none => false

/-- number of ones in a word -/
def ones (w : UInt64) : Nat :=
  (List.range 64).countP fun k => w.toNat.testBit k

/-- number of members -/
def cardinality (s : BitSet) : Nat :=
  s.words.foldr (fun w n => ones w + n) 0

def isEmpty (s : BitSet) : Bool :=
  s.words.isEmpty

def ofList (is : List Nat) : BitSet :=
  is.foldl insert empty

/-- the acts on a set -/
inductive Act where
  | insert (i : Nat)
  | erase (i : Nat)
  deriving DecidableEq

def step (s : BitSet) : Act → BitSet
  | .insert i => s.insert i
  | .erase i => s.erase i

def run (s : BitSet) (acts : List Act) : BitSet :=
  acts.foldl step s

end BitSet

end Courier
