import Courier.BitSet
import Mathlib

/-!
Bit sets as finite sets of numbers.

`wordAt ws j` is word `j` of a row and `bitAt ws i` is bit `i` of it; beyond the row both are zero. All acts on a set
are told through them: trimming leaves every word alone, and setting or clearing a bit changes that bit only. `members`
are the numbers whose bits are set, as a finite set; what the acts do to it is `Finset.insert` and `Finset.erase`.

A row that does not end in a zero word is known by its bits (`words_ext`), and this is what equality rests on.

`members_run`: a history of acts does to the members what it does to a finite set.
`card_members`: the ones of the words are counted right.
`run_canonical`: the main result.
-/

namespace Courier

namespace BitSet

/-! ## Bits of a row of words -/

/-- word `j` of a row, and the zero word beyond its end -/
def wordAt (ws : List UInt64) (j : Nat) : UInt64 :=
  ws[j]?.getD 0

/-- bit `i` of a row of words; beyond its end all bits are zero -/
def bitAt (ws : List UInt64) (i : Nat) : Bool :=
  (wordAt ws (i / 64)).toNat.testBit (i % 64)

theorem contains_eq_bitAt (s : BitSet) (i : Nat) : s.contains i = bitAt s.words i := by
  unfold contains bitAt wordAt
  cases s.words[i / 64]? with
  | none => exact (Nat.zero_testBit _).symm
  | some w => rfl

theorem wordAt_cons_succ (w : UInt64) (ws : List UInt64) (j : Nat) : wordAt (w :: ws) (j + 1) = wordAt ws j := rfl

theorem trim_concat (ws : List UInt64) (w : UInt64) : trim (ws ++ [w]) = if w = 0 then trim ws else ws ++ [w] := by
  rw [trim, List.reverse_concat, List.dropWhile_cons]
  by_cases hw : w = 0
  · simp [hw, trim]
  · simp [hw]

theorem wordAt_concat_zero (ws : List UInt64) (j : Nat) : wordAt (ws ++ [0]) j = wordAt ws j := by
  unfold wordAt
  rcases Nat.lt_trichotomy j ws.length with h | h | h
  · rw [List.getElem?_append_left h]
  · subst h
    rw [List.getElem?_concat_length, List.getElem?_eq_none (Nat.le_refl _)]
    rfl
  · rw [List.getElem?_eq_none (by simpa using h), List.getElem?_eq_none (Nat.le_of_lt h)]

/-- trimming leaves every word alone -/
theorem wordAt_trim (ws : List UInt64) (j : Nat) : wordAt (trim ws) j = wordAt ws j := by
  induction ws using List.reverseRecOn with
  | nil => rfl
  | append_singleton ws w ih =>
    rw [trim_concat]
    split
    · rename_i hw
      rw [ih, hw, wordAt_concat_zero]
    · rfl

theorem bitAt_trim (ws : List UInt64) (i : Nat) : bitAt (trim ws) i = bitAt ws i := by
  rw [bitAt, bitAt, wordAt_trim]

/-! Words with a bit set, and with a bit cleared. -/

theorem testBit_or_bit (w : UInt64) {k m : Nat} (hk : k < 64) :
    (w ||| bit k).toNat.testBit m = (w.toNat.testBit m || decide (k = m)) := by
  rw [UInt64.toNat_or, toNat_bit hk, Nat.one_shiftLeft, Nat.testBit_or, Nat.testBit_two_pow]

theorem testBit_and_not_bit (w : UInt64) {k m : Nat} (hk : k < 64) (hm : m < 64) :
    (w &&& ~~~ bit k).toNat.testBit m = (w.toNat.testBit m && !decide (k = m)) := by
  rw [UInt64.toNat_and, Nat.testBit_and]
  congr 1
  have hbit : (bit k).toNat < 2 ^ 64 := UInt64.toNat_lt _
  rw [UInt64.toNat_not, Nat.sub_sub, Nat.add_comm 1, Nat.testBit_two_pow_sub_succ hbit, toNat_bit hk,
    Nat.one_shiftLeft, Nat.testBit_two_pow]
  simp [hm]

theorem wordAt_insertWord (ws : List UInt64) (j k n : Nat) :
    wordAt (insertWord ws j k) n = if n = j then wordAt ws n ||| bit k else wordAt ws n := by
  induction j generalizing ws n with
  | zero => cases ws <;> cases n <;> simp [insertWord, wordAt]
  | succ j ih =>
    cases n with
    | zero => cases ws <;> simp [insertWord, wordAt]
    | succ n =>
      have hnil : wordAt [] (n + 1) = wordAt [] n := rfl
      cases ws <;> simp [insertWord, wordAt_cons_succ, ih, hnil]

theorem wordAt_modify (ws : List UInt64) (j n : Nat) {f : UInt64 → UInt64} (hf : f 0 = 0) :
    wordAt (ws.modify j f) n = if n = j then f (wordAt ws n) else wordAt ws n := by
  unfold wordAt
  rw [List.getElem?_modify]
  by_cases h : n = j
  · subst h
    cases ws[n]? with
    | none => simp [hf]
    | some w => simp
  · rw [if_neg h]
    cases ws[n]? <;> simp [Ne.symm h]

/-! ## Acts on sets -/

theorem contains_insert (s : BitSet) (i n : Nat) :
    (s.insert i).contains n = true ↔ n = i ∨ s.contains n = true := by
  rw [contains_eq_bitAt, contains_eq_bitAt]
  simp only [bitAt, insert, wordAt_insertWord]
  by_cases h : n / 64 = i / 64
  · have hbit : n = i ↔ i % 64 = n % 64 := by omega
    rw [if_pos h, testBit_or_bit _ (Nat.mod_lt _ (by decide)), Bool.or_eq_true, decide_eq_true_iff, hbit, or_comm]
  · have hne : n ≠ i := fun hn => h (by rw [hn])
    rw [if_neg h, or_iff_right hne]

theorem contains_erase (s : BitSet) (i n : Nat) :
    (s.erase i).contains n = true ↔ n ≠ i ∧ s.contains n = true := by
  have hword := wordAt_modify s.words (i / 64) (n / 64) (f := fun w => w &&& ~~~ bit (i % 64)) UInt64.zero_and
  rw [contains_eq_bitAt, contains_eq_bitAt]
  simp only [bitAt, erase, ofWords, wordAt_trim, hword]
  by_cases h : n / 64 = i / 64
  · have hbit : n = i ↔ i % 64 = n % 64 := by omega
    rw [if_pos h, testBit_and_not_bit _ (Nat.mod_lt _ (by decide)) (Nat.mod_lt _ (by decide)), Bool.and_eq_true,
      Bool.not_eq_true', decide_eq_false_iff_not, Ne, hbit, and_comm]
  · have hne : n ≠ i := fun hn => h (by rw [hn])
    rw [if_neg h, and_iff_right hne]

/-! ## Members -/

/-- the numbers of the bits that are set in a row of words -/
def onesOf (ws : List UInt64) : Finset Nat :=
  (Finset.range (64 * ws.length)).filter fun i => bitAt ws i = true

/-- the numbers in a set -/
def members (s : BitSet) : Finset Nat :=
  onesOf s.words

theorem mem_onesOf (ws : List UInt64) (i : Nat) : i ∈ onesOf ws ↔ bitAt ws i = true := by
  rw [onesOf, Finset.mem_filter, Finset.mem_range, and_iff_right_iff_imp]
  intro h
  by_contra hi
  have hw : wordAt ws (i / 64) = 0 := by
    rw [wordAt, List.getElem?_eq_none (by omega)]
    rfl
  rw [bitAt, hw] at h
  simp at h

theorem mem_members (s : BitSet) (i : Nat) : i ∈ s.members ↔ s.contains i = true := by
  rw [members, mem_onesOf, contains_eq_bitAt]

theorem members_empty : members empty = ∅ := rfl

theorem members_ofWords (ws : List UInt64) : members (ofWords ws) = onesOf ws := by
  ext i
  rw [members, mem_onesOf, mem_onesOf, ofWords, bitAt_trim]

theorem members_insert (s : BitSet) (i : Nat) : members (s.insert i) = Insert.insert i s.members := by
  ext n
  rw [mem_members, contains_insert, Finset.mem_insert, mem_members]

theorem members_erase (s : BitSet) (i : Nat) : members (s.erase i) = s.members.erase i := by
  ext n
  rw [mem_members, contains_erase, Finset.mem_erase, mem_members]

theorem members_ofList (is : List Nat) : members (ofList is) = is.toFinset := by
  induction is using List.reverseRecOn with
  | nil => rfl
  | append_singleton is i ih =>
    rw [ofList, List.foldl_concat, members_insert]
    change Insert.insert i (members (ofList is)) = _
    rw [ih, List.toFinset_append, List.toFinset_cons, List.toFinset_nil, Finset.union_comm]
    rfl

/-! Counting. -/

theorem card_onesOf (ws : List UInt64) : (onesOf ws).card = Nat.count (fun i => bitAt ws i = true) (64 * ws.length) :=
  (Nat.count_eq_card_filter_range ..).symm

theorem ones_eq_count (w : UInt64) (ws : List UInt64) : ones w = Nat.count (fun i => bitAt (w :: ws) i = true) 64 := by
  rw [ones, Nat.count]
  refine List.countP_congr fun k hk => ?_
  have hk := List.mem_range.1 hk
  rw [decide_eq_true_iff, bitAt, Nat.div_eq_of_lt hk, Nat.mod_eq_of_lt hk]
  rfl

/-- the members of the first word, and those of the others a word further on -/
theorem card_onesOf_cons (w : UInt64) (ws : List UInt64) : (onesOf (w :: ws)).card = ones w + (onesOf ws).card := by
  have hshift : ∀ i, bitAt (w :: ws) (64 + i) = bitAt ws i := fun i => by
    rw [bitAt, bitAt, Nat.add_mod_left, Nat.add_div_left i (by decide), wordAt_cons_succ]
  rw [card_onesOf, card_onesOf, List.length_cons, Nat.mul_add_one, Nat.add_comm, Nat.count_add, ← ones_eq_count]
  simp only [hshift]

theorem card_members (s : BitSet) : s.cardinality = s.members.card := by
  rw [cardinality, members]
  induction s.words with
  | nil => rfl
  | cons w ws ih => rw [List.foldr_cons, ih, card_onesOf_cons]

/-! ## Rows known by their bits -/

/-- words are equal when their bits are -/
theorem word_ext {v w : UInt64} (h : ∀ k < 64, v.toNat.testBit k = w.toNat.testBit k) : v = w := by
  refine UInt64.toNat_inj.1 (Nat.eq_of_testBit_eq fun k => ?_)
  by_cases hk : k < 64
  · exact h k hk
  · have hbeyond : ∀ w : UInt64, w.toNat.testBit k = false := fun w =>
      Nat.testBit_lt_two_pow (Nat.lt_of_lt_of_le (UInt64.toNat_lt w) (Nat.pow_le_pow_right (by decide) (by omega)))
    rw [hbeyond, hbeyond]

theorem wordAt_eq_of_bits {vs ws : List UInt64} (h : ∀ i, bitAt vs i = bitAt ws i) (j : Nat) :
    wordAt vs j = wordAt ws j := by
  refine word_ext fun k hk => ?_
  have hbit := h (64 * j + k)
  rwa [bitAt, bitAt, Nat.mul_add_div (by decide), Nat.div_eq_of_lt hk, Nat.mul_add_mod, Nat.mod_eq_of_lt hk] at hbit

/-- a row that does not end in a zero word is no longer than another one of the same words -/
theorem length_le_of_words {vs ws : List UInt64} (hv : vs.getLast? ≠ some 0) (h : ∀ j, wordAt vs j = wordAt ws j) :
    vs.length ≤ ws.length := by
  by_contra hlt
  have hlast : vs[vs.length - 1]? = vs.getLast? := List.getLast?_eq_getElem?.symm
  have hzero : wordAt vs (vs.length - 1) = 0 := by
    rw [h, wordAt, List.getElem?_eq_none (by omega)]
    rfl
  rw [wordAt, hlast] at hzero
  cases hl : vs.getLast? with
  | none =>
    rw [List.getLast?_eq_none_iff] at hl
    rw [hl] at hlt
    exact hlt (Nat.zero_le _)
  | some v =>
    rw [hl] at hzero hv
    exact hv (congrArg some hzero)

theorem words_ext {vs ws : List UInt64} (hv : vs.getLast? ≠ some 0) (hw : ws.getLast? ≠ some 0)
    (h : ∀ i, bitAt vs i = bitAt ws i) : vs = ws := by
  have hwords := wordAt_eq_of_bits h
  have hlen : vs.length = ws.length :=
    Nat.le_antisymm (length_le_of_words hv hwords) (length_le_of_words hw fun j => (hwords j).symm)
  refine List.ext_getElem hlen fun j hj hj' => ?_
  have hword := hwords j
  rwa [wordAt, wordAt, List.getElem?_eq_getElem hj, List.getElem?_eq_getElem hj'] at hword

/-- **Sets with the same members are the same words.** -/
theorem words_eq_iff (s t : BitSet) : s.words = t.words ↔ ∀ i, s.contains i = t.contains i := by
  constructor
  · intro h i
    rw [contains_eq_bitAt, contains_eq_bitAt, h]
  · intro h
    refine words_ext s.trimmed t.trimmed fun i => ?_
    rw [← contains_eq_bitAt, ← contains_eq_bitAt, h]

theorem isEmpty_iff (s : BitSet) : s.isEmpty = true ↔ s.members = ∅ := by
  rw [isEmpty, List.isEmpty_iff, Finset.eq_empty_iff_forall_notMem]
  change s.words = empty.words ↔ _
  rw [words_eq_iff]
  refine forall_congr' fun i => ?_
  rw [mem_members, Bool.not_eq_true]
  rfl

/-! ## Histories -/

/-- what a set can start from -/
inductive Origin where
  | empty
  | words (ws : List UInt64)
  | list (is : List Nat)

def Origin.build : Origin → BitSet
  | .empty => .empty
  | .words ws => .ofWords ws
  | .list is => .ofList is

/-- the numbers that a set starts with -/
def Origin.members : Origin → Finset Nat
  | .empty => ∅
  | .words ws => onesOf ws
  | .list is => is.toFinset

/-- what an act does to a finite set -/
def Act.apply (S : Finset Nat) : Act → Finset Nat
  | .insert i => Insert.insert i S
  | .erase i => S.erase i

theorem members_build (o : Origin) : o.build.members = o.members := by
  cases o with
  | empty => exact members_empty
  | words ws => exact members_ofWords ws
  | list is => exact members_ofList is

theorem members_step (s : BitSet) (a : Act) : (s.step a).members = a.apply s.members := by
  cases a with
  | insert i => exact members_insert s i
  | erase i => exact members_erase s i

/-- a history of acts does to the members what it does to a finite set -/
theorem members_run (s : BitSet) (acts : List Act) : (s.run acts).members = acts.foldl Act.apply s.members := by
  induction acts generalizing s with
  | nil => rfl
  | cons a acts ih =>
    rw [List.foldl_cons, ← members_step]
    exact ih (s.step a)

/-- **A bit set is a finite set, and its words are determined by its members.** Whatever a set starts from and whatever
is added to it and taken from it, in whatever order, its words do not end in a zero word, it contains the numbers of the
finite set that the same additions and removals make of the numbers it started with, it counts them right, and it says
that it is empty just when there are none. Two sets, however they came about, are equal, words and all, just when they
contain the same numbers. -/
theorem run_canonical :
    (∀ (o : Origin) (acts : List Act),
      (o.build.run acts).words.getLast? ≠ some 0 ∧
        (∀ i, (o.build.run acts).contains i = true ↔ i ∈ acts.foldl Act.apply o.members) ∧
        (o.build.run acts).cardinality = (acts.foldl Act.apply o.members).card ∧
        ((o.build.run acts).isEmpty = true ↔ acts.foldl Act.apply o.members = ∅)) ∧
      ∀ s t : BitSet, s = t ↔ ∀ i, s.contains i = t.contains i := by
  refine ⟨fun o acts => ?_, fun s t => ?_⟩
  · rw [← members_build, ← members_run]
    exact ⟨(o.build.run acts).trimmed, fun i => (mem_members _ i).symm, card_members _, isEmpty_iff _⟩
  · have hwords : s = t ↔ s.words = t.words := by
      cases s
      cases t
      simp
    rw [hwords, words_eq_iff]

end BitSet

end Courier
