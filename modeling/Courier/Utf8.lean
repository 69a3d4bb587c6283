import Courier.Bytes

/-!
Where a run of bytes stops being UTF-8.

`flawAt? i bs` walks the sequences of `bs`, the first of which starts at offset `i` of the whole text, and gives the
first place where no well-formed sequence can be read: its offset, and the number of bytes of the longest start of a
sequence found there, or nothing when the bytes simply end inside a sequence. Well-formed sequences are those of the
Unicode standard: no overlong form, no surrogate, nothing above U+10FFFF.
-/

namespace Courier.Utf8

/-- the first place where a text stops being UTF-8 -/
structure Flaw where
  /-- length of the well-formed text in front of it -/
  validUpTo : Nat
  /-- length of the ill-formed part, or nothing when the text ends inside a sequence -/
  badLength : Option Nat
  deriving DecidableEq

/-- a byte that continues a sequence -/
def continues (b : UInt8) : Bool :=
  0x80 ≤ b && b ≤ 0xBF

/-- the second bytes that may follow the first byte `b` of a sequence of three -/
def secondOfThree (b c : UInt8) : Bool :=
  if b = 0xE0 then 0xA0 ≤ c && c ≤ 0xBF
  else if b = 0xED then 0x80 ≤ c && c ≤ 0x9F
  else continues c

/-- the second bytes that may follow the first byte `b` of a sequence of four -/
def secondOfFour (b c : UInt8) : Bool :=
  if b = 0xF0 then 0x90 ≤ c && c ≤ 0xBF
  else if b = 0xF4 then 0x80 ≤ c && c ≤ 0x8F
  else continues c

/-- the first flaw of a text whose bytes from offset `i` on are given -/
def flawAt? (i : Nat) : Bytes → Option Flaw
  | [] => none
  | b :: rest =>
    if b < 0x80 then flawAt? (i + 1) rest
    else if 0xC2 ≤ b ∧ b ≤ 0xDF then
      match rest with
      | [] => some ⟨i, none⟩
      | c :: rest => if continues c then flawAt? (i + 2) rest else some ⟨i, some 1⟩
    else if 0xE0 ≤ b ∧ b ≤ 0xEF then
      match rest with
      | [] => some ⟨i, none⟩
      | c :: rest =>
        if secondOfThree b c then
          match rest with
          | [] => some ⟨i, none⟩
          | d :: rest => if continues d then flawAt? (i + 3) rest else some ⟨i, some 2⟩
        else some ⟨i, some 1⟩
    else if 0xF0 ≤ b ∧ b ≤ 0xF4 then
      match rest with
      | [] => some ⟨i, none⟩
      | c :: rest =>
        if secondOfFour b c then
          match rest with
          | [] => some ⟨i, none⟩
          | d :: rest =>
            if continues d then
              match rest with
              | [] => some ⟨i, none⟩
              | e :: rest => if continues e then flawAt? (i + 4) rest else some ⟨i, some 3⟩
            else some ⟨i, some 2⟩
        else some ⟨i, some 1⟩
    else some ⟨i, some 1⟩

/-- the first flaw of a text -/
def flaw? (bs : Bytes) : Option Flaw :=
  flawAt? 0 bs

/-- how a flaw is told -/
def Flaw.message (f : Flaw) : String :=
  match f.badLength with
  | some n => "invalid utf-8 sequence of " ++ toString n ++ " bytes from index " ++ toString f.validUpTo
  | none => "incomplete utf-8 byte sequence from index " ++ toString f.validUpTo

/-- the text that these bytes encode -/
def decode? (bs : Bytes) : Option String :=
  String.fromUTF8? bs.toByteArray

/-- the bytes of a text -/
def encode (s : String) : Bytes :=
  s.toUTF8.data.toList

end Courier.Utf8
