/-!
Numbers as bytes, in LEB128 and in fixed width, and readers that take them and what is built from
them off the front of some bytes.
-/

namespace WasmBinary

/-! ## LEB128

A number is cut into groups of seven bits, the lowest group first, one group a byte. The high bit of
a byte, its continuation bit, is set when another byte follows. Signed numbers are written in two's
complement, and bit 6 of the last byte is their sign.
-/

namespace Leb128

def unsigned (value : Nat) : List UInt8 :=
  if value < 128 then
    [value.toUInt8]
  else
    (value % 128 + 128).toUInt8 :: unsigned (value / 128)
termination_by value
decreasing_by omega

/-- The low group of an integer in two's complement. -/
def lowGroup (value : Int) : Nat :=
  (value % 128).toNat

/-- The shortest signed form of an integer: it ends as soon as the rest fits into one group with
its sign. -/
def signed (value : Int) : List UInt8 :=
  if -64 ≤ value ∧ value < 64 then
    [(lowGroup value).toUInt8]
  else
    (lowGroup value + 128).toUInt8 :: signed (value / 128)
termination_by value.natAbs
decreasing_by omega

/-- Reads an unsigned number from the front of some bytes, up to and including the first byte
without the continuation bit. -/
def readUnsigned : List UInt8 → Option (Nat × List UInt8)
  | [] => none
  | byte :: rest =>
      if byte < 128 then
        some (byte.toNat, rest)
      else
        (readUnsigned rest).map fun (high, rest) => (byte.toNat - 128 + 128 * high, rest)

/-- The value of a last group, whose bit 6 is a sign. -/
def signExtend (group : Nat) : Int :=
  if group < 64 then group else group - 128

/-- Reads a signed number from the front of some bytes, up to and including the first byte without
the continuation bit. -/
def readSigned : List UInt8 → Option (Int × List UInt8)
  | [] => none
  | byte :: rest =>
      if byte < 128 then
        some (signExtend byte.toNat, rest)
      else
        (readSigned rest).map fun (high, rest) => (byte.toNat - 128 + 128 * high, rest)

/-- Whether the last byte of a signed form says nothing but the sign that bit 6 of the byte before
it shows already. -/
def RedundantSign (bytes : List UInt8) : Prop :=
  ∃ front before last,
    bytes = front ++ [before, last] ∧
      (before &&& 0x40 = 0 ∧ last = 0x00 ∨ before &&& 0x40 ≠ 0 ∧ last = 0x7f)

end Leb128

/-! ## LEB128 on machine words

A round masks the low seven bits of a word, narrows them to a byte and shifts the word by seven. The
shift of a signed word is arithmetic and keeps its sign, but its bytes are cut from its bits as they
are.
-/

namespace Leb128

theorem toNat_shiftRight_seven (word : UInt64) : (word >>> 7).toNat = word.toNat / 128 := by
  simp [Nat.shiftRight_eq_div_pow]

/-- The arithmetic shift of a signed word rounds down, as the division of integers does. -/
theorem toInt_shiftRight_seven (word : Int64) : (word >>> 7).toInt = word.toInt / 128 := by
  have amount : (7 : Int64).toBitVec.smod 64 = 7#64 := by
    decide
  rw [← Int64.toInt_toBitVec, Int64.toBitVec_shiftRight, amount, BitVec.sshiftRight',
    BitVec.toInt_sshiftRight, Int64.toInt_toBitVec, Int.shiftRight_eq_div_pow]
  rfl

theorem lt_continue_iff (word : UInt64) : word < 0x80 ↔ word.toNat < 128 :=
  UInt64.lt_iff_toNat_lt

theorem continue_iff (word : Int64) :
    word < -64 ∨ 64 ≤ word ↔ ¬ (-64 ≤ word.toInt ∧ word.toInt < 64) := by
  have lower : (-64 : Int64).toInt = -64 := by
    decide
  have upper : (64 : Int64).toInt = 64 := by
    decide
  rw [Int64.lt_iff_toInt_lt, Int64.le_iff_toInt_le, lower, upper]
  omega

def unsignedWord (word : UInt64) : List UInt8 :=
  if word < 0x80 then
    [word.toUInt8]
  else
    ((word &&& 0x7f).toUInt8 ||| 0x80) :: unsignedWord (word >>> 7)
termination_by word.toNat
decreasing_by
  rw [lt_continue_iff] at *
  rw [toNat_shiftRight_seven]
  omega

def signedWord (word : Int64) : List UInt8 :=
  if word < -64 ∨ 64 ≤ word then
    ((word.toUInt64 &&& 0x7f).toUInt8 ||| 0x80) :: signedWord (word >>> 7)
  else
    [(word.toUInt64 &&& 0x7f).toUInt8]
termination_by word.toInt.natAbs
decreasing_by
  rw [continue_iff] at *
  rw [toInt_shiftRight_seven]
  omega

end Leb128

/-! ## Fixed width, low byte first -/

namespace LittleEndian

/-- The lowest bytes of a number, as many as asked for. -/
def bytes : Nat → Nat → List UInt8
  | 0, _ => []
  | count + 1, value => (value % 256).toUInt8 :: bytes count (value / 256)

/-- The number that some bytes stand for. -/
def value : List UInt8 → Nat
  | [] => 0
  | byte :: rest => byte.toNat + 256 * value rest

theorem length_bytes (count number : Nat) : (bytes count number).length = count := by
  induction count generalizing number with
  | zero => rfl
  | succ count ih => simp [bytes, ih]

end LittleEndian

/-! ## Readers -/

/-- Takes a value off the front of some bytes and leaves the rest, or refuses. -/
abbrev Reader (α : Type) := List UInt8 → Option (α × List UInt8)

namespace Reader

def byte : Reader UInt8
  | [] => none
  | byte :: rest => some (byte, rest)

def take (count : Nat) : Reader (List UInt8) := fun input =>
  if count ≤ input.length then some (input.take count, input.drop count) else none

def index : Reader UInt32 := fun input => do
  let (value, rest) ← Leb128.readUnsigned input
  if value < UInt32.size then some (value.toUInt32, rest) else none

def word : Reader UInt64 := fun input => do
  let (value, rest) ← Leb128.readUnsigned input
  if value < UInt64.size then some (value.toUInt64, rest) else none

def flag : Reader Bool := fun input => do
  let (value, rest) ← byte input
  if value = 0 then some (false, rest)
  else if value = 1 then some (true, rest)
  else none

/-- Takes a number of fixed width, low byte first. -/
def littleEndian (count : Nat) : Reader Nat := fun input => do
  let (bytes, rest) ← take count input
  return (LittleEndian.value bytes, rest)

/-- Takes some values, one after another. -/
def times {α : Type} (read : Reader α) : Nat → Reader (List α)
  | 0, input => some ([], input)
  | count + 1, input => do
      let (item, rest) ← read input
      let (items, rest) ← times read count rest
      return (item :: items, rest)

/-- Takes a count, and then as many values. -/
def vector {α : Type} (read : Reader α) : Reader (List α) := fun input => do
  let (count, rest) ← Leb128.readUnsigned input
  times read count rest

/-- Takes a presence flag, and then the value if it is there. -/
def option {α : Type} (read : Reader α) : Reader (Option α) := fun input => do
  let (present, rest) ← flag input
  if present then
    let (item, rest) ← read rest
    return (some item, rest)
  else
    return (none, rest)

/-- Takes a byte count, and then as many bytes. -/
def string : Reader (List UInt8) := fun input => do
  let (count, rest) ← Leb128.readUnsigned input
  take count rest

/-- Takes a size field: four bytes that are one number in LEB128. -/
def sizeField : Reader Nat := fun input => do
  let (field, rest) ← take 4 input
  match Leb128.readUnsigned field with
  | some (size, []) => some (size, rest)
  | _ => none

end Reader

end WasmBinary
