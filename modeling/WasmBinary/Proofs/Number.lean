import Mathlib.Algebra.BigOperators.Fin
import Mathlib.Algebra.Group.Int.Defs
import Mathlib.Order.Bounds.Basic
import WasmBinary.Proofs.Instruction

/-!
Numbers as they are written. Main statements: the LEB128 forms are the shortest, and of all forms of
a number they alone have no redundant last byte; words of fixed width are written without losing a
bit, and all bytes of that width are the form of exactly one word.
-/

namespace WasmBinary

/-! ## LEB128

What is proved of the forms of numbers holds of the bytes of every machine word, which a loop of
masks and shifts cuts from it.
-/

namespace Leb128

/-! ### Unsigned numbers -/

/-- A byte is the last one of a number, or the number goes on behind it. -/
theorem readUnsigned_cons_eq_some_iff {byte : UInt8} {rest remaining : List UInt8} {value : Nat} :
    readUnsigned (byte :: rest) = some (value, remaining) ↔
      byte.toNat < 128 ∧ value = byte.toNat ∧ remaining = rest ∨
        128 ≤ byte.toNat ∧
          ∃ high, readUnsigned rest = some (high, remaining) ∧
            value = byte.toNat - 128 + 128 * high := by
  have isLast : byte < 128 ↔ byte.toNat < 128 := UInt8.lt_iff_toNat_lt
  rw [readUnsigned]
  by_cases last : byte.toNat < 128
  · simp [isLast, last, eq_comm]
  · simp [isLast, last, Nat.not_lt.mp last, eq_comm]

theorem unsigned_eq_singleton_zero_of_getLast? {value : Nat}
    (endsInZero : (unsigned value).getLast? = some 0) : unsigned value = [0] := by
  induction value using Nat.strongRecOn with
  | ind value inductionHypothesis =>
      by_cases small : value < 128
      · rw [unsigned_of_lt small] at endsInZero ⊢
        rw [List.getLast?_singleton] at endsInZero
        rw [Option.some.inj endsInZero]
      · -- The high part would be written as one zero, so it would be zero.
        have more := List.ne_nil_of_length_pos (length_unsigned_pos (value / 128))
        rw [unsigned_of_le (by omega), List.getLast?_cons_of_ne_nil more] at endsInZero
        have zero := inductionHypothesis (value / 128) (by omega) endsInZero
        have reads := readUnsigned_unsigned_append (value / 128) []
        rw [zero] at reads
        have noHigh : 0 = value / 128 := congrArg Prod.fst (Option.some.inj reads)
        omega

/-- A form whose last byte is not redundant is the shortest one. -/
theorem eq_unsigned_of_readUnsigned {bytes : List UInt8} {value : Nat}
    (reads : readUnsigned bytes = some (value, []))
    (notRedundant : bytes = [0] ∨ bytes.getLast? ≠ some 0) : bytes = unsigned value := by
  induction bytes generalizing value with
  | nil => cases reads
  | cons byte rest inductionHypothesis =>
      rcases readUnsigned_cons_eq_some_iff.mp reads with
        ⟨small, rfl, rfl⟩ | ⟨large, high, readsRest, rfl⟩
      · rw [unsigned_of_lt small, Nat.toUInt8_eq, UInt8.ofNat_toNat]
      · have bound := byte.toNat_lt
        have more : rest ≠ [] := by
          rintro rfl
          cases readsRest
        have notZero : rest.getLast? ≠ some 0 := by
          rw [List.cons.injEq, List.getLast?_cons_of_ne_nil more] at notRedundant
          rcases notRedundant with ⟨_, none⟩ | notZero
          · exact absurd none more
          · exact notZero
        have isHigh := inductionHypothesis readsRest (Or.inr notZero)
        have positive : 0 < high := by
          apply Nat.pos_of_ne_zero
          rintro rfl
          rw [isHigh, unsigned_of_lt (by omega)] at notZero
          exact notZero rfl
        have low : (byte.toNat - 128 + 128 * high) % 128 + 128 = byte.toNat := by
          omega
        have quotient : (byte.toNat - 128 + 128 * high) / 128 = high := by
          omega
        rw [unsigned_of_le (by omega), low, quotient, Nat.toUInt8_eq,
          UInt8.ofNat_toNat, isHigh]

/-- The written form of a number is the one form of it whose last byte is not zero, or zero alone.
-/
theorem eq_unsigned_iff {bytes : List UInt8} {value : Nat} :
    bytes = unsigned value ↔
      readUnsigned bytes = some (value, []) ∧ (bytes = [0] ∨ bytes.getLast? ≠ some 0) := by
  constructor
  · rintro rfl
    have reads := readUnsigned_unsigned_append value []
    rw [List.append_nil] at reads
    refine ⟨reads, ?_⟩
    by_cases endsInZero : (unsigned value).getLast? = some 0
    · exact Or.inl (unsigned_eq_singleton_zero_of_getLast? endsInZero)
    · exact Or.inr endsInZero
  · rintro ⟨reads, notRedundant⟩
    exact eq_unsigned_of_readUnsigned reads notRedundant

/-- The written form has as many bytes as are needed for seven bits in each. -/
theorem isLeast_length_unsigned (value : Nat) :
    IsLeast {count | 1 ≤ count ∧ value < 2 ^ (7 * count)} (unsigned value).length := by
  have power (count : Nat) : 2 ^ (7 * count) = 128 ^ count := Nat.pow_mul 2 7 count
  obtain ⟨count, length⟩ := Nat.exists_eq_add_one.mpr (length_unsigned_pos value)
  constructor
  · refine ⟨length_unsigned_pos value, ?_⟩
    rw [power, length]
    exact (length_unsigned_le_iff count value).mp (Nat.le_of_eq length)
  · rintro other ⟨positive, fits⟩
    obtain ⟨less, rfl⟩ := Nat.exists_eq_add_one.mpr positive
    rw [power] at fits
    exact (length_unsigned_le_iff less value).mpr fits

/-! ### Unsigned words -/

theorem toUInt8_and_mask (word : UInt64) :
    (word &&& 0x7f).toUInt8 = (word.toNat % 128).toUInt8 := by
  have mask : word.toNat &&& 127 = word.toNat % 128 := Nat.and_two_pow_sub_one_eq_mod _ 7
  apply UInt8.toNat_inj.mp
  rw [toNat_toUInt8_of_lt (by omega), UInt64.toNat_toUInt8, UInt64.toNat_and]
  change (word.toNat &&& 127) % 256 = _
  omega

/-- The loop on machine words writes what the recursion on numbers writes. -/
theorem unsignedWord_eq (word : UInt64) : unsignedWord word = unsigned word.toNat := by
  fun_induction unsignedWord word with
  | case1 word small =>
      rw [lt_continue_iff] at small
      rw [unsigned_of_lt small]
      simp
  | case2 word large inductionHypothesis =>
      rw [lt_continue_iff] at large
      rw [unsigned_of_le (Nat.not_lt.mp large), toUInt8_and_mask,
        toUInt8_or_continuation (Nat.mod_lt _ (by omega)), inductionHypothesis,
        toNat_shiftRight_seven]

/-- The unsigned form of a word is read back with whatever stands behind it. It has as few bytes as
the word has groups of seven bits, and it is the only form of that number whose last byte is not
redundant. -/
theorem unsignedWord_canonical (word : UInt64) :
    (∀ stream : Stream, stream.putUnsigned word.toNat = stream.putBytes (unsignedWord word)) ∧
      (∀ rest, readUnsigned (unsignedWord word ++ rest) = some (word.toNat, rest)) ∧
      IsLeast {count | 1 ≤ count ∧ word.toNat < 2 ^ (7 * count)} (unsignedWord word).length ∧
      (unsignedWord word).length ≤ 10 ∧
      ((unsignedWord word).length ≤ 4 ↔ word.toNat < 2 ^ 28) ∧
      (∀ index : UInt32,
        (∀ stream : Stream,
            stream.putIndex index = stream.putBytes (unsignedWord index.toUInt64)) ∧
          (unsignedWord index.toUInt64).length ≤ 5) ∧
      ∀ bytes, bytes = unsignedWord word ↔
        readUnsigned bytes = some (word.toNat, []) ∧
          (bytes = [0] ∨ bytes.getLast? ≠ some 0) := by
  have bound := word.toNat_lt
  have four := length_unsigned_le_iff 3 word.toNat
  rw [unsignedWord_eq]
  refine ⟨fun _ => rfl, readUnsigned_unsigned_append _, isLeast_length_unsigned _, ?_, ?_, ?_,
    fun _ => eq_unsigned_iff⟩
  · exact (length_unsigned_le_iff 9 word.toNat).mpr (by omega)
  · omega
  · intro index
    have small := index.toNat_lt
    rw [unsignedWord_eq, UInt32.toNat_toUInt64]
    exact ⟨fun _ => rfl, (length_unsigned_le_iff 4 index.toNat).mpr (by omega)⟩

/-! ### Signed numbers -/

theorem signed_of_small {value : Int} (small : -64 ≤ value ∧ value < 64) :
    signed value = [(lowGroup value).toUInt8] := by
  rw [signed, if_pos small]

theorem signed_of_not_small {value : Int} (large : ¬ (-64 ≤ value ∧ value < 64)) :
    signed value = (lowGroup value + 128).toUInt8 :: signed (value / 128) := by
  rw [signed, if_neg large]

theorem length_signed_pos (value : Int) : 0 < (signed value).length := by
  rw [signed]
  split <;> simp

/-- A number fits into as many groups as its digits in base 128 and its sign need. -/
theorem length_signed_le_iff (count : Nat) (value : Int) :
    (signed value).length ≤ count + 1 ↔
      -(64 * 128 ^ count) ≤ value ∧ value < 64 * 128 ^ count := by
  induction count generalizing value with
  | zero =>
      by_cases small : -64 ≤ value ∧ value < 64
      · simp [signed_of_small small, small]
      · have more := length_signed_pos (value / 128)
        rw [signed_of_not_small small, List.length_cons]
        omega
  | succ count inductionHypothesis =>
      have power : (128 : Int) ^ (count + 1) = 128 ^ count * 128 := pow_succ 128 count
      have positive : (0 : Int) < 128 ^ count := Int.pow_pos (by decide)
      by_cases small : -64 ≤ value ∧ value < 64
      · rw [signed_of_small small, power, List.length_singleton]
        omega
      · rw [signed_of_not_small small, List.length_cons, Nat.add_le_add_iff_right,
          inductionHypothesis, power]
        omega

/-- A byte is the last one of a number and shows its sign, or the number goes on behind it. -/
theorem readSigned_cons_eq_some_iff {byte : UInt8} {rest remaining : List UInt8} {value : Int} :
    readSigned (byte :: rest) = some (value, remaining) ↔
      byte.toNat < 128 ∧ value = signExtend byte.toNat ∧ remaining = rest ∨
        128 ≤ byte.toNat ∧
          ∃ high, readSigned rest = some (high, remaining) ∧
            value = byte.toNat - 128 + 128 * high := by
  have isLast : byte < 128 ↔ byte.toNat < 128 := UInt8.lt_iff_toNat_lt
  rw [readSigned]
  by_cases last : byte.toNat < 128
  · simp [isLast, last, eq_comm]
  · simp [isLast, last, Nat.not_lt.mp last, eq_comm]

theorem signExtend_bounds {group : Nat} (small : group < 128) :
    -64 ≤ signExtend group ∧ signExtend group < 64 := by
  rw [signExtend]
  split <;> omega

theorem lowGroup_signExtend {group : Nat} (small : group < 128) :
    lowGroup (signExtend group) = group := by
  rw [signExtend, lowGroup]
  split <;> omega

/-- So many bytes can only be read as a number that fits into as many groups. -/
theorem bounds_of_readSigned {bytes : List UInt8} {value : Int} {count : Nat}
    (reads : readSigned bytes = some (value, [])) (length : bytes.length = count + 1) :
    -(64 * 128 ^ count) ≤ value ∧ value < 64 * 128 ^ count := by
  induction bytes generalizing value count with
  | nil => cases reads
  | cons byte rest inductionHypothesis =>
      rcases readSigned_cons_eq_some_iff.mp reads with
        ⟨small, rfl, rfl⟩ | ⟨large, high, readsRest, rfl⟩
      · have isZero : count = 0 := by
          simpa using length.symm
        rw [isZero, pow_zero]
        exact signExtend_bounds small
      · have bound := byte.toNat_lt
        cases count with
        | zero =>
            rw [List.length_eq_zero_iff.mp (Nat.succ.inj length)] at readsRest
            cases readsRest
        | succ count =>
            have highBounds := inductionHypothesis readsRest (Nat.succ.inj length)
            rw [pow_succ]
            omega

theorem length_signed_le_of_readSigned {bytes : List UInt8} {value : Int}
    (reads : readSigned bytes = some (value, [])) : (signed value).length ≤ bytes.length := by
  cases bytes with
  | nil => cases reads
  | cons byte rest => exact (length_signed_le_iff _ value).mpr (bounds_of_readSigned reads rfl)

/-! ### Redundant signs -/

theorem and_signBit_eq_zero_iff (byte : UInt8) :
    byte &&& 0x40 = 0 ↔ byte.toNat % 128 < 64 := by
  have each : ∀ value : Fin 256, value.val.toUInt8 &&& 0x40 = 0 ↔ value.val % 128 < 64 := by
    decide +kernel
  have isByte := each ⟨byte.toNat, byte.toNat_lt⟩
  rwa [Nat.toUInt8_eq, UInt8.ofNat_toNat] at isByte

theorem not_redundantSign_nil : ¬ RedundantSign [] := by
  rintro ⟨front, before, last, shape, _⟩
  simp at shape

theorem redundantSign_cons_iff {byte : UInt8} {rest : List UInt8} :
    RedundantSign (byte :: rest) ↔
      byte.toNat % 128 < 64 ∧ rest = [0x00] ∨ 64 ≤ byte.toNat % 128 ∧ rest = [0x7f] ∨
        RedundantSign rest := by
  constructor
  · rintro ⟨front, before, last, shape, redundant⟩
    cases front with
    | nil =>
        rw [List.nil_append, List.cons.injEq] at shape
        obtain ⟨rfl, rfl⟩ := shape
        rw [ne_eq, and_signBit_eq_zero_iff, Nat.not_lt] at redundant
        rcases redundant with ⟨positive, rfl⟩ | ⟨negative, rfl⟩
        · exact Or.inl ⟨positive, rfl⟩
        · exact Or.inr (Or.inl ⟨negative, rfl⟩)
    | cons first front =>
        rw [List.cons_append, List.cons.injEq] at shape
        exact Or.inr (Or.inr ⟨front, before, last, shape.2, redundant⟩)
  · rintro (⟨positive, rfl⟩ | ⟨negative, rfl⟩ | ⟨front, before, last, rfl, redundant⟩)
    · exact ⟨[], byte, 0x00, rfl, Or.inl ⟨(and_signBit_eq_zero_iff byte).mpr positive, rfl⟩⟩
    · have isSet := mt (and_signBit_eq_zero_iff byte).mp (Nat.not_lt.mpr negative)
      exact ⟨[], byte, 0x7f, rfl, Or.inr ⟨isSet, rfl⟩⟩
    · exact ⟨byte :: front, before, last, rfl, redundant⟩

theorem not_redundantSign_signed (value : Int) : ¬ RedundantSign (signed value) := by
  induction size : value.natAbs using Nat.strongRecOn generalizing value with
  | ind size inductionHypothesis =>
      by_cases small : -64 ≤ value ∧ value < 64
      · rw [signed_of_small small, redundantSign_cons_iff]
        simp [not_redundantSign_nil]
      · have rest := inductionHypothesis (value / 128).natAbs (by omega) (value / 128) rfl
        have reads := readSigned_signed_append (value / 128) []
        have group := lowGroup_lt value
        rw [signed_of_not_small small, redundantSign_cons_iff, toNat_toUInt8_of_lt (by omega)]
        -- A rest of one byte that repeats the sign is zero or minus one; then the value is small.
        rintro (⟨positive, isZero⟩ | ⟨negative, isMinusOne⟩ | redundant)
        · rw [isZero] at reads
          have high : 0 = value / 128 := congrArg Prod.fst (Option.some.inj reads)
          simp only [lowGroup] at positive
          omega
        · rw [isMinusOne] at reads
          have high : -1 = value / 128 := congrArg Prod.fst (Option.some.inj reads)
          simp only [lowGroup] at negative
          omega
        · exact rest redundant

/-- A form whose last byte is not redundant is the shortest one. -/
theorem eq_signed_of_readSigned {bytes : List UInt8} {value : Int}
    (reads : readSigned bytes = some (value, [])) (notRedundant : ¬ RedundantSign bytes) :
    bytes = signed value := by
  induction bytes generalizing value with
  | nil => cases reads
  | cons byte rest inductionHypothesis =>
      rcases readSigned_cons_eq_some_iff.mp reads with
        ⟨small, rfl, rfl⟩ | ⟨large, high, readsRest, rfl⟩
      · rw [signed_of_small (signExtend_bounds small), lowGroup_signExtend small, Nat.toUInt8_eq,
          UInt8.ofNat_toNat]
      · have bound := byte.toNat_lt
        rw [redundantSign_cons_iff, not_or, not_or] at notRedundant
        obtain ⟨notZero, notMinusOne, notRedundantRest⟩ := notRedundant
        have isHigh := inductionHypothesis readsRest notRedundantRest
        have notSmall :
            ¬ (-64 ≤ (byte.toNat : Int) - 128 + 128 * high ∧
              (byte.toNat : Int) - 128 + 128 * high < 64) := by
          rintro ⟨lower, upper⟩
          have isSign : high = 0 ∨ high = -1 := by
            omega
          rcases isSign with rfl | rfl
          · exact notZero ⟨by omega, isHigh.trans (signed_of_small (by decide))⟩
          · exact notMinusOne ⟨by omega, isHigh.trans (signed_of_small (by decide))⟩
        have low : lowGroup ((byte.toNat : Int) - 128 + 128 * high) + 128 = byte.toNat := by
          rw [lowGroup]
          omega
        have quotient : ((byte.toNat : Int) - 128 + 128 * high) / 128 = high := by
          omega
        rw [signed_of_not_small notSmall, low, quotient, Nat.toUInt8_eq,
          UInt8.ofNat_toNat, isHigh]

/-- The written form of an integer is the one form of it without a redundant last byte. -/
theorem eq_signed_iff {bytes : List UInt8} {value : Int} :
    bytes = signed value ↔ readSigned bytes = some (value, []) ∧ ¬ RedundantSign bytes := by
  constructor
  · rintro rfl
    have reads := readSigned_signed_append value []
    rw [List.append_nil] at reads
    exact ⟨reads, not_redundantSign_signed value⟩
  · rintro ⟨reads, notRedundant⟩
    exact eq_signed_of_readSigned reads notRedundant

/-! ### Signed words -/

theorem toNat_toUInt64_mod (word : Int64) :
    word.toUInt64.toNat % 128 = lowGroup word.toInt := by
  have bound := word.toBitVec.isLt
  change word.toBitVec.toNat % 128 = _
  rw [lowGroup, ← Int64.toInt_toBitVec, BitVec.toInt_eq_toNat_cond]
  split <;> omega

/-- The loop on signed words writes what the recursion on integers writes. -/
theorem signedWord_eq (word : Int64) : signedWord word = signed word.toInt := by
  fun_induction signedWord word with
  | case1 word large inductionHypothesis =>
      rw [signed_of_not_small ((continue_iff word).mp large), toUInt8_and_mask,
        toUInt8_or_continuation (Nat.mod_lt _ (by omega)), toNat_toUInt64_mod,
        inductionHypothesis, toInt_shiftRight_seven]
  | case2 word small =>
      rw [continue_iff, not_not] at small
      rw [signed_of_small small, toUInt8_and_mask, toNat_toUInt64_mod]

/-- The signed form of a word is read back with whatever stands behind it. No form of the same
number is shorter, and it is the only one whose last byte is not redundant. -/
theorem signedWord_canonical (word : Int64) :
    (∀ stream : Stream, stream.putSigned word.toInt = stream.putBytes (signedWord word)) ∧
      (∀ rest, readSigned (signedWord word ++ rest) = some (word.toInt, rest)) ∧
      (∀ bytes, readSigned bytes = some (word.toInt, []) →
        (signedWord word).length ≤ bytes.length) ∧
      (signedWord word).length ≤ 10 ∧
      (∀ narrow : Int32,
        (∀ stream : Stream,
            stream.putSigned narrow.toInt = stream.putBytes (signedWord narrow.toInt64)) ∧
          (signedWord narrow.toInt64).length ≤ 5 ∧
          ∀ rest,
            Reader.literal .i32 (signedWord narrow.toInt64 ++ rest) = some (.i32 narrow, rest)) ∧
      ∀ bytes, bytes = signedWord word ↔
        readSigned bytes = some (word.toInt, []) ∧ ¬ RedundantSign bytes := by
  have lower : -2 ^ 63 ≤ word.toInt := word.minValue_le_toInt
  have upper : word.toInt ≤ 2 ^ 63 - 1 := word.toInt_le
  rw [signedWord_eq]
  refine ⟨fun _ => rfl, readSigned_signed_append _, fun _ => length_signed_le_of_readSigned, ?_, ?_,
    fun _ => eq_signed_iff⟩
  · exact (length_signed_le_iff 9 word.toInt).mpr (by omega)
  · intro narrow
    have narrowLower : -2 ^ 31 ≤ narrow.toInt := narrow.minValue_le_toInt
    have narrowUpper : narrow.toInt ≤ 2 ^ 31 - 1 := narrow.toInt_le
    rw [signedWord_eq, Int32.toInt_toInt64]
    exact ⟨fun _ => rfl, (length_signed_le_iff 4 narrow.toInt).mpr (by omega),
      Reader.literal_append (.i32 narrow)⟩

end Leb128

/-! ## Fixed width

Words of two, four and eight bytes go through halves of half the width, and floats are written as
their bits, so that constants with different bits differ.
-/

namespace LittleEndian

theorem bytes_eq_ofFn (count number : Nat) :
    bytes count number =
      List.ofFn fun place : Fin count => (number / 256 ^ place.val % 256).toUInt8 := by
  induction count generalizing number with
  | zero => rfl
  | succ count inductionHypothesis =>
      rw [bytes, inductionHypothesis, List.ofFn_succ]
      simp [Nat.div_div_eq_div_mul, pow_succ']

/-- The number that some bytes stand for is the sum of their digits to base 256. -/
theorem value_ofFn {count : Nat} (bytes : Fin count → UInt8) :
    value (List.ofFn bytes) = ∑ place, (bytes place).toNat * 256 ^ place.val := by
  induction count with
  | zero => rfl
  | succ count inductionHypothesis =>
      rw [List.ofFn_succ, value, inductionHypothesis, Fin.sum_univ_succ, Finset.mul_sum]
      simp [pow_succ', mul_left_comm]

end LittleEndian

namespace Stream

theorem putBytes_inj {stream : Stream} {first second : List UInt8} :
    stream.putBytes first = stream.putBytes second ↔ first = second := by
  constructor
  · intro same
    have sameBytes := congrArg Stream.bytes same
    rw [bytes_putBytes, bytes_putBytes] at sameBytes
    exact List.append_cancel_left sameBytes
  · intro same
    rw [same]

/-! ### Words -/

/-- A write appends the number of a value in a fixed width, the low byte first, and does nothing
else. Whatever bytes of that width there are, exactly one value appends them. -/
structure IsLittleEndian {α : Type} (put : Stream → α → Stream) (number : α → Nat)
    (width : Nat) : Prop where
  appends : ∀ value, ∃ bytes : Fin width → UInt8,
    ∑ place, (bytes place).toNat * 256 ^ place.val = number value ∧
      ∀ stream, put stream value = stream.putBytes (List.ofFn bytes)
  existsUnique : ∀ (bytes : Fin width → UInt8) (stream : Stream),
    ∃! value, put stream value = stream.putBytes (List.ofFn bytes)

/-- Appending the lowest bytes of a number is enough if the values have exactly the numbers that fit
into so many bytes, each of them once. -/
theorem IsLittleEndian.of_put_eq {α : Type} {put : Stream → α → Stream} {number : α → Nat}
    {width : Nat}
    (each : ∀ stream value,
      put stream value = stream.putBytes (LittleEndian.bytes width (number value)))
    (small : ∀ value, number value < 256 ^ width) (injective : Function.Injective number)
    (onto : ∀ target < 256 ^ width, ∃ value, number value = target) :
    IsLittleEndian put number width where
  appends value := by
    have digits := LittleEndian.bytes_eq_ofFn width (number value)
    refine ⟨_, ?_, fun stream => (each stream value).trans (congrArg stream.putBytes digits)⟩
    rw [← LittleEndian.value_ofFn, ← digits, LittleEndian.value_bytes (small value)]
  existsUnique bytes stream := by
    have fits := LittleEndian.value_lt (List.ofFn bytes)
    have written := LittleEndian.bytes_value (List.ofFn bytes)
    rw [List.length_ofFn] at fits written
    obtain ⟨value, isValue⟩ := onto _ fits
    refine ⟨value, ?_, ?_⟩
    · change put stream value = _
      rw [each, isValue, written]
    · intro other isPut
      rw [each, putBytes_inj] at isPut
      apply injective
      rw [isValue, ← isPut, LittleEndian.value_bytes (small other)]

theorem isLittleEndian_putUInt16 : IsLittleEndian putUInt16 UInt16.toNat 2 :=
  .of_put_eq putUInt16_eq UInt16.toNat_lt (fun _ _ => UInt16.toNat_inj.mp)
    fun target fits => ⟨.ofNat target, UInt16.toNat_ofNat_of_lt fits⟩

theorem isLittleEndian_putUInt32 : IsLittleEndian putUInt32 UInt32.toNat 4 :=
  .of_put_eq putUInt32_eq UInt32.toNat_lt (fun _ _ => UInt32.toNat_inj.mp)
    fun target fits => ⟨.ofNat target, UInt32.toNat_ofNat_of_lt fits⟩

theorem isLittleEndian_putUInt64 : IsLittleEndian putUInt64 UInt64.toNat 8 :=
  .of_put_eq putUInt64_eq UInt64.toNat_lt (fun _ _ => UInt64.toNat_inj.mp)
    fun target fits => ⟨.ofNat target, UInt64.toNat_ofNat_of_lt fits⟩

/-! ### Constants -/

/-- A constant is known from its bytes, whatever follows them. -/
theorem putLiteral_append_inj {stream : Stream} {literal other : Literal}
    {rest otherRest : List UInt8} :
    (stream.putLiteral literal).putBytes rest = (stream.putLiteral other).putBytes otherRest ↔
      literal = other ∧ rest = otherRest := by
  constructor
  · intro same
    rw [putLiteral_eq, putLiteral_eq, putBytes_putBytes, putBytes_putBytes, putBytes_inj] at same
    obtain ⟨sameInstruction, sameRest⟩ :=
      Delimits.of_inverts Instruction.inverts_read (.const literal) (.const other) _ _ same
    exact ⟨Instruction.const.inj sameInstruction, sameRest⟩
  · intro same
    rw [same.1, same.2]

/-- Words are written with their low byte first, by way of their two halves, which lose none of
their bits. A float is written as its bits, whatever they stand for, and constants that differ in
their bits or their type are written differently, whatever follows them. -/
theorem fixedWidth_isLittleEndian :
    IsLittleEndian putUInt16 UInt16.toNat 2 ∧
      IsLittleEndian putUInt32 UInt32.toNat 4 ∧
      IsLittleEndian putUInt64 UInt64.toNat 8 ∧
      Halves putUInt16 UInt16.toNat putByte UInt8.toNat 1 ∧
      Halves putUInt32 UInt32.toNat putUInt16 UInt16.toNat 2 ∧
      Halves putUInt64 UInt64.toNat putUInt32 UInt32.toNat 4 ∧
      IsLittleEndian putFloat32 UInt32.toNat 4 ∧
      IsLittleEndian putFloat64 UInt64.toNat 8 ∧
      ∀ (stream : Stream) (literal other : Literal) (rest otherRest : List UInt8),
        (stream.putLiteral literal).putBytes rest = (stream.putLiteral other).putBytes otherRest ↔
          literal = other ∧ rest = otherRest :=
  ⟨isLittleEndian_putUInt16, isLittleEndian_putUInt32, isLittleEndian_putUInt64,
    halves_putUInt16, halves_putUInt32, halves_putUInt64,
    isLittleEndian_putUInt32, isLittleEndian_putUInt64,
    fun _ _ _ _ _ => putLiteral_append_inj⟩

-- A signalling NaN keeps its payload and does not become a quiet one.
example : (({} : Stream).putFloat32 0x7f800001).bytes = [0x01, 0x00, 0x80, 0x7f] := by
  decide

end Stream

end WasmBinary
