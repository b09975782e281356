import Mathlib.Algebra.Group.Nat.Defs
import Mathlib.Data.List.Forall2
import WasmBinary.Format

/-!
Readers as inverses of the format: what a byte string says is read back, and whatever follows it is
left alone. The law holds of the building blocks and passes to counted lists.
-/

namespace WasmBinary

/-! ## LEB128

A number is recovered whatever follows it, and the number of its bytes says how large it is.
-/

namespace Leb128

theorem toNat_toUInt8_of_lt {value : Nat} (small : value < 256) :
    value.toUInt8.toNat = value := by
  simp [Nat.mod_eq_of_lt small]

/-- A group on its own is a byte without the continuation bit. -/
theorem toUInt8_lt_of_lt {group : Nat} (small : group < 128) : group.toUInt8 < 128 := by
  rw [UInt8.lt_iff_toNat_lt, toNat_toUInt8_of_lt (by omega)]
  exact small

/-- A group to which 128 is added has the continuation bit. -/
theorem not_toUInt8_add_lt {group : Nat} (small : group < 128) :
    ¬ (group + 128).toUInt8 < 128 := by
  rw [UInt8.lt_iff_toNat_lt, toNat_toUInt8_of_lt (by omega)]
  exact Nat.not_lt.mpr (Nat.le_add_left 128 group)

theorem toUInt8_or_continuation {group : Nat} (small : group < 128) :
    group.toUInt8 ||| 0x80 = (group + 128).toUInt8 := by
  have each : ∀ group : Fin 128, group.val.toUInt8 ||| 0x80 = (group.val + 128).toUInt8 := by
    decide
  exact each ⟨group, small⟩

/-! ### Unsigned numbers -/

theorem unsigned_of_lt {value : Nat} (small : value < 128) :
    unsigned value = [value.toUInt8] := by
  rw [unsigned, if_pos small]

theorem unsigned_of_le {value : Nat} (large : 128 ≤ value) :
    unsigned value = (value % 128 + 128).toUInt8 :: unsigned (value / 128) := by
  rw [unsigned, if_neg (Nat.not_lt.mpr large)]

theorem readUnsigned_last {group : Nat} (small : group < 128) (rest : List UInt8) :
    readUnsigned (group.toUInt8 :: rest) = some (group, rest) := by
  rw [readUnsigned, if_pos (toUInt8_lt_of_lt small), toNat_toUInt8_of_lt (by omega)]

theorem readUnsigned_continue {group : Nat} (small : group < 128) (rest : List UInt8) :
    readUnsigned ((group + 128).toUInt8 :: rest) =
      (readUnsigned rest).map fun (high, rest) => (group + 128 * high, rest) := by
  rw [readUnsigned, if_neg (not_toUInt8_add_lt small), toNat_toUInt8_of_lt (by omega),
    Nat.add_sub_cancel]

/-- A number is read back whatever follows it. -/
theorem readUnsigned_unsigned_append (value : Nat) (rest : List UInt8) :
    readUnsigned (unsigned value ++ rest) = some (value, rest) := by
  induction value using Nat.strongRecOn with
  | ind value inductionHypothesis =>
      by_cases small : value < 128
      · rw [unsigned_of_lt small]
        exact readUnsigned_last small rest
      · have high := inductionHypothesis (value / 128) (by omega)
        rw [unsigned_of_le (by omega), List.cons_append,
          readUnsigned_continue (Nat.mod_lt _ (by omega)), high]
        simp [Nat.mod_add_div]

theorem length_unsigned_pos (value : Nat) : 0 < (unsigned value).length := by
  rw [unsigned]
  split <;> simp

/-- A number fits into as many groups as its base 128 digits need. -/
theorem length_unsigned_le_iff (count value : Nat) :
    (unsigned value).length ≤ count + 1 ↔ value < 128 ^ (count + 1) := by
  induction count generalizing value with
  | zero =>
      by_cases small : value < 128
      · simp [unsigned_of_lt small, small]
      · have more := length_unsigned_pos (value / 128)
        rw [unsigned_of_le (by omega), List.length_cons]
        omega
  | succ count inductionHypothesis =>
      by_cases small : value < 128
      · have power : 128 ≤ 128 ^ (count + 1 + 1) := by
          rw [Nat.pow_succ]
          exact Nat.le_mul_of_pos_left 128 (Nat.pow_pos (by omega))
        simp [unsigned_of_lt small]
        omega
      · rw [unsigned_of_le (by omega), List.length_cons, Nat.add_le_add_iff_right,
          inductionHypothesis, Nat.div_lt_iff_lt_mul (by omega), ← Nat.pow_succ]

/-! ### Signed numbers -/

theorem lowGroup_lt (value : Int) : lowGroup value < 128 := by
  simp only [lowGroup]
  omega

theorem readSigned_last {group : Nat} (small : group < 128) (rest : List UInt8) :
    readSigned (group.toUInt8 :: rest) = some (signExtend group, rest) := by
  rw [readSigned, if_pos (toUInt8_lt_of_lt small), toNat_toUInt8_of_lt (by omega)]

theorem readSigned_continue {group : Nat} (small : group < 128) (rest : List UInt8) :
    readSigned ((group + 128).toUInt8 :: rest) =
      (readSigned rest).map fun (high, rest) => (group + 128 * high, rest) := by
  rw [readSigned, if_neg (not_toUInt8_add_lt small), toNat_toUInt8_of_lt (by omega)]
  simp

theorem signExtend_lowGroup {value : Int} (lower : -64 ≤ value) (upper : value < 64) :
    signExtend (lowGroup value) = value := by
  rw [signExtend]
  split <;> simp only [lowGroup] at * <;> omega

theorem readSigned_signed_append (value : Int) (rest : List UInt8) :
    readSigned (signed value ++ rest) = some (value, rest) := by
  -- The induction is on the absolute value, which each group makes smaller.
  induction size : value.natAbs using Nat.strongRecOn generalizing value with
  | ind size inductionHypothesis =>
      by_cases small : -64 ≤ value ∧ value < 64
      · rw [signed, if_pos small, List.singleton_append,
          readSigned_last (lowGroup_lt value), signExtend_lowGroup small.1 small.2]
      · have high := inductionHypothesis (value / 128).natAbs (by omega) (value / 128) rfl
        have sum : (lowGroup value : Int) + 128 * (value / 128) = value := by
          simp only [lowGroup]
          omega
        rw [signed, if_neg small, List.cons_append,
          readSigned_continue (lowGroup_lt value), high]
        simp [sum]

end Leb128

/-! ## Fixed width

So many bytes stand for exactly the numbers below that power of 256, each of them for one. A number
of twice the width is its low half and then its high half.
-/

namespace LittleEndian

/-- So many bytes hold every number below that power of 256. -/
theorem value_bytes {count number : Nat} (small : number < 256 ^ count) :
    value (bytes count number) = number := by
  induction count generalizing number with
  | zero =>
      have isZero : number = 0 := by simpa using small
      rw [isZero]
      rfl
  | succ count inductionHypothesis =>
      have high : number / 256 < 256 ^ count := by
        rw [Nat.div_lt_iff_lt_mul (by omega), ← Nat.pow_succ]
        exact small
      rw [bytes, value, inductionHypothesis high, Leb128.toNat_toUInt8_of_lt (by omega)]
      exact Nat.mod_add_div number 256

theorem value_lt (list : List UInt8) : value list < 256 ^ list.length := by
  induction list with
  | nil => decide
  | cons byte rest inductionHypothesis =>
      have bound := byte.toNat_lt
      rw [value, List.length_cons, Nat.pow_succ]
      omega

/-- Bytes of a fixed width are the form of the number that they stand for. -/
theorem bytes_value (list : List UInt8) : bytes list.length (value list) = list := by
  induction list with
  | nil => rfl
  | cons byte rest inductionHypothesis =>
      have bound := byte.toNat_lt
      have low : (byte.toNat + 256 * value rest) % 256 = byte.toNat := by
        omega
      have high : (byte.toNat + 256 * value rest) / 256 = value rest := by
        omega
      rw [value, List.length_cons, bytes, low, high, inductionHypothesis, Nat.toUInt8_eq,
        UInt8.ofNat_toNat]

/-! ### Halves -/

/-- The bytes of a low part and those of a high part are the bytes of the number that the parts make
up. -/
theorem bytes_append_bytes {count low : Nat} (small : low < 256 ^ count) (more high : Nat) :
    bytes count low ++ bytes more high = bytes (count + more) (low + 256 ^ count * high) := by
  induction count generalizing low with
  | zero =>
      have isZero : low = 0 := by simpa using small
      simp [isZero, bytes]
  | succ count inductionHypothesis =>
      have rest : low / 256 < 256 ^ count := by
        rw [Nat.div_lt_iff_lt_mul (by omega), ← Nat.pow_succ]
        exact small
      have lowest : (low + 256 ^ (count + 1) * high) % 256 = low % 256 := by
        rw [Nat.pow_succ, Nat.mul_right_comm, Nat.add_mul_mod_self_right]
      have others : (low + 256 ^ (count + 1) * high) / 256 = low / 256 + 256 ^ count * high := by
        rw [Nat.pow_succ, Nat.mul_right_comm, Nat.add_mul_div_right _ _ (by omega)]
      rw [Nat.add_right_comm, bytes, bytes, lowest, others, List.cons_append,
        inductionHypothesis rest]

/-- What a mask leaves of a number and what a shift leaves of it, both narrowed to half its width,
make up the number. -/
theorem mask_add_shift (bits : Nat) {number : Nat} (small : number < 2 ^ bits * 2 ^ bits) :
    number =
      (number &&& (2 ^ bits - 1)) % 2 ^ bits + 2 ^ bits * ((number >>> bits) % 2 ^ bits) := by
  have high : number / 2 ^ bits < 2 ^ bits := Nat.div_lt_of_lt_mul small
  rw [Nat.and_two_pow_sub_one_eq_mod, Nat.mod_mod, Nat.shiftRight_eq_div_pow,
    Nat.mod_eq_of_lt high, Nat.mod_add_div]

end LittleEndian

/-! ## Building blocks -/

namespace Reader

/-- A reader that takes an item off the front of its bytes and leaves whatever follows them. -/
def Inverts {α : Type} (read : Reader α) (bytes : α → List UInt8) : Prop :=
  ∀ item rest, read (bytes item ++ rest) = some (item, rest)

/-! ### Single values -/

theorem inverts_unsigned : Inverts Leb128.readUnsigned Leb128.unsigned :=
  Leb128.readUnsigned_unsigned_append

theorem inverts_signed : Inverts Leb128.readSigned Leb128.signed :=
  Leb128.readSigned_signed_append

theorem inverts_byte : Inverts byte fun value => [value] := by
  intro value rest
  rfl

theorem inverts_index : Inverts index Format.index := by
  intro value rest
  rw [index, Format.index, inverts_unsigned value.toNat rest]
  simp only [Option.bind_eq_bind, Option.bind_some, if_pos value.toNat_lt, Nat.toUInt32,
    UInt32.ofNat_toNat]

theorem inverts_word : Inverts word fun value => Leb128.unsigned value.toNat := by
  intro value rest
  rw [word, inverts_unsigned value.toNat rest]
  simp only [Option.bind_eq_bind, Option.bind_some, if_pos value.toNat_lt, Nat.toUInt64,
    UInt64.ofNat_toNat]

theorem inverts_flag : Inverts flag Format.flag := by
  intro value rest
  cases value <;> rfl

theorem take_append (bytes rest : List UInt8) :
    take bytes.length (bytes ++ rest) = some (bytes, rest) := by
  simp [take]

theorem littleEndian_append {count number : Nat} (small : number < 256 ^ count)
    (rest : List UInt8) :
    littleEndian count (LittleEndian.bytes count number ++ rest) = some (number, rest) := by
  have taken := take_append (LittleEndian.bytes count number) rest
  rw [LittleEndian.length_bytes] at taken
  simp [littleEndian, taken, LittleEndian.value_bytes small]

/-! ### Collections -/

variable {α : Type} {read : Reader α} {bytes : α → List UInt8}

/-- A reader that sees a value in the bytes of each item sees all the values, one after another. -/
theorem times_flatMap_eq {β : Type} {read : Reader β} {value : α → β} {items : List α}
    (each : ∀ item ∈ items, ∀ rest, read (bytes item ++ rest) = some (value item, rest))
    (rest : List UInt8) :
    times read items.length (items.flatMap bytes ++ rest) = some (items.map value, rest) := by
  induction items with
  | nil => rfl
  | cons item items inductionHypothesis =>
      rw [List.forall_mem_cons] at each
      have first := each.1 (items.flatMap bytes ++ rest)
      simp [times, first, inductionHypothesis each.2]

theorem times_flatMap (inverts : Inverts read bytes) (items : List α) (rest : List UInt8) :
    times read items.length (items.flatMap bytes ++ rest) = some (items, rest) := by
  have values :
      times read items.length (items.flatMap bytes ++ rest) =
        some (items.map fun item => item, rest) :=
    times_flatMap_eq (fun item _ => inverts item) rest
  rwa [List.map_id'] at values

theorem inverts_vector (inverts : Inverts read bytes) :
    Inverts (vector read) (Format.vector bytes) := by
  intro items rest
  have count := inverts_unsigned items.length (items.flatMap bytes ++ rest)
  simp [vector, Format.vector, count, times_flatMap inverts]

theorem inverts_string : Inverts string Format.string := by
  intro bytes rest
  have count := inverts_unsigned bytes.length (bytes ++ rest)
  simp [string, Format.string, count, take_append]

/-! ### Size fields -/

/-- A size field in four groups reads as its size, though a shorter form may exist. -/
theorem readUnsigned_sizeField {size : Nat} (fits : size ≤ Gap.capacity) :
    Leb128.readUnsigned (Format.sizeField size) = some (size, []) := by
  rw [Gap.capacity_eq] at fits
  have last : size / 128 / 128 / 128 % 128 < 128 := Nat.mod_lt _ (by omega)
  rw [Format.sizeField, Leb128.readUnsigned_continue (Nat.mod_lt _ (by omega)),
    Leb128.readUnsigned_continue (Nat.mod_lt _ (by omega)),
    Leb128.readUnsigned_continue (Nat.mod_lt _ (by omega)), Leb128.readUnsigned_last last]
  simp only [Option.map_some, Option.some.injEq, Prod.mk.injEq, and_true]
  omega

theorem sizeField_append {size : Nat} (fits : size ≤ Gap.capacity) (rest : List UInt8) :
    sizeField (Format.sizeField size ++ rest) = some (size, rest) := by
  have taken := take_append (Format.sizeField size) rest
  have width : (Format.sizeField size).length = 4 := rfl
  rw [width] at taken
  simp [sizeField, taken, readUnsigned_sizeField fits]

end Reader

/-! ## Byte strings that determine where they end

Two of them that can stand at the front of the same bytes agree on what they say and leave the same
rest. The law passes from one part to the next, so that what an earlier part says can be used to
take a later part apart.
-/

/-- If some bytes begin with both byte strings, then a property holds and the rests agree. -/
def Delimits (first second : List UInt8) (same : Prop) : Prop :=
  ∀ firstRest secondRest,
    first ++ firstRest = second ++ secondRest → same ∧ firstRest = secondRest

namespace Delimits

variable {first second firstTail secondTail : List UInt8} {same sameTail : Prop}

theorem of_eq (delimits : Delimits first second same) (equal : first = second) : same :=
  (delimits [] [] (congrArg (· ++ []) equal)).1

theorem imp {weaker : Prop} (delimits : Delimits first second same) (implies : same → weaker) :
    Delimits first second weaker := by
  intro firstRest secondRest equal
  obtain ⟨holds, sameRest⟩ := delimits firstRest secondRest equal
  exact ⟨implies holds, sameRest⟩

/-- What the front says can be used to take apart what follows it. -/
theorem append (head : Delimits first second same)
    (tail : same → Delimits firstTail secondTail sameTail) :
    Delimits (first ++ firstTail) (second ++ secondTail) (same ∧ sameTail) := by
  intro firstRest secondRest equal
  rw [List.append_assoc, List.append_assoc] at equal
  obtain ⟨holds, equalTail⟩ := head _ _ equal
  obtain ⟨holdsTail, sameRest⟩ := tail holds _ _ equalTail
  exact ⟨⟨holds, holdsTail⟩, sameRest⟩

theorem of_length_eq (sameLength : first.length = second.length) :
    Delimits first second (first = second) := by
  intro firstRest secondRest equal
  exact List.append_inj equal sameLength

/-! ### Single values -/

/-- Whatever can be read back determines where it ends. -/
theorem of_inverts {α : Type} {read : Reader α} {bytes : α → List UInt8}
    (inverts : Reader.Inverts read bytes) (item other : α) :
    Delimits (bytes item) (bytes other) (item = other) := by
  intro firstRest secondRest equal
  have readFirst := inverts item firstRest
  rw [equal, inverts other secondRest, Option.some.injEq, Prod.mk.injEq] at readFirst
  obtain ⟨sameItem, sameRest⟩ := readFirst
  exact ⟨sameItem.symm, sameRest.symm⟩

theorem valueType (type other : ValueType) : Delimits [type.tag] [other.tag] (type = other) := by
  apply (of_inverts Reader.inverts_byte type.tag other.tag).imp
  intro sameTag
  have found := ValueType.ofTag?_tag type
  rw [sameTag, ValueType.ofTag?_tag] at found
  exact (Option.some.inj found).symm

theorem text (value other : String) :
    Delimits (Format.text value) (Format.text other) (value = other) := by
  apply (of_inverts Reader.inverts_string _ _).imp
  intro sameBytes
  exact utf8_inj sameBytes

theorem sizeField {size other : Nat} (fits : size ≤ Gap.capacity)
    (otherFits : other ≤ Gap.capacity) :
    Delimits (Format.sizeField size) (Format.sizeField other) (size = other) := by
  intro firstRest secondRest equal
  have readFirst := Reader.sizeField_append fits firstRest
  rw [equal, Reader.sizeField_append otherFits, Option.some.injEq, Prod.mk.injEq] at readFirst
  obtain ⟨sameSize, sameRest⟩ := readFirst
  exact ⟨sameSize.symm, sameRest.symm⟩

/-! ### Collections -/

variable {α : Type} {bytes otherBytes : α → List UInt8} {agree : α → α → Prop}

theorem flatMap {items others : List α}
    (pairwise : List.Forall₂
      (fun item other => Delimits (bytes item) (otherBytes other) (agree item other))
      items others) :
    Delimits (items.flatMap bytes) (others.flatMap otherBytes)
      (List.Forall₂ agree items others) := by
  induction pairwise with
  | nil => exact (of_length_eq rfl).imp fun _ => .nil
  | cons delimits _ inductionHypothesis =>
      apply (delimits.append fun _ => inductionHypothesis).imp
      intro agreeing
      obtain ⟨agreeFirst, agreeRest⟩ := agreeing
      exact .cons agreeFirst agreeRest

/-- A counted list tells its length first, so only lists of the same length need to be compared. -/
theorem vector {items others : List α}
    (pairwise : items.length = others.length →
      List.Forall₂
        (fun item other => Delimits (bytes item) (otherBytes other) (agree item other))
        items others) :
    Delimits (Format.vector bytes items) (Format.vector otherBytes others)
      (List.Forall₂ agree items others) := by
  have count := of_inverts Reader.inverts_unsigned items.length others.length
  apply (count.append fun sameLength => flatMap (pairwise sameLength)).imp
  exact And.right

theorem vector_of_forall
    (each : ∀ item other : α, Delimits (bytes item) (bytes other) (item = other))
    (items others : List α) :
    Delimits (Format.vector bytes items) (Format.vector bytes others) (items = others) := by
  have pairwise (sameLength : items.length = others.length) :
      List.Forall₂ (fun item other => Delimits (bytes item) (bytes other) (item = other))
        items others :=
    List.forall₂_iff_get.mpr ⟨sameLength, fun _ _ _ => each _ _⟩
  apply (vector pairwise).imp
  intro agreeing
  rw [List.forall₂_eq_eq_eq] at agreeing
  exact agreeing

theorem option (each : ∀ item other, Delimits (bytes item) (otherBytes other) (agree item other))
    (item other : Option α) :
    Delimits (Format.option bytes item) (Format.option otherBytes other)
      (Option.Rel agree item other) := by
  have flag (value : UInt8) := of_inverts Reader.inverts_byte value value
  cases item with
  | none =>
      cases other with
      | none => exact (flag 0).imp fun _ => .none
      | some other =>
          intro firstRest secondRest equal
          have sameFlag : (0 : UInt8) = 1 := (List.cons.inj equal).1
          exact absurd sameFlag (by decide)
  | some item =>
      cases other with
      | none =>
          intro firstRest secondRest equal
          have sameFlag : (1 : UInt8) = 0 := (List.cons.inj equal).1
          exact absurd sameFlag (by decide)
      | some other =>
          apply ((flag 1).append fun _ => each item other).imp
          intro agreeing
          obtain ⟨_, agreeing⟩ := agreeing
          exact .some agreeing

theorem option_of_forall
    (each : ∀ item other : α, Delimits (bytes item) (bytes other) (item = other))
    (item other : Option α) :
    Delimits (Format.option bytes item) (Format.option bytes other) (item = other) := by
  apply (option each item other).imp
  intro agreeing
  cases agreeing with
  | none => rfl
  | some same => rw [same]

end Delimits

end WasmBinary
