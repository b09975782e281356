import WasmBinary.Proofs.Stream.Session

/-!
Size fields in the finished bytes of a stream in use. Whatever is appended, reserved and filled, in
any order, a field shows in each of its groups the latest size that has this group, and all other
bytes are those that were appended.
-/

namespace WasmBinary

/-! ## Registers

A size field is four groups of seven bits. A size overwrites as many groups as its shortest form has
and leaves the higher ones, so a field shows the latest size in its low groups and remains of
earlier, longer ones in its high groups.
-/

/-- The size that a step puts into the field with this number, unless it is refused. -/
def Step.stored (number : Nat) : Step → List Nat
  | fill target size _ => if target = number ∧ size < 2 ^ 28 then [size] else []
  | _ => []

def Stream.field (stream : Stream) (gap : Gap) : List UInt8 :=
  (stream.patched.toList.drop gap.position).take Gap.width

namespace Register

/-- The group of the latest size whose shortest form has a group at this place. The latest size
comes first. -/
def group (sizes : List Nat) (place : Nat) : Nat :=
  match sizes.find? fun size => place < (Leb128.unsigned size).length with
  | some size => size / 128 ^ place % 128
  | none => 0

def field (sizes : List Nat) : List UInt8 :=
  [(group sizes 0 + 128).toUInt8,
    (group sizes 1 + 128).toUInt8,
    (group sizes 2 + 128).toUInt8,
    (group sizes 3).toUInt8]

/-- The number that a field reads as. -/
def value (sizes : List Nat) : Nat :=
  group sizes 0 + 128 * (group sizes 1 + 128 * (group sizes 2 + 128 * group sizes 3))

end Register

/-! ## The groups of a register -/

namespace Register

/-- The latest size decides about the groups that it has, and the earlier ones about the others. -/
theorem group_cons (size : Nat) (sizes : List Nat) (place : Nat) :
    group (size :: sizes) place =
      if place < (Leb128.unsigned size).length then size / 128 ^ place % 128
      else group sizes place := by
  rw [group, group]
  by_cases reaches : place < (Leb128.unsigned size).length
  · rw [if_pos reaches, List.find?_cons_of_pos (by simpa using reaches)]
  · rw [if_neg reaches, List.find?_cons_of_neg (by simpa using reaches)]

theorem group_lt (sizes : List Nat) (place : Nat) : group sizes place < 128 := by
  rw [group]
  split
  · exact Nat.mod_lt _ (by omega)
  · omega

theorem length_unsigned_cases {size : Nat} (fits : size ≤ Gap.capacity) :
    (Leb128.unsigned size).length = 1 ∧ size < 128 ∨
      (Leb128.unsigned size).length = 2 ∧ size < 128 ^ 2 ∨
      (Leb128.unsigned size).length = 3 ∧ size < 128 ^ 3 ∨
      (Leb128.unsigned size).length = 4 ∧ size < 128 ^ 4 := by
  have positive := Leb128.length_unsigned_pos size
  have one := Leb128.length_unsigned_le_iff 0 size
  have two := Leb128.length_unsigned_le_iff 1 size
  have three := Leb128.length_unsigned_le_iff 2 size
  have four := Leb128.length_unsigned_le_iff 3 size
  rw [Gap.capacity_eq] at fits
  omega

/-- Filling a field again overwrites the groups that the size has. -/
theorem sizeBytes_append_field {size : Nat} (fits : size ≤ Gap.capacity) (sizes : List Nat) :
    Gap.sizeBytes size ++ (field sizes).drop (Gap.sizeBytes size).length =
      field (size :: sizes) := by
  have front : Gap.sizeBytes size = (Format.sizeField size).take (Gap.sizeBytes size).length := by
    rw [← Gap.sizeBytes_append_blank fits, List.take_left]
  rw [front, Gap.length_sizeBytes, field, field]
  simp only [group_cons]
  rw [Format.sizeField]
  simp only [Nat.div_div_eq_div_mul]
  rcases length_unsigned_cases fits with ⟨length, _⟩ | ⟨length, _⟩ | ⟨length, _⟩ | ⟨length, _⟩
  all_goals
    rw [length]
    simp

/-! ## Reading a register -/

theorem readUnsigned_field (sizes : List Nat) :
    Leb128.readUnsigned (field sizes) = some (value sizes, []) := by
  rw [field, Leb128.readUnsigned_continue (group_lt sizes 0),
    Leb128.readUnsigned_continue (group_lt sizes 1),
    Leb128.readUnsigned_continue (group_lt sizes 2), Leb128.readUnsigned_last (group_lt sizes 3)]
  rfl

/-- A new size leaves the groups that it does not have as they were. -/
theorem value_cons {size : Nat} (fits : size ≤ Gap.capacity) (sizes : List Nat) :
    value (size :: sizes) =
      size +
        128 ^ (Leb128.unsigned size).length *
          (value sizes / 128 ^ (Leb128.unsigned size).length) := by
  have first := group_lt sizes 0
  have second := group_lt sizes 1
  have third := group_lt sizes 2
  have fourth := group_lt sizes 3
  simp only [value, group_cons]
  rcases length_unsigned_cases fits with
    ⟨length, small⟩ | ⟨length, small⟩ | ⟨length, small⟩ | ⟨length, small⟩
  all_goals
    rw [length]
    simp
    omega

theorem value_nil : value [] = 0 := rfl

theorem value_singleton {size : Nat} (fits : size ≤ Gap.capacity) : value [size] = size := by
  rw [value_cons fits, value_nil, Nat.zero_div, Nat.mul_zero, Nat.add_zero]

/-- The first three bytes of a field have the continuation bit, and the last one has not. -/
theorem getElem?_field (sizes : List Nat) {place : Nat} (inside : place < Gap.width) :
    ∃ byte, (field sizes)[place]? = some byte ∧ byte.toNat % 128 = group sizes place ∧
      (128 ≤ byte.toNat ↔ place < 3) := by
  have small := group_lt sizes place
  have cases : place = 0 ∨ place = 1 ∨ place = 2 ∨ place = 3 := by
    rw [Gap.width] at inside
    omega
  rcases cases with rfl | rfl | rfl | rfl
  all_goals
    refine ⟨_, rfl, ?_⟩
    rw [Leb128.toNat_toUInt8_of_lt (by omega)]
    omega

end Register

theorem Step.le_capacity_of_mem_stored {number size : Nat} {steps : List Step}
    (member : size ∈ steps.flatMap (Step.stored number)) : size ≤ Gap.capacity := by
  obtain ⟨step, _, stored⟩ := List.mem_flatMap.mp member
  cases step with
  | append bytes => cases stored
  | reserve => cases stored
  | fill target other frame =>
      rw [Step.stored] at stored
      split at stored
      · next stores =>
          rw [List.mem_singleton.mp stored]
          exact Gap.le_capacity_iff.mpr stores.2
      · cases stored

/-! ## Fields under single steps -/

namespace Stream

theorem field_putBytes {stream : Stream} {gap : Gap} (inBounds : stream.InBounds)
    (written : gap.position + Gap.width ≤ stream.position) (bytes : List UInt8) :
    (stream.putBytes bytes).field gap = stream.field gap := by
  rw [← length_patched] at written
  rw [field, field, toList_patched_putBytes inBounds, List.drop_append_of_le_length (by omega),
    List.take_append_of_le_length (by rw [List.length_drop]; omega)]

theorem field_reserve {stream : Stream} (inBounds : stream.InBounds) :
    stream.reserve.2.field stream.reserve.1 = Register.field [] := by
  have patched := toList_patched_putBytes inBounds Gap.blank
  have position := length_patched stream
  simp only [field, reserve]
  rw [patched, ← position, List.drop_left]
  rfl

theorem field_withPatches {stream : Stream} {gap : Gap} {patches : List Patch}
    (elsewhere : ∀ patch ∈ patches, ¬ gap.Covers patch.position) :
    (stream.withPatches patches).field gap = stream.field gap := by
  apply List.ext_getElem?
  intro place
  rw [field, field, toList_patched_withPatches]
  by_cases inside : place < Gap.width
  · have others : ∀ patch ∈ patches, patch.position ≠ gap.position + place := by
      intro patch member same
      apply elsewhere patch member
      rw [same]
      exact ⟨by omega, by omega⟩
    rw [List.getElem?_take_of_lt inside, List.getElem?_take_of_lt inside, List.getElem?_drop,
      List.getElem?_drop, Patch.getElem?_applyAll_of_ne others]
  · rw [List.getElem?_take_eq_none (by omega), List.getElem?_take_eq_none (by omega)]

/-- A size that is put into a field becomes the latest of its sizes. -/
theorem field_sizeBytes {stream : Stream} {gap : Gap} {size : Nat}
    (written : gap.position + Gap.width ≤ stream.position) (fits : size ≤ Gap.capacity)
    {sizes : List Nat} (before : stream.field gap = Register.field sizes) :
    (stream.withPatches (Patch.consecutive gap.position (Gap.sizeBytes size))).field gap =
      Register.field (size :: sizes) := by
  let finished := stream.patched.toList
  have length : finished.length = stream.position := length_patched stream
  have split :
      finished =
        finished.take gap.position ++
          (Register.field sizes ++ (finished.drop gap.position).drop Gap.width) := by
    rw [← before, field, List.take_append_drop, List.take_append_drop]
  have atGap : (finished.take gap.position).length = gap.position :=
    List.length_take_of_le (by omega)
  have patched := toList_patched_sizeBytes fits atGap rfl split
  rw [Register.sizeBytes_append_field fits] at patched
  rw [field, patched, List.drop_left' atGap]
  exact List.take_left' rfl

end Stream

/-! ## Fields of a session -/

namespace Session

variable {session : Session} {fills : List Fill}

theorem getElem?_gaps_next {number : Nat} {gap : Gap} (given : session.gaps[number]? = some gap)
    (step : Step) : (session.next step).gaps[number]? = some gap := by
  obtain ⟨_, more, gaps, _⟩ := session.grows_next step
  obtain ⟨inside, _⟩ := List.getElem?_eq_some_iff.mp given
  rw [gaps, List.getElem?_append_left inside, given]

namespace Logged

/-- A step puts its size into the field that it fills and leaves the other fields alone. -/
theorem field_next (logged : session.Logged fills) {number : Nat} {gap : Gap}
    (given : session.gaps[number]? = some gap) {sizes : List Nat}
    (before : session.stream.field gap = Register.field sizes) (step : Step) :
    (session.next step).stream.field gap =
      Register.field ((step.stored number).reverse ++ sizes) := by
  have inBounds := logged.inBounds
  have written := logged.written gap (List.mem_of_getElem? given)
  cases step with
  | append bytes => exact (Stream.field_putBytes inBounds written bytes).trans before
  | reserve => exact (Stream.field_putBytes inBounds written Gap.blank).trans before
  | fill target size frame =>
      -- A step stores a size if it is for this field and is not refused.
      by_cases stores : target = number ∧ size < 2 ^ 28
      · obtain ⟨rfl, short⟩ := stores
        have fits := Gap.le_capacity_iff.mpr short
        have stored : (Step.fill target size frame).stored target = [size] :=
          if_pos ⟨rfl, short⟩
        rw [Session.next, logged.attempt_fill_of_le given fits frame, stored]
        exact Stream.field_sizeBytes written fits before
      · have stored : (Step.fill target size frame).stored number = [] := if_neg stores
        rw [stored, List.reverse_nil, List.nil_append]
        rw [Session.next]
        rcases outcome : session.attempt (.fill target size frame) with ⟨error | ⟨⟩, after⟩
        · rw [logged.eq_of_attempt_eq_error outcome]
          exact before
        · rcases cases_of_attempt_fill_eq_ok outcome with
            ⟨_, rfl⟩ | ⟨other, otherGiven, fits, rfl⟩
          · exact before
          · have elsewhere :
                ∀ patch ∈ Fill.patches ⟨target, other, size⟩, ¬ gap.Covers patch.position := by
              intro patch member covers
              have otherCovers : other.Covers patch.position :=
                Fill.covers_of_mem_patches fits member
              have same := logged.eq_of_covers otherGiven given otherCovers covers
              exact stores ⟨same, Gap.le_capacity_iff.mp fits⟩
            exact (Stream.field_withPatches elsewhere).trans before

/-- Whatever steps are taken, a field holds the sizes that were put into it. -/
theorem field_advance (logged : session.Logged fills) {number : Nat} {gap : Gap}
    (given : session.gaps[number]? = some gap) {sizes : List Nat}
    (before : session.stream.field gap = Register.field sizes) (steps : List Step) :
    (session.advance steps).stream.field gap =
      Register.field ((steps.flatMap (Step.stored number)).reverse ++ sizes) := by
  induction steps generalizing session fills sizes with
  | nil => exact before
  | cons step steps inductionHypothesis =>
      obtain ⟨more, loggedNext⟩ := logged.next step
      have rest :=
        inductionHypothesis loggedNext (getElem?_gaps_next given step)
          (logged.field_next given before step)
      rw [advance_cons, rest, List.flatMap_cons, List.reverse_append, List.append_assoc]

end Logged

theorem field_advance_reserve (earlier later : List Step) :
    ∃ gap,
      (advance {} (earlier ++ .reserve :: later)).gaps[earlier.count .reserve]? = some gap ∧
        gap.position = (earlier.flatMap Step.bytes).length ∧
        (advance {} (earlier ++ .reserve :: later)).stream.field gap =
          Register.field (later.flatMap (Step.stored (earlier.count .reserve))).reverse := by
  obtain ⟨fills, logged⟩ := logged_empty.advance earlier
  obtain ⟨bytes, given, gaps, count⟩ := grows_advance {} earlier
  let middle := advance {} earlier
  have length : middle.gaps.length = earlier.count .reserve := by
    rw [← count, gaps]
    rfl
  have isGiven :
      (middle.next .reserve).gaps[earlier.count .reserve]? = some middle.stream.reserve.1 := by
    rw [← length]
    exact List.getElem?_concat_length
  obtain ⟨_, more, laterGaps, _⟩ := grows_advance (middle.next .reserve) later
  obtain ⟨inside, _⟩ := List.getElem?_eq_some_iff.mp isGiven
  have split : advance {} (earlier ++ .reserve :: later) = (middle.next .reserve).advance later :=
    advance_append {} earlier (.reserve :: later)
  have blank := Stream.field_reserve logged.inBounds
  refine ⟨middle.stream.reserve.1, ?_, ?_, ?_⟩
  · rw [split, laterGaps, List.getElem?_append_left inside, isGiven]
  · have position := Stream.position_eq_length_bytes middle.stream
    rw [bytes] at position
    exact position
  · have filled := logged.reserve.field_advance isGiven blank later
    rw [List.append_nil] at filled
    rw [split]
    exact filled

/-- A size that fits is accepted for every field of a session and moves nothing. -/
theorem Logged.fill_eq_ok (logged : session.Logged fills) {gap : Gap}
    (member : gap ∈ session.gaps) {size : Nat} (short : size < 2 ^ 28) (frame : Frame) :
    ∃ filled,
      session.stream.fill gap size frame = (.ok (), filled) ∧
        filled.buffer = session.stream.buffer ∧
        ∀ number, session.gaps[number]? = some gap →
          session.next (.fill number size frame) = { session with stream := filled } := by
  have fits := Gap.le_capacity_iff.mpr short
  refine ⟨_, Stream.fill_eq_ok frame fits (logged.written gap member), rfl, ?_⟩
  intro number given
  exact congrArg Prod.snd (logged.attempt_fill_of_le given fits frame)

/-- A size that is too long is refused and leaves the stream and the session as they were. -/
theorem fill_eq_error (session : Session) (gap : Gap) {size : Nat} (long : 2 ^ 28 ≤ size)
    (frame : Frame) :
    session.stream.fill gap size frame =
        (.error (.frameTooLong frame size (2 ^ 28 - 1)), session.stream) ∧
      ∀ number, session.gaps[number]? = some gap →
        session.next (.fill number size frame) = session := by
  have tooLong : Gap.capacity < size := Nat.not_le.mp (mt Gap.le_capacity_iff.mp (by omega))
  have refused := Stream.fill_of_lt session.stream gap frame tooLong
  refine ⟨refused, ?_⟩
  intro number given
  rw [next, attempt_fill given, refused]

/-- Size fields are registers, however a stream is used. A size of `2 ^ 28` or more is refused and
changes nothing, and any other size is accepted. Outside the fields stand the bytes that were
appended. A field reads, in all of its four bytes, as the groups of its sizes: each group is that of
the latest size that reaches it. -/
theorem fields_of_advance (steps : List Step) :
    let session := advance {} steps
    session.stream.bytes = steps.flatMap Step.bytes ∧
      session.gaps.length = steps.count .reserve ∧
      (∀ gap ∈ session.gaps, ∀ size frame,
        (2 ^ 28 ≤ size →
            session.stream.fill gap size frame =
                (.error (.frameTooLong frame size (2 ^ 28 - 1)), session.stream) ∧
              ∀ number, session.gaps[number]? = some gap →
                session.next (.fill number size frame) = session) ∧
          (size < 2 ^ 28 →
            ∃ filled,
              session.stream.fill gap size frame = (.ok (), filled) ∧
                filled.buffer = session.stream.buffer ∧
                ∀ number, session.gaps[number]? = some gap →
                  session.next (.fill number size frame) = { session with stream := filled })) ∧
      (∀ position, (∀ gap ∈ session.gaps, ¬ gap.Covers position) →
        session.stream.patched[position]? = session.stream.buffer[position]?) ∧
      ∀ earlier later, steps = earlier ++ .reserve :: later →
        ∃ gap sizes,
          session.gaps[earlier.count .reserve]? = some gap ∧
            gap.position = (earlier.flatMap Step.bytes).length ∧
            sizes = (later.flatMap (Step.stored (earlier.count .reserve))).reverse ∧
            session.stream.field gap = Register.field sizes ∧
            (∀ place < 4, ∃ byte, (session.stream.field gap)[place]? = some byte ∧
              byte.toNat % 128 = Register.group sizes place ∧ (128 ≤ byte.toNat ↔ place < 3)) ∧
            Leb128.readUnsigned (session.stream.field gap) = some (Register.value sizes, []) ∧
            (sizes = [] → Register.value sizes = 0) ∧
            (∀ size, sizes = [size] → Register.value sizes = size) ∧
            ∀ size older, sizes = size :: older →
              Register.value sizes =
                size +
                  128 ^ (Leb128.unsigned size).length *
                    (Register.value older / 128 ^ (Leb128.unsigned size).length) := by
  obtain ⟨fills, logged⟩ := logged_empty.advance steps
  obtain ⟨bytes, given, gaps, count⟩ := grows_advance {} steps
  refine ⟨bytes, ?_, ?_, fun position outside => logged.getElem?_patched outside, ?_⟩
  · rw [gaps, ← count]
    rfl
  · intro gap member size frame
    exact ⟨fun long => fill_eq_error _ gap long frame,
      fun short => logged.fill_eq_ok member short frame⟩
  · rintro earlier later rfl
    obtain ⟨gap, isGiven, position, field⟩ := field_advance_reserve earlier later
    have fits :
        ∀ size ∈ (later.flatMap (Step.stored (earlier.count .reserve))).reverse,
          size ≤ Gap.capacity := by
      intro size member
      exact Step.le_capacity_of_mem_stored (List.mem_reverse.mp member)
    refine ⟨gap, _, isGiven, position, rfl, field, ?_, ?_, ?_, ?_, ?_⟩
    · intro place inside
      rw [field]
      exact Register.getElem?_field _ inside
    · rw [field]
      exact Register.readUnsigned_field _
    · intro none
      rw [none, Register.value_nil]
    · intro size one
      rw [one] at fits ⊢
      exact Register.value_singleton (fits size List.mem_cons_self)
    · intro size older latest
      rw [latest] at fits ⊢
      exact Register.value_cons (fits size List.mem_cons_self) older

theorem fields_of_advance_refilled :
    let later : List Step :=
      [.append [1, 2], .fill 0 300 (.functionBody 3), .fill 0 (2 ^ 28) (.functionBody 3),
        .fill 0 5 (.functionBody 3)]
    let session := advance {} (.append [7] :: .reserve :: later)
    ∃ gap,
      session.gaps[0]? = some gap ∧ gap.position = 1 ∧
        Leb128.readUnsigned (session.stream.field gap) = some (5 + 128 * 2, []) := by
  intro later session
  obtain ⟨_, _, _, _, fields⟩ := fields_of_advance (.append [7] :: .reserve :: later)
  obtain ⟨gap, sizes, given, position, rfl, _, _, reads, _⟩ := fields [.append [7]] later rfl
  have value :
      Register.value (later.flatMap (Step.stored 0)).reverse = 5 + 128 * 2 := by
    decide +kernel
  refine ⟨gap, given, position, reads.trans ?_⟩
  exact congrArg (fun value => some (value, [])) value

end Session

end WasmBinary
