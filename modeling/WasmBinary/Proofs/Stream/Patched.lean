import Mathlib.Data.List.Nodup
import WasmBinary.Proofs.Reader

/-!
The finished bytes of a stream. As long as overwrites are staged for written bytes alone, appending
to a stream appends to its finished bytes, and staging an overwrite changes one of them.
-/

namespace WasmBinary

/-! ## Staged overwrites -/

namespace Stream

/-- Every staged overwrite is for a byte that has been written. -/
def InBounds (stream : Stream) : Prop :=
  ∀ patch ∈ stream.patches, patch.position < stream.position

theorem inBounds_empty : InBounds {} := by
  intro patch member
  simp at member

theorem InBounds.putBytes {stream : Stream} (inBounds : stream.InBounds) (bytes : List UInt8) :
    (stream.putBytes bytes).InBounds := by
  intro patch member
  have earlier : patch.position < stream.position := inBounds patch member
  rw [position_eq_length_bytes] at earlier ⊢
  rw [bytes_putBytes, List.length_append]
  omega

end Stream

/-! ### Overwrites one after another -/

/-- Applies some overwrites to some bytes, in order. -/
def Patch.applyAll (patches : List Patch) (bytes : List UInt8) : List UInt8 :=
  patches.foldl (fun bytes patch => bytes.set patch.position patch.byte) bytes

namespace Patch

theorem length_applyAll (patches : List Patch) (bytes : List UInt8) :
    (applyAll patches bytes).length = bytes.length := by
  induction patches generalizing bytes with
  | nil => rfl
  | cons patch patches inductionHypothesis =>
      have rest := inductionHypothesis (bytes.set patch.position patch.byte)
      rw [List.length_set] at rest
      exact rest

/-- Overwrites of the front leave the back as it is. -/
theorem applyAll_append {patches : List Patch} {front : List UInt8}
    (inFront : ∀ patch ∈ patches, patch.position < front.length) (back : List UInt8) :
    applyAll patches (front ++ back) = applyAll patches front ++ back := by
  induction patches generalizing front with
  | nil => rfl
  | cons patch patches inductionHypothesis =>
      have first : patch.position < front.length := inFront patch List.mem_cons_self
      have others :
          ∀ other ∈ patches,
            other.position < (front.set patch.position patch.byte).length := by
        intro other member
        rw [List.length_set]
        exact inFront other (List.mem_cons_of_mem patch member)
      have rest := inductionHypothesis others
      rw [← List.set_append_left _ _ first] at rest
      exact rest

theorem getElem?_applyAll_of_ne {patches : List Patch} {place : Nat}
    (elsewhere : ∀ patch ∈ patches, patch.position ≠ place) (bytes : List UInt8) :
    (applyAll patches bytes)[place]? = bytes[place]? := by
  induction patches generalizing bytes with
  | nil => rfl
  | cons patch patches inductionHypothesis =>
      have others := fun other member => elsewhere other (List.mem_cons_of_mem patch member)
      have rest := inductionHypothesis others (bytes.set patch.position patch.byte)
      rw [List.getElem?_set_ne (elsewhere patch List.mem_cons_self)] at rest
      exact rest

/-- Overwrites of different bytes can be applied in any order. -/
theorem applyAll_eq_of_perm {patches others : List Patch} (reordered : others.Perm patches)
    (distinct : (patches.map Patch.position).Nodup) (bytes : List UInt8) :
    applyAll others bytes = applyAll patches bytes := by
  symm
  apply reordered.symm.foldl_eq'
  intro first firstMember second secondMember bytes
  by_cases same : first.position = second.position
  · rw [List.inj_on_of_nodup_map distinct firstMember secondMember same]
  · exact List.set_comm _ _ same

theorem toList_foldl_apply (patches : List Patch) (buffer : Array UInt8) :
    (patches.foldl (fun buffer patch => patch.apply buffer) buffer).toList =
      applyAll patches buffer.toList := by
  induction patches generalizing buffer with
  | nil => rfl
  | cons patch patches inductionHypothesis =>
      rw [List.foldl_cons, inductionHypothesis, Patch.apply, Array.toList_setIfInBounds]
      rfl

/-- The overwrites of consecutive bytes, the first of them at `position`. -/
def consecutive (position : Nat) : List UInt8 → List Patch
  | [] => []
  | byte :: rest => ⟨position, byte⟩ :: consecutive (position + 1) rest

theorem consecutive_append (position : Nat) (front back : List UInt8) :
    consecutive position (front ++ back) =
      consecutive position front ++ consecutive (position + front.length) back := by
  induction front generalizing position with
  | nil => rfl
  | cons byte front inductionHypothesis =>
      rw [List.cons_append, consecutive, consecutive, inductionHypothesis, List.length_cons,
        List.cons_append, Nat.add_assoc, Nat.add_comm 1]

theorem map_position_consecutive (position : Nat) (bytes : List UInt8) :
    (consecutive position bytes).map Patch.position = List.range' position bytes.length := by
  induction bytes generalizing position with
  | nil => rfl
  | cons byte rest inductionHypothesis =>
      rw [consecutive, List.map_cons, inductionHypothesis, List.length_cons, List.range'_succ]

theorem bounds_of_mem_consecutive {position : Nat} {bytes : List UInt8} {patch : Patch}
    (member : patch ∈ consecutive position bytes) :
    position ≤ patch.position ∧ patch.position < position + bytes.length := by
  have inRange := List.mem_map_of_mem (f := Patch.position) member
  rw [map_position_consecutive, List.mem_range'_1] at inRange
  exact inRange

/-- Consecutive overwrites replace as many bytes as they write. -/
theorem applyAll_consecutive {front old new : List UInt8} (sameLength : old.length = new.length)
    (back : List UInt8) :
    applyAll (consecutive front.length new) (front ++ (old ++ back)) =
      front ++ (new ++ back) := by
  induction new generalizing front old with
  | nil =>
      rw [List.eq_nil_of_length_eq_zero sameLength]
      rfl
  | cons byte new inductionHypothesis =>
      cases old with
      | nil => simp at sameLength
      | cons replaced old =>
          have shorter : old.length = new.length := by simpa using sameLength
          have rest :
              applyAll (consecutive (front ++ [byte]).length new)
                  ((front ++ [byte]) ++ (old ++ back)) =
                (front ++ [byte]) ++ (new ++ back) :=
            inductionHypothesis shorter
          simp only [List.length_append, List.length_singleton, List.append_assoc,
            List.singleton_append] at rest
          simpa [applyAll, consecutive] using rest

end Patch

namespace Stream

/-- The finished bytes are the appended ones with all overwrites applied in order. -/
theorem toList_patched (stream : Stream) :
    stream.patched.toList = Patch.applyAll stream.patches.toList stream.bytes := by
  rw [patched, ← Array.foldl_toList, Patch.toList_foldl_apply]
  rfl

theorem length_patched (stream : Stream) :
    stream.patched.toList.length = stream.position := by
  rw [toList_patched, Patch.length_applyAll, position_eq_length_bytes]

/-- What is appended is finished at once, and what stands before it is finished as before. -/
theorem toList_patched_putBytes {stream : Stream} (inBounds : stream.InBounds)
    (bytes : List UInt8) :
    (stream.putBytes bytes).patched.toList = stream.patched.toList ++ bytes := by
  have inFront : ∀ patch ∈ stream.patches.toList, patch.position < stream.bytes.length := by
    intro patch member
    rw [← position_eq_length_bytes]
    exact inBounds patch (Array.mem_toList_iff.mp member)
  rw [toList_patched, bytes_putBytes, patches_putBytes, Patch.applyAll_append inFront,
    ← toList_patched]

/-- What is done to a stream adds some bytes to its finished bytes and changes no others. -/
structure Appends (before after : Stream) (bytes : List UInt8) : Prop where
  inBounds : after.InBounds
  toList_patched : after.patched.toList = before.patched.toList ++ bytes

theorem appends_putBytes {stream : Stream} (inBounds : stream.InBounds) (bytes : List UInt8) :
    stream.Appends (stream.putBytes bytes) bytes where
  inBounds := inBounds.putBytes bytes
  toList_patched := toList_patched_putBytes inBounds bytes

theorem Appends.refl {stream : Stream} (inBounds : stream.InBounds) : stream.Appends stream [] where
  inBounds := inBounds
  toList_patched := (List.append_nil _).symm

/-- Whatever is done in between, bytes that are added one after the other stand one behind the
other. -/
theorem Appends.trans {first second third : Stream} {bytes more : List UInt8}
    (earlier : first.Appends second bytes) (later : second.Appends third more) :
    first.Appends third (bytes ++ more) where
  inBounds := later.inBounds
  toList_patched := by
    rw [later.toList_patched, earlier.toList_patched, List.append_assoc]

theorem Appends.position_eq {before after : Stream} {bytes : List UInt8}
    (appends : before.Appends after bytes) :
    after.position = before.position + bytes.length := by
  rw [← length_patched, ← length_patched, appends.toList_patched, List.length_append]

/-! ### Consecutive overwrites -/

def withPatches (stream : Stream) (patches : List Patch) : Stream :=
  { stream with patches := stream.patches ++ patches.toArray }

theorem patchBytes_eq_ok {stream : Stream} {position : Nat} {bytes : List UInt8}
    (written : position + bytes.length ≤ stream.position) :
    stream.patchBytes position bytes =
      (.ok (), stream.withPatches (Patch.consecutive position bytes)) := by
  induction bytes generalizing stream position with
  | nil => simp [patchBytes, withPatches, Patch.consecutive]
  | cons byte rest inductionHypothesis =>
      rw [List.length_cons] at written
      have first :
          stream.patch position byte = .ok (stream.withPatches [⟨position, byte⟩]) := by
        rw [patch, if_pos (by omega)]
        simp [withPatches]
      have others :
          (stream.withPatches [⟨position, byte⟩]).patchBytes (position + 1) rest = _ :=
        inductionHypothesis (by
          change position + 1 + rest.length ≤ stream.position
          omega)
      rw [patchBytes, first]
      change (stream.withPatches [⟨position, byte⟩]).patchBytes (position + 1) rest = _
      rw [others]
      simp [withPatches, Patch.consecutive]

theorem eq_withPatches_of_patchBytes_eq_ok {stream staged : Stream} {position : Nat}
    {bytes : List UInt8} (isOk : stream.patchBytes position bytes = (.ok (), staged)) :
    staged = stream.withPatches (Patch.consecutive position bytes) := by
  induction bytes generalizing stream position with
  | nil =>
      cases isOk
      simp [withPatches, Patch.consecutive]
  | cons byte rest inductionHypothesis =>
      by_cases first : position < stream.position
      · simp only [patchBytes, patch, if_pos first] at isOk
        rw [inductionHypothesis isOk]
        simp [withPatches, Patch.consecutive]
      · simp only [patchBytes, patch, if_neg first] at isOk
        cases isOk

/-- Whatever becomes of an overwrite, nothing is appended. -/
theorem buffer_patchBytes (stream : Stream) (position : Nat) (bytes : List UInt8) :
    (stream.patchBytes position bytes).2.buffer = stream.buffer := by
  induction bytes generalizing stream position with
  | nil => rfl
  | cons byte rest inductionHypothesis =>
      by_cases first : position < stream.position
      · simp only [patchBytes, patch, if_pos first]
        rw [inductionHypothesis]
      · simp only [patchBytes, patch, if_neg first]

theorem InBounds.withPatches {stream : Stream} (inBounds : stream.InBounds)
    {patches : List Patch} (written : ∀ patch ∈ patches, patch.position < stream.position) :
    (stream.withPatches patches).InBounds := by
  intro patch member
  have either : patch ∈ stream.patches ∨ patch ∈ patches := by
    simpa [Stream.withPatches] using member
  rcases either with earlier | staged
  · exact inBounds patch earlier
  · exact written patch staged

theorem toList_patched_withPatches (stream : Stream) (patches : List Patch) :
    (stream.withPatches patches).patched.toList =
      Patch.applyAll patches stream.patched.toList := by
  rw [toList_patched, toList_patched]
  simp [withPatches, Patch.applyAll, List.foldl_append, bytes]

end Stream

/-! ## Filling a size field

The bytes that a size puts into its field and the blank bytes behind them are the size in as many
groups as the field is wide, so a filled field reads as its size.
-/

namespace Gap

theorem le_capacity_iff {size : Nat} : size ≤ capacity ↔ size < 2 ^ 28 := by
  rw [capacity_eq]
  omega

/-- A number in as many groups as asked for: every byte but the last has the continuation bit. -/
def padded : Nat → Nat → List UInt8
  | 0, _ => []
  | 1, value => [value.toUInt8]
  | count + 2, value => (value % 128 + 128).toUInt8 :: padded (count + 1) (value / 128)

theorem blank_eq : blank = padded width 0 := by
  decide

theorem sizeField_eq {size : Nat} (fits : size ≤ capacity) :
    Format.sizeField size = padded width size := by
  have small : size / 128 / 128 / 128 < 128 := by
    rw [capacity_eq] at fits
    omega
  rw [Format.sizeField, Nat.mod_eq_of_lt small]
  rfl

/-! ### Padding the shortest form -/

theorem continueLast_cons (byte : UInt8) {rest : List UInt8} (more : 0 < rest.length) :
    continueLast (byte :: rest) = byte :: continueLast rest := by
  cases rest with
  | nil => simp at more
  | cons next rest => rfl

/-- The shortest form goes on into the groups of zero that a wider field has. -/
theorem pad_unsigned (count value : Nat) (fits : value < 128 ^ (count + 1)) :
    (if (Leb128.unsigned value).length < count + 1 then
          continueLast (Leb128.unsigned value)
        else
          Leb128.unsigned value) ++
        (padded (count + 1) 0).drop (Leb128.unsigned value).length =
      padded (count + 1) value := by
  induction count generalizing value with
  | zero =>
      rw [Leb128.unsigned_of_lt (by simpa using fits)]
      rfl
  | succ count inductionHypothesis =>
      by_cases small : value < 128
      · have noMore : value / 128 = 0 := Nat.div_eq_of_lt small
        rw [Leb128.unsigned_of_lt small]
        simp [padded, continueLast, Leb128.toUInt8_or_continuation small, Nat.mod_eq_of_lt small,
          noMore]
      · have high : value / 128 < 128 ^ (count + 1) := by
          rw [Nat.div_lt_iff_lt_mul (by omega), ← Nat.pow_succ]
          exact fits
        have rest := inductionHypothesis (value / 128) high
        rw [Leb128.unsigned_of_le (by omega), padded, padded, ← rest, List.length_cons,
          continueLast_cons _ (Leb128.length_unsigned_pos _), List.drop_succ_cons]
        by_cases short : (Leb128.unsigned (value / 128)).length < count + 1
        · rw [if_pos short, if_pos (Nat.succ_lt_succ short), List.cons_append]
        · have notShort := mt Nat.lt_of_succ_lt_succ short
          rw [if_neg short, if_neg notShort, List.cons_append]

/-- The encoder's test, which counts groups, is a test of the size. -/
theorem width_lt_length_iff (size : Nat) :
    width < (Leb128.unsigned size).length ↔ capacity < size := by
  have fits := Leb128.length_unsigned_le_iff 3 size
  rw [width, capacity_eq]
  omega

theorem not_width_lt_length {size : Nat} (fits : size ≤ capacity) :
    ¬ width < (Leb128.unsigned size).length := by
  rw [width_lt_length_iff]
  exact Nat.not_lt.mpr fits

theorem length_continueLast (bytes : List UInt8) :
    (continueLast bytes).length = bytes.length := by
  induction bytes with
  | nil => rfl
  | cons byte rest inductionHypothesis =>
      cases rest with
      | nil => rfl
      | cons next rest =>
          rw [continueLast_cons byte (by simp), List.length_cons, inductionHypothesis]
          rfl

theorem length_sizeBytes (size : Nat) :
    (sizeBytes size).length = (Leb128.unsigned size).length := by
  rw [sizeBytes]
  split
  · exact length_continueLast _
  · rfl

theorem length_sizeBytes_le {size : Nat} (fits : size ≤ capacity) :
    (sizeBytes size).length ≤ width := by
  rw [length_sizeBytes]
  exact Nat.not_lt.mp (not_width_lt_length fits)

/-- A size and what it leaves of a blank field are the size field of the format. -/
theorem sizeBytes_append_blank {size : Nat} (fits : size ≤ capacity) :
    sizeBytes size ++ blank.drop (sizeBytes size).length = Format.sizeField size := by
  rw [length_sizeBytes, sizeField_eq fits, blank_eq]
  rw [capacity_eq] at fits
  have small : size < 128 ^ (3 + 1) := by
    omega
  exact pad_unsigned 3 size small

end Gap

namespace Stream

/-! ### Filling -/

/-- A size that is too long is refused and leaves the stream as it was. -/
theorem fill_of_lt (stream : Stream) (gap : Gap) {size : Nat} (frame : Frame)
    (tooLong : Gap.capacity < size) :
    stream.fill gap size frame = (.error (.frameTooLong frame size Gap.capacity), stream) := by
  rw [fill, if_pos ((Gap.width_lt_length_iff size).mpr tooLong)]

/-- A size that fits is accepted for any field that has been written. -/
theorem fill_eq_ok {stream : Stream} {gap : Gap} {size : Nat} (frame : Frame)
    (fits : size ≤ Gap.capacity) (written : gap.position + Gap.width ≤ stream.position) :
    stream.fill gap size frame =
      (.ok (), stream.withPatches (Patch.consecutive gap.position (Gap.sizeBytes size))) := by
  have short := Gap.length_sizeBytes_le fits
  rw [fill, if_neg (Gap.not_width_lt_length fits)]
  exact patchBytes_eq_ok (by omega)

theorem eq_withPatches_of_fill_eq_ok {stream filled : Stream} {gap : Gap} {size : Nat}
    {frame : Frame} (isOk : stream.fill gap size frame = (.ok (), filled)) :
    size ≤ Gap.capacity ∧
      filled = stream.withPatches (Patch.consecutive gap.position (Gap.sizeBytes size)) := by
  by_cases tooLong : Gap.capacity < size
  · rw [fill_of_lt stream gap frame tooLong] at isOk
    cases isOk
  · have fits := Nat.not_lt.mp tooLong
    rw [fill, if_neg (Gap.not_width_lt_length fits)] at isOk
    exact ⟨fits, eq_withPatches_of_patchBytes_eq_ok isOk⟩

theorem buffer_fill (stream : Stream) (gap : Gap) (size : Nat) (frame : Frame) :
    (stream.fill gap size frame).2.buffer = stream.buffer := by
  rw [fill]
  split
  · rfl
  · exact buffer_patchBytes stream _ _

/-- A size overwrites the front of its field and leaves alone what stands around it. -/
theorem toList_patched_sizeBytes {stream : Stream} {gap : Gap} {size : Nat}
    (fits : size ≤ Gap.capacity) {front old back : List UInt8}
    (atGap : front.length = gap.position) (width : old.length = Gap.width)
    (reserved : stream.patched.toList = front ++ (old ++ back)) :
    (stream.withPatches
        (Patch.consecutive gap.position (Gap.sizeBytes size))).patched.toList =
      front ++ ((Gap.sizeBytes size ++ old.drop (Gap.sizeBytes size).length) ++ back) := by
  let new := Gap.sizeBytes size
  have short : new.length ≤ old.length := by
    rw [width]
    exact Gap.length_sizeBytes_le fits
  have split : old = old.take new.length ++ old.drop new.length :=
    (List.take_append_drop _ _).symm
  have sameLength : (old.take new.length).length = new.length := by
    rw [List.length_take]
    omega
  have overwritten :
      Patch.applyAll (Patch.consecutive front.length new)
          (front ++ (old.take new.length ++ (old.drop new.length ++ back))) =
        front ++ (new ++ (old.drop new.length ++ back)) :=
    Patch.applyAll_consecutive sameLength _
  rw [← List.append_assoc (old.take new.length), ← split] at overwritten
  rw [toList_patched_withPatches, reserved, ← atGap, overwritten, List.append_assoc]

/-- Filling a field overwrites its front, and all other finished bytes stay as they are. -/
theorem fill_of_le {stream : Stream} {gap : Gap} {size : Nat} (frame : Frame)
    (fits : size ≤ Gap.capacity) (inBounds : stream.InBounds) {front old back : List UInt8}
    (atGap : front.length = gap.position) (width : old.length = Gap.width)
    (reserved : stream.patched.toList = front ++ (old ++ back)) :
    ∃ filled,
      stream.fill gap size frame = (.ok (), filled) ∧ filled.InBounds ∧
        filled.patched.toList =
          front ++ ((Gap.sizeBytes size ++ old.drop (Gap.sizeBytes size).length) ++ back) := by
  have written : gap.position + Gap.width ≤ stream.position := by
    have total := congrArg List.length reserved
    rw [length_patched] at total
    simp only [List.length_append] at total
    omega
  have inside :
      ∀ patch ∈ Patch.consecutive gap.position (Gap.sizeBytes size),
        patch.position < stream.position := by
    intro patch member
    have bounds := Patch.bounds_of_mem_consecutive member
    have short := Gap.length_sizeBytes_le fits
    omega
  exact ⟨_, fill_eq_ok frame fits written, inBounds.withPatches inside,
    toList_patched_sizeBytes fits atGap width reserved⟩

end Stream

end WasmBinary
