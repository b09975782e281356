import WasmBinary.Proofs.Stream.Patched

/-!
Deferred overwrites do what overwrites at once would do. Main statement: the finished bytes of a
stream are those of a buffer that is edited in place, and they depend on nothing but the bytes that
are appended and, for each position, the order of the overwrites of that position.
-/

namespace WasmBinary

/-! ## Edits

Bytes are appended, and bytes that are already written are overwritten, in any order. A stream
stages the overwrites and applies them at the end; a plain buffer is overwritten at once.
-/

inductive Edit
  | putByte (byte : UInt8)
  | putBytes (bytes : List UInt8)
  | patch (position : Nat) (byte : UInt8)
  deriving DecidableEq, Repr

namespace Edit

def bytes : Edit → List UInt8
  | putByte byte => [byte]
  | putBytes bytes => bytes
  | patch _ _ => []

def patches : Edit → List Patch
  | patch position byte => [⟨position, byte⟩]
  | _ => []

/-- Whether each overwrite is for a byte that has been written by then, when so many bytes are
written before the edits. -/
def InRange : Nat → List Edit → Prop
  | _, [] => True
  | length, edit :: edits =>
      (∀ patch ∈ edit.patches, patch.position < length) ∧
        InRange (length + edit.bytes.length) edits

/-- The overwrites of one position, in order. -/
def staged (edits : List Edit) (position : Nat) : List Patch :=
  (edits.flatMap patches).filter (·.position = position)

/-- Performs an edit of a buffer at once. -/
def perform (buffer : Array UInt8) : Edit → Except EncodingError (Array UInt8)
  | putByte byte => .ok (buffer.push byte)
  | putBytes bytes => .ok (buffer ++ bytes)
  | patch position byte =>
      if position < buffer.size then
        .ok (buffer.setIfInBounds position byte)
      else
        .error (.patchPastEnd position)

def performAll (buffer : Array UInt8) (edits : List Edit) :
    Except EncodingError (Array UInt8) :=
  edits.foldlM perform buffer

end Edit

namespace Stream

def edit (stream : Stream) : Edit → Except EncodingError Stream
  | .putByte byte => .ok (stream.putByte byte)
  | .putBytes bytes => .ok (stream.putBytes bytes)
  | .patch position byte => stream.patch position byte

def editAll (stream : Stream) (edits : List Edit) : Except EncodingError Stream :=
  edits.foldlM edit stream

end Stream

/-! ## The last overwrite of a position -/

namespace Patch

/-- A byte changes with the overwrites of its own position alone. -/
theorem getElem?_applyAll (patches : List Patch) (bytes : List UInt8) (position : Nat) :
    (applyAll patches bytes)[position]? =
      (patches.filter (·.position = position)).foldl
        (fun byte patch => byte.map fun _ => patch.byte) bytes[position]? := by
  induction patches generalizing bytes with
  | nil => rfl
  | cons patch patches inductionHypothesis =>
      have rest := inductionHypothesis (bytes.set patch.position patch.byte)
      by_cases here : patch.position = position
      · have changed :
            (bytes.set patch.position patch.byte)[position]? =
              bytes[position]?.map fun _ => patch.byte := by
          rw [here, List.getElem?_set_self']
          rfl
        rw [List.filter_cons_of_pos (by simpa using here), List.foldl_cons, ← changed]
        exact rest
      · rw [List.getElem?_set_ne here] at rest
        rw [List.filter_cons_of_neg (by simpa using here)]
        exact rest

/-- Overwrites can be reordered as long as those of one position keep their order. -/
theorem applyAll_eq_of_filter_eq {patches others : List Patch}
    (sameOrder : ∀ position,
      others.filter (·.position = position) = patches.filter (·.position = position))
    (bytes : List UInt8) : applyAll others bytes = applyAll patches bytes := by
  apply List.ext_getElem?
  intro position
  rw [getElem?_applyAll, getElem?_applyAll, sameOrder]

-- The order of two overwrites of one position does matter.
example : applyAll [⟨0, 1⟩, ⟨0, 2⟩] [0] = [2] ∧ applyAll [⟨0, 2⟩, ⟨0, 1⟩] [0] = [1] := by
  decide

/-- The last overwrite of a byte decides about it. -/
theorem getElem?_applyAll_of_last {earlier later : List Patch} {patch : Patch}
    {bytes : List UInt8} (inside : patch.position < bytes.length)
    (last : ∀ other ∈ later, other.position ≠ patch.position) :
    (applyAll (earlier ++ patch :: later) bytes)[patch.position]? = some patch.byte := by
  have split :
      applyAll (earlier ++ patch :: later) bytes =
        applyAll later ((applyAll earlier bytes).set patch.position patch.byte) :=
    List.foldl_append
  rw [split, getElem?_applyAll_of_ne last, List.getElem?_set_self]
  rw [length_applyAll]
  exact inside

end Patch

/-! ## Edits of a stream -/

namespace Edit

variable {length : Nat} {edits front back : List Edit}

theorem inRange_append :
    InRange length (front ++ back) ↔
      InRange length front ∧ InRange (length + (front.flatMap bytes).length) back := by
  induction front generalizing length with
  | nil => simp [InRange]
  | cons edit front inductionHypothesis =>
      rw [List.cons_append, InRange, InRange, inductionHypothesis, List.flatMap_cons,
        List.length_append, and_assoc, Nat.add_assoc]

theorem inRange_of_patches_eq_nil (noPatches : ∀ edit ∈ edits, edit.patches = []) :
    InRange length edits := by
  induction edits generalizing length with
  | nil => trivial
  | cons edit edits inductionHypothesis =>
      rw [List.forall_mem_cons] at noPatches
      obtain ⟨noPatch, noPatches⟩ := noPatches
      refine ⟨?_, inductionHypothesis noPatches⟩
      rw [noPatch]
      exact List.forall_mem_nil _

theorem position_lt_of_inRange (inRange : InRange length edits) :
    ∀ patch ∈ edits.flatMap patches,
      patch.position < length + (edits.flatMap bytes).length := by
  induction edits generalizing length with
  | nil => exact List.forall_mem_nil _
  | cons edit edits inductionHypothesis =>
      obtain ⟨first, rest⟩ := inRange
      intro patch member
      rw [List.flatMap_cons, List.length_append]
      rcases List.mem_append.mp member with isFirst | isLater
      · have bound := first patch isFirst
        omega
      · have bound := inductionHypothesis rest patch isLater
        omega

end Edit

namespace Stream

variable {stream : Stream} {edit : Edit} {edits : List Edit}

/-- What some edits that are in range leave: all the bytes, and all the overwrites. -/
def edited (stream : Stream) (edits : List Edit) : Stream :=
  (stream.putBytes (edits.flatMap Edit.bytes)).withPatches (edits.flatMap Edit.patches)

@[simp] theorem bytes_edited (stream : Stream) (edits : List Edit) :
    (stream.edited edits).bytes = stream.bytes ++ edits.flatMap Edit.bytes :=
  bytes_putBytes stream _

theorem position_edited (stream : Stream) (edits : List Edit) :
    (stream.edited edits).position = stream.position + (edits.flatMap Edit.bytes).length := by
  simp

@[simp] theorem patches_edited (stream : Stream) (edits : List Edit) :
    (stream.edited edits).patches.toList =
      stream.patches.toList ++ edits.flatMap Edit.patches := by
  simp [edited, withPatches]

theorem edited_nil (stream : Stream) : stream.edited [] = stream :=
  ext_bytes (by simp) (Array.toList_inj.mp (by simp))

theorem edited_append (stream : Stream) (front back : List Edit) :
    (stream.edited front).edited back = stream.edited (front ++ back) :=
  ext_bytes (by simp) (Array.toList_inj.mp (by simp))

theorem edit_eq_ok (inRange : ∀ patch ∈ edit.patches, patch.position < stream.position) :
    stream.edit edit = .ok (stream.edited [edit]) := by
  cases edit with
  | putByte byte | putBytes bytes =>
      refine congrArg Except.ok (ext_bytes ?_ (Array.toList_inj.mp ?_))
      · simp [Edit.bytes]
      · simp [Edit.patches]
  | patch position byte =>
      have inside : position < stream.position := inRange ⟨position, byte⟩ List.mem_cons_self
      rw [Stream.edit, patch, if_pos inside]
      refine congrArg Except.ok (ext_bytes ?_ (Array.toList_inj.mp ?_))
      · rw [bytes_edited]
        simp [Edit.bytes, bytes]
      · simp [Edit.patches]

theorem editAll_append (stream : Stream) (front back : List Edit) :
    stream.editAll (front ++ back) = stream.editAll front >>= fun after => after.editAll back := by
  rw [editAll, List.foldlM_append]
  rfl

theorem editAll_eq_ok (inRange : Edit.InRange stream.position edits) :
    stream.editAll edits = .ok (stream.edited edits) := by
  induction edits generalizing stream with
  | nil =>
      rw [edited_nil]
      rfl
  | cons edit edits inductionHypothesis =>
      obtain ⟨first, rest⟩ := inRange
      have position := position_edited stream [edit]
      rw [List.flatMap_singleton] at position
      rw [← position] at rest
      rw [editAll, List.foldlM_cons, edit_eq_ok first]
      change (stream.edited [edit]).editAll edits = _
      rw [inductionHypothesis rest, edited_append, List.singleton_append]

/-- An overwrite can be staged before or after some appends. -/
theorem edited_patch_move {position : Nat} {byte : UInt8} {appends : List Edit}
    (noPatches : ∀ edit ∈ appends, edit.patches = []) :
    stream.edited (.patch position byte :: appends) =
      stream.edited (appends ++ [.patch position byte]) := by
  have onlyBytes : appends.flatMap Edit.patches = [] := List.flatMap_eq_nil_iff.mpr noPatches
  refine ext_bytes ?_ (Array.toList_inj.mp ?_)
  · simp [Edit.bytes]
  · simp [onlyBytes]

/-- Staging an overwrite before or after some appends makes no difference, as long as its byte is
written before them. -/
theorem editAll_patch_move {position : Nat} (inside : position < stream.position) (byte : UInt8)
    {appends : List Edit} (noPatches : ∀ edit ∈ appends, edit.patches = []) (back : List Edit) :
    stream.editAll (.patch position byte :: (appends ++ back)) =
      stream.editAll (appends ++ .patch position byte :: back) := by
  have earlier : Edit.InRange stream.position (.patch position byte :: appends) := by
    refine ⟨?_, Edit.inRange_of_patches_eq_nil noPatches⟩
    rw [Edit.patches, List.forall_mem_singleton]
    exact inside
  have later : Edit.InRange stream.position (appends ++ [.patch position byte]) := by
    refine Edit.inRange_append.mpr ⟨Edit.inRange_of_patches_eq_nil noPatches, ?_, trivial⟩
    rw [Edit.patches, List.forall_mem_singleton]
    exact Nat.lt_add_right _ inside
  rw [List.append_cons appends, ← List.cons_append, editAll_append, editAll_append,
    editAll_eq_ok earlier, editAll_eq_ok later, edited_patch_move noPatches]

theorem inRange_of_edit_eq_ok {after : Stream} (finished : stream.edit edit = .ok after) :
    ∀ patch ∈ edit.patches, patch.position < stream.position := by
  cases edit with
  | putByte byte | putBytes bytes => exact List.forall_mem_nil _
  | patch position byte =>
      rw [Edit.patches, List.forall_mem_singleton]
      by_cases inside : position < stream.position
      · exact inside
      · rw [Stream.edit, patch, if_neg inside] at finished
        cases finished

/-- Edits are refused only if they are out of range. -/
theorem inRange_of_editAll_eq_ok {after : Stream} (finished : stream.editAll edits = .ok after) :
    Edit.InRange stream.position edits := by
  induction edits generalizing stream with
  | nil => trivial
  | cons edit edits inductionHypothesis =>
      rw [editAll, List.foldlM_cons] at finished
      cases outcome : stream.edit edit with
      | error error =>
          rw [outcome] at finished
          cases finished
      | ok next =>
          have first := inRange_of_edit_eq_ok outcome
          rw [edit_eq_ok first] at finished
          have rest := inductionHypothesis finished
          rw [position_edited, List.flatMap_singleton] at rest
          exact ⟨first, rest⟩

/-- The same behind any other edits: if these are refused, it is before the overwrite and the
appends are reached. -/
theorem editAll_append_patch_move {front appends : List Edit} {position : Nat}
    (inside : position < stream.position + (front.flatMap Edit.bytes).length) (byte : UInt8)
    (noPatches : ∀ edit ∈ appends, edit.patches = []) (back : List Edit) :
    stream.editAll (front ++ .patch position byte :: (appends ++ back)) =
      stream.editAll (front ++ (appends ++ .patch position byte :: back)) := by
  rw [editAll_append, editAll_append]
  cases outcome : stream.editAll front with
  | error error => rfl
  | ok middle =>
      have isMiddle := editAll_eq_ok (inRange_of_editAll_eq_ok outcome)
      rw [outcome, Except.ok.injEq] at isMiddle
      have written : position < middle.position := by
        rw [isMiddle, position_edited]
        exact inside
      exact editAll_patch_move written byte noPatches back

/-! ## Edits in place -/

theorem InBounds.edited (inBounds : stream.InBounds)
    (inRange : Edit.InRange stream.position edits) : (stream.edited edits).InBounds := by
  apply (inBounds.putBytes _).withPatches
  have position := position_edited stream edits
  intro patch member
  have bound := Edit.position_lt_of_inRange inRange patch member
  rw [← position] at bound
  exact bound

theorem toList_patched_edited (inBounds : stream.InBounds) (edits : List Edit) :
    (stream.edited edits).patched.toList =
      Patch.applyAll (edits.flatMap Edit.patches)
        (stream.patched.toList ++ edits.flatMap Edit.bytes) := by
  rw [edited, toList_patched_withPatches, toList_patched_putBytes inBounds]

/-- To finish a stream and then edit it in place is to edit the stream and then finish it. -/
theorem perform_patched (inBounds : stream.InBounds)
    (inRange : ∀ patch ∈ edit.patches, patch.position < stream.position) :
    edit.perform stream.patched = .ok (stream.edited [edit]).patched := by
  have edited := toList_patched_edited inBounds [edit]
  rw [List.flatMap_singleton, List.flatMap_singleton] at edited
  cases edit with
  | putByte byte | putBytes bytes =>
      refine congrArg Except.ok (Array.toList_inj.mp ?_)
      rw [edited]
      simp [Edit.bytes, Edit.patches, Patch.applyAll]
  | patch position byte =>
      have inside : position < stream.patched.size := by
        rw [← Array.length_toList, length_patched]
        exact inRange ⟨position, byte⟩ List.mem_cons_self
      rw [Edit.perform, if_pos inside]
      refine congrArg Except.ok (Array.toList_inj.mp ?_)
      rw [edited]
      simp [Edit.bytes, Edit.patches, Patch.applyAll]

/-- Edits in place and edits of the stream come to the same finished bytes. -/
theorem performAll_patched (inBounds : stream.InBounds)
    (inRange : Edit.InRange stream.position edits) :
    Edit.performAll stream.patched edits = .ok (stream.edited edits).patched := by
  induction edits generalizing stream with
  | nil =>
      rw [edited_nil]
      rfl
  | cons edit edits inductionHypothesis =>
      obtain ⟨first, rest⟩ := inRange
      have firstOnly : Edit.InRange stream.position [edit] := ⟨first, trivial⟩
      have position := position_edited stream [edit]
      rw [List.flatMap_singleton] at position
      rw [← position] at rest
      rw [Edit.performAll, List.foldlM_cons, perform_patched inBounds first]
      change Edit.performAll (stream.edited [edit]).patched edits = _
      rw [inductionHypothesis (inBounds.edited firstOnly) rest, edited_append,
        List.singleton_append]

/-! ## Finished bytes -/

theorem toList_patched_edited_empty (edits : List Edit) :
    (edited {} edits).patched.toList =
      Patch.applyAll (edits.flatMap Edit.patches) (edits.flatMap Edit.bytes) :=
  toList_patched_edited inBounds_empty edits

theorem getElem?_patched_of_last (inRange : Edit.InRange 0 edits) {earlier later : List Patch}
    {patch : Patch} (split : edits.flatMap Edit.patches = earlier ++ patch :: later)
    (last : ∀ other ∈ later, other.position ≠ patch.position) :
    (edited {} edits).patched[patch.position]? = some patch.byte := by
  have member : patch ∈ edits.flatMap Edit.patches := by
    rw [split]
    exact List.mem_append_right _ List.mem_cons_self
  have inside := Edit.position_lt_of_inRange inRange patch member
  rw [Nat.zero_add] at inside
  rw [← Array.getElem?_toList, toList_patched_edited_empty, split]
  exact Patch.getElem?_applyAll_of_last inside last

theorem getElem?_patched_of_forall_ne {position : Nat}
    (elsewhere : ∀ patch ∈ edits.flatMap Edit.patches, patch.position ≠ position) :
    (edited {} edits).patched[position]? = (edited {} edits).bytes[position]? := by
  rw [← Array.getElem?_toList, toList_patched_edited_empty,
    Patch.getElem?_applyAll_of_ne elsewhere, bytes_edited]
  rfl

/-- The order of overwrites matters only among those of one position. -/
theorem patched_edited_eq_of_staged_eq {edits others : List Edit}
    (sameBytes : others.flatMap Edit.bytes = edits.flatMap Edit.bytes)
    (sameOrder : ∀ position, Edit.staged others position = Edit.staged edits position) :
    (edited {} others).patched = (edited {} edits).patched := by
  apply Array.toList_inj.mp
  rw [toList_patched_edited_empty, toList_patched_edited_empty, sameBytes]
  exact Patch.applyAll_eq_of_filter_eq sameOrder _

/-- A stream can be edited by any edits that are in range. Its finished bytes are those of a buffer
that is edited in place. Each of them is the one that was staged last for its position, or the one
that was appended if none was. They stay the same when edits are reordered in such a way that the
appended bytes and the overwrites of each position keep their order; in particular when an overwrite
is staged before or after some appends behind its byte. -/
theorem patched_of_editAll (edits : List Edit) (inRange : Edit.InRange 0 edits) :
    ∃ stream,
      editAll {} edits = .ok stream ∧
        Edit.performAll #[] edits = .ok stream.patched ∧
        stream.patched.size = stream.position ∧
        stream.bytes = edits.flatMap Edit.bytes ∧
        (∀ earlier patch later, edits.flatMap Edit.patches = earlier ++ patch :: later →
          (∀ other ∈ later, other.position ≠ patch.position) →
            stream.patched[patch.position]? = some patch.byte) ∧
        (∀ position, (∀ patch ∈ edits.flatMap Edit.patches, patch.position ≠ position) →
          stream.patched[position]? = stream.bytes[position]?) ∧
        (∀ others, Edit.InRange 0 others →
          others.flatMap Edit.bytes = edits.flatMap Edit.bytes →
          (∀ position, Edit.staged others position = Edit.staged edits position) →
            (editAll {} others).map patched = .ok stream.patched) ∧
        ∀ front appends back position byte, (∀ edit ∈ appends, edit.patches = []) →
          position < (front.flatMap Edit.bytes).length →
            editAll {} (front ++ .patch position byte :: (appends ++ back)) =
              editAll {} (front ++ (appends ++ .patch position byte :: back)) := by
  refine ⟨edited {} edits, editAll_eq_ok inRange, performAll_patched inBounds_empty inRange, ?_,
    bytes_edited {} edits, ?_, ?_, ?_, ?_⟩
  · rw [← Array.length_toList, length_patched]
  · intro earlier patch later split last
    exact getElem?_patched_of_last inRange split last
  · intro position elsewhere
    exact getElem?_patched_of_forall_ne elsewhere
  · intro others othersInRange sameBytes sameOrder
    have othersFinished : editAll {} others = .ok (edited {} others) :=
      editAll_eq_ok othersInRange
    rw [othersFinished]
    exact congrArg Except.ok (patched_edited_eq_of_staged_eq sameBytes sameOrder)
  · intro front appends back position byte noPatches inside
    exact editAll_append_patch_move (Nat.lt_add_left _ inside) byte noPatches back

theorem patched_of_editAll_overwritten :
    let edits : List Edit :=
      [.putBytes [1, 2, 3], .patch 0 9, .putByte 4, .patch 3 7, .patch 0 8]
    Edit.InRange 0 edits ∧
      ∃ stream,
        editAll {} edits = .ok stream ∧ stream.bytes = [1, 2, 3, 4] ∧
          stream.patched[0]? = some 8 ∧ stream.patched[2]? = some 3 := by
  intro edits
  have inRange : Edit.InRange 0 edits := by
    simp [edits, Edit.InRange, Edit.patches, Edit.bytes]
  obtain ⟨stream, finished, _, _, bytes, last, untouched, _⟩ := patched_of_editAll edits inRange
  refine ⟨inRange, stream, finished, bytes, ?_, ?_⟩
  · exact last [⟨0, 9⟩, ⟨3, 7⟩] ⟨0, 8⟩ [] rfl (List.forall_mem_nil _)
  · rw [untouched 2 (by decide), bytes]
    rfl

end Stream

end WasmBinary
