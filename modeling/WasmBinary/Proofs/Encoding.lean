import WasmBinary.Proofs.Encoder

/-!
Finished encodings. Main statements: the finished bytes are those of the format, and the error of a
failed encoding names the first region that does not fit its size field.
-/

namespace WasmBinary

namespace Module

/-- An encoding that succeeds has the bytes of the format. -/
theorem outcome_encoding (module : Module) :
    Outcome module.frames module.encoding
      (fun encoding => encoding.bytes.toList = module.bytes) :=
  (Encoder.outcome_putModule module).map fun _ wrote => wrote.toList_patched

theorem outcome_encode (module : Module) :
    Outcome module.frames module.encode (fun bytes => bytes.toList = module.bytes) :=
  (outcome_encoding module).map fun _ patched => patched

/-- The terminator is the last section of every module and stands nowhere else. -/
theorem present_eq_append_terminator (module : Module) :
    ∃ ids : List SectionId,
      module.present = ids ++ [.terminator] ∧ .terminator ∉ ids ∧
        ∀ id ∈ ids, module.needs id = true := by
  let inner : List SectionId :=
    [.types, .imports, .functions, .table, .memory, .exports, .start, .code, .data]
  refine ⟨inner.filter (module.needs ·), ?_, ?_, ?_⟩
  · have order : SectionId.all = inner ++ [.terminator] := rfl
    rw [present, order, List.filter_append]
    rfl
  · intro member
    have inInner : SectionId.terminator ∈ inner := (List.mem_filter.mp member).1
    exact absurd inInner (by decide)
  · intro id member
    exact (List.mem_filter.mp member).2

theorem mem_present_iff {module : Module} {id : SectionId} :
    id ∈ module.present ↔ module.needs id = true := by
  rw [present, List.mem_filter]
  exact and_iff_right (SectionId.mem_all id)

theorem length_payload_le {module : Module}
    (fits : ∀ frame ∈ module.frames, frame.2 ≤ Gap.capacity) {id : SectionId}
    (needed : module.needs id = true) : (module.payload id).length ≤ Gap.capacity := by
  have member : (Frame.sectionNamed id.name, (module.payload id).length) ∈ module.frames :=
    List.mem_flatMap_of_mem (mem_present_iff.mpr needed)
      (List.mem_append_right _ List.mem_cons_self)
  exact fits _ member

theorem frames_sampleModule_fit : ∀ frame ∈ sampleModule.frames, frame.2 ≤ Gap.capacity := by
  decide +kernel

/-! ## Finished bytes -/

/-- The encoder's test for a section is the one that the format lists under the section's name. -/
theorem presence_eq (module : Module) :
    module.presence = SectionId.all.map fun id => (id.name, module.needs id) := by
  have data : module.memory.any (!·.segments.isEmpty) = module.needs .data := by
    rw [needs, segments]
    cases module.memory <;> rfl
  rw [presence, data]
  rfl

/-- The sections that the encoder writes are those that the format lists as present. -/
theorem flatMap_present_eq (module : Module) :
    module.present.flatMap module.sectionBytes =
      (SectionId.all.zip module.presence).flatMap fun (id, name, isPresent) =>
        if isPresent then
          Format.sizeField (module.payload id).length ++
            (Leb128.unsigned (utf8 name).length ++ utf8 name) ++ module.payload id
        else
          [] := by
  have paired :
      SectionId.all.zip module.presence =
        SectionId.all.map fun id => (id, id.name, module.needs id) := by
    rw [presence_eq]
    rfl
  rw [present, flatMap_filter, paired, List.flatMap_map]
  rfl

/-- The header is the magic number and the version in four bytes each. -/
theorem headerBytes_eq :
    headerBytes =
      LittleEndian.bytes 4 magic.toNat ++ LittleEndian.bytes 4 formatVersion.toNat := by
  decide

/-- A finished encoding is the header and, for each section that the format lists as present, the
length of the payload in four bytes of LEB128, the name and the payload. Every length in it fits
these four bytes and is read back from them. -/
theorem bytes_of_encoding_eq_ok (module : Module) (encoding : Encoding)
    (isOk : module.encoding = .ok encoding) :
    encoding.bytes.toList =
        LittleEndian.bytes 4 magic.toNat ++ LittleEndian.bytes 4 formatVersion.toNat ++
          (SectionId.all.zip module.presence).flatMap (fun (id, name, isPresent) =>
            if isPresent then
              Format.sizeField (module.payload id).length ++
                (Leb128.unsigned (utf8 name).length ++ utf8 name) ++ module.payload id
            else
              []) ∧
      ∀ frame ∈ module.frames,
        (Format.sizeField frame.2).length = 4 ∧
          Leb128.readUnsigned (Format.sizeField frame.2) = some (frame.2, []) := by
  obtain ⟨fits, patched⟩ := (outcome_encoding module).of_eq_ok isOk
  constructor
  · rw [patched, bytes, headerBytes_eq, flatMap_present_eq]
  · intro frame member
    exact ⟨rfl, Reader.readUnsigned_sizeField (fits frame member)⟩

theorem bytes_of_encoding_sampleModule :
    ∃ encoding, sampleModule.encoding = .ok encoding ∧
      encoding.bytes.toList = sampleModule.bytes := by
  have fits : ∀ frame ∈ sampleModule.frames, frame.2 ≤ Gap.capacity := by
    decide +kernel
  obtain ⟨encoding, isOk, _⟩ := (outcome_encoding sampleModule).exists_ok fits
  have finished := (bytes_of_encoding_eq_ok sampleModule encoding isOk).1
  rw [← headerBytes_eq, ← flatMap_present_eq] at finished
  exact ⟨encoding, isOk, finished⟩

/-! ## Failed encodings -/

theorem exists_id_of_mem_frames {module : Module} {ids : List SectionId}
    (noCode : SectionId.code ∉ ids) {frame : Frame × Nat}
    (member : frame ∈
      ids.flatMap fun id => if module.needs id then module.sectionFrames id else []) :
    ∃ id : SectionId, id ≠ .code ∧ frame.1 = .sectionNamed id.name := by
  rw [List.mem_flatMap] at member
  obtain ⟨id, idMember, frameMember⟩ := member
  have notCode : id ≠ .code := by
    intro isCode
    rw [isCode] at idMember
    exact noCode idMember
  refine ⟨id, notCode, ?_⟩
  by_cases needed : module.needs id
  · rw [if_pos needed, sectionFrames, if_neg notCode, List.nil_append,
      List.mem_singleton] at frameMember
    rw [frameMember]
  · rw [if_neg needed] at frameMember
    exact absurd frameMember List.not_mem_nil

/-- The bodies stand together among the regions of a module. What stands before them are sections
other than the code section, and what stands behind them are sections. -/
theorem frames_split (module : Module) :
    ∃ before after,
      module.frames = before ++ (module.bodyFrames ++ after) ∧
        (∀ frame ∈ before,
          ∃ id : SectionId, id ≠ .code ∧ frame.1 = .sectionNamed id.name) ∧
        ∀ frame ∈ after, ∃ id : SectionId, frame.1 = .sectionNamed id.name := by
  let framesOf (ids : List SectionId) :=
    ids.flatMap fun id => if module.needs id then module.sectionFrames id else []
  let early : List SectionId :=
    [.types, .imports, .functions, .table, .memory, .exports, .start]
  let late : List SectionId := [.data, .terminator]
  let codeFrames : List (Frame × Nat) :=
    if module.needs .code then [(.sectionNamed SectionId.code.name, (module.payload .code).length)]
    else []
  refine ⟨framesOf early, codeFrames ++ framesOf late, ?_, ?_, ?_⟩
  · have order : SectionId.all = early ++ .code :: late := rfl
    have code :
        (if module.needs .code then module.sectionFrames .code else []) =
          module.bodyFrames ++ codeFrames := by
      by_cases needed : module.needs .code
      · rw [if_pos needed]
        simp only [codeFrames, if_pos needed]
        rfl
      · have noFunctions : module.functions = [] := by
          simpa [needs] using needed
        rw [if_neg needed]
        simp only [codeFrames, if_neg needed, bodyFrames, noFunctions]
        rfl
    have pieces :
        framesOf (early ++ .code :: late) =
          framesOf early ++
            ((if module.needs .code then module.sectionFrames .code else []) ++ framesOf late) :=
      List.flatMap_append
    rw [code, List.append_assoc] at pieces
    rw [frames_eq, order]
    exact pieces
  · intro frame member
    exact exists_id_of_mem_frames (by decide) member
  · intro frame member
    rcases List.mem_append.mp member with inCode | inLate
    · by_cases needed : module.needs .code
      · simp only [codeFrames, if_pos needed, List.mem_singleton] at inCode
        exact ⟨.code, by rw [inCode]⟩
      · simp only [codeFrames, if_neg needed] at inCode
        exact absurd inCode List.not_mem_nil
    · obtain ⟨id, _, named⟩ := exists_id_of_mem_frames (by decide) inLate
      exact ⟨id, named⟩

theorem fst_eq_of_mem_bodyFrames {module : Module} {frame : Frame × Nat}
    (member : frame ∈ module.bodyFrames) : ∃ index, frame.1 = .functionBody index := by
  rw [bodyFrames, List.mem_map] at member
  obtain ⟨entry, _, shape⟩ := member
  exact ⟨entry.2.toUInt32, by rw [← shape]⟩

/-- The first region that is too long is a section before the bodies, a body, or, when all bodies
fit, a section behind them. -/
theorem find?_frames_cases {module : Module} {frame : Frame × Nat}
    (found : module.frames.find? tooLong = some frame) :
    (∃ id : SectionId, id ≠ .code ∧ frame.1 = .sectionNamed id.name) ∨
      module.bodyFrames.find? tooLong = some frame ∨
      (module.bodyFrames.find? tooLong = none ∧
        ∃ id : SectionId, frame.1 = .sectionNamed id.name) := by
  obtain ⟨before, after, split, beforeNamed, afterNamed⟩ := frames_split module
  rw [split, List.find?_append, List.find?_append] at found
  cases inBefore : before.find? tooLong with
  | some first =>
      rw [inBefore, Option.some_or] at found
      have member := List.mem_of_find?_eq_some inBefore
      rw [Option.some.inj found] at member
      exact Or.inl (beforeNamed frame member)
  | none =>
      rw [inBefore, Option.none_or] at found
      cases inBodies : module.bodyFrames.find? tooLong with
      | some first =>
          rw [inBodies, Option.some_or] at found
          exact Or.inr (Or.inl found)
      | none =>
          rw [inBodies, Option.none_or] at found
          exact Or.inr (Or.inr ⟨rfl, afterNamed frame (List.mem_of_find?_eq_some found)⟩)

/-- A body is reported only if it is the first of the bodies that is too long. -/
theorem find?_bodyFrames_of_functionBody {module : Module} {index : UInt32} {size : Nat}
    (found : module.frames.find? tooLong = some (.functionBody index, size)) :
    module.bodyFrames.find? tooLong = some (.functionBody index, size) := by
  rcases find?_frames_cases found with ⟨id, _, named⟩ | isBody | ⟨_, id, named⟩
  · cases named
  · exact isBody
  · cases named

/-- The code section is reported only if all bodies fit. -/
theorem find?_bodyFrames_of_code {module : Module} {size : Nat}
    (found : module.frames.find? tooLong = some (.sectionNamed SectionId.code.name, size)) :
    module.bodyFrames.find? tooLong = none := by
  rcases find?_frames_cases found with ⟨id, notCode, named⟩ | isBody | ⟨bodiesFit, _⟩
  · exact absurd (SectionId.name_inj (Frame.sectionNamed.inj named)).symm notCode
  · obtain ⟨index, named⟩ := fst_eq_of_mem_bodyFrames (List.mem_of_find?_eq_some isBody)
    cases named
  · exact bodiesFit

theorem length_body_le_of_find?_eq_none {module : Module}
    (notFound : module.bodyFrames.find? tooLong = none) {function : Function}
    (member : function ∈ module.functions) :
    (Expr.bytesAll function.body).length ≤ Gap.capacity := by
  obtain ⟨index, bound, shape⟩ := List.getElem_of_mem member
  have entry : (function, index) ∈ module.functions.zipIdx := by
    rw [List.mem_zipIdx_iff_getElem?, ← shape]
    exact List.getElem?_eq_getElem bound
  exact find?_tooLong_eq_none_iff.mp notFound _ (List.mem_map_of_mem entry)

theorem length_body_le {module : Module}
    (fits : ∀ frame ∈ module.frames, frame.2 ≤ Gap.capacity) {function : Function}
    (member : function ∈ module.functions) :
    (Expr.bytesAll function.body).length ≤ Gap.capacity := by
  obtain ⟨before, after, split, _⟩ := frames_split module
  have bodiesFit : module.bodyFrames.find? tooLong = none := by
    rw [find?_tooLong_eq_none_iff]
    intro frame frameMember
    apply fits
    rw [split]
    exact List.mem_append_right _ (List.mem_append_left _ frameMember)
  exact length_body_le_of_find?_eq_none bodiesFit member

/-- Among fewer than `2 ^ 32` functions the reported index is that of the first body that is too
long. -/
theorem function_of_find?_bodyFrames {module : Module}
    (few : module.functions.length ≤ 2 ^ 32) {index : UInt32} {size : Nat}
    (found : module.bodyFrames.find? tooLong = some (.functionBody index, size)) :
    (∃ function, module.functions[index.toNat]? = some function ∧
        (Expr.bytesAll function.body).length = size) ∧
      ∀ function ∈ module.functions.take index.toNat,
        (Expr.bytesAll function.body).length ≤ Gap.capacity := by
  rw [List.find?_eq_some_iff_getElem] at found
  obtain ⟨_, place, bound, shape, fits⟩ := found
  have inList : place < module.functions.length := by
    simpa [bodyFrames] using bound
  have entryAt (other : Nat) (otherBound : other < module.bodyFrames.length)
      (otherInList : other < module.functions.length) :
      module.bodyFrames[other] =
        (.functionBody other.toUInt32,
          (Expr.bytesAll module.functions[other].body).length) := by
    simp [bodyFrames]
  rw [entryAt place bound inList, Prod.mk.injEq, Frame.functionBody.injEq] at shape
  obtain ⟨sameIndex, sameSize⟩ := shape
  have isPlace : index.toNat = place := by
    rw [← sameIndex, UInt32.toNat_ofNat', Nat.mod_eq_of_lt (by omega)]
  rw [isPlace]
  refine ⟨⟨module.functions[place], List.getElem?_eq_getElem inList, sameSize⟩, ?_⟩
  intro function member
  obtain ⟨earlier, earlierBound, earlierShape⟩ := List.getElem_of_mem member
  have isEarlier : earlier < place := by
    rw [List.length_take] at earlierBound
    omega
  have notTooLong := fits earlier isEarlier
  rw [entryAt earlier (by omega) (by omega)] at notTooLong
  rw [List.getElem_take] at earlierShape
  rw [← earlierShape]
  simpa [tooLong] using notTooLong

theorem find?_frames_of_encoding_eq_error {module : Module} {frame : Frame} {size limit : Nat}
    (failed : module.encoding = .error (.frameTooLong frame size limit)) :
    module.frames.find? tooLong = some (frame, size) := by
  obtain ⟨found, isFirst, same⟩ := ((outcome_encoding module).eq_error_iff _).mp failed
  rw [tooLongError, EncodingError.frameTooLong.injEq] at same
  obtain ⟨sameFrame, sameSize, _⟩ := same
  rw [isFirst, sameFrame, sameSize]

/-- An encoding fails exactly if some region is longer than its size field can say, and the error
names the first such region with its exact length. Hence a body that is too long is never reported
as the section it is in, and the index in the error is that of the first such body. -/
theorem encoding_eq_error_iff_first_tooLong (module : Module) :
    ((∃ error, module.encoding = .error error) ↔
        ∃ frame ∈ module.frames, 2 ^ 28 - 1 < frame.2) ∧
      (∀ error, module.encoding = .error error ↔
        ∃ earlier frame size later,
          module.frames = earlier ++ (frame, size) :: later ∧
            (∀ other ∈ earlier, other.2 ≤ 2 ^ 28 - 1) ∧ 2 ^ 28 - 1 < size ∧
            error = .frameTooLong frame size (2 ^ 28 - 1)) ∧
      (∀ error, module.encode = .error error ↔ module.encoding = .error error) ∧
      (∀ function ∈ module.functions, 2 ^ 28 - 1 < (Expr.bytesAll function.body).length →
        ∀ size limit,
          module.encoding ≠ .error (.frameTooLong (.sectionNamed "code") size limit)) ∧
      (module.functions.length ≤ 2 ^ 32 →
        ∀ index size limit,
          module.encoding = .error (.frameTooLong (.functionBody index) size limit) →
            (∃ function, module.functions[index.toNat]? = some function ∧
                (Expr.bytesAll function.body).length = size) ∧
              ∀ function ∈ module.functions.take index.toNat,
                (Expr.bytesAll function.body).length ≤ 2 ^ 28 - 1) := by
  have errorIff := (outcome_encoding module).eq_error_iff
  refine ⟨?_, ?_, ?_, ?_, ?_⟩
  · constructor
    · rintro ⟨error, failed⟩
      obtain ⟨frame, found, _⟩ := (errorIff error).mp failed
      have isTooLong : tooLong frame := List.find?_some found
      exact ⟨frame, List.mem_of_find?_eq_some found, of_decide_eq_true isTooLong⟩
    · rintro ⟨frame, member, isTooLong⟩
      cases found : module.frames.find? tooLong with
      | some first => exact ⟨tooLongError first, (errorIff _).mpr ⟨first, found, rfl⟩⟩
      | none =>
          have fits := find?_tooLong_eq_none_iff.mp found frame member
          exact absurd fits (Nat.not_le.mpr isTooLong)
  · intro error
    rw [errorIff]
    constructor
    · rintro ⟨⟨frame, size⟩, found, same⟩
      obtain ⟨earlier, later, shape, fits, isTooLong⟩ := find?_tooLong_eq_some_iff.mp found
      exact ⟨earlier, frame, size, later, shape, fits, isTooLong, same⟩
    · rintro ⟨earlier, frame, size, later, shape, fits, isTooLong, same⟩
      exact ⟨(frame, size),
        find?_tooLong_eq_some_iff.mpr ⟨earlier, later, shape, fits, isTooLong⟩, same⟩
  · intro error
    rw [errorIff, (outcome_encode module).eq_error_iff]
  · intro function member isTooLong size limit failed
    have found := find?_frames_of_encoding_eq_error failed
    have fits := length_body_le_of_find?_eq_none (find?_bodyFrames_of_code found) member
    exact absurd fits (Nat.not_le.mpr isTooLong)
  · intro few index size limit failed
    have found := find?_frames_of_encoding_eq_error failed
    exact function_of_find?_bodyFrames few (find?_bodyFrames_of_functionBody found)

/-- Two functions. The first one has an empty body, the second one so many instructions of one
byte. -/
def withBodyOfLength (size : Nat) : Module where
  functions := [⟨0, [], []⟩, ⟨0, [], List.replicate size .nop⟩]

theorem length_bytesAll_replicate_nop (size : Nat) :
    (Expr.bytesAll (List.replicate size .nop)).length = size := by
  induction size with
  | zero => rfl
  | succ size inductionHypothesis =>
      rw [Expr.bytesAll] at inductionHypothesis ⊢
      rw [List.replicate_succ, Expr.instructionsAll, List.flatMap_append, List.length_append,
        inductionHypothesis]
      exact Nat.add_comm 1 size

/-- The regions before the second body are short, whatever its length is. -/
theorem frames_withBodyOfLength (size : Nat) :
    ∃ later,
      (withBodyOfLength size).frames =
        [(.sectionNamed "function", 3), (.functionBody 0, 0)] ++ (.functionBody 1, size) ::
          later := by
  let code := (withBodyOfLength size).payload .code
  have typeIndices : ((withBodyOfLength size).payload .functions).length = 3 := by
    have payload :
        (withBodyOfLength size).payload .functions =
          Format.vector Format.index ([0, 0] : List Index) := rfl
    rw [payload]
    decide +kernel
  refine ⟨[(.sectionNamed "code", code.length), (.sectionNamed "end", 0)], ?_⟩
  have unfolded :
      (withBodyOfLength size).frames =
        [(.sectionNamed "function", ((withBodyOfLength size).payload .functions).length),
          (.functionBody 0, 0),
          (.functionBody 1, (Expr.bytesAll (List.replicate size .nop)).length),
          (.sectionNamed "code", code.length), (.sectionNamed "end", 0)] := rfl
  rw [unfolded, typeIndices, length_bytesAll_replicate_nop]
  rfl

theorem encoding_withBodyOfLength_eq_error :
    (withBodyOfLength (2 ^ 28)).encoding =
      .error (.frameTooLong (.functionBody 1) (2 ^ 28) (2 ^ 28 - 1)) := by
  obtain ⟨later, shape⟩ := frames_withBodyOfLength (2 ^ 28)
  have errorIff := (encoding_eq_error_iff_first_tooLong (withBodyOfLength (2 ^ 28))).2.1
  refine (errorIff _).mpr ⟨_, _, _, later, shape, ?_, by decide, rfl⟩
  decide

end Module

end WasmBinary
