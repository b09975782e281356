import WasmBinary.Proofs.Stream.Patched
import WasmBinary.Proofs.Stream.Put

/-!
The encoding of a module. The bytes that are written in one pass, with size fields filled in
afterwards, are the bytes that the format computes from the inside out; and an encoding fails
exactly when some region does not fit its size field, with the first such region as the reason.
-/

namespace WasmBinary

/-! ## How an encoding ends

An encoding completes regions of known lengths one after another, and each of them has to fit its
size field. Hence the first region that is too long decides the error, and without one there is a
result.
-/

/-- Whether a region is longer than its size field can say. -/
def tooLong (frame : Frame × Nat) : Bool :=
  Gap.capacity < frame.2

theorem find?_tooLong_eq_none_iff {frames : List (Frame × Nat)} :
    frames.find? tooLong = none ↔ ∀ frame ∈ frames, frame.2 ≤ Gap.capacity := by
  simp [tooLong]

/-- The first region that is too long: those before it fit. -/
theorem find?_tooLong_eq_some_iff {frames : List (Frame × Nat)} {frame : Frame × Nat} :
    frames.find? tooLong = some frame ↔
      ∃ earlier later,
        frames = earlier ++ frame :: later ∧ (∀ other ∈ earlier, other.2 ≤ Gap.capacity) ∧
          Gap.capacity < frame.2 := by
  rw [List.find?_eq_some_iff_append]
  simp only [tooLong, decide_eq_true_eq, Bool.not_eq_eq_eq_not, Bool.not_true,
    decide_eq_false_iff_not, Nat.not_lt]
  constructor
  · rintro ⟨isTooLong, earlier, later, shape, fits⟩
    exact ⟨earlier, later, shape, fits, isTooLong⟩
  · rintro ⟨earlier, later, shape, fits, isTooLong⟩
    exact ⟨isTooLong, earlier, later, shape, fits⟩

def tooLongError (frame : Frame × Nat) : EncodingError :=
  .frameTooLong frame.1 frame.2 Gap.capacity

/-- A result that depends on regions completed in this order: the first one that is too long is
reported, and if all of them fit, there is a value with the given property. -/
def Outcome {α : Type} (frames : List (Frame × Nat)) (result : Except EncodingError α)
    (property : α → Prop) : Prop :=
  match frames.find? tooLong with
  | some frame => result = .error (tooLongError frame)
  | none => ∃ value, result = .ok value ∧ property value

namespace Outcome

variable {α β : Type} {frames others : List (Frame × Nat)} {result : Except EncodingError α}
  {property : α → Prop}

theorem of_ok {value : α} (holds : property value) :
    Outcome [] (.ok value : Except EncodingError α) property :=
  ⟨value, rfl, holds⟩

/-- One region decides by its own length. -/
theorem of_frame {frame : Frame} {size : Nat}
    (refused : Gap.capacity < size → result = .error (.frameTooLong frame size Gap.capacity))
    (accepted : size ≤ Gap.capacity → ∃ value, result = .ok value ∧ property value) :
    Outcome [(frame, size)] result property := by
  by_cases isTooLong : Gap.capacity < size
  · rw [Outcome, List.find?_cons_of_pos (by simpa [tooLong] using isTooLong)]
    exact refused isTooLong
  · rw [Outcome, List.find?_cons_of_neg (by simpa [tooLong] using isTooLong)]
    exact accepted (Nat.not_lt.mp isTooLong)

/-- Steps that follow one another complete their regions one after another. -/
theorem bind {next : α → Except EncodingError β} {after : β → Prop}
    (first : Outcome frames result property)
    (second : ∀ value, property value → Outcome others (next value) after) :
    Outcome (frames ++ others) (result >>= next) after := by
  rw [Outcome] at first ⊢
  rw [List.find?_append]
  cases found : frames.find? tooLong with
  | some frame =>
      rw [found] at first
      rw [first]
      rfl
  | none =>
      rw [found] at first
      obtain ⟨value, isOk, holds⟩ := first
      rw [isOk]
      exact second value holds

theorem imp {weaker : α → Prop} (outcome : Outcome frames result property)
    (implies : ∀ value, property value → weaker value) : Outcome frames result weaker := by
  rw [Outcome] at outcome ⊢
  split at outcome
  · exact outcome
  · obtain ⟨value, isOk, holds⟩ := outcome
    exact ⟨value, isOk, implies value holds⟩

theorem map {change : α → β} {after : β → Prop} (outcome : Outcome frames result property)
    (implies : ∀ value, property value → after (change value)) :
    Outcome frames (result.map change) after := by
  rw [Outcome] at outcome ⊢
  split at outcome
  · rw [outcome]
    rfl
  · obtain ⟨value, isOk, holds⟩ := outcome
    rw [isOk]
    exact ⟨change value, rfl, implies value holds⟩

/-! ### Reading the end of an encoding -/

/-- The error is that of the first region that is too long, and there is no other. -/
theorem eq_error_iff (outcome : Outcome frames result property) (error : EncodingError) :
    result = .error error ↔
      ∃ frame, frames.find? tooLong = some frame ∧ error = tooLongError frame := by
  rw [Outcome] at outcome
  cases found : frames.find? tooLong with
  | some frame =>
      rw [found] at outcome
      rw [outcome]
      simp [eq_comm]
  | none =>
      rw [found] at outcome
      obtain ⟨value, isOk, _⟩ := outcome
      simp [isOk]

/-- If there is a result, all regions fit and the result is as promised. -/
theorem of_eq_ok (outcome : Outcome frames result property) {value : α}
    (isOk : result = .ok value) :
    (∀ frame ∈ frames, frame.2 ≤ Gap.capacity) ∧ property value := by
  rw [Outcome] at outcome
  cases found : frames.find? tooLong with
  | some frame =>
      rw [found, isOk] at outcome
      cases outcome
  | none =>
      rw [found] at outcome
      obtain ⟨other, otherOk, holds⟩ := outcome
      have same : other = value := by
        rw [isOk] at otherOk
        exact (Except.ok.inj otherOk).symm
      rw [same] at holds
      exact ⟨find?_tooLong_eq_none_iff.mp found, holds⟩

theorem exists_ok (outcome : Outcome frames result property)
    (fits : ∀ frame ∈ frames, frame.2 ≤ Gap.capacity) :
    ∃ value, result = .ok value ∧ property value := by
  rw [Outcome, find?_tooLong_eq_none_iff.mpr fits] at outcome
  exact outcome

end Outcome

/-! ## What a section holds

The encoder appends the payload of the format, unless the body of a function is too long for its
size field.
-/

namespace Stream

/-! ### Entries -/

theorem putValueType_eq (stream : Stream) (type : ValueType) :
    stream.putValueType type = stream.putBytes [type.tag] :=
  putByte_eq_putBytes stream _

theorem putFunctionType_eq (stream : Stream) (signature : FunctionType) :
    stream.putFunctionType signature = stream.putBytes (Format.functionType signature) := by
  rw [putFunctionType, putOption_eq putValueType_eq, putVector_eq putValueType_eq,
    putByte_eq_putBytes, putBytes_putBytes, putBytes_putBytes, ← List.append_assoc]
  rfl

theorem putImport_eq (stream : Stream) (entry : Import) :
    stream.putImport entry = stream.putBytes (Format.importEntry entry) := by
  rw [putImport, putIndex_eq, putString_eq, putString_eq, putBytes_putBytes, putBytes_putBytes,
    ← List.append_assoc]
  rfl

theorem putExport_eq (stream : Stream) (entry : Export) :
    stream.putExport entry = stream.putBytes (Format.exportEntry entry) := by
  cases target : entry.target with
  | function index =>
      simp only [putExport, Format.exportEntry, target, putIndex_eq, putString_eq,
        putBytes_putBytes]
      rfl
  | memory =>
      simp only [putExport, Format.exportEntry, target, putString_eq]
      rfl

theorem putMemory_eq (exported : Bool) (stream : Stream) (memory : Memory) :
    stream.putMemory exported memory = stream.putBytes (Format.memory exported memory) := by
  rw [putMemory, putUnsigned_eq, putUnsigned_eq, putFlag_eq, putBytes_putBytes,
    putBytes_putBytes, ← List.append_assoc]
  rfl

theorem putSegment_eq (stream : Stream) (segment : Segment) :
    stream.putSegment segment = stream.putBytes (Format.segment segment) := by
  rw [putSegment, putUnsigned_eq, putString_eq, putBytes_putBytes]
  rfl

theorem putLocalGroup_eq (stream : Stream) (group : LocalGroup) :
    stream.putLocalGroup group = stream.putBytes (Format.localGroup group) := by
  rw [putLocalGroup, putUnsigned_eq, putValueType_eq, putBytes_putBytes]
  rfl

/-! ### Regions behind a size field -/

/-- A reserved field that is filled with the length of what follows it becomes that length. -/
theorem outcome_fill {stream after : Stream} {bytes : List UInt8} (inBounds : stream.InBounds)
    (appends : stream.reserve.2.Appends after bytes) (frame : Frame) (size : Nat) :
    Outcome [(frame, size)] (accepted (after.fill stream.reserve.1 size frame))
      (stream.Appends · (Format.sizeField size ++ bytes)) := by
  have reserved :
      after.patched.toList = stream.patched.toList ++ (Gap.blank ++ bytes) := by
    have gap := toList_patched_putBytes inBounds Gap.blank
    rw [appends.toList_patched, ← List.append_assoc, ← gap]
    rfl
  apply Outcome.of_frame
  · intro tooLong
    rw [fill_of_lt after stream.reserve.1 frame tooLong]
    rfl
  · intro fits
    obtain ⟨filled, isOk, filledInBounds, toList_patched⟩ :=
      fill_of_le frame fits appends.inBounds (length_patched stream) rfl reserved
    rw [Gap.sizeBytes_append_blank fits] at toList_patched
    exact ⟨filled, accepted_eq_ok_iff.mpr isOk, filledInBounds, toList_patched⟩

/-- Appends a region behind a size field, with a label between them. -/
def putRegion (stream : Stream) (frame : Frame) (label : List UInt8)
    (put : Stream → Except EncodingError Stream) : Except EncodingError Stream :=
  let start := stream.reserve.2.putBytes label
  put start >>= fun paid =>
    accepted (paid.fill stream.reserve.1 (paid.position - start.position) frame)

/-- A region in front of which its length is filled in stands there as in the format: the length,
the label and the content. -/
theorem outcome_putRegion {stream : Stream} (inBounds : stream.InBounds) (frame : Frame)
    (label : List UInt8) {put : Stream → Except EncodingError Stream}
    {frames : List (Frame × Nat)} {content : List UInt8}
    (each : ∀ stream, stream.InBounds → Outcome frames (put stream) (stream.Appends · content)) :
    Outcome (frames ++ [(frame, content.length)]) (stream.putRegion frame label put)
      (stream.Appends · (Format.sizeField content.length ++ (label ++ content))) := by
  let start := stream.reserve.2.putBytes label
  have appendsLabel : stream.reserve.2.Appends start label :=
    appends_putBytes (inBounds.putBytes Gap.blank) label
  apply (each start appendsLabel.inBounds).bind
  intro paid appendsContent
  have size : paid.position - start.position = content.length := by
    rw [appendsContent.position_eq]
    omega
  rw [size]
  exact outcome_fill inBounds (appendsLabel.trans appendsContent) frame content.length

/-- The code of a function is its locals and then one region, its body. -/
theorem putFunction_eq (stream : Stream) (index : Nat) (function : Function) :
    stream.putFunction index function =
      (stream.putBytes
          (Format.vector Format.localGroup (LocalGroup.ofLocals function.locals))).putRegion
        (.functionBody index.toUInt32) []
        (fun stream => .ok (stream.putBytes (Expr.bytesAll function.body))) := by
  simp only [putFunction, putVector_eq putLocalGroup_eq, putExprs_eq, putRegion, putBytes_nil]
  rfl

/-- A function is written as the format wants it unless its body is too long. -/
theorem outcome_putFunction {stream : Stream} (inBounds : stream.InBounds) (index : Nat)
    (function : Function) :
    Outcome [(.functionBody index.toUInt32, (Expr.bytesAll function.body).length)]
      (stream.putFunction index function)
      (stream.Appends · (Format.functionCode function)) := by
  let locals := Format.vector Format.localGroup (LocalGroup.ofLocals function.locals)
  let body := Expr.bytesAll function.body
  have putBody (stream : Stream) (inBounds : stream.InBounds) :
      Outcome [] (.ok (stream.putBytes body)) (stream.Appends · body) :=
    Outcome.of_ok (appends_putBytes inBounds body)
  have region :=
    outcome_putRegion (inBounds.putBytes locals) (.functionBody index.toUInt32) [] putBody
  rw [putFunction_eq]
  apply region.imp
  intro after appends
  rw [Format.functionCode, List.append_assoc]
  exact (appends_putBytes inBounds locals).trans appends

/-! ### Payloads -/

/-- A loop whose rounds append bytes and complete regions does so for all items in turn. -/
theorem outcome_foldlM {σ ι : Type} (stream : σ → Stream) {step : σ → ι → Except EncodingError σ}
    {frames : ι → List (Frame × Nat)} {bytes : ι → List UInt8}
    (each : ∀ state item, (stream state).InBounds →
      Outcome (frames item) (step state item)
        (fun after => (stream state).Appends (stream after) (bytes item)))
    (items : List ι) {state : σ} (inBounds : (stream state).InBounds) :
    Outcome (items.flatMap frames) (items.foldlM step state)
      (fun after => (stream state).Appends (stream after) (items.flatMap bytes)) := by
  induction items generalizing state with
  | nil => exact Outcome.of_ok (Appends.refl inBounds)
  | cons item items inductionHypothesis =>
      rw [List.flatMap_cons, List.foldlM_cons, List.flatMap_cons]
      apply (each state item inBounds).bind
      intro next appendsItem
      apply (inductionHypothesis appendsItem.inBounds).imp
      intro after appendsItems
      exact appendsItem.trans appendsItems

/-- A counted list is written as in the format if each of its items is. -/
theorem outcome_putVectorM {α : Type} {put : Stream → α → Except EncodingError Stream}
    {frames : α → List (Frame × Nat)} {bytes : α → List UInt8}
    (each : ∀ stream item, stream.InBounds →
      Outcome (frames item) (put stream item) (stream.Appends · (bytes item)))
    {stream : Stream} (inBounds : stream.InBounds) (items : List α) :
    Outcome (items.flatMap frames) (stream.putVectorM items put)
      (stream.Appends · (Format.vector bytes items)) := by
  have counted := appends_putBytes inBounds (Leb128.unsigned items.length)
  have loop := outcome_foldlM id each items counted.inBounds
  apply loop.imp
  intro after appends
  exact counted.trans appends

/-- The code section completes the regions of all bodies, one after another. -/
theorem outcome_putFunctions {stream : Stream} (inBounds : stream.InBounds) (module : Module) :
    Outcome module.bodyFrames (stream.putPayload module .code)
      (stream.Appends · (module.payload .code)) := by
  have loop :=
    outcome_putVectorM
      (fun stream (entry : Function × Nat) inBounds =>
        outcome_putFunction inBounds entry.2 entry.1)
      inBounds module.functions.zipIdx
  have bytes :
      Format.vector (fun entry : Function × Nat => Format.functionCode entry.1)
          module.functions.zipIdx =
        Format.vector Format.functionCode module.functions := by
    have functions : module.functions.zipIdx.map Prod.fst = module.functions :=
      List.zipIdx_map_fst 0 module.functions
    rw [Format.vector, Format.vector, List.length_zipIdx, ← List.flatMap_map, functions]
  rw [bytes, ← List.map_eq_flatMap] at loop
  exact loop

/-- Outside the code section nothing can go wrong. -/
theorem putPayload_eq_ok (stream : Stream) (module : Module) {id : SectionId}
    (notCode : id ≠ .code) :
    stream.putPayload module id = .ok (stream.putBytes (module.payload id)) := by
  cases id with
  | code => exact absurd rfl notCode
  | types => exact congrArg _ (putVector_eq putFunctionType_eq stream _)
  | imports => exact congrArg _ (putVector_eq putImport_eq stream _)
  | functions =>
      have each (stream : Stream) (function : Function) := putIndex_eq stream function.type
      exact congrArg _ (putVector_eq each stream _)
  | table => exact congrArg _ (putVector_eq putIndex_eq stream _)
  | memory => exact congrArg _ (putOption_eq (putMemory_eq module.exportsMemory) stream _)
  | exports => exact congrArg _ (putVector_eq putExport_eq stream _)
  | start => exact congrArg _ (putOption_eq putIndex_eq stream _)
  | data =>
      have each (stream : Stream) (memory : Memory) :=
        putVector_eq putSegment_eq stream memory.segments
      exact congrArg _ (putOption_eq each stream _)
  | terminator => exact congrArg _ (putBytes_nil stream).symm

/-- A payload is written as the format wants it unless the body of a function is too long. -/
theorem outcome_putPayload {stream : Stream} (inBounds : stream.InBounds) (module : Module)
    (id : SectionId) :
    Outcome (if id = .code then module.bodyFrames else []) (stream.putPayload module id)
      (stream.Appends · (module.payload id)) := by
  by_cases isCode : id = .code
  · rw [if_pos isCode, isCode]
    exact outcome_putFunctions inBounds module
  · rw [if_neg isCode, putPayload_eq_ok stream module isCode]
    exact Outcome.of_ok (appends_putBytes inBounds _)

end Stream

/-! ## The encoding of a module -/

theorem flatMap_filter {α β : Type} (keep : α → Bool) (image : α → List β) (items : List α) :
    (items.filter keep).flatMap image =
      items.flatMap fun item => if keep item then image item else [] := by
  induction items with
  | nil => rfl
  | cons item items inductionHypothesis =>
      rw [List.flatMap_cons, ← inductionHypothesis]
      by_cases kept : keep item
      · rw [List.filter_cons_of_pos kept, if_pos kept, List.flatMap_cons]
      · rw [List.filter_cons_of_neg kept, if_neg kept, List.nil_append]

namespace Module

/-- The regions that a section completes: those inside it, and then its payload. -/
def sectionFrames (module : Module) (id : SectionId) : List (Frame × Nat) :=
  (if id = .code then module.bodyFrames else []) ++
    [(.sectionNamed id.name, (module.payload id).length)]

theorem frames_eq (module : Module) :
    module.frames =
      SectionId.all.flatMap fun id => if module.needs id then module.sectionFrames id else [] :=
  flatMap_filter module.needs module.sectionFrames SectionId.all

theorem filter_needs_concat {module : Module} {id : SectionId} (needed : module.needs id = true)
    (ids : List SectionId) :
    (ids ++ [id]).filter module.needs = ids.filter module.needs ++ [id] := by
  rw [List.filter_append, List.filter_cons_of_pos needed, List.filter_nil]

theorem filter_needs_concat_of_not {module : Module} {id : SectionId}
    (notNeeded : ¬ module.needs id = true) (ids : List SectionId) :
    (ids ++ [id]).filter module.needs = ids.filter module.needs := by
  rw [List.filter_append, List.filter_cons_of_neg notNeeded, List.filter_nil, List.append_nil]

end Module

namespace Encoder

/-- What is left of an encoding when some sections are done: their bytes behind the header, and a
layout with their places. -/
structure Wrote (module : Module) (ids : List SectionId) (encoder : Encoder) : Prop where
  inBounds : encoder.stream.InBounds
  toList_patched :
    encoder.stream.patched.toList =
      Module.headerBytes ++ (ids.filter module.needs).flatMap module.sectionBytes
  toList_sections :
    encoder.layout.sections.toList = (ids.filter module.needs).map module.layoutEntry

/-! ### One section -/

/-- The size that the layout records can be read from the length of the stream, as filling a field
does not move anything. -/
theorem putFramed_eq (encoder : Encoder) (name : String)
    (putPayload : Stream → Except EncodingError Stream) :
    encoder.putFramed name putPayload =
      (encoder.stream.putRegion (.sectionNamed name) (Format.text name) putPayload).map
        fun filled =>
          let start := encoder.stream.reserve.2.putBytes (Format.text name)
          { stream := filled
            layout := encoder.layout.push
              { name
                offset := encoder.stream.position
                size := filled.position - start.position } } := by
  let start := encoder.stream.reserve.2.putBytes (Format.text name)
  have named : encoder.stream.reserve.2.putString (utf8 name) = start :=
    Stream.putString_eq _ (utf8 name)
  simp only [putFramed, named, Stream.putRegion]
  cases putPayload start with
  | error error => rfl
  | ok paid =>
      let answer :=
        paid.fill encoder.stream.reserve.1 (paid.position - start.position) (.sectionNamed name)
      change (accepted answer >>= _) = (accepted answer).map _
      cases outcome : accepted answer with
      | error error => rfl
      | ok filled =>
          have isOk : answer = (.ok (), filled) := accepted_eq_ok_iff.mp outcome
          obtain ⟨_, rfl⟩ := Stream.eq_withPatches_of_fill_eq_ok isOk
          rfl

/-- A section is written as in the format, and the layout gets its place and the length of its
payload. -/
theorem outcome_putFramed {encoder : Encoder} (inBounds : encoder.stream.InBounds) (name : String)
    {putPayload : Stream → Except EncodingError Stream} {frames : List (Frame × Nat)}
    {payload : List UInt8}
    (each : ∀ stream, stream.InBounds →
      Outcome frames (putPayload stream) (stream.Appends · payload)) :
    Outcome (frames ++ [(.sectionNamed name, payload.length)])
      (encoder.putFramed name putPayload)
      (fun after =>
        encoder.stream.Appends after.stream
            (Format.sizeField payload.length ++ (Format.text name ++ payload)) ∧
          after.layout =
            encoder.layout.push
              { name, offset := encoder.stream.position, size := payload.length }) := by
  let label := Format.text name
  let start := encoder.stream.reserve.2.putBytes label
  have appendsBlank := Stream.appends_putBytes inBounds Gap.blank
  have appendsStart : encoder.stream.Appends start (Gap.blank ++ label) :=
    appendsBlank.trans (Stream.appends_putBytes appendsBlank.inBounds label)
  have region := Stream.outcome_putRegion inBounds (.sectionNamed name) label each
  rw [putFramed_eq]
  apply region.map
  intro filled appends
  have size : filled.position - start.position = payload.length := by
    rw [appends.position_eq, appendsStart.position_eq]
    simp only [List.length_append, Format.sizeField, Gap.blank, List.length_cons]
    omega
  refine ⟨appends, ?_⟩
  rw [← size]

/-- A section goes behind the sections in front of it. -/
theorem outcome_putSection {module : Module} {id : SectionId} {encoder : Encoder}
    (wrote : Wrote module id.before encoder) :
    Outcome (if module.needs id then module.sectionFrames id else [])
      (encoder.putSection module id) (Wrote module (id.before ++ [id])) := by
  by_cases needed : module.needs id
  · have each (stream : Stream) (inBounds : stream.InBounds) :=
      Stream.outcome_putPayload inBounds module id
    have framed := outcome_putFramed wrote.inBounds id.name each
    have offset : encoder.stream.position = module.offset id := by
      rw [← Stream.length_patched, wrote.toList_patched, List.length_append]
      rfl
    have filtered := Module.filter_needs_concat needed id.before
    rw [if_pos needed, putSection, if_pos needed]
    apply framed.imp
    rintro after ⟨appends, layout⟩
    refine ⟨appends.inBounds, ?_, ?_⟩
    · rw [appends.toList_patched, wrote.toList_patched, filtered, List.flatMap_append,
        List.flatMap_singleton, Module.sectionBytes]
      simp only [List.append_assoc]
    · rw [layout, offset, Layout.push, Array.toList_push, wrote.toList_sections, filtered,
        List.map_append]
      rfl
  · have filtered := Module.filter_needs_concat_of_not needed id.before
    rw [if_neg needed, putSection, if_neg needed]
    refine Outcome.of_ok ⟨wrote.inBounds, ?_, ?_⟩
    · rw [filtered, wrote.toList_patched]
    · rw [filtered, wrote.toList_sections]

/-! ### The whole module -/

theorem stream_putHeader : (putHeader {}).stream = ({} : Stream).putBytes Module.headerBytes := by
  decide +kernel

theorem wrote_putHeader (module : Module) : Wrote module [] (putHeader {}) := by
  have appends := Stream.appends_putBytes Stream.inBounds_empty Module.headerBytes
  refine ⟨?_, ?_, rfl⟩
  · rw [stream_putHeader]
    exact appends.inBounds
  · rw [stream_putHeader, appends.toList_patched]
    rfl

/-- The sections that are left are put behind those that are done. -/
theorem outcome_putSections {module : Module} {done left : List SectionId} {encoder : Encoder}
    (order : SectionId.all = done ++ left) (wrote : Wrote module done encoder) :
    Outcome (left.flatMap fun id => if module.needs id then module.sectionFrames id else [])
      (left.foldlM (fun encoder id => encoder.putSection module id) encoder)
      (Wrote module SectionId.all) := by
  induction left generalizing done encoder with
  | nil =>
      rw [List.append_nil] at order
      rw [order]
      exact Outcome.of_ok wrote
  | cons id left inductionHypothesis =>
      have place := SectionId.before_eq_of_all_eq order
      rw [← place] at wrote order
      rw [List.flatMap_cons, List.foldlM_cons]
      apply (outcome_putSection wrote).bind
      intro next wroteNext
      rw [List.append_cons] at order
      exact inductionHypothesis order wroteNext

/-- The encoder writes the sections that the module needs, with the places that the format computes
for them, unless some region is too long. -/
theorem outcome_putModule (module : Module) :
    Outcome module.frames (Encoder.putModule {} module) (Wrote module SectionId.all) := by
  rw [Module.frames_eq]
  exact outcome_putSections rfl (wrote_putHeader module)

end Encoder

end WasmBinary
