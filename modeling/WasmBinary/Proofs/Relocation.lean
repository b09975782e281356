import WasmBinary.Proofs.Encoding

/-!
Writing does the same anywhere. Main statement: what an encoder writes, stages and records does not
depend on what stands there already, except that positions are moved behind it; and what stands
there already stays as it is.
-/

namespace WasmBinary

/-! ## Writing elsewhere

What writes leave where nothing stands is moved behind what stands there already.
-/

/-- The same overwrite for bytes that stand so many positions further on. -/
def Patch.shift (patch : Patch) (distance : Nat) : Patch :=
  { patch with position := distance + patch.position }

def LayoutEntry.shift (entry : LayoutEntry) (distance : Nat) : LayoutEntry :=
  { entry with offset := distance + entry.offset }

/-- A stream with another one behind it. -/
def Stream.append (stream later : Stream) : Stream where
  buffer := stream.buffer ++ later.buffer
  patches := stream.patches ++ later.patches.map (·.shift stream.position)

/-- An encoder with what another one has written, staged and recorded behind it. -/
def Encoder.append (encoder later : Encoder) : Encoder where
  stream := encoder.stream.append later.stream
  layout :=
    { encoder.layout with
      sections :=
        encoder.layout.sections ++ later.layout.sections.map (·.shift encoder.stream.position) }

inductive Operation
  | expr (expr : Expr)
  | exprs (exprs : List Expr)
  | functionType (signature : FunctionType)
  | function (index : Nat) (function : Function)
  /-- What a section holds, without its frame. -/
  | payload (module : Module) (id : SectionId)
  /-- A section, if the module needs it. -/
  | framed (module : Module) (id : SectionId)

namespace Encoder

/-- Writes to the stream of an encoder and records nothing. -/
def onStream (encoder : Encoder) (put : Stream → Except EncodingError Stream) :
    Except EncodingError Encoder :=
  (put encoder.stream).map fun stream => { encoder with stream }

def perform (encoder : Encoder) : Operation → Except EncodingError Encoder
  | .expr expr => encoder.onStream fun stream => .ok (stream.putExpr expr)
  | .exprs exprs => encoder.onStream fun stream => .ok (stream.putExprs exprs)
  | .functionType signature =>
      encoder.onStream fun stream => .ok (stream.putFunctionType signature)
  | .function index function => encoder.onStream (·.putFunction index function)
  | .payload module id => encoder.onStream (·.putPayload module id)
  | .framed module id => encoder.putSection module id

/-- Everything that an encoder has written, staged and recorded is still there, at the same
places. -/
structure Keeps (encoder after : Encoder) : Prop where
  bytes : encoder.stream.bytes <+: after.stream.bytes
  position : encoder.stream.position ≤ after.stream.position
  patches : encoder.stream.patches.toList <+: after.stream.patches.toList
  sections : encoder.layout.sections.toList <+: after.layout.sections.toList
  total : after.layout.total = encoder.layout.total

end Encoder

/-! ## One behind the other -/

namespace Patch

theorem shift_shift (patch : Patch) (near far : Nat) :
    (patch.shift near).shift far = patch.shift (far + near) := by
  simp [shift, Nat.add_assoc]

theorem map_shift_consecutive (position distance : Nat) (bytes : List UInt8) :
    (consecutive position bytes).map (·.shift distance) =
      consecutive (distance + position) bytes := by
  induction bytes generalizing position with
  | nil => rfl
  | cons byte rest inductionHypothesis =>
      rw [consecutive, List.map_cons, inductionHypothesis]
      rfl

end Patch

namespace Stream

variable (stream first second third : Stream)

@[simp] theorem bytes_empty : ({} : Stream).bytes = [] := rfl

@[simp] theorem bytes_append : (first.append second).bytes = first.bytes ++ second.bytes := by
  simp [append, bytes]

@[simp] theorem patches_append :
    (first.append second).patches =
      first.patches ++ second.patches.map (·.shift first.position) := rfl

theorem position_append : (first.append second).position = first.position + second.position := by
  simp

@[simp] theorem append_empty : stream.append {} = stream :=
  ext_bytes (by simp) (by simp)

theorem append_assoc : (first.append second).append third = first.append (second.append third) :=
  ext_bytes (by simp) (by simp [Patch.shift_shift, Function.comp_def])

theorem append_putBytes (later : Stream) (bytes : List UInt8) :
    stream.append (later.putBytes bytes) = (stream.append later).putBytes bytes :=
  ext_bytes (by simp) rfl

theorem append_reserve (label : List UInt8) :
    stream.append (({} : Stream).reserve.2.putBytes label) = stream.reserve.2.putBytes label := by
  rw [append_putBytes, reserve, append_putBytes, append_empty]
  rfl

/-- Overwrites that are staged in a part are staged further on in the whole. -/
theorem append_withPatches (later : Stream) (position : Nat) (bytes : List UInt8) :
    stream.append (later.withPatches (Patch.consecutive position bytes)) =
      (stream.append later).withPatches
        (Patch.consecutive (stream.position + position) bytes) := by
  rw [← Patch.map_shift_consecutive]
  exact ext_bytes rfl (by simp [withPatches])

/-- A size field is filled in the same way wherever it stands. -/
theorem fill_append (later : Stream) (gap : Gap) (size : Nat) (frame : Frame)
    (written : gap.position + Gap.width ≤ later.position) :
    (stream.append later).fill ⟨stream.position + gap.position⟩ size frame =
      Prod.map id stream.append (later.fill gap size frame) := by
  by_cases tooLong : Gap.capacity < size
  · rw [fill_of_lt _ _ frame tooLong, fill_of_lt _ _ frame tooLong]
    rfl
  · have fits := Nat.not_lt.mp tooLong
    have moved : stream.position + gap.position + Gap.width ≤ (stream.append later).position := by
      rw [position_append]
      omega
    rw [fill_eq_ok frame fits written, fill_eq_ok frame fits moved, ← append_withPatches]
    rfl

/-! ## Writing anywhere -/

/-- Whether writing behind a stream leaves what it leaves where nothing stands, or is refused in the
same way. -/
def Relocatable (put : Stream → Except EncodingError Stream) : Prop :=
  ∀ stream, put stream = (put {}).map stream.append

namespace Relocatable

variable {put more : Stream → Except EncodingError Stream}

theorem congr (relocatable : Relocatable put) (same : ∀ stream, more stream = put stream) :
    Relocatable more := by
  intro stream
  rw [same, same, relocatable stream]

theorem putBytes (bytes : List UInt8) : Relocatable fun stream => .ok (stream.putBytes bytes) := by
  intro stream
  have moved := stream.append_putBytes {} bytes
  rw [append_empty] at moved
  exact congrArg Except.ok moved.symm

theorem of_eq_putBytes {write : Stream → Stream} {bytes : List UInt8}
    (same : ∀ stream, write stream = stream.putBytes bytes) :
    Relocatable fun stream => .ok (write stream) :=
  (putBytes bytes).congr fun stream => congrArg Except.ok (same stream)

/-- Two writes one after the other can be moved if each of them can. -/
theorem bind (first : Relocatable put) (second : Relocatable more) :
    Relocatable fun stream => put stream >>= more := by
  intro stream
  change put stream >>= more = (put {} >>= more).map stream.append
  rw [first stream]
  cases put {} with
  | error error => rfl
  | ok written =>
      change more (stream.append written) = (more written).map stream.append
      rw [second (stream.append written), second written]
      cases more {} with
      | error error => rfl
      | ok last => exact congrArg Except.ok (append_assoc stream written last)

theorem foldlM {ι : Type} {step : Stream → ι → Except EncodingError Stream}
    (each : ∀ item, Relocatable (step · item)) (items : List ι) :
    Relocatable (items.foldlM step) := by
  induction items with
  | nil =>
      intro stream
      exact congrArg Except.ok (append_empty stream).symm
  | cons item items inductionHypothesis => exact (each item).bind inductionHypothesis

/-- A region can be moved with the size field in front of it. -/
theorem putRegion (relocatable : Relocatable put) (frame : Frame) (label : List UInt8) :
    Relocatable (·.putRegion frame label put) := by
  intro stream
  let empty : Stream := ({} : Stream).reserve.2.putBytes label
  simp only [Stream.putRegion]
  rw [← append_reserve stream label, relocatable (stream.append empty), relocatable empty]
  cases put {} with
  | error error => rfl
  | ok content =>
      change
        accepted
            (((stream.append empty).append content).fill stream.reserve.1
              (((stream.append empty).append content).position -
                (stream.append empty).position)
              frame) =
          (accepted
            ((empty.append content).fill ({} : Stream).reserve.1
              ((empty.append content).position - empty.position) frame)).map stream.append
      have size :
          ((stream.append empty).append content).position - (stream.append empty).position =
            (empty.append content).position - empty.position := by
        rw [append_assoc, position_append stream, position_append stream, Nat.add_sub_add_left]
      have written : 0 + Gap.width ≤ (empty.append content).position := by
        simp [empty, reserve, Gap.blank, Gap.width]
      rw [size, append_assoc, ← accepted_map]
      exact congrArg accepted
        (fill_append stream (empty.append content) ⟨0⟩ _ frame written)

end Relocatable

theorem putExprs_append (stream : Stream) (exprs others : List Expr) :
    stream.putExprs (exprs ++ others) = (stream.putExprs exprs).putExprs others := by
  induction exprs generalizing stream with
  | nil => simp [putExprs]
  | cons expr exprs inductionHypothesis =>
      rw [List.cons_append, putExprs, putExprs, inductionHypothesis]

/-- The code of a function is the same wherever it stands. -/
theorem relocatable_putFunction (index : Nat) (function : Function) :
    Relocatable (·.putFunction index function) := by
  let locals := Format.vector Format.localGroup (LocalGroup.ofLocals function.locals)
  have body := Relocatable.putBytes (Expr.bytesAll function.body)
  have region := body.putRegion (.functionBody index.toUInt32) []
  exact ((Relocatable.putBytes locals).bind region).congr (putFunction_eq · index function)

theorem relocatable_putPayload (module : Module) (id : SectionId) :
    Relocatable (·.putPayload module id) := by
  by_cases isCode : id = .code
  · rw [isCode]
    have count := Relocatable.putBytes (Leb128.unsigned module.functions.zipIdx.length)
    have each (entry : Function × Nat) := relocatable_putFunction entry.2 entry.1
    exact count.bind (.foldlM each module.functions.zipIdx)
  · exact (Relocatable.putBytes (module.payload id)).congr (putPayload_eq_ok · module isCode)

end Stream

/-! ## Encoders -/

namespace Encoder

theorem append_empty (encoder : Encoder) : encoder.append {} = encoder := by
  simp [append]

theorem onStream_eq_map_append {put : Stream → Except EncodingError Stream}
    (relocatable : Stream.Relocatable put) (encoder : Encoder) :
    encoder.onStream put = (onStream {} put).map encoder.append := by
  rw [onStream, onStream, relocatable encoder.stream]
  cases put {} with
  | error error => rfl
  | ok written =>
      refine congrArg Except.ok ?_
      simp [append]

/-- A section is the same wherever it stands, but for the place that the layout gives. -/
theorem putFramed_eq_map_append {put : Stream → Except EncodingError Stream}
    (relocatable : Stream.Relocatable put) (encoder : Encoder) (name : String) :
    encoder.putFramed name put = (putFramed {} name put).map encoder.append := by
  let frame := Frame.sectionNamed name
  let label := Format.text name
  have region :
      encoder.stream.putRegion frame label put =
        (({} : Stream).putRegion frame label put).map encoder.stream.append :=
    relocatable.putRegion frame label encoder.stream
  rw [putFramed_eq, putFramed_eq, region, ← Stream.append_reserve]
  cases Stream.putRegion {} frame label put with
  | error error => rfl
  | ok filled =>
      refine congrArg Except.ok ?_
      simp [append, Layout.push, LayoutEntry.shift, Nat.add_sub_add_left]

/-- An encoder that has written something writes as an empty one does, further on. -/
theorem perform_eq_map_append (operation : Operation) (encoder : Encoder) :
    encoder.perform operation = (perform {} operation).map encoder.append := by
  cases operation with
  | expr expr =>
      exact onStream_eq_map_append (.of_eq_putBytes (·.putExpr_eq expr)) encoder
  | exprs exprs =>
      exact onStream_eq_map_append (.of_eq_putBytes (·.putExprs_eq exprs)) encoder
  | functionType signature =>
      exact onStream_eq_map_append (.of_eq_putBytes (·.putFunctionType_eq signature)) encoder
  | function index function =>
      exact onStream_eq_map_append (Stream.relocatable_putFunction index function) encoder
  | payload module id =>
      exact onStream_eq_map_append (Stream.relocatable_putPayload module id) encoder
  | framed module id =>
      by_cases needed : module.needs id
      · simp only [perform, putSection, if_pos needed]
        exact putFramed_eq_map_append (Stream.relocatable_putPayload module id) encoder id.name
      · simp only [perform, putSection, if_neg needed]
        exact congrArg Except.ok encoder.append_empty.symm

theorem keeps_append (encoder later : Encoder) : encoder.Keeps (encoder.append later) where
  bytes := by
    rw [append, Stream.bytes_append]
    exact List.prefix_append _ _
  position := by
    rw [append, Stream.position_append]
    exact Nat.le_add_right _ _
  patches := by simp [append]
  sections := by simp [append]
  total := rfl

/-- Writing does the same anywhere. It is refused with the error that it meets where nothing stands,
or it leaves what it leaves there, moved behind what an encoder has written, staged and recorded
already; all of that is still there. The instructions of two lists of trees stand one behind the
other. -/
theorem perform_anywhere (operation : Operation) (encoder : Encoder) :
    encoder.perform operation = (perform {} operation).map encoder.append ∧
      (∀ after, encoder.perform operation = .ok after → encoder.Keeps after) ∧
      ∀ exprs others : List Expr,
        (({} : Stream).putExprs (exprs ++ others)).bytes =
          (({} : Stream).putExprs exprs).bytes ++ (({} : Stream).putExprs others).bytes := by
  have moved := perform_eq_map_append operation encoder
  refine ⟨moved, ?_, ?_⟩
  · intro after isOk
    rw [moved] at isOk
    cases performed : perform {} operation with
    | error error =>
        rw [performed] at isOk
        cases isOk
    | ok written =>
        rw [performed] at isOk
        rw [← Except.ok.inj isOk]
        exact encoder.keeps_append written
  · intro exprs others
    rw [Stream.putExprs_append, Stream.putExprs_eq _ others, Stream.putExprs_eq {} others,
      Stream.bytes_putBytes, Stream.bytes_putBytes]
    rfl

def started : Encoder where
  stream := { buffer := #[7, 7, 7], patches := #[⟨1, 9⟩, ⟨5, 0⟩] }
  layout := { sections := #[⟨"start", 1, 2⟩], total := 40 }

/-- What an encoder leaves that writes the code of the sample module and nothing else. -/
def sampleCode : Encoder where
  stream :=
    { buffer := #[0x80, 0x80, 0x80, 0, 4, 99, 111, 100, 101, 1, 0, 0x80, 0x80, 0x80, 0, 20, 0, 186,
        3, 17, 1, 4, 20, 0, 20, 0, 17, 1, 92, 22, 1, 0, 93, 15]
      patches := #[⟨11, 0x93⟩, ⟨0, 0x99⟩] }
  layout := { sections := #[⟨"code", 0, 25⟩] }

theorem perform_anywhere_started :
    ∃ after,
      started.perform (.framed sampleModule .code) = .ok after ∧
        started.Keeps after ∧
        after.stream.bytes = [7, 7, 7] ++ sampleCode.stream.bytes ∧
        after.stream.patches = #[⟨1, 9⟩, ⟨5, 0⟩, ⟨14, 0x93⟩, ⟨3, 0x99⟩] ∧
        after.layout.sections = #[⟨"start", 1, 2⟩, ⟨"code", 3, 25⟩] := by
  have performed : perform {} (.framed sampleModule .code) = .ok sampleCode := by
    decide +kernel
  obtain ⟨moved, keeps, _⟩ := perform_anywhere (.framed sampleModule .code) started
  rw [performed] at moved
  exact ⟨started.append sampleCode, moved, keeps _ moved, by decide +kernel, by decide +kernel,
    by decide +kernel⟩

end Encoder

end WasmBinary
