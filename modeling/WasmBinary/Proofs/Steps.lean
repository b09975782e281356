import WasmBinary.Proofs.Encoding
import WasmBinary.Proofs.Stream.Session

/-!
The encoding of a module as a run of a session. Main statement: at every point of it the staged
overwrites are sound, and at its end each size field has been filled exactly once.
-/

namespace WasmBinary

/-! ## The steps of a module

What is appended, which size fields are reserved on the way, and when they are filled.
-/

namespace Step

/-- A region behind a size field, with a label between them. The field has this number, and it is
filled with the size of the content. -/
def framed (number : Nat) (frame : Frame) (label : List UInt8) (content : List Step) : List Step :=
  .reserve :: .append label :: content ++ [.fill number (content.flatMap bytes).length frame]

/-- The steps of a function, of which the field before its body has this number. -/
def ofFunction (number index : Nat) (function : Function) : List Step :=
  .append (Format.vector Format.localGroup (LocalGroup.ofLocals function.locals)) ::
    framed number (.functionBody index.toUInt32) [] [.append (Expr.bytesAll function.body)]

end Step

namespace Module

/-- The steps of a payload, whose own fields are numbered from here on. -/
def payloadSteps (module : Module) (number : Nat) : SectionId → List Step
  | .code =>
      .append (Leb128.unsigned module.functions.length) ::
        module.functions.zipIdx.flatMap fun (function, index) =>
          Step.ofFunction (number + index) index function
  | id => [.append (module.payload id)]

def sectionSteps (module : Module) (number : Nat) (id : SectionId) : List Step :=
  if module.needs id then
    Step.framed number (.sectionNamed id.name) (Format.text id.name)
      (module.payloadSteps (number + 1) id)
  else
    []

/-- The steps of some sections, whose fields are numbered from here on. -/
def stepsFrom (module : Module) : Nat → List SectionId → List Step
  | _, [] => []
  | number, id :: ids =>
      let steps := module.sectionSteps number id
      steps ++ module.stepsFrom (number + steps.count .reserve) ids

def stepsOf (module : Module) (ids : List SectionId) : List Step :=
  .append headerBytes :: module.stepsFrom 0 ids

def steps (module : Module) : List Step :=
  module.stepsOf SectionId.all

end Module

/-! ## The run -/

/-- Writing into a stream amounts to some steps of each session that has given out so many fields:
only fields that have been given out are filled, and the new ones exactly once. -/
structure Performs (put : Stream → Except EncodingError Stream) (number : Nat)
    (steps : List Step) : Prop where
  run :
    ∀ session : Session, session.gaps.length = number →
      (session.run steps).map Session.stream = put session.stream
  allowed : Step.Allowed number steps
  once : (steps.flatMap Step.filled).Perm (List.range' number (steps.count .reserve))

namespace Step

theorem count_reserve_framed (number : Nat) (frame : Frame) (label : List UInt8)
    (content : List Step) :
    (framed number frame label content).count .reserve = content.count .reserve + 1 := by
  simp [framed]

theorem count_reserve_ofFunction (number index : Nat) (function : Function) :
    (ofFunction number index function).count .reserve = 1 := by
  simp [ofFunction, count_reserve_framed]

end Step

namespace Performs

variable {put more : Stream → Except EncodingError Stream} {number : Nat}
  {steps others : List Step}

theorem nothing (number : Nat) : Performs .ok number [] where
  run := fun _ _ => rfl
  allowed := trivial
  once := List.Perm.refl _

theorem append (number : Nat) (bytes : List UInt8) :
    Performs (fun stream => .ok (stream.putBytes bytes)) number [.append bytes] where
  run := fun _ _ => rfl
  allowed := trivial
  once := List.Perm.refl _

/-- Writes one after the other perform their steps one after the other. -/
theorem andThen (first : Performs put number steps)
    (second : Performs more (number + steps.count .reserve) others) :
    Performs (fun stream => put stream >>= more) number (steps ++ others) where
  run := by
    intro session length
    rw [Session.run_append, ← first.run session length]
    cases outcome : session.run steps with
    | error error => rfl
    | ok after =>
        obtain ⟨_, given, gaps, count⟩ := session.grows_advance steps
        rw [Session.advance_of_run_eq_ok outcome] at gaps
        apply second.run after
        rw [gaps, List.length_append, length, count]
  allowed := Step.allowed_append.mpr ⟨first.allowed, second.allowed⟩
  once := by
    rw [List.flatMap_append, List.count_append, ← List.range'_append_1]
    exact first.once.append second.once

/-- A region performs its own steps between the reservation and the filling of its field. -/
theorem framed (content : Performs put (number + 1) steps) (frame : Frame)
    (label : List UInt8) :
    Performs (fun stream => stream.putRegion frame label put) number
      (Step.framed number frame label steps) where
  run := by
    intro session length
    let start : Session :=
      { stream := session.stream.reserve.2.putBytes label
        gaps := session.gaps ++ [session.stream.reserve.1] }
    have startLength : start.gaps.length = number + 1 := by
      rw [List.length_append, length]
      rfl
    -- The first two steps cannot be refused.
    have started :
        session.run (Step.framed number frame label steps) =
          start.run (steps ++ [.fill number (steps.flatMap Step.bytes).length frame]) := rfl
    rw [started, Session.run_append, Stream.putRegion, ← content.run start startLength]
    cases outcome : start.run steps with
    | error error => rfl
    | ok paid =>
        obtain ⟨bytes, given, gaps, _⟩ := start.grows_advance steps
        rw [Session.advance_of_run_eq_ok outcome] at bytes gaps
        have isGiven : paid.gaps[number]? = some session.stream.reserve.1 := by
          rw [gaps, List.getElem?_append_left (by omega), ← length]
          exact List.getElem?_concat_length
        have size :
            paid.stream.position - start.stream.position =
              (steps.flatMap Step.bytes).length := by
          rw [Stream.position_eq_length_bytes, Stream.position_eq_length_bytes, bytes,
            List.length_append]
          omega
        change
          (paid.run [.fill number (steps.flatMap Step.bytes).length frame]).map Session.stream =
            accepted
              (paid.stream.fill session.stream.reserve.1
                (paid.stream.position - start.stream.position) frame)
        rw [size, Session.run_cons, Session.attempt_fill isGiven]
        rcases paid.stream.fill session.stream.reserve.1 _ frame with ⟨_ | _, _⟩ <;> rfl
  allowed := by
    change
      Step.Allowed (number + 1)
        (steps ++ [.fill number (steps.flatMap Step.bytes).length frame])
    rw [Step.allowed_append]
    exact ⟨content.allowed, by omega, trivial⟩
  once := by
    have filled :
        (Step.framed number frame label steps).flatMap Step.filled =
          steps.flatMap Step.filled ++ [number] := by
      simp [Step.framed, Step.filled]
    rw [filled, Step.count_reserve_framed, List.range'_succ]
    exact (content.once.append_right [number]).trans List.perm_append_comm

theorem congr (same : ∀ stream, put stream = more stream) (performs : Performs put number steps) :
    Performs more number steps := by
  have equal : put = more := funext same
  rwa [← equal]

end Performs

/-! ### The encoder -/

namespace Stream

theorem performs_putFunction (number index : Nat) (function : Function) :
    Performs (·.putFunction index function) number (Step.ofFunction number index function) := by
  have body := Performs.append (number + 1) (Expr.bytesAll function.body)
  have locals :=
    Performs.append number (Format.vector Format.localGroup (LocalGroup.ofLocals function.locals))
  apply (locals.andThen (body.framed (.functionBody index.toUInt32) [])).congr
  intro stream
  exact (putFunction_eq stream index function).symm

theorem performs_putFunctions (number index : Nat) (functions : List Function) :
    Performs
      (fun stream =>
        (functions.zipIdx index).foldlM
          (fun stream (function, index) => stream.putFunction index function) stream)
      (number + index)
      ((functions.zipIdx index).flatMap fun (function, index) =>
        Step.ofFunction (number + index) index function) := by
  induction functions generalizing index with
  | nil => exact Performs.nothing _
  | cons function functions inductionHypothesis =>
      have rest := inductionHypothesis (index + 1)
      have first := performs_putFunction (number + index) index function
      rw [← Nat.add_assoc, ← Step.count_reserve_ofFunction (number + index) index function] at rest
      exact first.andThen rest

theorem performs_putPayload (module : Module) (number : Nat) (id : SectionId) :
    Performs (·.putPayload module id) number (module.payloadSteps number id) := by
  by_cases isCode : id = .code
  · rw [isCode]
    have count := Performs.append number (Leb128.unsigned module.functions.length)
    have functions := performs_putFunctions number 0 module.functions
    apply (count.andThen functions).congr
    intro stream
    rw [putPayload, putVectorM, List.length_zipIdx]
    rfl
  · have steps : module.payloadSteps number id = [.append (module.payload id)] := by
      cases id <;> first | rfl | exact absurd rfl isCode
    rw [steps]
    apply (Performs.append number (module.payload id)).congr
    intro stream
    exact (putPayload_eq_ok stream module isCode).symm

/-- Appends a section of the module to a stream, if the module needs it. -/
def putSection (stream : Stream) (module : Module) (id : SectionId) :
    Except EncodingError Stream :=
  if module.needs id then
    stream.putRegion (.sectionNamed id.name) (Format.text id.name) (·.putPayload module id)
  else
    .ok stream

/-- A section reserves its field before those of its payload and fills it after them. -/
theorem performs_putSection (module : Module) (number : Nat) (id : SectionId) :
    Performs (·.putSection module id) number (module.sectionSteps number id) := by
  by_cases needed : module.needs id
  · have payload := performs_putPayload module (number + 1) id
    have region := payload.framed (.sectionNamed id.name) (Format.text id.name)
    rw [Module.sectionSteps, if_pos needed]
    apply region.congr
    intro stream
    rw [putSection, if_pos needed]
  · rw [Module.sectionSteps, if_neg needed]
    apply (Performs.nothing number).congr
    intro stream
    rw [putSection, if_neg needed]

theorem performs_putSections (module : Module) (number : Nat) (ids : List SectionId) :
    Performs (ids.foldlM fun stream id => stream.putSection module id) number
      (module.stepsFrom number ids) := by
  induction ids generalizing number with
  | nil => exact Performs.nothing number
  | cons id ids inductionHypothesis =>
      exact (performs_putSection module number id).andThen (inductionHypothesis _)

end Stream

namespace Encoder

theorem map_stream_putSection (encoder : Encoder) (module : Module) (id : SectionId) :
    (encoder.putSection module id).map Encoder.stream = encoder.stream.putSection module id := by
  by_cases needed : module.needs id
  · rw [putSection, if_pos needed, putFramed_eq, Stream.putSection, if_pos needed]
    cases encoder.stream.putRegion _ _ _ <;> rfl
  · rw [putSection, if_neg needed, Stream.putSection, if_neg needed]
    rfl

/-- The layout that an encoder collects has no effect on what it writes. -/
theorem map_stream_putSections (encoder : Encoder) (module : Module) (ids : List SectionId) :
    (ids.foldlM (fun (encoder : Encoder) id => encoder.putSection module id)
        encoder).map Encoder.stream =
      ids.foldlM (fun stream id => stream.putSection module id) encoder.stream := by
  induction ids generalizing encoder with
  | nil => rfl
  | cons id ids inductionHypothesis =>
      rw [List.foldlM_cons, List.foldlM_cons, ← map_stream_putSection]
      cases encoder.putSection module id with
      | error error => rfl
      | ok next => exact inductionHypothesis next

end Encoder

namespace Module

theorem performs_stepsOf (module : Module) (ids : List SectionId) :
    Performs
      (fun stream =>
        ids.foldlM (fun stream id => stream.putSection module id) (stream.putBytes headerBytes))
      0 (module.stepsOf ids) :=
  (Performs.append 0 headerBytes).andThen (Stream.performs_putSections module 0 ids)

/-- At each stage of an encoding the stream is that of a session. -/
theorem map_stream_foldlM_putSection (module : Module) (ids : List SectionId) :
    (ids.foldlM (fun (encoder : Encoder) id => encoder.putSection module id)
        (Encoder.putHeader {})).map Encoder.stream =
      (Session.run {} (module.stepsOf ids)).map Session.stream := by
  rw [(performs_stepsOf module ids).run {} rfl, Encoder.map_stream_putSections,
    Encoder.stream_putHeader]

/-- A finished encoding is that of a session in which each field was filled exactly once. -/
theorem exists_session_of_putModule_eq_ok {module : Module} {encoder : Encoder}
    (finished : Encoder.putModule {} module = .ok encoder) :
    ∃ session fills,
      Session.run {} module.steps = .ok session ∧ session.stream = encoder.stream ∧
        session.Logged fills ∧ (fills.map Fill.gap).Perm session.gaps := by
  have performs := performs_stepsOf module SectionId.all
  have streams :
      (Session.run {} module.steps).map Session.stream =
        (Encoder.putModule {} module).map Encoder.stream :=
    (map_stream_foldlM_putSection module SectionId.all).symm
  rw [finished] at streams
  cases outcome : Session.run {} module.steps with
  | error error =>
      rw [outcome] at streams
      cases streams
  | ok session =>
      rw [outcome] at streams
      obtain ⟨fills, logged, numbers⟩ := Session.logged_empty.run performs.allowed outcome
      obtain ⟨_, given, gaps, count⟩ := Session.grows_advance {} module.steps
      rw [Session.advance_of_run_eq_ok outcome] at gaps
      have length : session.gaps.length = module.steps.count .reserve := by
        rw [← count, gaps]
        rfl
      have each : (fills.map Fill.number).Perm (List.range' 0 session.gaps.length) := by
        rw [numbers, length]
        exact performs.once
      exact ⟨session, fills, rfl, Except.ok.inj streams, logged, logged.perm_gaps each⟩

theorem sound_of_visits (module : Module) {point : Session}
    (visits : Session.Visits {} module.steps point) : point.Sound := by
  apply visits.sound Session.logged_empty
  exact (performs_stepsOf module SectionId.all).once.nodup_iff.mpr List.nodup_range'

/-- An encoding is a run of a session: so are the functions, the payloads and the sections that are
written one after another. At every point of the run the staged overwrites are for different bytes,
all of them written, each in one of the fields, which do not overlap. Hence no overwrite is ever
refused; and at the end of an encoding each field has been filled exactly once, no byte outside the
fields has been changed, and the overwrites can be applied in any order. -/
theorem patches_throughout_encoding (module : Module) :
    (∀ number index function,
        Performs (·.putFunction index function) number
          (Step.ofFunction number index function)) ∧
      (∀ number id,
        Performs (·.putPayload module id) number (module.payloadSteps number id)) ∧
      (∀ ids : List SectionId,
        (ids.foldlM (fun (encoder : Encoder) id => encoder.putSection module id)
            (Encoder.putHeader {})).map Encoder.stream =
          (Session.run {} (module.stepsOf ids)).map Session.stream) ∧
      (∀ point, Session.Visits {} module.steps point → point.Sound) ∧
      (∀ position, module.encoding ≠ .error (.patchPastEnd position)) ∧
      ∀ encoder, Encoder.putModule {} module = .ok encoder →
        ∃ (session : Session) (fills : List Fill),
          Session.run {} module.steps = .ok session ∧ session.stream = encoder.stream ∧
            Session.Visits {} module.steps session ∧
            (fills.map Fill.gap).Perm session.gaps ∧
            encoder.stream.patches.toList = fills.flatMap Fill.patches ∧
            (∀ position, (∀ gap ∈ session.gaps, ¬ gap.Covers position) →
              encoder.stream.patched[position]? = encoder.stream.buffer[position]?) ∧
            ∀ patches : Array Patch,
              patches.toList.Perm encoder.stream.patches.toList →
                ({ encoder.stream with patches } : Stream).patched = encoder.stream.patched := by
  refine ⟨Stream.performs_putFunction, Stream.performs_putPayload module,
    map_stream_foldlM_putSection module, fun _ visits => sound_of_visits module visits, ?_, ?_⟩
  · intro position failed
    obtain ⟨frame, _, isTooLong⟩ := ((outcome_encoding module).eq_error_iff _).mp failed
    cases isTooLong
  · intro encoder finished
    obtain ⟨session, fills, ran, same, logged, each⟩ :=
      exists_session_of_putModule_eq_ok finished
    have visits := Session.visits_of_run_eq_ok ran
    rw [← same]
    exact ⟨session, fills, ran, rfl, visits, each, logged.patches,
      fun position outside => logged.getElem?_patched outside,
      fun patches reordered => (sound_of_visits module visits).patched_eq_of_perm reordered⟩

theorem patches_throughout_encoding_sampleModule :
    ∃ (encoder : Encoder) (session : Session) (fills : List Fill),
      Encoder.putModule {} sampleModule = .ok encoder ∧
        Session.run {} sampleModule.steps = .ok session ∧
        session.gaps.length = 8 ∧ (fills.map Fill.gap).Perm session.gaps ∧
        encoder.stream.patches.toList = fills.flatMap Fill.patches := by
  obtain ⟨encoder, finished, _⟩ :=
    (Encoder.outcome_putModule sampleModule).exists_ok frames_sampleModule_fit
  obtain ⟨_, _, _, _, _, finishes⟩ := patches_throughout_encoding sampleModule
  obtain ⟨session, fills, ran, _, _, each, patches, _⟩ := finishes encoder finished
  obtain ⟨_, given, gaps, count⟩ := Session.grows_advance {} sampleModule.steps
  have eight : sampleModule.steps.count .reserve = 8 := by
    decide +kernel
  rw [Session.advance_of_run_eq_ok ran, List.nil_append] at gaps
  exact ⟨encoder, session, fills, finished, ran, by rw [gaps, count, eight], each, patches⟩

end Module

end WasmBinary
