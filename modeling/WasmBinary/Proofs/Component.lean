import WasmBinary.Proofs.SectionView

/-!
What a change of one component does to an encoding. Main statement: the sections that do not depend
on the component keep their payloads, those in front of the change keep their places, and those
behind it all move by the same distance.
-/

namespace WasmBinary

/-! ## Components and the sections they go into -/

inductive Component
  | types
  | imports
  | functions
  | table
  | memory
  | exports
  | start
  deriving DecidableEq, Repr

/-- The sections that depend on a component. The memory section depends on the exports, because it
says whether the memory is one of them. -/
def Component.sections : Component → List SectionId
  | types => [.types]
  | imports => [.imports]
  | functions => [.functions, .code]
  | table => [.table]
  | memory => [.memory, .data]
  | exports => [.memory, .exports]
  | start => [.start]

/-- Takes one component from another module. -/
def Module.replace (module donor : Module) : Component → Module
  | .types => { module with types := donor.types }
  | .imports => { module with imports := donor.imports }
  | .functions => { module with functions := donor.functions }
  | .table => { module with table := donor.table }
  | .memory => { module with memory := donor.memory }
  | .exports => { module with exports := donor.exports }
  | .start => { module with start := donor.start }

/-! ## A change of one component -/

namespace Module

variable {first second : Module} {id : SectionId}

/-- Two modules have the same to say in a section, or both nothing. -/
def SameSection (first second : Module) (id : SectionId) : Prop :=
  first.needs id = second.needs id ∧
    (first.needs id = true → first.payload id = second.payload id)

/-! ### Sections that do not depend on a component -/

/-- A section that does not depend on a component is the same whatever the component is. -/
theorem sameSection_replace (module donor : Module) {component : Component}
    (independent : id ∉ component.sections) :
    SameSection module (module.replace donor component) id := by
  cases id with
  | terminator => exact ⟨rfl, fun _ => rfl⟩
  | types =>
      cases component with
      | types => exact absurd List.mem_cons_self independent
      | _ => exact ⟨rfl, fun _ => rfl⟩
  | imports =>
      cases component with
      | imports => exact absurd List.mem_cons_self independent
      | _ => exact ⟨rfl, fun _ => rfl⟩
  | functions =>
      cases component with
      | functions => exact absurd List.mem_cons_self independent
      | _ => exact ⟨rfl, fun _ => rfl⟩
  | code =>
      cases component with
      | functions => exact absurd (List.mem_cons_of_mem _ List.mem_cons_self) independent
      | _ => exact ⟨rfl, fun _ => rfl⟩
  | table =>
      cases component with
      | table => exact absurd List.mem_cons_self independent
      | _ => exact ⟨rfl, fun _ => rfl⟩
  | memory =>
      cases component with
      | memory | exports => exact absurd List.mem_cons_self independent
      | _ => exact ⟨rfl, fun _ => rfl⟩
  | data =>
      cases component with
      | memory => exact absurd (List.mem_cons_of_mem _ List.mem_cons_self) independent
      | _ => exact ⟨rfl, fun _ => rfl⟩
  | exports =>
      cases component with
      | exports => exact absurd (List.mem_cons_of_mem _ List.mem_cons_self) independent
      | _ => exact ⟨rfl, fun _ => rfl⟩
  | start =>
      cases component with
      | start => exact absurd List.mem_cons_self independent
      | _ => exact ⟨rfl, fun _ => rfl⟩

/-! ### Places -/

theorem flatMap_sectionBytes_eq {ids : List SectionId}
    (same : ∀ id ∈ ids, SameSection first second id) :
    (ids.filter first.needs).flatMap first.sectionBytes =
      (ids.filter second.needs).flatMap second.sectionBytes := by
  induction ids with
  | nil => rfl
  | cons id ids inductionHypothesis =>
      rw [List.forall_mem_cons] at same
      obtain ⟨⟨sameNeeds, samePayload⟩, sameOthers⟩ := same
      have others := inductionHypothesis sameOthers
      by_cases needed : first.needs id = true
      · have otherNeeded : second.needs id = true := by rw [← sameNeeds, needed]
        have sameBytes : first.sectionBytes id = second.sectionBytes id := by
          rw [sectionBytes, sectionBytes, samePayload needed]
        rw [List.filter_cons_of_pos needed, List.filter_cons_of_pos otherNeeded, List.flatMap_cons,
          List.flatMap_cons, sameBytes, others]
      · have otherNotNeeded : ¬ second.needs id = true := by rwa [← sameNeeds]
        rw [List.filter_cons_of_neg needed, List.filter_cons_of_neg otherNotNeeded, others]

/-- The place of a section is decided by the sections in front of it. -/
theorem offset_eq_of_sameSection (same : ∀ other ∈ id.before, SameSection first second other) :
    first.offset id = second.offset id := by
  rw [offset, offset, flatMap_sectionBytes_eq same]

/-- The bytes of a module are those up to a section and those from there on. -/
theorem length_bytes_eq (module : Module) (id : SectionId) :
    module.bytes.length =
      module.offset id +
        (((id :: id.after).filter module.needs).flatMap module.sectionBytes).length := by
  rw [bytes, present, id.all_eq, List.filter_append, List.flatMap_append, List.length_append,
    List.length_append, offset, Nat.add_assoc]

/-- Sections behind a change move by as much as the end of the module. -/
theorem offset_add_length_eq (same : ∀ other ∈ id :: id.after, SameSection first second other) :
    second.offset id + first.bytes.length = first.offset id + second.bytes.length := by
  rw [length_bytes_eq first id, length_bytes_eq second id, flatMap_sectionBytes_eq same]
  omega

/-! ### What a reader sees -/

/-- A reader sees whether two modules have the same to say in a section. -/
theorem payload?_eq_iff_sameSection :
    SectionView.payload? (first.present.map first.sectionView) id.name =
        SectionView.payload? (second.present.map second.sectionView) id.name ↔
      SameSection first second id := by
  rw [payload?_eq, payload?_eq, SameSection]
  cases first.needs id <;> cases second.needs id <;> simp

/-- A section has one place in both modules if they have the same to say up to its end. -/
theorem ofName?_eq_of_sameSection
    (same : ∀ other ∈ id.before ++ [id], SameSection first second other) :
    SectionView.ofName? (first.present.map first.sectionView) id.name =
      SectionView.ofName? (second.present.map second.sectionView) id.name := by
  rw [List.forall_mem_append, List.forall_mem_singleton] at same
  obtain ⟨sameBefore, sameNeeds, samePayload⟩ := same
  rw [ofName?_eq, ofName?_eq, ← sameNeeds]
  by_cases needed : first.needs id = true
  · rw [if_pos needed, if_pos needed, sectionView, sectionView, samePayload needed,
      offset_eq_of_sameSection sameBefore]
  · rw [if_neg needed, if_neg needed]

/-! ### The exports in the memory section -/

/-- The export of the memory shows in the last byte of the memory section alone. -/
theorem payload_memory_eq {module : Module} {memory : Memory}
    (isMemory : module.memory = some memory) :
    module.payload .memory =
      (1 :: (Leb128.unsigned memory.min.toNat ++ Leb128.unsigned memory.max.toNat)) ++
        Format.flag module.exportsMemory := by
  rw [payload, isMemory, Format.option, Format.memory]
  rfl

theorem flag_inj :
    ∀ {value other : Bool}, Format.flag value = Format.flag other → value = other := by
  decide

/-- Modules with the same memory differ in the last byte of the memory section, if at all. -/
theorem memory_payloads (sameMemory : first.memory = second.memory) :
    (SectionView.payload? (first.present.map first.sectionView) "memory" ≠
          SectionView.payload? (second.present.map second.sectionView) "memory" ↔
        first.memory.isSome ∧ first.exportsMemory ≠ second.exportsMemory) ∧
      Option.Rel
        (fun payload otherPayload =>
          ∃ front last otherLast, payload = front ++ [last] ∧ otherPayload = front ++ [otherLast])
        (SectionView.payload? (first.present.map first.sectionView) "memory")
        (SectionView.payload? (second.present.map second.sectionView) "memory") := by
  have payloads (module : Module) :
      SectionView.payload? (module.present.map module.sectionView) "memory" =
        if module.memory.isSome then some (module.payload .memory) else none :=
    payload?_eq module .memory
  rw [payloads, payloads, ← sameMemory]
  cases isMemory : first.memory with
  | none => exact ⟨by simp, .none⟩
  | some memory =>
      have payload := payload_memory_eq isMemory
      have otherPayload := payload_memory_eq (sameMemory ▸ isMemory)
      rw [payload, otherPayload]
      constructor
      · rw [ne_eq, Option.isSome_some, if_pos rfl, if_pos rfl, Option.some.injEq,
          List.append_right_inj, and_iff_right rfl]
        exact not_congr ⟨flag_inj, congrArg Format.flag⟩
      · exact .some ⟨_, _, _, rfl, rfl⟩

/-! ### Two encodings -/

/-- Two encodings of modules that differ in one component only, as a reader sees them. Sections that
do not depend on the component are in both or in neither, with the same payload. A section has the
same place in both if nothing differs up to it, and the sections behind all that depend on the
component move by as much as the end of the module. If the component is the exports, the memory
sections differ exactly when a memory is exported by one of the modules alone, and then in their
last byte. -/
theorem readAll_of_replace (component : Component) (first second : Module)
    (encoding otherEncoding : Encoding) (single : first.replace second component = second)
    (isOk : first.encoding = .ok encoding) (otherIsOk : second.encoding = .ok otherEncoding) :
    ∃ views otherViews,
      SectionView.readAll headerSize (encoding.bytes.toList.drop headerSize) = some views ∧
        SectionView.readAll headerSize (otherEncoding.bytes.toList.drop headerSize) =
          some otherViews ∧
        (∀ id ∉ component.sections,
          SectionView.payload? views id.name = SectionView.payload? otherViews id.name) ∧
        (∀ id : SectionId,
          (∀ other ∈ id.before ++ [id],
            SectionView.payload? views other.name = SectionView.payload? otherViews other.name) →
          SectionView.ofName? views id.name = SectionView.ofName? otherViews id.name) ∧
        (∀ id : SectionId, (∀ dependent ∈ component.sections, dependent ∈ id.before) →
          ∀ view otherView,
            SectionView.ofName? views id.name = some view →
            SectionView.ofName? otherViews id.name = some otherView →
            (otherView.offset : Int) - view.offset =
              otherEncoding.bytes.size - encoding.bytes.size) ∧
        (component = .exports →
          (SectionView.payload? views "memory" ≠ SectionView.payload? otherViews "memory" ↔
              first.memory.isSome ∧ first.exportsMemory ≠ second.exportsMemory) ∧
            Option.Rel
              (fun payload otherPayload =>
                ∃ front last otherLast,
                  payload = front ++ [last] ∧ otherPayload = front ++ [otherLast])
              (SectionView.payload? views "memory")
              (SectionView.payload? otherViews "memory")) := by
  obtain ⟨fits, isBytes⟩ := (outcome_encoding first).of_eq_ok isOk
  obtain ⟨otherFits, otherIsBytes⟩ := (outcome_encoding second).of_eq_ok otherIsOk
  have read := readAll_sections fits
  have otherRead := readAll_sections otherFits
  have independent (id : SectionId) (notDependent : id ∉ component.sections) :
      SameSection first second id := by
    rw [← single]
    exact sameSection_replace first second notDependent
  rw [← isBytes] at read
  rw [← otherIsBytes] at otherRead
  refine ⟨_, _, read, otherRead, ?_, ?_, ?_, ?_⟩
  · intro id notDependent
    exact payload?_eq_iff_sameSection.mpr (independent id notDependent)
  · intro id samePayloads
    apply ofName?_eq_of_sameSection
    intro other member
    exact payload?_eq_iff_sameSection.mp (samePayloads other member)
  · intro id behind view otherView isView otherIsView
    have same : ∀ other ∈ id :: id.after, SameSection first second other := by
      intro other member
      apply independent
      intro dependent
      exact SectionId.not_mem_before member (behind other dependent)
    obtain ⟨_, rfl⟩ := ofName?_eq_some_iff.mp isView
    obtain ⟨_, rfl⟩ := ofName?_eq_some_iff.mp otherIsView
    have moved := offset_add_length_eq same
    rw [← isBytes, ← otherIsBytes, Array.length_toList, Array.length_toList] at moved
    simp only [sectionView]
    omega
  · rintro rfl
    have replaced := congrArg Module.memory single
    have sameMemory : first.memory = second.memory := replaced
    exact memory_payloads sameMemory

/-- The sample without its exports. -/
theorem readAll_of_replace_exports_sampleModule :
    ∃ encoding otherEncoding views otherViews,
      sampleModule.encoding = .ok encoding ∧
        (sampleModule.replace {} .exports).encoding = .ok otherEncoding ∧
        SectionView.readAll headerSize (encoding.bytes.toList.drop headerSize) = some views ∧
        SectionView.readAll headerSize (otherEncoding.bytes.toList.drop headerSize) =
          some otherViews ∧
        SectionView.payload? views "code" = SectionView.payload? otherViews "code" ∧
        SectionView.payload? views "memory" ≠ SectionView.payload? otherViews "memory" := by
  have otherFits :
      ∀ frame ∈ (sampleModule.replace {} .exports).frames, frame.2 ≤ Gap.capacity := by
    decide +kernel
  obtain ⟨encoding, isOk, _⟩ := (outcome_encoding _).exists_ok frames_sampleModule_fit
  obtain ⟨otherEncoding, otherIsOk, _⟩ := (outcome_encoding _).exists_ok otherFits
  obtain ⟨views, otherViews, read, otherRead, samePayloads, _, _, memories⟩ :=
    readAll_of_replace .exports sampleModule (sampleModule.replace {} .exports) encoding
      otherEncoding rfl isOk otherIsOk
  refine ⟨encoding, otherEncoding, views, otherViews, isOk, otherIsOk, read, otherRead,
    samePayloads .code (by decide), ?_⟩
  exact (memories rfl).1.mpr ⟨rfl, by decide⟩

end Module

end WasmBinary
