import WasmBinary.Proofs.Encoding
import WasmBinary.Proofs.Instruction
import WasmBinary.Proofs.LocalGroup

/-!
What the bytes of a module determine. They tell where the module ends, and they determine all of it
but for one thing: an export of the memory has no index, so its name can be read as the index and
the name of a function.
-/

namespace WasmBinary

/-! ## Entries of the sections -/

namespace Delimits

theorem functionType (signature other : FunctionType) :
    Delimits (Format.functionType signature) (Format.functionType other) (signature = other) := by
  have lead := of_inverts Reader.inverts_byte FunctionType.leadByte FunctionType.leadByte
  have params := vector_of_forall valueType signature.params other.params
  have result := option_of_forall valueType signature.result other.result
  apply ((lead.append fun _ => params).append fun _ => result).imp
  intro agreeing
  obtain ⟨⟨_, sameParams⟩, sameResult⟩ := agreeing
  cases signature
  cases other
  cases sameParams
  cases sameResult
  rfl

theorem index (value other : Index) :
    Delimits (Format.index value) (Format.index other) (value = other) :=
  of_inverts Reader.inverts_index value other

theorem word (value other : UInt64) :
    Delimits (Leb128.unsigned value.toNat) (Leb128.unsigned other.toNat) (value = other) :=
  of_inverts Reader.inverts_word value other

theorem importEntry (entry other : Import) :
    Delimits (Format.importEntry entry) (Format.importEntry other) (entry = other) := by
  have type := index entry.type other.type
  have moduleName := text entry.moduleName other.moduleName
  have functionName := text entry.functionName other.functionName
  apply ((type.append fun _ => moduleName).append fun _ => functionName).imp
  intro agreeing
  obtain ⟨⟨sameType, sameModuleName⟩, sameFunctionName⟩ := agreeing
  cases entry
  cases other
  cases sameType
  cases sameModuleName
  cases sameFunctionName
  rfl

theorem memory (exported otherExported : Bool) (memory other : Memory) :
    Delimits (Format.memory exported memory) (Format.memory otherExported other)
      (memory.min = other.min ∧ memory.max = other.max ∧ exported = otherExported) := by
  have min := word memory.min other.min
  have max := word memory.max other.max
  have flag := of_inverts Reader.inverts_flag exported otherExported
  apply ((min.append fun _ => max).append fun _ => flag).imp
  intro agreeing
  obtain ⟨⟨sameMin, sameMax⟩, sameFlag⟩ := agreeing
  exact ⟨sameMin, sameMax, sameFlag⟩

/-- Two exports of the same kind. -/
theorem exportEntry {entry other : Export}
    (sameKind : (entry.target == .memory) = (other.target == .memory)) :
    Delimits (Format.exportEntry entry) (Format.exportEntry other) (entry = other) := by
  obtain ⟨name, target⟩ := entry
  obtain ⟨otherName, otherTarget⟩ := other
  cases target with
  | memory =>
      cases otherTarget with
      | memory =>
          apply (text name otherName).imp
          intro sameName
          rw [sameName]
      | function otherFunction => cases sameKind
  | function function =>
      cases otherTarget with
      | memory => cases sameKind
      | function otherFunction =>
          apply ((index function otherFunction).append fun _ => text name otherName).imp
          intro agreeing
          obtain ⟨sameFunction, sameName⟩ := agreeing
          rw [sameFunction, sameName]

theorem segment (segment other : Segment) :
    Delimits (Format.segment segment) (Format.segment other) (segment = other) := by
  have address := word segment.address other.address
  have data := of_inverts Reader.inverts_string segment.data other.data
  apply (address.append fun _ => data).imp
  intro agreeing
  obtain ⟨sameAddress, sameData⟩ := agreeing
  cases segment
  cases other
  cases sameAddress
  cases sameData
  rfl

theorem localGroup (group other : LocalGroup) :
    Delimits (Format.localGroup group) (Format.localGroup other) (group = other) :=
  of_inverts LocalGroup.inverts_readGroup group other

/-- A size field and as many bytes. -/
theorem sized {bytes others : List UInt8} (fits : bytes.length ≤ Gap.capacity)
    (otherFits : others.length ≤ Gap.capacity) :
    Delimits (Format.sizeField bytes.length ++ bytes) (Format.sizeField others.length ++ others)
      (bytes = others) := by
  apply ((sizeField fits otherFits).append of_length_eq).imp
  exact And.right

/-- The code of a function determines its locals and its body, as long as its size field can say how
long the body is. -/
theorem functionCode {function other : Function}
    (fits : (Expr.bytesAll function.body).length ≤ Gap.capacity)
    (otherFits : (Expr.bytesAll other.body).length ≤ Gap.capacity) :
    Delimits (Format.functionCode function) (Format.functionCode other)
      (function.locals = other.locals ∧ function.body = other.body) := by
  have groups :=
    vector_of_forall localGroup (LocalGroup.ofLocals function.locals)
      (LocalGroup.ofLocals other.locals)
  rw [Format.functionCode, Format.functionCode, List.append_assoc, List.append_assoc]
  apply (groups.append fun _ => sized fits otherFits).imp
  intro agreeing
  obtain ⟨sameGroups, sameBytes⟩ := agreeing
  exact ⟨LocalGroup.ofLocals_injective sameGroups, Expr.bytesAll_injective sameBytes⟩

end Delimits

/-! ## Sections -/

namespace Delimits

variable {first second : Module}

theorem sectionBytes {id other : SectionId} (fits : (first.payload id).length ≤ Gap.capacity)
    (otherFits : (second.payload other).length ≤ Gap.capacity) :
    Delimits (first.sectionBytes id) (second.sectionBytes other)
      (id = other ∧ first.payload id = second.payload other) := by
  have name := text id.name other.name
  apply (((sizeField fits otherFits).append fun _ => name).append
    fun head => of_length_eq head.1).imp
  intro agreeing
  obtain ⟨⟨_, sameName⟩, samePayload⟩ := agreeing
  exact ⟨SectionId.name_inj sameName, samePayload⟩

/-- Two different sections never begin the same bytes, so anything follows if they do. -/
theorem sectionBytes_of_ne {id other : SectionId} (different : id ≠ other)
    (fits : (first.payload id).length ≤ Gap.capacity)
    (otherFits : (second.payload other).length ≤ Gap.capacity) (tail otherTail : List UInt8)
    (conclusion : Prop) :
    Delimits (first.sectionBytes id ++ tail) (second.sectionBytes other ++ otherTail)
      conclusion := by
  apply ((sectionBytes fits otherFits).append fun same => absurd same.1 different).imp
  exact And.right

/-- The terminator closes a list of sections, so no other list can go on where one ends. -/
theorem sections {ids others : List SectionId} (closed : SectionId.terminator ∉ ids)
    (otherClosed : SectionId.terminator ∉ others)
    (fits : ∀ id ∈ ids, (first.payload id).length ≤ Gap.capacity)
    (otherFits : ∀ id ∈ others, (second.payload id).length ≤ Gap.capacity) :
    Delimits ((ids ++ [SectionId.terminator]).flatMap first.sectionBytes)
      ((others ++ [SectionId.terminator]).flatMap second.sectionBytes)
      (ids = others ∧ ∀ id ∈ ids, first.payload id = second.payload id) := by
  have terminatorFits (module : Module) :
      (module.payload .terminator).length ≤ Gap.capacity := Nat.zero_le _
  induction ids generalizing others with
  | nil =>
      cases others with
      | nil =>
          rw [List.nil_append, List.flatMap_singleton, List.flatMap_singleton]
          apply (sectionBytes (terminatorFits first) (terminatorFits second)).imp
          intro _
          exact ⟨rfl, List.forall_mem_nil _⟩
      | cons other others =>
          rw [List.forall_mem_cons] at otherFits
          have different := List.ne_of_not_mem_cons otherClosed
          exact sectionBytes_of_ne different (terminatorFits first) otherFits.1 _ _ _
  | cons id ids inductionHypothesis =>
      rw [List.forall_mem_cons] at fits
      cases others with
      | nil =>
          have different := (List.ne_of_not_mem_cons closed).symm
          exact sectionBytes_of_ne different fits.1 (terminatorFits second) _ _ _
      | cons other others =>
          rw [List.forall_mem_cons] at otherFits
          have head := sectionBytes fits.1 otherFits.1
          have tail :=
            inductionHypothesis (List.not_mem_of_not_mem_cons closed)
              (List.not_mem_of_not_mem_cons otherClosed) fits.2 otherFits.2
          apply (head.append fun _ => tail).imp
          intro agreeing
          obtain ⟨⟨sameId, samePayload⟩, sameIds, samePayloads⟩ := agreeing
          rw [sameId, sameIds, List.forall_mem_cons]
          rw [sameId] at samePayload
          rw [sameIds] at samePayloads
          exact ⟨rfl, samePayload, samePayloads⟩

end Delimits

namespace Module

variable {first second : Module}

/-- Two modules need the same sections and fill them with the same bytes. -/
def SameSections (first second : Module) : Prop :=
  ∀ id,
    first.needs id = second.needs id ∧
      (first.needs id = true → first.payload id = second.payload id)

/-- The bytes of a module tell which sections it has, what is in them, and where it ends. -/
theorem delimits_bytes (fits : ∀ frame ∈ first.frames, frame.2 ≤ Gap.capacity)
    (otherFits : ∀ frame ∈ second.frames, frame.2 ≤ Gap.capacity) :
    Delimits first.bytes second.bytes (SameSections first second) := by
  obtain ⟨ids, present, closed, needed⟩ := present_eq_append_terminator first
  obtain ⟨others, otherPresent, otherClosed, otherNeeded⟩ := present_eq_append_terminator second
  have header := Delimits.of_length_eq (Eq.refl headerBytes.length)
  have sections :=
    Delimits.sections closed otherClosed
      (fun id member => length_payload_le fits (needed id member))
      (fun id member => length_payload_le otherFits (otherNeeded id member))
  rw [← present, ← otherPresent] at sections
  apply (header.append fun _ => sections).imp
  intro agreeing id
  obtain ⟨_, sameIds, samePayload⟩ := agreeing
  have samePresent : first.present = second.present := by
    rw [present, otherPresent, sameIds]
  have sameNeeds : first.needs id = second.needs id := by
    rw [Bool.eq_iff_iff, ← mem_present_iff, ← mem_present_iff, samePresent]
  refine ⟨sameNeeds, ?_⟩
  intro isNeeded
  have member := mem_present_iff.mpr isNeeded
  rw [present, List.mem_append, List.mem_singleton] at member
  cases member with
  | inl inIds => exact samePayload id inIds
  | inr isTerminator =>
      rw [isTerminator]
      rfl

/-! ## Contents of the sections -/

/-- A section that is left out, other than the one for segments, would hold a single zero. -/
theorem payload_eq_of_needs_eq_false {module : Module} {id : SectionId}
    (notNeeded : module.needs id = false) (notData : id ≠ .data) :
    module.payload id = [0] := by
  have noItems {α : Type} (bytes : α → List UInt8) : Format.vector bytes [] = [0] := by
    rw [Format.vector, List.length_nil, Leb128.unsigned_of_lt (by decide)]
    rfl
  cases id with
  | data => exact absurd rfl notData
  | terminator => cases notNeeded
  | memory =>
      have absent : module.memory = none := by simpa [needs] using notNeeded
      rw [payload, absent]
      rfl
  | start =>
      have absent : module.start = none := by simpa [needs] using notNeeded
      rw [payload, absent]
      rfl
  | types | imports | functions | table | exports | code =>
      simp only [needs, Bool.not_eq_false', List.isEmpty_iff] at notNeeded
      rw [payload, notNeeded, noItems]

theorem segments_eq_nil_of_needs_data {module : Module} (notNeeded : module.needs .data = false) :
    module.segments = [] := by
  simpa [needs] using notNeeded

namespace SameSections

variable (same : SameSections first second)

include same

/-- The payloads agree also where a section is left out, because then both have nothing to say. The
data section is the exception: without a memory there is not even an empty list of segments. -/
theorem payload_eq (id : SectionId) (notData : id ≠ .data) :
    first.payload id = second.payload id := by
  obtain ⟨sameNeeds, samePayload⟩ := same id
  by_cases needed : first.needs id = true
  · exact samePayload needed
  · rw [Bool.not_eq_true] at needed
    have otherNotNeeded : second.needs id = false := by rw [← sameNeeds, needed]
    rw [payload_eq_of_needs_eq_false needed notData,
      payload_eq_of_needs_eq_false otherNotNeeded notData]

theorem types_eq : first.types = second.types :=
  (Delimits.vector_of_forall Delimits.functionType _ _).of_eq (same.payload_eq .types (by decide))

theorem imports_eq : first.imports = second.imports :=
  (Delimits.vector_of_forall Delimits.importEntry _ _).of_eq
    (same.payload_eq .imports (by decide))

theorem table_eq : first.table = second.table :=
  (Delimits.vector_of_forall Delimits.index _ _).of_eq (same.payload_eq .table (by decide))

theorem start_eq : first.start = second.start :=
  (Delimits.option_of_forall Delimits.index _ _).of_eq (same.payload_eq .start (by decide))

/-- The type indices stand in one section, the locals and the bodies in another one. -/
theorem functions_eq (fits : ∀ frame ∈ first.frames, frame.2 ≤ Gap.capacity)
    (otherFits : ∀ frame ∈ second.frames, frame.2 ≤ Gap.capacity) :
    first.functions = second.functions := by
  have sameTypes :
      List.Forall₂ (fun (function other : Function) => function.type = other.type)
        first.functions second.functions := by
    refine (Delimits.vector ?_).of_eq (same.payload_eq .functions (by decide))
    intro sameLength
    exact List.forall₂_iff_get.mpr ⟨sameLength, fun _ _ _ => Delimits.index _ _⟩
  have sameCode :
      List.Forall₂
        (fun (function other : Function) =>
          function.locals = other.locals ∧ function.body = other.body)
        first.functions second.functions := by
    refine (Delimits.vector ?_).of_eq (same.payload_eq .code (by decide))
    intro sameLength
    refine List.forall₂_iff_get.mpr ⟨sameLength, ?_⟩
    intro place bound otherBound
    exact Delimits.functionCode (length_body_le fits (List.get_mem _ _))
      (length_body_le otherFits (List.get_mem _ _))
  rw [← List.forall₂_eq_eq_eq]
  apply sameTypes.mp _ sameCode
  intro function other sameType agreeing
  obtain ⟨sameLocals, sameBody⟩ := agreeing
  cases function
  cases other
  cases sameType
  cases sameLocals
  cases sameBody
  rfl

theorem memory_agrees :
    Option.Rel
      (fun memory other =>
        memory.min = other.min ∧ memory.max = other.max ∧
          first.exportsMemory = second.exportsMemory)
      first.memory second.memory :=
  (Delimits.option (Delimits.memory first.exportsMemory second.exportsMemory) _ _).of_eq
    (same.payload_eq .memory (by decide))

theorem segments_eq : first.segments = second.segments := by
  obtain ⟨sameNeeds, samePayload⟩ := same .data
  by_cases needed : first.needs .data = true
  · have each (memory other : Memory) :=
      Delimits.vector_of_forall Delimits.segment memory.segments other.segments
    have agreeing := (Delimits.option each first.memory second.memory).of_eq (samePayload needed)
    rw [segments, segments]
    generalize first.memory = memory at agreeing ⊢
    generalize second.memory = other at agreeing ⊢
    cases agreeing with
    | none => rfl
    | some sameSegments => exact sameSegments
  · rw [Bool.not_eq_true] at needed
    have otherNotNeeded : second.needs .data = false := by rw [← sameNeeds, needed]
    rw [segments_eq_nil_of_needs_data needed, segments_eq_nil_of_needs_data otherNotNeeded]

theorem memory_eq : first.memory = second.memory := by
  have agreeing := same.memory_agrees
  have sameSegments := same.segments_eq
  rw [segments, segments] at sameSegments
  generalize first.memory = memory at agreeing sameSegments ⊢
  generalize second.memory = other at agreeing sameSegments ⊢
  cases agreeing with
  | none => rfl
  | @some memory other agreeing =>
      obtain ⟨sameMin, sameMax, _⟩ := agreeing
      cases memory
      cases other
      cases sameMin
      cases sameMax
      cases sameSegments
      rfl

theorem exportsMemory_eq (hasMemory : first.memory.isSome) :
    first.exportsMemory = second.exportsMemory := by
  have agreeing := same.memory_agrees
  cases firstMemory : first.memory with
  | none =>
      rw [firstMemory] at hasMemory
      cases hasMemory
  | some memory =>
      rw [← same.memory_eq, firstMemory] at agreeing
      cases agreeing with
      | some agreeing => exact agreeing.2.2

theorem length_exports_eq : first.exports.length = second.exports.length := by
  have samePayload := same.payload_eq .exports (by decide)
  have count :=
    Delimits.of_inverts Reader.inverts_unsigned first.exports.length second.exports.length
  exact (count _ _ samePayload).1

/-- Exports are told apart when it is known which of them are functions. -/
theorem exports_eq
    (sameKinds :
      first.exports.map (·.target == .memory) = second.exports.map (·.target == .memory)) :
    first.exports = second.exports := by
  have kinds :
      List.Forall₂
        (fun (entry other : Export) => (entry.target == .memory) = (other.target == .memory))
        first.exports second.exports := by
    rw [← List.forall₂_eq_eq_eq, List.forall₂_map_left_iff, List.forall₂_map_right_iff]
      at sameKinds
    exact sameKinds
  have pairwise := kinds.imp fun _ _ sameKind => Delimits.exportEntry sameKind
  have agreeing :=
    (Delimits.vector fun _ => pairwise).of_eq (same.payload_eq .exports (by decide))
  rw [List.forall₂_eq_eq_eq] at agreeing
  exact agreeing

/-- When it is known which exports are of the memory, the bytes determine the whole module. -/
theorem eq_of_sameKinds (fits : ∀ frame ∈ first.frames, frame.2 ≤ Gap.capacity)
    (otherFits : ∀ frame ∈ second.frames, frame.2 ≤ Gap.capacity)
    (sameKinds :
      first.exports.map (·.target == .memory) = second.exports.map (·.target == .memory)) :
    first = second := by
  have sameTypes := same.types_eq
  have sameImports := same.imports_eq
  have sameFunctions := same.functions_eq fits otherFits
  have sameTable := same.table_eq
  have sameMemory := same.memory_eq
  have sameExports := same.exports_eq sameKinds
  have sameStart := same.start_eq
  cases first
  cases second
  cases sameTypes
  cases sameImports
  cases sameFunctions
  cases sameTable
  cases sameMemory
  cases sameExports
  cases sameStart
  rfl

end SameSections

theorem kinds_of_exportsMemory_eq_false {module : Module}
    (notExported : module.exportsMemory = false) :
    module.exports.map (·.target == .memory) = List.replicate module.exports.length false := by
  rw [List.eq_replicate_iff, List.length_map]
  refine ⟨rfl, ?_⟩
  intro kind member
  obtain ⟨entry, entryMember, isKind⟩ := List.mem_map.mp member
  rw [exportsMemory, List.any_eq_false] at notExported
  rw [← isKind]
  exact Bool.eq_false_iff.mpr (notExported entry entryMember)

/-! ## Exports that cannot be told apart -/

/-- A module with a memory that is exported as `a` and with one more export. -/
def withSecondExport (entry : Export) : Module where
  memory := some { min := 1, max := 1, segments := [] }
  exports := [⟨"a", .memory⟩, entry]

/-- The memory under a name of one zero byte, which is also an empty name behind the index 1. -/
theorem encode_withSecondExport :
    ∃ bytes,
      (withSecondExport ⟨"\x00", .memory⟩).encode = .ok bytes ∧
        (withSecondExport ⟨"", .function 1⟩).encode = .ok bytes := by
  have fits :
      ∀ frame ∈ (withSecondExport ⟨"\x00", .memory⟩).frames, frame.2 ≤ Gap.capacity := by
    decide +kernel
  have otherFits :
      ∀ frame ∈ (withSecondExport ⟨"", .function 1⟩).frames, frame.2 ≤ Gap.capacity := by
    decide +kernel
  obtain ⟨bytes, isOk, isBytes⟩ := (outcome_encode _).exists_ok fits
  obtain ⟨otherBytes, otherIsOk, otherIsBytes⟩ := (outcome_encode _).exists_ok otherFits
  have sameBytes :
      (withSecondExport ⟨"\x00", .memory⟩).bytes =
        (withSecondExport ⟨"", .function 1⟩).bytes := by
    decide +kernel
  rw [← isBytes, ← otherIsBytes, Array.toList_inj] at sameBytes
  rw [← sameBytes] at otherIsOk
  exact ⟨bytes, isOk, otherIsOk⟩

/-- The bytes of a module end where they say, and they determine the module up to its exports, of
which they determine the number. They determine the exports if it is known which of them are
functions, as is the case when a memory is there but not exported. Otherwise they do not. -/
theorem encode_append_inj :
    (∀ (first second : Module) (bytes otherBytes : Array UInt8) (rest otherRest : List UInt8),
      first.encode = .ok bytes → second.encode = .ok otherBytes →
        bytes.toList ++ rest = otherBytes.toList ++ otherRest →
          rest = otherRest ∧ first.types = second.types ∧ first.imports = second.imports ∧
            first.functions = second.functions ∧ first.table = second.table ∧
            first.memory = second.memory ∧ first.start = second.start ∧
            first.exports.length = second.exports.length ∧
            (first.exports.map (·.target == .memory) =
                second.exports.map (·.target == .memory) → first = second) ∧
            (first.memory.isSome → second.memory.isSome → first.exportsMemory = false →
              first = second)) ∧
      ∃ (first second : Module) (bytes : Array UInt8),
        first.encode = .ok bytes ∧ second.encode = .ok bytes ∧
          { first with exports := second.exports } = second ∧ first.exports ≠ second.exports ∧
          first.memory.isSome ∧ second.memory.isSome ∧
          first.exportsMemory ∧ second.exportsMemory ∧
          (first.exports.map Export.name).Nodup ∧ (second.exports.map Export.name).Nodup := by
  constructor
  · intro first second bytes otherBytes rest otherRest isOk otherIsOk equal
    obtain ⟨fits, isBytes⟩ := (outcome_encode first).of_eq_ok isOk
    obtain ⟨otherFits, otherIsBytes⟩ := (outcome_encode second).of_eq_ok otherIsOk
    rw [isBytes, otherIsBytes] at equal
    obtain ⟨same, sameRest⟩ := delimits_bytes fits otherFits _ _ equal
    refine ⟨sameRest, same.types_eq, same.imports_eq, same.functions_eq fits otherFits,
      same.table_eq, same.memory_eq, same.start_eq, same.length_exports_eq,
      same.eq_of_sameKinds fits otherFits, ?_⟩
    intro hasMemory _ notExported
    apply same.eq_of_sameKinds fits otherFits
    have otherNotExported : second.exportsMemory = false := by
      rw [← same.exportsMemory_eq hasMemory, notExported]
    rw [kinds_of_exportsMemory_eq_false notExported,
      kinds_of_exportsMemory_eq_false otherNotExported, same.length_exports_eq]
  · obtain ⟨bytes, isOk, otherIsOk⟩ := encode_withSecondExport
    exact ⟨_, _, bytes, isOk, otherIsOk, rfl, by decide, rfl, rfl, rfl, rfl, by decide, by decide⟩

theorem encode_append_inj_withSecondExport :
    ∃ bytes,
      (withSecondExport ⟨"\x00", .memory⟩).encode = .ok bytes ∧
        (withSecondExport ⟨"", .function 1⟩).encode = .ok bytes ∧
          (withSecondExport ⟨"\x00", .memory⟩).memory =
              (withSecondExport ⟨"", .function 1⟩).memory ∧
            (withSecondExport ⟨"\x00", .memory⟩).exports.length =
              (withSecondExport ⟨"", .function 1⟩).exports.length := by
  obtain ⟨bytes, isOk, otherIsOk⟩ := encode_withSecondExport
  obtain ⟨_, _, _, _, _, sameMemory, _, sameLength, _⟩ :=
    encode_append_inj.1 _ _ bytes bytes [] [] isOk otherIsOk rfl
  exact ⟨bytes, isOk, otherIsOk, sameMemory, sameLength⟩

end Module

end WasmBinary
