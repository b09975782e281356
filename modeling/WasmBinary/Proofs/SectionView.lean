import WasmBinary.Proofs.Encoding
import WasmBinary.Proofs.LocalGroup

/-!
Walking over a finished encoding. Main statement: the frames alone lead from the header to the last
byte, and the layout, which is recorded while the bytes are written, says of each section what a
reader of the finished bytes sees.
-/

namespace WasmBinary

/-! ## Sections -/

/-- Where no two items have the same key, the first item with a key is the only one. -/
theorem find?_key_eq_some_iff {α κ : Type} [BEq κ] [LawfulBEq κ] {items : List α} {key : α → κ}
    (distinct : (items.map key).Nodup) {wanted : κ} {found : α} :
    items.find? (key · == wanted) = some found ↔ found ∈ items ∧ key found = wanted := by
  induction items with
  | nil => simp
  | cons item items inductionHypothesis =>
      rw [List.map_cons, List.nodup_cons] at distinct
      obtain ⟨notLater, distinctLater⟩ := distinct
      by_cases isWanted : key item = wanted
      · have matching : (key item == wanted) = true := beq_iff_eq.mpr isWanted
        rw [List.find?_cons_of_pos (p := (key · == wanted)) matching, Option.some.injEq]
        constructor
        · rintro rfl
          exact ⟨List.mem_cons_self, isWanted⟩
        · rintro ⟨member, foundIsWanted⟩
          rcases List.mem_cons.mp member with isFirst | isLater
          · exact isFirst.symm
          · have later := List.mem_map_of_mem (f := key) isLater
            rw [foundIsWanted, ← isWanted] at later
            exact absurd later notLater
      · have notMatching : ¬ (key item == wanted) = true := mt beq_iff_eq.mp isWanted
        rw [List.find?_cons_of_neg (p := (key · == wanted)) notMatching,
          inductionHypothesis distinctLater, List.mem_cons]
        constructor
        · rintro ⟨isLater, foundIsWanted⟩
          exact ⟨Or.inr isLater, foundIsWanted⟩
        · rintro ⟨rfl | isLater, foundIsWanted⟩
          · exact absurd foundIsWanted isWanted
          · exact ⟨isLater, foundIsWanted⟩

namespace Module

theorem names_present (module : Module) :
    (module.presence.filter Prod.snd).map Prod.fst = module.present.map SectionId.name := by
  rw [presence_eq, List.filter_map, List.map_map]
  rfl

theorem mem_presence_iff {module : Module} {name : String} :
    (name, true) ∈ module.presence ↔ ∃ id ∈ module.present, id.name = name := by
  rw [presence_eq, List.mem_map]
  constructor
  · rintro ⟨id, _, same⟩
    rw [Prod.mk.injEq] at same
    exact ⟨id, mem_present_iff.mpr same.2, same.1⟩
  · rintro ⟨id, member, named⟩
    exact ⟨id, SectionId.mem_all id, by rw [named, mem_present_iff.mp member]⟩

theorem nodup_present (module : Module) : module.present.Nodup :=
  SectionId.nodup_all.filter module.needs

/-! ### Where a section stands -/

/-- A section that is written stands between those that are written before and after it. -/
theorem present_eq {module : Module} {id : SectionId} (needed : module.needs id = true) :
    module.present =
      id.before.filter module.needs ++ id :: id.after.filter module.needs := by
  rw [present, id.all_eq, List.filter_append, List.filter_cons_of_pos needed]

/-- The bytes of a module are cut by a section into what stands in front of it, as long as the
section's offset says, the section itself and what stands behind it. -/
theorem bytes_eq_of_needs {module : Module} {id : SectionId} (needed : module.needs id = true) :
    module.bytes =
      (headerBytes ++ (id.before.filter module.needs).flatMap module.sectionBytes) ++
        (module.sectionBytes id ++
          (id.after.filter module.needs).flatMap module.sectionBytes) := by
  rw [bytes, present_eq needed, List.flatMap_append, List.flatMap_cons, List.append_assoc]

theorem drop_offset_bytes {module : Module} {id : SectionId} (needed : module.needs id = true) :
    module.bytes.drop (module.offset id) =
      module.sectionBytes id ++ (id.after.filter module.needs).flatMap module.sectionBytes := by
  have front :
      module.offset id =
        (headerBytes ++
          (id.before.filter module.needs).flatMap module.sectionBytes).length := by
    rw [List.length_append]
    rfl
  rw [bytes_eq_of_needs needed, front, List.drop_left]

/-! ### The reader -/

theorem read_sectionBytes {module : Module} {id : SectionId}
    (fits : (module.payload id).length ≤ Gap.capacity) (offset : Nat) (rest : List UInt8) :
    SectionView.read offset (module.sectionBytes id ++ rest) =
      some ({ name := utf8 id.name, offset, payload := module.payload id }, rest) := by
  have size :=
    Reader.sizeField_append fits (Format.text id.name ++ (module.payload id ++ rest))
  have name := Reader.inverts_string (utf8 id.name) (module.payload id ++ rest)
  have payload := Reader.take_append (module.payload id) rest
  rw [sectionBytes, List.append_assoc, List.append_assoc, SectionView.read, size]
  change (Reader.string (Format.string (utf8 id.name) ++ (module.payload id ++ rest)) >>= _) = _
  rw [name]
  change (Reader.take (module.payload id).length (module.payload id ++ rest) >>= _) = _
  rw [payload]
  rfl

theorem go_sectionBytes_append {module : Module} {id : SectionId}
    (fits : (module.payload id).length ≤ Gap.capacity) (fuel offset : Nat) (rest : List UInt8) :
    SectionView.readAll.go (fuel + 1) offset (module.sectionBytes id ++ rest) =
      (SectionView.readAll.go fuel (offset + (module.sectionBytes id).length) rest).map
        ({ name := utf8 id.name, offset, payload := module.payload id } :: ·) := by
  have first := read_sectionBytes fits offset rest
  have taken :
      (module.sectionBytes id ++ rest).length - rest.length = (module.sectionBytes id).length := by
    rw [List.length_append, Nat.add_sub_cancel]
  -- A section begins with the first byte of its size field, so there is a section to be read.
  obtain ⟨byte, tail, shape⟩ : ∃ byte tail, module.sectionBytes id ++ rest = byte :: tail :=
    ⟨_, _, rfl⟩
  rw [shape] at first taken ⊢
  rw [SectionView.readAll.go, first]
  change
    (SectionView.readAll.go fuel (offset + ((byte :: tail).length - rest.length)) rest >>= _) = _
  rw [taken]
  cases SectionView.readAll.go fuel (offset + (module.sectionBytes id).length) rest <;> rfl

/-- What is left of the sections is read when those in front of it are done. -/
theorem go_sections {module : Module} (fits : ∀ frame ∈ module.frames, frame.2 ≤ Gap.capacity)
    {done left : List SectionId} (order : SectionId.all = done ++ left) {fuel : Nat}
    (enough : ((left.filter module.needs).flatMap module.sectionBytes).length ≤ fuel) :
    SectionView.readAll.go fuel
        (headerBytes.length + ((done.filter module.needs).flatMap module.sectionBytes).length)
        ((left.filter module.needs).flatMap module.sectionBytes) =
      some ((left.filter module.needs).map module.sectionView) := by
  induction left generalizing done fuel with
  | nil =>
      rw [List.filter_nil, List.flatMap_nil, SectionView.readAll.go]
      rfl
  | cons id left inductionHypothesis =>
      have place := SectionId.before_eq_of_all_eq order
      rw [List.append_cons] at order
      by_cases needed : module.needs id = true
      · rw [List.filter_cons_of_pos needed, List.flatMap_cons] at enough ⊢
        rw [List.length_append] at enough
        have positive : 0 < (module.sectionBytes id).length := Nat.succ_pos _
        obtain ⟨fuel, rfl⟩ : ∃ less, fuel = less + 1 := ⟨fuel - 1, by omega⟩
        have enoughLeft :
            ((left.filter module.needs).flatMap module.sectionBytes).length ≤ fuel := by
          omega
        have rest := inductionHypothesis order enoughLeft
        rw [filter_needs_concat needed, List.flatMap_append, List.flatMap_singleton,
          List.length_append, ← Nat.add_assoc] at rest
        rw [go_sectionBytes_append (length_payload_le fits needed), rest, List.map_cons,
          sectionView, offset, place]
        rfl
      · rw [List.filter_cons_of_neg needed] at enough ⊢
        have rest := inductionHypothesis order enough
        rw [filter_needs_concat_of_not needed] at rest
        exact rest

/-- A reader finds no name twice. -/
theorem nodup_names_sectionViews (module : Module) :
    ((module.present.map module.sectionView).map SectionView.name).Nodup := by
  rw [List.map_map]
  exact List.pairwise_map.mpr
    ((nodup_present module).imp fun different same =>
      different (SectionId.name_inj (utf8_inj same)))

/-- The frames lead a reader from the header to the last byte. -/
theorem readAll_sections {module : Module}
    (fits : ∀ frame ∈ module.frames, frame.2 ≤ Gap.capacity) :
    SectionView.readAll headerSize (module.bytes.drop headerSize) =
      some (module.present.map module.sectionView) := by
  have sections :
      module.bytes.drop headerBytes.length = module.present.flatMap module.sectionBytes :=
    List.drop_left
  change SectionView.readAll headerSize (module.bytes.drop headerBytes.length) = _
  rw [sections]
  exact go_sections fits (List.nil_append _).symm (Nat.le_refl _)

theorem ofName?_eq_some_iff {module : Module} {id : SectionId} {view : SectionView} :
    SectionView.ofName? (module.present.map module.sectionView) id.name = some view ↔
      module.needs id = true ∧ module.sectionView id = view := by
  rw [SectionView.ofName?, find?_key_eq_some_iff (nodup_names_sectionViews module), List.mem_map]
  constructor
  · rintro ⟨⟨other, member, isView⟩, named⟩
    rw [← isView] at named
    have same : other = id := SectionId.name_inj (utf8_inj named)
    rw [same] at member isView
    exact ⟨mem_present_iff.mp member, isView⟩
  · rintro ⟨needed, isView⟩
    refine ⟨⟨id, mem_present_iff.mpr needed, isView⟩, ?_⟩
    rw [← isView]
    rfl

/-- A section is found under its name exactly if the module has something to say in it. -/
theorem ofName?_eq (module : Module) (id : SectionId) :
    SectionView.ofName? (module.present.map module.sectionView) id.name =
      if module.needs id then some (module.sectionView id) else none := by
  apply Option.ext
  intro view
  rw [ofName?_eq_some_iff]
  by_cases needed : module.needs id = true
  · rw [if_pos needed, Option.some.injEq, and_iff_right needed]
  · rw [if_neg needed, iff_false_right nofun]
    exact fun found => needed found.1

theorem payload?_eq (module : Module) (id : SectionId) :
    SectionView.payload? (module.present.map module.sectionView) id.name =
      if module.needs id then some (module.payload id) else none := by
  rw [SectionView.payload?, ofName?_eq]
  split <;> rfl

/-! ### The layout -/

/-- The layout has an entry for each section, in their order, and the length of the bytes. -/
theorem layout_of_encoding_eq_ok {module : Module} {encoding : Encoding}
    (isOk : module.encoding = .ok encoding) :
    encoding.layout.sections.toList = module.present.map module.layoutEntry ∧
      encoding.layout.total = encoding.bytes.size := by
  have outcome :
      Outcome module.frames module.encoding fun encoding =>
        encoding.layout.sections.toList = module.present.map module.layoutEntry ∧
          encoding.layout.total = encoding.bytes.size :=
    (Encoder.outcome_putModule module).map fun _ wrote => ⟨wrote.toList_sections, rfl⟩
  exact (outcome.of_eq_ok isOk).2

theorem mem_sections_iff {module : Module} {layout : Layout}
    (sections : layout.sections.toList = module.present.map module.layoutEntry)
    {entry : LayoutEntry} :
    entry ∈ layout.sections ↔ ∃ id ∈ module.present, module.layoutEntry id = entry := by
  rw [← Array.mem_toList_iff, sections, List.mem_map]

/-- The names in a layout differ, so the first section of a name is the only one. -/
theorem find?_eq_some_iff_of_sections {module : Module} {layout : Layout}
    (sections : layout.sections.toList = module.present.map module.layoutEntry) (name : String)
    (entry : LayoutEntry) :
    layout.find? name = some entry ↔ entry ∈ layout.sections ∧ entry.name = name := by
  have distinct : (layout.sections.toList.map LayoutEntry.name).Nodup := by
    rw [sections, List.map_map]
    exact List.pairwise_map.mpr
      ((nodup_present module).imp fun different same => different (SectionId.name_inj same))
  rw [Layout.find?, ← Array.find?_toList, find?_key_eq_some_iff distinct, Array.mem_toList_iff]

/-- The layout knows a section exactly if the section is listed as present. -/
theorem isSome_find?_iff_of_sections {module : Module} {layout : Layout}
    (sections : layout.sections.toList = module.present.map module.layoutEntry) (name : String) :
    (layout.find? name).isSome ↔ (name, true) ∈ module.presence := by
  rw [Option.isSome_iff_exists, mem_presence_iff]
  simp only [find?_eq_some_iff_of_sections sections, mem_sections_iff sections]
  constructor
  · rintro ⟨entry, ⟨id, member, isEntry⟩, isName⟩
    rw [← isEntry] at isName
    exact ⟨id, member, isName⟩
  · rintro ⟨id, member, isName⟩
    exact ⟨module.layoutEntry id, ⟨id, member, rfl⟩, isName⟩

/-! ### Both accounts of the sections -/

/-- A reader that knows the frames alone walks over a finished encoding to its end. It sees the
sections that the module has, in the order of the format, each once and the terminator last, and
the layout says of each of them what the reader sees. -/
theorem readAll_of_encoding_eq_ok (module : Module) (encoding : Encoding)
    (isOk : module.encoding = .ok encoding) :
    ∃ views,
      SectionView.readAll headerSize (encoding.bytes.toList.drop headerSize) = some views ∧
        views.map SectionView.name = (module.presence.filter Prod.snd).map (utf8 ·.1) ∧
        (views.map SectionView.name).Nodup ∧
        (∃ earlier offset, views = earlier ++ [⟨utf8 "end", offset, []⟩]) ∧
        (∀ view ∈ views,
          Leb128.readUnsigned ((encoding.bytes.toList.drop view.offset).take 4) =
            some (view.payload.length, [])) ∧
        encoding.layout.sections.toList.map
            (fun entry => (utf8 entry.name, entry.offset, entry.size)) =
          views.map (fun view => (view.name, view.offset, view.payload.length)) ∧
        encoding.layout.total = encoding.bytes.size ∧
        (∀ name, (encoding.layout.find? name).isSome ↔ (name, true) ∈ module.presence) ∧
        ∀ name entry, encoding.layout.find? name = some entry ↔
          entry ∈ encoding.layout.sections ∧ entry.name = name := by
  obtain ⟨fits, isBytes⟩ := (outcome_encoding module).of_eq_ok isOk
  obtain ⟨sections, total⟩ := layout_of_encoding_eq_ok isOk
  have read := readAll_sections fits
  rw [← isBytes] at read
  refine ⟨module.present.map module.sectionView, read, ?_, ?_, ?_, ?_, ?_, total,
    isSome_find?_iff_of_sections sections, find?_eq_some_iff_of_sections sections⟩
  · have names := congrArg (List.map utf8) (names_present module)
    rw [List.map_map, List.map_map] at names
    rw [List.map_map]
    exact names.symm
  · exact nodup_names_sectionViews module
  · obtain ⟨ids, present, _⟩ := present_eq_append_terminator module
    rw [present, List.map_append]
    exact ⟨_, _, rfl⟩
  · intro view member
    obtain ⟨id, idMember, isView⟩ := List.mem_map.mp member
    have needed := mem_present_iff.mp idMember
    rw [← isView, isBytes, sectionView, drop_offset_bytes needed]
    exact Reader.readUnsigned_sizeField (length_payload_le fits needed)
  · rw [sections, List.map_map, List.map_map]
    rfl

theorem readAll_of_encoding_sampleModule :
    ∃ encoding views,
      sampleModule.encoding = .ok encoding ∧
        SectionView.readAll headerSize (encoding.bytes.toList.drop headerSize) = some views ∧
        views.map SectionView.name =
          ["type", "function", "memory", "export", "code", "data", "end"].map utf8 := by
  obtain ⟨encoding, isOk, _⟩ := (outcome_encoding sampleModule).exists_ok frames_sampleModule_fit
  obtain ⟨views, read, names, _⟩ := readAll_of_encoding_eq_ok sampleModule encoding isOk
  refine ⟨encoding, views, isOk, read, names.trans ?_⟩
  decide +kernel

end Module

/-! ## Functions

The reader skips the bodies of functions. Main statement: the function section and the code section
list the same functions in the same order, and the sizes in the code section lead from one function
to the next and to the end.
-/

namespace CodeEntry

/-- Whether an entry is the code of a function: its groups are the locals in runs as long as
possible, and its body is what an empty stream ends up with when the function's body is put on
it. -/
structure Represents (entry : CodeEntry) (function : Function) : Prop where
  locals : LocalGroup.expand entry.groups = function.locals
  maximal : LocalGroup.Maximal entry.groups
  body : (({} : Stream).putExprs function.body).patched.toList = entry.body

def ofFunction (function : Function) : CodeEntry where
  groups := LocalGroup.ofLocals function.locals
  body := Expr.bytesAll function.body

theorem represents_ofFunction (function : Function) :
    (ofFunction function).Represents function where
  locals := LocalGroup.expand_ofLocals function.locals
  maximal := LocalGroup.maximal_ofLocals function.locals
  body := by
    rw [Stream.putExprs_eq, Stream.toList_patched_putBytes Stream.inBounds_empty]
    rfl

/-! ### The reader -/

theorem read_functionCode_append {function : Function}
    (fits : (Expr.bytesAll function.body).length ≤ Gap.capacity) (rest : List UInt8) :
    read (Format.functionCode function ++ rest) = some (ofFunction function, rest) := by
  have groups :=
    Reader.inverts_vector LocalGroup.inverts_readGroup (LocalGroup.ofLocals function.locals)
      (Format.sizeField (Expr.bytesAll function.body).length ++
        (Expr.bytesAll function.body ++ rest))
  have size := Reader.sizeField_append fits (Expr.bytesAll function.body ++ rest)
  have body := Reader.take_append (Expr.bytesAll function.body) rest
  rw [read, Format.functionCode, List.append_assoc, List.append_assoc, groups]
  change (Reader.sizeField (Format.sizeField (Expr.bytesAll function.body).length ++ _) >>= _) = _
  rw [size]
  change (Reader.take (Expr.bytesAll function.body).length _ >>= _) = _
  rw [body]
  rfl

end CodeEntry

namespace Module

/-- All functions are read from behind their number, and nothing is left. -/
theorem times_read_functionCode {module : Module}
    (fits : ∀ frame ∈ module.frames, frame.2 ≤ Gap.capacity) :
    Reader.times CodeEntry.read module.functions.length
        (module.functions.flatMap Format.functionCode) =
      some (module.functions.map CodeEntry.ofFunction, []) := by
  have read :=
    Reader.times_flatMap_eq
      (fun function member => CodeEntry.read_functionCode_append (length_body_le fits member)) []
  rwa [List.append_nil] at read

theorem times_index_type (module : Module) :
    Reader.times Reader.index module.functions.length
        (module.functions.flatMap fun function => Format.index function.type) =
      some (module.functions.map Function.type, []) := by
  have read :=
    Reader.times_flatMap_eq
      (fun (function : Function) (_ : function ∈ module.functions) =>
        Reader.inverts_index function.type) []
  rwa [List.append_nil] at read

/-- A finished encoding lists the functions of a module in two sections, in the same order. Both
payloads begin with the number of functions. In the function section the types follow. In the code
section a reader that skips the bodies finds an entry for each function and then the end of the
payload. -/
theorem code_of_encoding_eq_ok (module : Module) (encoding : Encoding)
    (nonempty : module.functions ≠ []) (isOk : module.encoding = .ok encoding) :
    ∃ views functionPayload codePayload functionRest codeRest entries,
      SectionView.readAll headerSize (encoding.bytes.toList.drop headerSize) = some views ∧
        SectionView.payload? views "function" = some functionPayload ∧
        SectionView.payload? views "code" = some codePayload ∧
        Leb128.readUnsigned functionPayload = some (module.functions.length, functionRest) ∧
        Leb128.readUnsigned codePayload = some (module.functions.length, codeRest) ∧
        Reader.times Reader.index module.functions.length functionRest =
          some (module.functions.map Function.type, []) ∧
        Reader.times CodeEntry.read module.functions.length codeRest = some (entries, []) ∧
        List.Forall₂ CodeEntry.Represents entries module.functions := by
  obtain ⟨fits, isBytes⟩ := (outcome_encoding module).of_eq_ok isOk
  have read := readAll_sections fits
  rw [← isBytes] at read
  have needed : module.needs .functions = true := by simpa [needs] using nonempty
  have codeNeeded : module.needs .code = true := needed
  have functionPayload := payload?_eq module .functions
  have codePayload := payload?_eq module .code
  rw [if_pos needed] at functionPayload
  rw [if_pos codeNeeded] at codePayload
  refine ⟨_, _, _, _, _, module.functions.map CodeEntry.ofFunction, read, functionPayload,
    codePayload, Reader.inverts_unsigned module.functions.length _,
    Reader.inverts_unsigned module.functions.length _, times_index_type module,
    times_read_functionCode fits, ?_⟩
  rw [List.forall₂_map_left_iff, List.forall₂_same]
  exact fun function _ => CodeEntry.represents_ofFunction function

/-- Two functions, of which the first one has locals in three runs. -/
def withLocals : Module where
  functions := [⟨3, [.i32, .i32, .f64, .i32], [.nop, .getLocal 2]⟩, ⟨1, [], []⟩]

theorem code_of_encoding_withLocals :
    withLocals.functions ≠ [] ∧
      ∃ encoding views codePayload codeRest entries,
        withLocals.encoding = .ok encoding ∧
          SectionView.readAll headerSize (encoding.bytes.toList.drop headerSize) = some views ∧
          SectionView.payload? views "code" = some codePayload ∧
          Leb128.readUnsigned codePayload = some (2, codeRest) ∧
          Reader.times CodeEntry.read 2 codeRest = some (entries, []) ∧
          List.Forall₂ CodeEntry.Represents entries withLocals.functions := by
  have nonempty : withLocals.functions ≠ [] := List.cons_ne_nil _ _
  have fits : ∀ frame ∈ withLocals.frames, frame.2 ≤ Gap.capacity := by
    decide +kernel
  obtain ⟨encoding, isOk, _⟩ := (outcome_encoding withLocals).exists_ok fits
  obtain ⟨views, _, codePayload, _, codeRest, entries, read, _, isCode, _, count, _, code,
    represents⟩ := code_of_encoding_eq_ok withLocals encoding nonempty isOk
  exact ⟨nonempty, encoding, views, codePayload, codeRest, entries, isOk, read, isCode, count, code,
    represents⟩

end Module

end WasmBinary
