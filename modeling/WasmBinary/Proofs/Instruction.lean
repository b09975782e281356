import Mathlib.Data.List.Induction
import Mathlib.Data.List.Nodup
import WasmBinary.Proofs.Stream.Put
import WasmBinary.Reading

/-!
From bytes to opcodes, from opcodes to instructions, and from instructions to trees. Main statement:
the bytes that are written for some instruction trees give exactly these trees back.
-/

namespace WasmBinary

/-! ## Opcodes

Every opcode stands in the table, and both its byte and its mnemonic tell it from all others, so a
search by either of them finds it.
-/

namespace Opcode

variable {opcode : Opcode}

theorem mem_all (opcode : Opcode) : opcode ∈ all := by
  cases opcode with
  | const type => cases type <;> decide +kernel
  | load op =>
      cases op with
      | full type => cases type <;> decide +kernel
      | load8 target sign => cases target <;> cases sign <;> decide +kernel
      | load16 target sign => cases target <;> cases sign <;> decide +kernel
      | load32 sign => cases sign <;> decide +kernel
  | store op =>
      cases op with
      | full type => cases type <;> decide +kernel
      | store8 source => cases source <;> decide +kernel
      | store16 source => cases source <;> decide +kernel
      | store32 => decide +kernel
  | unary op => cases op with
      | i32 op | i64 op | f32 op | f64 op => cases op <;> decide +kernel
  | binary op => cases op with
      | i32 op | i64 op =>
          cases op with
          | div sign | rem sign | shr sign => cases sign <;> decide +kernel
          | _ => decide +kernel
      | f32 op | f64 op => cases op <;> decide +kernel
  | test op => cases op with
      | i32 op | i64 op => cases op; decide +kernel
      | f32 op | f64 op => exact nomatch op
  | compare op => cases op with
      | i32 op | i64 op =>
          cases op with
          | lt sign | le sign | gt sign | ge sign => cases sign <;> decide +kernel
          | _ => decide +kernel
      | f32 op | f64 op => cases op <;> decide +kernel
  | convert op =>
      cases op with
      | extend sign => cases sign <;> decide +kernel
      | trunc target source sign | convert target source sign =>
          cases target <;> cases source <;> cases sign <;> decide +kernel
      | reinterpret target => cases target <;> decide +kernel
      | _ => decide +kernel
  | _ => decide +kernel

/-- When a key tells some opcodes apart, a search by the key of one of them finds it. -/
theorem find?_key {κ : Type} [BEq κ] [LawfulBEq κ] {key : Opcode → κ} {opcodes : List Opcode}
    (distinct : (opcodes.map key).Nodup) (member : opcode ∈ opcodes) :
    opcodes.find? (key · == key opcode) = some opcode := by
  induction opcodes with
  | nil => cases member
  | cons first opcodes inductionHypothesis =>
      rw [List.map_cons, List.nodup_cons] at distinct
      rcases List.mem_cons.mp member with rfl | later
      · exact List.find?_cons_of_pos (beq_self_eq_true _)
      · have different : key first ≠ key opcode := by
          intro same
          exact distinct.1 (same ▸ List.mem_map_of_mem later)
        rw [List.find?_cons_of_neg (by simpa using different),
          inductionHypothesis distinct.2 later]

/-- When a key tells all opcodes apart, a search by a key finds exactly the opcode that has it. -/
theorem find?_all_eq_some_iff {κ : Type} [BEq κ] [LawfulBEq κ] {key : Opcode → κ}
    (distinct : (all.map key).Nodup) {value : κ} :
    all.find? (key · == value) = some opcode ↔ key opcode = value := by
  constructor
  · intro found
    simpa using List.find?_some found
  · intro same
    rw [← same]
    exact find?_key distinct (mem_all opcode)

/-- Keys are different when some numbers of them are. The kernel compares numbers faster than bytes
and texts. -/
theorem nodup_of_number {κ : Type} {key : Opcode → κ} {opcodes : List Opcode} (number : κ → Nat)
    (distinct : (opcodes.map fun opcode => number (key opcode)).Nodup) :
    (opcodes.map key).Nodup := by
  have ofKeys : ((opcodes.map key).map number).Nodup := by
    rw [List.map_map]
    exact distinct
  exact ofKeys.of_map number

theorem nodup_code : (all.map code).Nodup :=
  nodup_of_number UInt8.toNat (by decide +kernel)

theorem nodup_mnemonic : (all.map mnemonic).Nodup :=
  nodup_of_number (LittleEndian.value ∘ utf8) (by decide +kernel)

theorem ofCode?_eq_some_iff {code : UInt8} : ofCode? code = some opcode ↔ opcode.code = code :=
  find?_all_eq_some_iff nodup_code

theorem ofCode?_code (opcode : Opcode) : ofCode? opcode.code = some opcode :=
  ofCode?_eq_some_iff.mpr rfl

theorem ofMnemonic?_eq_some_iff {mnemonic : String} :
    ofMnemonic? mnemonic = some opcode ↔ opcode.mnemonic = mnemonic :=
  find?_all_eq_some_iff nodup_mnemonic

theorem ofCode_eq_ok_iff {code : UInt8} :
    ofCode code = .ok opcode ↔ opcode.code = code := by
  rw [← ofCode?_eq_some_iff, ofCode]
  cases ofCode? code <;> simp

theorem ofMnemonic_eq_ok_iff {mnemonic : String} :
    ofMnemonic mnemonic = .ok opcode ↔ opcode.mnemonic = mnemonic := by
  rw [← ofMnemonic?_eq_some_iff, ofMnemonic]
  cases ofMnemonic? mnemonic <;> simp

end Opcode

/-! ## Instructions

An opcode tells which immediates follow it, so the bytes of an instruction are read as that
instruction whatever stands behind them.
-/

namespace Reader

theorem inverts_memoryAccess : Inverts memoryAccess Format.memoryAccess := by
  intro access rest
  have align := inverts_index access.align (Leb128.unsigned access.offset.toNat ++ rest)
  have offset := inverts_word access.offset rest
  rw [Format.index] at align
  simp [memoryAccess, Format.memoryAccess, align, offset]

theorem literal_append (value : Literal) (rest : List UInt8) :
    literal value.type (Format.literal value ++ rest) = some (value, rest) := by
  cases value with
  | i32 value =>
      have inRange : Int32.minValue.toInt ≤ value.toInt ∧ value.toInt ≤ Int32.maxValue.toInt :=
        ⟨value.minValue_le_toInt, value.toInt_le⟩
      have number := inverts_signed value.toInt rest
      simp only [Literal.type, Format.literal, literal, number, Option.bind_eq_bind,
        Option.bind_some, if_pos inRange, Int32.ofInt_toInt]
  | i64 value =>
      have inRange : Int64.minValue.toInt ≤ value.toInt ∧ value.toInt ≤ Int64.maxValue.toInt :=
        ⟨value.minValue_le_toInt, value.toInt_le⟩
      have number := inverts_signed value.toInt rest
      simp only [Literal.type, Format.literal, literal, number, Option.bind_eq_bind,
        Option.bind_some, if_pos inRange, Int64.ofInt_toInt]
  | f32 bits =>
      have small : bits.toNat < 256 ^ 4 := bits.toNat_lt
      simp [literal, Literal.type, Format.literal, littleEndian_append small]
  | f64 bits =>
      have small : bits.toNat < 256 ^ 8 := bits.toNat_lt
      simp [literal, Literal.type, Format.literal, littleEndian_append small]

end Reader

namespace Instruction

/-- The opcode of an instruction tells how many immediates to take and of what kind. -/
theorem readImmediates_append (instruction : Instruction) (rest : List UInt8) :
    readImmediates instruction.opcode (instruction.immediates ++ rest) =
      some (instruction, rest) := by
  cases instruction with
  | br carries label | brIf carries label =>
      simp [opcode, immediates, readImmediates, Reader.inverts_flag _ _, Reader.inverts_index _ _]
  | brTable carries targets fallback =>
      have labels := Reader.inverts_vector Reader.inverts_index targets
      simp [opcode, immediates, readImmediates, Reader.inverts_flag _ _, labels,
        Reader.inverts_index _ _]
  | ret carries =>
      simp [opcode, immediates, readImmediates, Reader.inverts_flag _ _]
  | const literal =>
      simp [opcode, immediates, readImmediates, Reader.literal_append]
  | getLocal index | setLocal index =>
      simp [opcode, immediates, readImmediates, Reader.inverts_index _ _]
  | call argCount target | callImport argCount target | callIndirect argCount target =>
      simp [opcode, immediates, readImmediates, Reader.inverts_unsigned _ _,
        Reader.inverts_index _ _]
  | load op access | store op access =>
      simp [opcode, immediates, readImmediates, Reader.inverts_memoryAccess _ _]
  | _ => rfl

theorem inverts_read : Reader.Inverts read bytes := by
  intro instruction rest
  have immediates := readImmediates_append instruction rest
  simp [read, bytes, Reader.byte, Opcode.ofCode?_code, immediates]

theorem go_flatMap (instructions : List Instruction) {fuel : Nat}
    (enough : (instructions.flatMap bytes).length ≤ fuel) :
    readAll.go fuel (instructions.flatMap bytes) = some instructions := by
  induction instructions generalizing fuel with
  | nil => cases fuel <;> rfl
  | cons instruction instructions inductionHypothesis =>
      have first := inverts_read instruction (instructions.flatMap bytes)
      rw [List.flatMap_cons] at enough ⊢
      -- An instruction has at least its opcode, so each one leaves fuel for the next.
      obtain ⟨code, immediates, shape⟩ :
          ∃ code immediates, instruction.bytes = code :: immediates := ⟨_, _, rfl⟩
      rw [shape] at first enough ⊢
      cases fuel with
      | zero => simp at enough
      | succ fuel =>
          have tail : readAll.go fuel (instructions.flatMap bytes) = some instructions := by
            apply inductionHypothesis
            simp only [List.cons_append, List.length_cons, List.length_append] at enough
            omega
          simp only [List.cons_append] at first ⊢
          simp [readAll.go, first, tail]

/-- A sequence of instructions is read back from its bytes to the end. -/
theorem readAll_flatMap (instructions : List Instruction) :
    readAll (instructions.flatMap bytes) = some instructions :=
  go_flatMap instructions (Nat.le_refl _)

end Instruction

/-! ## Trees

Running the instructions of a tree puts that tree on the stack, whatever the stack holds and
whatever is run afterwards; so the bytes that are written for some trees give exactly these trees
back.
-/

namespace Stack

/-! ### Taking operands -/

theorem pushAll_cons (expr : Expr) (exprs : List Expr) (stack : Stack) :
    pushAll (.tree expr :: stack) exprs = pushAll stack (expr :: exprs) := by
  simp [pushAll]

theorem pushAll_concat (expr : Expr) (exprs : List Expr) (stack : Stack) :
    pushAll stack (exprs ++ [expr]) = .tree expr :: pushAll stack exprs := by
  simp [pushAll]

/-- As many operands as have been pushed are taken in their order. -/
theorem popMany_pushAll (exprs : List Expr) (stack : Stack) :
    popMany exprs.length (pushAll stack exprs) = some (exprs, stack) := by
  -- The last tree is on top, so the induction takes trees off the end of the list.
  have generalized :
      ∀ taken, popMany.go exprs.length taken (pushAll stack exprs) =
        some (exprs ++ taken, stack) := by
    induction exprs using List.reverseRecOn with
    | nil =>
        intro taken
        rfl
    | append_singleton exprs expr inductionHypothesis =>
        intro taken
        rw [List.length_append, List.length_singleton, pushAll_concat, popMany.go,
          inductionHypothesis, List.append_assoc, List.singleton_append]
  simpa [popMany] using generalized []

theorem popRegion_go_pushAll (exprs taken : List Expr) (stack : Stack) :
    popRegion.go taken (pushAll stack exprs) = popRegion.go (exprs ++ taken) stack := by
  induction exprs using List.reverseRecOn generalizing taken with
  | nil => rfl
  | append_singleton exprs expr inductionHypothesis =>
      rw [pushAll_concat, popRegion.go, inductionHypothesis, List.append_assoc,
        List.singleton_append]

theorem popRegion_pushAll (exprs : List Expr) (stack : Stack) :
    popRegion (pushAll stack exprs) = popRegion.go exprs stack := by
  rw [popRegion, popRegion_go_pushAll, List.append_nil]

def pushCarried (stack : Stack) : Option Expr → Stack
  | none => .tree .nop :: stack
  | some value => .tree value :: .block :: stack

theorem popCarried_pushCarried (value : Option Expr) (stack : Stack) :
    popCarried value.isSome (pushCarried stack value) = some (value, stack) := by
  cases value <;> rfl

/-! ### Running a tree -/

theorem run_cons (stack : Stack) (instruction : Instruction) (more : List Instruction) :
    run stack (instruction :: more) = (step stack instruction).bind (run · more) := by
  rw [run, List.foldlM_cons]
  rfl

mutual

/-- The instructions of a tree put the tree on the stack and leave the rest of the stack alone. -/
theorem run_instructions (expr : Expr) (stack : Stack) (more : List Instruction) :
    run stack (expr.instructions ++ more) = run (.tree expr :: stack) more := by
  cases expr with
  | nop | unreachable | const _ | getLocal _ | currentMemory => rfl
  | block body | loop body =>
      simp only [Expr.instructions, List.append_assoc, List.cons_append, List.nil_append, run_cons,
        step, Option.bind_some, run_instructionsAll body, close, popRegion_pushAll, popRegion.go]
  | ifElse condition body otherwise =>
      simp only [Expr.instructions, List.append_assoc, List.cons_append, List.nil_append,
        run_instructions condition, run_cons _ .ifStart, step, pop, Option.bind_eq_bind,
        Option.pure_def, Option.bind_some, run_instructionsAll body,
        run_instructionsOtherwise otherwise]
  | select ifTrue ifFalse condition =>
      simp only [Expr.instructions, List.append_assoc, run_instructions ifTrue,
        run_instructions ifFalse, run_instructions condition]
      rfl
  | br label value | ret value =>
      simp [Expr.instructions, run_instructionsCarried value, run_cons, step,
        popCarried_pushCarried]
  | brIf label value condition =>
      simp [Expr.instructions, run_instructionsCarried value, run_instructions condition, run_cons,
        step, pop, popCarried_pushCarried]
  | brTable targets fallback value index =>
      simp [Expr.instructions, run_instructionsCarried value, run_instructions index, run_cons,
        step, pop, popCarried_pushCarried]
  | call function args | callImport function args =>
      simp [Expr.instructions, run_instructionsAll args, run_cons, step, popMany_pushAll]
  | callIndirect type callee args =>
      simp [Expr.instructions, run_instructions callee, run_instructionsAll args, run_cons, step,
        popMany_pushAll, pop]
  | setLocal _ operand | load _ _ operand | growMemory operand | unary _ operand
  | test _ operand | convert _ operand =>
      simp only [Expr.instructions, List.append_assoc, run_instructions operand]
      rfl
  | store _ _ left right | binary _ left right | compare _ left right =>
      simp only [Expr.instructions, List.append_assoc, run_instructions left,
        run_instructions right]
      rfl

theorem run_instructionsAll (exprs : List Expr) (stack : Stack) (more : List Instruction) :
    run stack (Expr.instructionsAll exprs ++ more) = run (stack.pushAll exprs) more := by
  cases exprs with
  | nil => rfl
  | cons expr rest =>
      rw [Expr.instructionsAll, List.append_assoc, run_instructions expr,
        run_instructionsAll rest, pushAll_cons]

theorem run_instructionsCarried (value : Option Expr) (stack : Stack)
    (more : List Instruction) :
    run stack (Expr.instructionsCarried value ++ more) = run (stack.pushCarried value) more := by
  cases value with
  | none => rfl
  | some value =>
      rw [Expr.instructionsCarried, List.append_assoc, List.singleton_append, run_cons, step,
        Option.bind_some, run_instructions value]
      rfl

theorem run_instructionsOtherwise (otherwise : List Expr) (condition : Expr) (body : List Expr)
    (stack : Stack) (more : List Instruction) :
    run (pushAll (.conditional condition :: stack) body)
        (Expr.instructionsOtherwise otherwise ++ .blockEnd :: more) =
      run (.tree (.ifElse condition body otherwise) :: stack) more := by
  cases otherwise with
  | nil =>
      simp only [Expr.instructionsOtherwise, List.nil_append, run_cons, step, close,
        popRegion_pushAll, popRegion.go, Option.bind_some]
  | cons expr rest =>
      simp only [Expr.instructionsOtherwise, List.append_assoc, List.cons_append, List.nil_append,
        run_cons, step, popRegion_pushAll, popRegion.go, Option.bind_some, run_instructions expr,
        run_instructionsAll rest, pushAll_cons, close]

end

/-- Running the instructions of some trees puts the trees on the stack. -/
theorem run_instructionsAll_eq (exprs : List Expr) (stack : Stack) :
    run stack (Expr.instructionsAll exprs) = some (stack.pushAll exprs) := by
  simpa [run] using run_instructionsAll exprs stack []

/-! ### Reading and running at once -/

/-- Reading and running at once comes to what running what has been read comes to. -/
theorem scan_flatMap (instructions : List Instruction) {stack result : Stack}
    (runs : run stack instructions = some result) (rest : List UInt8) :
    scan instructions.length stack (instructions.flatMap Instruction.bytes ++ rest) =
      some (result, rest) := by
  induction instructions generalizing stack with
  | nil =>
      have same : stack = result := by simpa [run] using runs
      simp [scan, same]
  | cons instruction instructions inductionHypothesis =>
      rw [run_cons] at runs
      obtain ⟨next, stepped, tail⟩ := Option.bind_eq_some_iff.mp runs
      have first := Instruction.inverts_read instruction
        (instructions.flatMap Instruction.bytes ++ rest)
      have scanned := inductionHypothesis tail
      simp [scan, first, stepped, scanned]

end Stack

namespace Expr

/-- The bytes of some trees give exactly these trees back. -/
theorem readAll_bytesAll (exprs : List Expr) : readAll (bytesAll exprs) = some exprs := by
  have runs := Stack.run_instructionsAll_eq exprs []
  have region := Stack.popRegion_pushAll exprs []
  simp [readAll, bytesAll, Instruction.readAll_flatMap, runs, region, Stack.popRegion.go]

theorem bytesAll_injective : Function.Injective bytesAll := by
  intro first second same
  have read := readAll_bytesAll first
  rw [same, readAll_bytesAll second] at read
  exact (Option.some.inj read).symm

end Expr

/-- Instruction trees survive the way through their bytes. Read from any stack and in front of any
bytes, what is written for some trees puts just these trees on the stack and leaves those bytes;
read alone it gives the trees back; and it is written for no other trees. -/
theorem Stream.readBack_putExprs (exprs : List Expr) :
    (∀ (stack : Stack) (rest : List UInt8),
        Stack.scan (Expr.instructionsAll exprs).length stack
            ((({} : Stream).putExprs exprs).bytes ++ rest) =
          some (stack.pushAll exprs, rest)) ∧
      Expr.readAll (({} : Stream).putExprs exprs).bytes = some exprs ∧
      ∀ others : List Expr,
        (({} : Stream).putExprs others).bytes = (({} : Stream).putExprs exprs).bytes ↔
          others = exprs := by
  have written (trees : List Expr) :
      (({} : Stream).putExprs trees).bytes = Expr.bytesAll trees := by
    rw [putExprs_eq, bytes_putBytes]
    rfl
  refine ⟨?_, ?_, ?_⟩
  · intro stack rest
    rw [written]
    exact Stack.scan_flatMap _ (Stack.run_instructionsAll_eq exprs stack) rest
  · rw [written]
    exact Expr.readAll_bytesAll exprs
  · intro others
    rw [written, written]
    exact Expr.bytesAll_injective.eq_iff

end WasmBinary
