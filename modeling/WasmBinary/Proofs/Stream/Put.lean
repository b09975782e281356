import WasmBinary.Encoder
import WasmBinary.Proofs.Reader

/-!
Appending a value is appending its bytes: every write that can neither fail nor reserve a size field
leaves the bytes of the format behind those already written, and stages nothing.
-/

namespace WasmBinary

namespace Stream

/-! ## Numbers -/

@[simp] theorem putUnsigned_eq (stream : Stream) (value : Nat) :
    stream.putUnsigned value = stream.putBytes (Leb128.unsigned value) := rfl

theorem putSigned_eq (stream : Stream) (value : Int) :
    stream.putSigned value = stream.putBytes (Leb128.signed value) := rfl

@[simp] theorem putIndex_eq (stream : Stream) (index : Index) :
    stream.putIndex index = stream.putBytes (Format.index index) := rfl

@[simp] theorem putFlag_eq (stream : Stream) (flag : Bool) :
    stream.putFlag flag = stream.putBytes (Format.flag flag) :=
  putByte_eq_putBytes stream _

theorem putByte_eq (stream : Stream) (byte : UInt8) :
    stream.putByte byte = stream.putBytes (LittleEndian.bytes 1 byte.toNat) := by
  rw [putByte_eq_putBytes, LittleEndian.bytes, LittleEndian.bytes, Nat.mod_eq_of_lt byte.toNat_lt,
    Nat.toUInt8_eq, UInt8.ofNat_toNat]

/-- Whether a write appends a value as two halves of so many bytes, the low one first, and no bit of
its number is lost: the halves are the digits of that number. -/
def Halves {α β : Type} (put : Stream → α → Stream) (number : α → Nat)
    (putHalf : Stream → β → Stream) (half : β → Nat) (width : Nat) : Prop :=
  ∀ value, ∃ low high,
    number value = half low + 256 ^ width * half high ∧
      ∀ stream, put stream value = putHalf (putHalf stream low) high

/-- A value is appended with its low byte first if both of its halves are. -/
theorem Halves.put_eq {α β : Type} {put : Stream → α → Stream} {number : α → Nat}
    {putHalf : Stream → β → Stream} {half : β → Nat} {width : Nat}
    (halves : Halves put number putHalf half width) (small : ∀ value, half value < 256 ^ width)
    (each : ∀ stream value,
      putHalf stream value = stream.putBytes (LittleEndian.bytes width (half value)))
    (stream : Stream) (value : α) :
    put stream value = stream.putBytes (LittleEndian.bytes (width + width) (number value)) := by
  obtain ⟨low, high, digits, isPut⟩ := halves value
  rw [isPut, each, each, putBytes_putBytes, LittleEndian.bytes_append_bytes (small low), digits]

theorem halves_putUInt16 : Halves putUInt16 UInt16.toNat putByte UInt8.toNat 1 := by
  intro value
  refine ⟨(value &&& 0xff).toUInt8, (value >>> 8).toUInt8, ?_, fun _ => rfl⟩
  rw [UInt16.toNat_toUInt8, UInt16.toNat_toUInt8, UInt16.toNat_and, UInt16.toNat_shiftRight]
  exact LittleEndian.mask_add_shift 8 value.toNat_lt

theorem halves_putUInt32 : Halves putUInt32 UInt32.toNat putUInt16 UInt16.toNat 2 := by
  intro value
  refine ⟨(value &&& 0xffff).toUInt16, (value >>> 16).toUInt16, ?_, fun _ => rfl⟩
  rw [UInt32.toNat_toUInt16, UInt32.toNat_toUInt16, UInt32.toNat_and, UInt32.toNat_shiftRight]
  exact LittleEndian.mask_add_shift 16 value.toNat_lt

theorem halves_putUInt64 : Halves putUInt64 UInt64.toNat putUInt32 UInt32.toNat 4 := by
  intro value
  refine ⟨(value &&& 0xffffffff).toUInt32, (value >>> 32).toUInt32, ?_, fun _ => rfl⟩
  rw [UInt64.toNat_toUInt32, UInt64.toNat_toUInt32, UInt64.toNat_and, UInt64.toNat_shiftRight]
  exact LittleEndian.mask_add_shift 32 value.toNat_lt

theorem putUInt16_eq (stream : Stream) (value : UInt16) :
    stream.putUInt16 value = stream.putBytes (LittleEndian.bytes 2 value.toNat) :=
  halves_putUInt16.put_eq UInt8.toNat_lt putByte_eq stream value

@[simp] theorem putUInt32_eq (stream : Stream) (value : UInt32) :
    stream.putUInt32 value = stream.putBytes (LittleEndian.bytes 4 value.toNat) :=
  halves_putUInt32.put_eq UInt16.toNat_lt putUInt16_eq stream value

@[simp] theorem putUInt64_eq (stream : Stream) (value : UInt64) :
    stream.putUInt64 value = stream.putBytes (LittleEndian.bytes 8 value.toNat) :=
  halves_putUInt64.put_eq UInt32.toNat_lt putUInt32_eq stream value

/-! ## Collections -/

@[simp] theorem putString_eq (stream : Stream) (bytes : List UInt8) :
    stream.putString bytes = stream.putBytes (Format.string bytes) :=
  putBytes_putBytes stream _ _

variable {α : Type} {put : Stream → α → Stream} {bytes : α → List UInt8}

theorem foldl_put_eq (each : ∀ stream item, put stream item = stream.putBytes (bytes item))
    (items : List α) (stream : Stream) :
    items.foldl put stream = stream.putBytes (items.flatMap bytes) := by
  induction items generalizing stream with
  | nil => simp
  | cons item items inductionHypothesis =>
      rw [List.foldl_cons, inductionHypothesis, each, putBytes_putBytes, List.flatMap_cons]

/-- A list is appended as the format wants it if each of its items is. -/
theorem putVector_eq (each : ∀ stream item, put stream item = stream.putBytes (bytes item))
    (stream : Stream) (items : List α) :
    stream.putVector items put = stream.putBytes (Format.vector bytes items) := by
  rw [putVector, foldl_put_eq each, putUnsigned_eq, putBytes_putBytes]
  rfl

theorem putOption_eq (each : ∀ stream item, put stream item = stream.putBytes (bytes item))
    (stream : Stream) (item : Option α) :
    stream.putOption item put = stream.putBytes (Format.option bytes item) := by
  cases item with
  | none => exact putFlag_eq stream false
  | some item =>
      rw [putOption, each, putFlag_eq, putBytes_putBytes]
      rfl

/-! ## Instructions -/

@[simp] theorem putOpcode_eq (stream : Stream) (opcode : Opcode) :
    stream.putOpcode opcode = stream.putBytes [opcode.code] :=
  putByte_eq_putBytes stream _

@[simp] theorem putMemoryAccess_eq (stream : Stream) (access : MemoryAccess) :
    stream.putMemoryAccess access = stream.putBytes (Format.memoryAccess access) :=
  putBytes_putBytes stream _ _

@[simp] theorem putLiteral_eq (stream : Stream) (literal : Literal) :
    stream.putLiteral literal = stream.putBytes (Instruction.const literal).bytes := by
  cases literal <;>
    simp [putLiteral, putSigned_eq, putFloat32, putFloat64, Format.literal, Instruction.bytes,
      Instruction.opcode, Instruction.immediates]

@[simp] theorem putCall_eq (stream : Stream) (opcode : Opcode) (args : List Expr)
    (target : Index) :
    stream.putCall opcode args target =
      stream.putBytes (opcode.code :: (Leb128.unsigned args.length ++ Format.index target)) := by
  simp [putCall]

mutual

/-- A tree is appended as the bytes of its instructions. -/
theorem putExpr_eq (stream : Stream) (expr : Expr) :
    stream.putExpr expr = stream.putBytes (expr.instructions.flatMap Instruction.bytes) := by
  cases expr with
  | nop | unreachable | currentMemory | const _ | getLocal _ =>
      simp [putExpr, Expr.instructions, Instruction.bytes, Instruction.opcode,
        Instruction.immediates]
  | block body | loop body =>
      simp [putExpr, putExprs_eq _ body, Expr.bytesAll, Expr.instructions, Instruction.bytes,
        Instruction.opcode, Instruction.immediates]
  | ifElse condition body otherwise =>
      simp [putExpr, putExpr_eq _ condition, putExprs_eq _ body, putOtherwise_eq _ otherwise,
        Expr.bytesAll, Expr.instructions, Instruction.bytes, Instruction.opcode,
        Instruction.immediates]
  | select ifTrue ifFalse condition =>
      simp [putExpr, putExpr_eq _ ifTrue, putExpr_eq _ ifFalse, putExpr_eq _ condition,
        Expr.instructions, Instruction.bytes, Instruction.opcode, Instruction.immediates]
  | br _ value | ret value =>
      simp [putExpr, putCarried_eq _ value, Expr.instructions, Instruction.bytes,
        Instruction.opcode, Instruction.immediates]
  | brIf _ value condition =>
      simp [putExpr, putCarried_eq _ value, putExpr_eq _ condition, Expr.instructions,
        Instruction.bytes, Instruction.opcode, Instruction.immediates]
  | brTable _ _ value index =>
      simp [putExpr, putCarried_eq _ value, putExpr_eq _ index, putVector_eq putIndex_eq,
        Expr.instructions, Instruction.bytes, Instruction.opcode, Instruction.immediates]
  | call _ args | callImport _ args =>
      simp [putExpr, putExprs_eq _ args, Expr.bytesAll, Expr.instructions, Instruction.bytes,
        Instruction.opcode, Instruction.immediates]
  | callIndirect _ callee args =>
      simp [putExpr, putExpr_eq _ callee, putExprs_eq _ args, Expr.bytesAll, Expr.instructions,
        Instruction.bytes, Instruction.opcode, Instruction.immediates]
  | setLocal _ operand | load _ _ operand | growMemory operand | unary _ operand
  | test _ operand | convert _ operand =>
      simp [putExpr, putExpr_eq _ operand, Expr.instructions, Instruction.bytes,
        Instruction.opcode, Instruction.immediates]
  | store _ _ left right | binary _ left right | compare _ left right =>
      simp [putExpr, putExpr_eq _ left, putExpr_eq _ right, Expr.instructions, Instruction.bytes,
        Instruction.opcode, Instruction.immediates]

theorem putExprs_eq (stream : Stream) (exprs : List Expr) :
    stream.putExprs exprs = stream.putBytes (Expr.bytesAll exprs) := by
  cases exprs with
  | nil => simp [putExprs, Expr.bytesAll, Expr.instructionsAll]
  | cons expr rest =>
      have tail := putExprs_eq (stream.putExpr expr) rest
      rw [putExprs, tail, putExpr_eq stream expr, putBytes_putBytes]
      simp [Expr.bytesAll, Expr.instructionsAll]

theorem putCarried_eq (stream : Stream) (value : Option Expr) :
    stream.putCarried value =
      stream.putBytes ((Expr.instructionsCarried value).flatMap Instruction.bytes) := by
  cases value with
  | none => exact putFlag_eq stream false
  | some value =>
      rw [putCarried, putExpr_eq _ value, putFlag_eq, putBytes_putBytes]
      rfl

theorem putOtherwise_eq (stream : Stream) (exprs : List Expr) :
    stream.putOtherwise exprs =
      stream.putBytes ((Expr.instructionsOtherwise exprs).flatMap Instruction.bytes) := by
  cases exprs with
  | nil => simp [putOtherwise, Expr.instructionsOtherwise]
  | cons expr rest =>
      rw [putOtherwise, putExprs_eq _ rest, putExpr_eq _ expr]
      simp [Expr.instructionsOtherwise, Expr.bytesAll, Instruction.bytes, Instruction.opcode,
        Instruction.immediates]

end

end Stream

end WasmBinary
