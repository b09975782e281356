import WasmBinary.Layout
import WasmBinary.Module
import WasmBinary.Opcode
import WasmBinary.Stream

/-!
The format as byte strings, computed from the inside out and without a stream: every size is known
before it is written.
-/

namespace WasmBinary

/-! ## Building blocks -/

namespace Format

/-- A count, and then the bytes of each item. -/
def vector {α : Type} (bytes : α → List UInt8) (items : List α) : List UInt8 :=
  Leb128.unsigned items.length ++ items.flatMap bytes

/-- A presence flag, and the bytes of the item if there is one. -/
def option {α : Type} (bytes : α → List UInt8) : Option α → List UInt8
  | none => [0]
  | some item => 1 :: bytes item

def string (bytes : List UInt8) : List UInt8 :=
  Leb128.unsigned bytes.length ++ bytes

def flag (value : Bool) : List UInt8 :=
  [if value then 1 else 0]

/-- A size in LEB128 that takes four bytes whatever the size is: the first three bytes have the
continuation bit, the last one has not. -/
def sizeField (size : Nat) : List UInt8 :=
  [(size % 128 + 128).toUInt8,
    (size / 128 % 128 + 128).toUInt8,
    (size / 128 / 128 % 128 + 128).toUInt8,
    (size / 128 / 128 / 128 % 128).toUInt8]

end Format

/-! ## Single instructions

An opcode with its immediates, as a stack machine sees them one by one. A tree is a sequence of
them, its operands first.
-/

/-- An instruction without its operands. -/
inductive Instruction
  | nop
  | unreachable
  | block
  | loop
  | ifStart
  | elseStart
  | blockEnd
  | select
  | br (carries : Bool) (label : Index)
  | brIf (carries : Bool) (label : Index)
  | brTable (carries : Bool) (targets : List Index) (fallback : Index)
  | ret (carries : Bool)
  | const (literal : Literal)
  | getLocal (index : Index)
  | setLocal (index : Index)
  | call (argCount : Nat) (function : Index)
  | callImport (argCount : Nat) (entry : Index)
  | callIndirect (argCount : Nat) (type : Index)
  | load (op : LoadOp) (access : MemoryAccess)
  | store (op : StoreOp) (access : MemoryAccess)
  | currentMemory
  | growMemory
  | unary (op : UnaryOp)
  | binary (op : BinaryOp)
  | test (op : TestOp)
  | compare (op : CompareOp)
  | convert (op : ConvertOp)
  deriving DecidableEq

def Instruction.opcode : Instruction → Opcode
  | nop => .nop
  | unreachable => .unreachable
  | block => .block
  | loop => .loop
  | ifStart => .ifStart
  | elseStart => .elseStart
  | blockEnd => .blockEnd
  | select => .select
  | br _ _ => .br
  | brIf _ _ => .brIf
  | brTable _ _ _ => .brTable
  | ret _ => .ret
  | const literal => .const literal.type
  | getLocal _ => .getLocal
  | setLocal _ => .setLocal
  | call _ _ => .call
  | callImport _ _ => .callImport
  | callIndirect _ _ => .callIndirect
  | load op _ => .load op
  | store op _ => .store op
  | currentMemory => .currentMemory
  | growMemory => .growMemory
  | unary op => .unary op
  | binary op => .binary op
  | test op => .test op
  | compare op => .compare op
  | convert op => .convert op

namespace Expr

mutual

def instructions : Expr → List Instruction
  | nop => [.nop]
  | unreachable => [.unreachable]
  | block body => [.block] ++ instructionsAll body ++ [.blockEnd]
  | loop body => [.loop] ++ instructionsAll body ++ [.blockEnd]
  | ifElse condition body otherwise =>
      condition.instructions ++ [.ifStart] ++ instructionsAll body ++
        instructionsOtherwise otherwise ++ [.blockEnd]
  | select ifTrue ifFalse condition =>
      ifTrue.instructions ++ ifFalse.instructions ++ condition.instructions ++ [.select]
  | br label value => instructionsCarried value ++ [.br value.isSome label]
  | brIf label value condition =>
      instructionsCarried value ++ condition.instructions ++ [.brIf value.isSome label]
  | brTable targets fallback value index =>
      instructionsCarried value ++ index.instructions ++
        [.brTable value.isSome targets fallback]
  | ret value => instructionsCarried value ++ [.ret value.isSome]
  | const literal => [.const literal]
  | getLocal index => [.getLocal index]
  | setLocal index value => value.instructions ++ [.setLocal index]
  | call function args => instructionsAll args ++ [.call args.length function]
  | callImport entry args => instructionsAll args ++ [.callImport args.length entry]
  | callIndirect type callee args =>
      callee.instructions ++ instructionsAll args ++ [.callIndirect args.length type]
  | load op access address => address.instructions ++ [.load op access]
  | store op access address value =>
      address.instructions ++ value.instructions ++ [.store op access]
  | currentMemory => [.currentMemory]
  | growMemory pages => pages.instructions ++ [.growMemory]
  | unary op operand => operand.instructions ++ [.unary op]
  | binary op left right => left.instructions ++ right.instructions ++ [.binary op]
  | test op operand => operand.instructions ++ [.test op]
  | compare op left right => left.instructions ++ right.instructions ++ [.compare op]
  | convert op operand => operand.instructions ++ [.convert op]

def instructionsAll : List Expr → List Instruction
  | [] => []
  | expr :: rest => expr.instructions ++ instructionsAll rest

/-- The instructions of a second branch, behind the mark that opens it; none without a branch. -/
def instructionsOtherwise : List Expr → List Instruction
  | [] => []
  | expr :: rest => [.elseStart] ++ expr.instructions ++ instructionsAll rest

/-- The instructions of a carried value. Its presence flag is the byte of an opcode: a missing value
reads as an instruction without effect, and a value that is there as the opening of a block. -/
def instructionsCarried : Option Expr → List Instruction
  | none => [.nop]
  | some value => [.block] ++ value.instructions

end

end Expr

/-! ## The bytes of instructions -/

namespace Format

def index (value : Index) : List UInt8 :=
  Leb128.unsigned value.toNat

def memoryAccess (access : MemoryAccess) : List UInt8 :=
  Leb128.unsigned access.align.toNat ++ Leb128.unsigned access.offset.toNat

def literal : Literal → List UInt8
  | .i32 value => Leb128.signed value.toInt
  | .i64 value => Leb128.signed value.toInt
  | .f32 bits => LittleEndian.bytes 4 bits.toNat
  | .f64 bits => LittleEndian.bytes 8 bits.toNat

end Format

namespace Instruction

def immediates : Instruction → List UInt8
  | br carries label => Format.flag carries ++ Format.index label
  | brIf carries label => Format.flag carries ++ Format.index label
  | brTable carries targets fallback =>
      Format.flag carries ++ Format.vector Format.index targets ++ Format.index fallback
  | ret carries => Format.flag carries
  | const literal => Format.literal literal
  | getLocal index => Format.index index
  | setLocal index => Format.index index
  | call argCount function => Leb128.unsigned argCount ++ Format.index function
  | callImport argCount entry => Leb128.unsigned argCount ++ Format.index entry
  | callIndirect argCount type => Leb128.unsigned argCount ++ Format.index type
  | load _ access => Format.memoryAccess access
  | store _ access => Format.memoryAccess access
  | _ => []

def bytes (instruction : Instruction) : List UInt8 :=
  instruction.opcode.code :: instruction.immediates

end Instruction

def Expr.bytesAll (exprs : List Expr) : List UInt8 :=
  (Expr.instructionsAll exprs).flatMap Instruction.bytes

/-! ## The bytes of a module -/

namespace Format

/-- The UTF-8 bytes of a text, behind their number. -/
def text (value : String) : List UInt8 :=
  string value.toByteArray.data.toList

def functionType (signature : FunctionType) : List UInt8 :=
  [0x40] ++ vector (fun type => [type.tag]) signature.params ++
    option (fun type => [type.tag]) signature.result

def importEntry (entry : Import) : List UInt8 :=
  index entry.type ++ text entry.moduleName ++ text entry.functionName

def memory (exported : Bool) (memory : Memory) : List UInt8 :=
  Leb128.unsigned memory.min.toNat ++ Leb128.unsigned memory.max.toNat ++ flag exported

def exportEntry (entry : Export) : List UInt8 :=
  match entry.target with
  | .function function => index function ++ text entry.name
  | .memory => text entry.name

def segment (segment : Segment) : List UInt8 :=
  Leb128.unsigned segment.address.toNat ++ string segment.data

def localGroup (group : LocalGroup) : List UInt8 :=
  Leb128.unsigned group.count ++ [group.type.tag]

def functionCode (function : Function) : List UInt8 :=
  vector localGroup (LocalGroup.ofLocals function.locals) ++
    sizeField (Expr.bytesAll function.body).length ++ Expr.bytesAll function.body

end Format

namespace Module

def payload (module : Module) : SectionId → List UInt8
  | .types => Format.vector Format.functionType module.types
  | .imports => Format.vector Format.importEntry module.imports
  | .functions => Format.vector (fun function => Format.index function.type) module.functions
  | .table => Format.vector Format.index module.table
  | .memory => Format.option (Format.memory module.exportsMemory) module.memory
  | .exports => Format.vector Format.exportEntry module.exports
  | .start => Format.option Format.index module.start
  | .code => Format.vector Format.functionCode module.functions
  | .data =>
      Format.option (fun memory => Format.vector Format.segment memory.segments) module.memory
  | .terminator => []

/-- The bytes of a section: the size of the payload, the name and the payload. -/
def sectionBytes (module : Module) (id : SectionId) : List UInt8 :=
  Format.sizeField (module.payload id).length ++ Format.text id.name ++ module.payload id

def present (module : Module) : List SectionId :=
  SectionId.all.filter (module.needs ·)

/-- The first bytes of every module: a magic number and the version. -/
def headerBytes : List UInt8 :=
  [0x00, 0x61, 0x73, 0x6d, 0x0b, 0x00, 0x00, 0x00]

def bytes (module : Module) : List UInt8 :=
  headerBytes ++ module.present.flatMap module.sectionBytes

def bodyFrames (module : Module) : List (Frame × Nat) :=
  module.functions.zipIdx.map fun (function, index) =>
    (.functionBody index.toUInt32, (Expr.bytesAll function.body).length)

/-- The regions whose lengths a module has to write, in the order in which they are completed: a
section after the function bodies in it. -/
def frames (module : Module) : List (Frame × Nat) :=
  module.present.flatMap fun id =>
    (if id = .code then module.bodyFrames else []) ++
      [(.sectionNamed id.name, (module.payload id).length)]

end Module

/-! ## Places

Where the sections of a module stand, computed from the sizes of what stands in front of them.
-/

namespace Module

/-- The names of all sections in the order of the format, each with whether the module has it. -/
def presence (module : Module) : List (String × Bool) :=
  [("type", !module.types.isEmpty),
    ("import", !module.imports.isEmpty),
    ("function", !module.functions.isEmpty),
    ("table", !module.table.isEmpty),
    ("memory", module.memory.isSome),
    ("export", !module.exports.isEmpty),
    ("start", module.start.isSome),
    ("code", !module.functions.isEmpty),
    ("data", module.memory.any (!·.segments.isEmpty)),
    ("end", true)]

/-- The position of a section: behind the header and the sections in front of it. -/
def offset (module : Module) (id : SectionId) : Nat :=
  headerBytes.length + ((id.before.filter module.needs).flatMap module.sectionBytes).length

def layoutEntry (module : Module) (id : SectionId) : LayoutEntry where
  name := id.name
  offset := module.offset id
  size := (module.payload id).length

end Module

end WasmBinary
