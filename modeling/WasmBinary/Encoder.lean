import WasmBinary.Layout
import WasmBinary.Module
import WasmBinary.Opcode
import WasmBinary.Stream

/-!
The encoding of a module: a header, and every section that has something to say. The bytes are
written in one pass; the size of a section is filled in when the section is complete, and its place
is recorded on the way.
-/

namespace WasmBinary

/-! ## Instruction trees

A tree is flattened in the order in which a stack machine runs it: the operands of an instruction
stand before its opcode, and its immediates behind it.
-/

namespace Stream

def putOpcode (stream : Stream) (opcode : Opcode) : Stream :=
  stream.putByte opcode.code

def putMemoryAccess (stream : Stream) (access : MemoryAccess) : Stream :=
  (stream.putUnsigned access.align.toNat).putUnsigned access.offset.toNat

/-- Appends a constant: the opcode of its type and its value. -/
def putLiteral (stream : Stream) (literal : Literal) : Stream :=
  let stream := stream.putOpcode (.const literal.type)
  match literal with
  | .i32 value => stream.putSigned value.toInt
  | .i64 value => stream.putSigned value.toInt
  | .f32 bits => stream.putFloat32 bits
  | .f64 bits => stream.putFloat64 bits

/-- Appends the opcode of a call whose arguments are written, their number and the target. -/
def putCall (stream : Stream) (opcode : Opcode) (args : List Expr) (target : Index) : Stream :=
  ((stream.putOpcode opcode).putUnsigned args.length).putIndex target

mutual

def putExpr (stream : Stream) : Expr → Stream
  | .nop => stream.putOpcode .nop
  | .unreachable => stream.putOpcode .unreachable
  | .block body => ((stream.putOpcode .block).putExprs body).putOpcode .blockEnd
  | .loop body => ((stream.putOpcode .loop).putExprs body).putOpcode .blockEnd
  | .ifElse condition body otherwise =>
      let stream := ((stream.putExpr condition).putOpcode .ifStart).putExprs body
      (stream.putOtherwise otherwise).putOpcode .blockEnd
  | .select ifTrue ifFalse condition =>
      (((stream.putExpr ifTrue).putExpr ifFalse).putExpr condition).putOpcode .select
  | .br label value =>
      (((stream.putCarried value).putOpcode .br).putFlag value.isSome).putIndex label
  | .brIf label value condition =>
      let stream := (stream.putCarried value).putExpr condition
      ((stream.putOpcode .brIf).putFlag value.isSome).putIndex label
  | .brTable targets fallback value index =>
      let stream := (stream.putCarried value).putExpr index
      let stream := (stream.putOpcode .brTable).putFlag value.isSome
      (stream.putVector targets putIndex).putIndex fallback
  | .ret value => ((stream.putCarried value).putOpcode .ret).putFlag value.isSome
  | .const literal => stream.putLiteral literal
  | .getLocal index => (stream.putOpcode .getLocal).putIndex index
  | .setLocal index value => ((stream.putExpr value).putOpcode .setLocal).putIndex index
  | .call function args => (stream.putExprs args).putCall .call args function
  | .callImport entry args => (stream.putExprs args).putCall .callImport args entry
  | .callIndirect type callee args =>
      ((stream.putExpr callee).putExprs args).putCall .callIndirect args type
  | .load op access address =>
      ((stream.putExpr address).putOpcode (.load op)).putMemoryAccess access
  | .store op access address value =>
      (((stream.putExpr address).putExpr value).putOpcode (.store op)).putMemoryAccess access
  | .currentMemory => stream.putOpcode .currentMemory
  | .growMemory pages => (stream.putExpr pages).putOpcode .growMemory
  | .unary op operand => (stream.putExpr operand).putOpcode (.unary op)
  | .binary op left right => ((stream.putExpr left).putExpr right).putOpcode (.binary op)
  | .test op operand => (stream.putExpr operand).putOpcode (.test op)
  | .compare op left right => ((stream.putExpr left).putExpr right).putOpcode (.compare op)
  | .convert op operand => (stream.putExpr operand).putOpcode (.convert op)

def putExprs (stream : Stream) : List Expr → Stream
  | [] => stream
  | expr :: rest => (stream.putExpr expr).putExprs rest

/-- Appends the value that a branch carries to its target: a presence flag, and the value if there
is one. -/
def putCarried (stream : Stream) : Option Expr → Stream
  | none => stream.putFlag false
  | some value => (stream.putFlag true).putExpr value

/-- Appends the second branch of a conditional; nothing when it is empty. -/
def putOtherwise (stream : Stream) : List Expr → Stream
  | [] => stream
  | expr :: rest => ((stream.putOpcode .elseStart).putExpr expr).putExprs rest

end

end Stream

/-! ## What a section holds -/

namespace Stream

def putValueType (stream : Stream) (type : ValueType) : Stream :=
  stream.putByte type.tag

def putFunctionType (stream : Stream) (signature : FunctionType) : Stream :=
  let stream := (stream.putByte FunctionType.leadByte).putVector signature.params putValueType
  stream.putOption signature.result putValueType

def putImport (stream : Stream) (entry : Import) : Stream :=
  ((stream.putIndex entry.type).putString (utf8 entry.moduleName)).putString
    (utf8 entry.functionName)

/-- Appends an export. There is only one memory, so an export of it has a name and no index. -/
def putExport (stream : Stream) (entry : Export) : Stream :=
  match entry.target with
  | .function index => (stream.putIndex index).putString (utf8 entry.name)
  | .memory => stream.putString (utf8 entry.name)

def putMemory (exported : Bool) (stream : Stream) (memory : Memory) : Stream :=
  ((stream.putUnsigned memory.min.toNat).putUnsigned memory.max.toNat).putFlag exported

def putSegment (stream : Stream) (segment : Segment) : Stream :=
  (stream.putUnsigned segment.address.toNat).putString segment.data

def putLocalGroup (stream : Stream) (group : LocalGroup) : Stream :=
  (stream.putUnsigned group.count).putValueType group.type

/-- Appends the groups of a function's locals, and then its instructions behind a size field. -/
def putFunction (stream : Stream) (index : Nat) (function : Function) :
    Except EncodingError Stream :=
  let stream := stream.putVector (LocalGroup.ofLocals function.locals) putLocalGroup
  let (gap, stream) := stream.reserve
  let start := stream.position
  let stream := stream.putExprs function.body
  accepted (stream.fill gap (stream.position - start) (.functionBody index.toUInt32))

def putPayload (stream : Stream) (module : Module) : SectionId → Except EncodingError Stream
  | .types => .ok (stream.putVector module.types putFunctionType)
  | .imports => .ok (stream.putVector module.imports putImport)
  | .functions =>
      .ok (stream.putVector module.functions fun stream function =>
        stream.putIndex function.type)
  | .table => .ok (stream.putVector module.table putIndex)
  | .memory => .ok (stream.putOption module.memory (putMemory module.exportsMemory))
  | .exports => .ok (stream.putVector module.exports putExport)
  | .start => .ok (stream.putOption module.start putIndex)
  | .code =>
      stream.putVectorM module.functions.zipIdx fun stream (function, index) =>
        stream.putFunction index function
  | .data =>
      .ok (stream.putOption module.memory fun stream memory =>
        stream.putVector memory.segments putSegment)
  | .terminator => .ok stream

end Stream

/-! ## The encoding of a module -/

namespace Module

/-- The first four bytes of a module, read as a number with the low byte first. -/
def magic : UInt32 := 0x6d736100

def formatVersion : UInt32 := 11

/-- The number of bytes before the first section. -/
def headerSize : Nat := 8

end Module

/-- The state of an encoding: what is written, and where the sections stand. -/
structure Encoder where
  stream : Stream := {}
  layout : Layout := {}
  deriving DecidableEq, Repr, Inhabited

namespace Encoder

/-- Appends a section: a size field, the name and the payload. The size counts the payload
alone. -/
def putFramed (encoder : Encoder) (name : String)
    (putPayload : Stream → Except EncodingError Stream) : Except EncodingError Encoder := do
  let (gap, stream) := encoder.stream.reserve
  let stream := stream.putString (utf8 name)
  let start := stream.position
  let stream ← putPayload stream
  let size := stream.position - start
  let stream ← accepted (stream.fill gap size (.sectionNamed name))
  return { stream, layout := encoder.layout.push { name, offset := gap.position, size } }

def putSection (encoder : Encoder) (module : Module) (id : SectionId) :
    Except EncodingError Encoder :=
  if module.needs id then
    encoder.putFramed id.name (·.putPayload module id)
  else
    .ok encoder

def putHeader (encoder : Encoder) : Encoder :=
  { encoder with stream := (encoder.stream.putUInt32 Module.magic).putUInt32 Module.formatVersion }

def putModule (encoder : Encoder) (module : Module) : Except EncodingError Encoder :=
  SectionId.all.foldlM (fun encoder id => encoder.putSection module id) encoder.putHeader

end Encoder

structure Encoding where
  bytes : Array UInt8
  layout : Layout
  deriving DecidableEq, Repr, Inhabited

/-- Applies the staged overwrites and records the length of the result. -/
def Encoder.complete (encoder : Encoder) : Encoding :=
  let bytes := encoder.stream.patched
  { bytes, layout := encoder.layout.withTotal bytes.size }

namespace Module

/-- The bytes of a module, and where its sections stand in them. -/
def encoding (module : Module) : Except EncodingError Encoding :=
  (Encoder.putModule {} module).map Encoder.complete

def encode (module : Module) : Except EncodingError (Array UInt8) :=
  module.encoding.map Encoding.bytes

end Module

end WasmBinary
