import WasmBinary.Operator

/-!
Opcodes: the bytes of version 11 of the format and their mnemonics. The bytes `0x0b` to `0x0e`,
`0x19` to `0x1f`, `0x37`, `0x38`, `0x3a`, `0x3c` to `0x3f` and those above `0xba` belong to no
instruction.
-/

namespace WasmBinary

inductive Opcode
  | nop
  | block
  | loop
  | ifStart
  | elseStart
  | select
  | br
  | brIf
  | brTable
  | ret
  | unreachable
  /-- Closes a block, a loop or a conditional. -/
  | blockEnd
  | const (type : ValueType)
  | getLocal
  | setLocal
  | call
  | callIndirect
  | callImport
  | load (op : LoadOp)
  | store (op : StoreOp)
  | growMemory
  | currentMemory
  | unary (op : UnaryOp)
  | binary (op : BinaryOp)
  | test (op : TestOp)
  | compare (op : CompareOp)
  | convert (op : ConvertOp)
  deriving DecidableEq, Repr

/-! ## Bytes

The numeric operators of each type fill one run of bytes. The runs of the two integer types have one
order and those of the two float types another, so a byte is the start of a run plus the place of
the operator. Rotations and the 64 bit zero test came later and stand at the end of the table.
-/

/-- The byte of an integer operator, when the run of its type begins at `start` and the two
rotations stand at `rotations`. -/
def IntBinary.code (start rotations : UInt8) : IntBinary → UInt8
  | add => start
  | sub => start + 1
  | mul => start + 2
  | div .signed => start + 3
  | div .unsigned => start + 4
  | rem .signed => start + 5
  | rem .unsigned => start + 6
  | and => start + 7
  | or => start + 8
  | xor => start + 9
  | shl => start + 10
  | shr .unsigned => start + 11
  | shr .signed => start + 12
  | rotr => rotations
  | rotl => rotations + 1

/-- The byte of an integer comparison, when the run of its type begins at `start`. -/
def IntCompare.code (start : UInt8) : IntCompare → UInt8
  | eq => start + 13
  | ne => start + 14
  | lt .signed => start + 15
  | le .signed => start + 16
  | lt .unsigned => start + 17
  | le .unsigned => start + 18
  | gt .signed => start + 19
  | ge .signed => start + 20
  | gt .unsigned => start + 21
  | ge .unsigned => start + 22

def IntUnary.code (start : UInt8) : IntUnary → UInt8
  | clz => start + 23
  | ctz => start + 24
  | popcnt => start + 25

def FloatBinary.code (start : UInt8) : FloatBinary → UInt8
  | add => start
  | sub => start + 1
  | mul => start + 2
  | div => start + 3
  | min => start + 4
  | max => start + 5
  | copySign => start + 8

def FloatUnary.code (start : UInt8) : FloatUnary → UInt8
  | abs => start + 6
  | neg => start + 7
  | ceil => start + 9
  | floor => start + 10
  | trunc => start + 11
  | nearest => start + 12
  | sqrt => start + 13

def FloatCompare.code (start : UInt8) : FloatCompare → UInt8
  | eq => start + 14
  | ne => start + 15
  | lt => start + 16
  | le => start + 17
  | gt => start + 18
  | ge => start + 19

def ConvertOp.code : ConvertOp → UInt8
  | trunc .i32 .f32 .signed => 0x9d
  | trunc .i32 .f64 .signed => 0x9e
  | trunc .i32 .f32 .unsigned => 0x9f
  | trunc .i32 .f64 .unsigned => 0xa0
  | wrap => 0xa1
  | trunc .i64 .f32 .signed => 0xa2
  | trunc .i64 .f64 .signed => 0xa3
  | trunc .i64 .f32 .unsigned => 0xa4
  | trunc .i64 .f64 .unsigned => 0xa5
  | extend .signed => 0xa6
  | extend .unsigned => 0xa7
  | convert .f32 .i32 .signed => 0xa8
  | convert .f32 .i32 .unsigned => 0xa9
  | convert .f32 .i64 .signed => 0xaa
  | convert .f32 .i64 .unsigned => 0xab
  | demote => 0xac
  | reinterpret .f32 => 0xad
  | convert .f64 .i32 .signed => 0xae
  | convert .f64 .i32 .unsigned => 0xaf
  | convert .f64 .i64 .signed => 0xb0
  | convert .f64 .i64 .unsigned => 0xb1
  | promote => 0xb2
  | reinterpret .f64 => 0xb3
  | reinterpret .i32 => 0xb4
  | reinterpret .i64 => 0xb5

def LoadOp.code : LoadOp → UInt8
  | load8 .i32 .signed => 0x20
  | load8 .i32 .unsigned => 0x21
  | load16 .i32 .signed => 0x22
  | load16 .i32 .unsigned => 0x23
  | load8 .i64 .signed => 0x24
  | load8 .i64 .unsigned => 0x25
  | load16 .i64 .signed => 0x26
  | load16 .i64 .unsigned => 0x27
  | load32 .signed => 0x28
  | load32 .unsigned => 0x29
  | full .i32 => 0x2a
  | full .i64 => 0x2b
  | full .f32 => 0x2c
  | full .f64 => 0x2d

def StoreOp.code : StoreOp → UInt8
  | store8 .i32 => 0x2e
  | store16 .i32 => 0x2f
  | store8 .i64 => 0x30
  | store16 .i64 => 0x31
  | store32 => 0x32
  | full .i32 => 0x33
  | full .i64 => 0x34
  | full .f32 => 0x35
  | full .f64 => 0x36

namespace Opcode

def code : Opcode → UInt8
  | nop => 0x00
  | block => 0x01
  | loop => 0x02
  | ifStart => 0x03
  | elseStart => 0x04
  | select => 0x05
  | br => 0x06
  | brIf => 0x07
  | brTable => 0x08
  | ret => 0x09
  | unreachable => 0x0a
  | blockEnd => 0x0f
  | const .i32 => 0x10
  | const .i64 => 0x11
  | const .f64 => 0x12
  | const .f32 => 0x13
  | getLocal => 0x14
  | setLocal => 0x15
  | call => 0x16
  | callIndirect => 0x17
  | callImport => 0x18
  | load op => op.code
  | store op => op.code
  | growMemory => 0x39
  | currentMemory => 0x3b
  | binary (.i32 op) => op.code 0x40 0xb6
  | compare (.i32 op) => op.code 0x40
  | unary (.i32 op) => op.code 0x40
  | test (.i32 .eqz) => 0x5a
  | binary (.i64 op) => op.code 0x5b 0xb8
  | compare (.i64 op) => op.code 0x5b
  | unary (.i64 op) => op.code 0x5b
  | test (.i64 .eqz) => 0xba
  | binary (.f32 op) => op.code 0x75
  | unary (.f32 op) => op.code 0x75
  | compare (.f32 op) => op.code 0x75
  | binary (.f64 op) => op.code 0x89
  | unary (.f64 op) => op.code 0x89
  | compare (.f64 op) => op.code 0x89
  | convert op => op.code

/-! ## Names -/

def mnemonic : Opcode → String
  | nop => "nop"
  | block => "block"
  | loop => "loop"
  | ifStart => "if"
  | elseStart => "else"
  | select => "select"
  | br => "br"
  | brIf => "br_if"
  | brTable => "br_table"
  | ret => "return"
  | unreachable => "unreachable"
  | blockEnd => "end"
  | const type => type.text ++ ".const"
  | getLocal => "get_local"
  | setLocal => "set_local"
  | call => "call"
  | callIndirect => "call_indirect"
  | callImport => "call_import"
  | load op => op.mnemonic
  | store op => op.mnemonic
  | growMemory => "grow_memory"
  | currentMemory => "current_memory"
  | unary op => op.type.text ++ "." ++ op.elim IntUnary.mnemonic FloatUnary.mnemonic
  | binary op => op.type.text ++ "." ++ op.elim IntBinary.mnemonic FloatBinary.mnemonic
  | test op => op.type.text ++ "." ++ op.elim IntTest.mnemonic nofun
  | compare op => op.type.text ++ "." ++ op.elim IntCompare.mnemonic FloatCompare.mnemonic
  | convert op => op.mnemonic

def name : Opcode → String
  | nop => "Nop"
  | block => "Block"
  | loop => "Loop"
  | ifStart => "If"
  | elseStart => "Else"
  | select => "Select"
  | br => "Br"
  | brIf => "BrIf"
  | brTable => "BrTable"
  | ret => "Return"
  | unreachable => "Unreachable"
  | blockEnd => "End"
  | const type => type.name ++ "Const"
  | getLocal => "GetLocal"
  | setLocal => "SetLocal"
  | call => "Call"
  | callIndirect => "CallIndirect"
  | callImport => "CallImport"
  | load op => op.name
  | store op => op.name
  | growMemory => "GrowMemory"
  | currentMemory => "CurrentMemory"
  | unary op => op.type.name ++ op.elim IntUnary.name FloatUnary.name
  | binary op => op.type.name ++ op.elim IntBinary.name FloatBinary.name
  | test op => op.type.name ++ op.elim IntTest.name nofun
  | compare op => op.type.name ++ op.elim IntCompare.name FloatCompare.name
  | convert op => op.name

/-! ## The table -/

/-- The operators of one integer type that stand in its run of bytes, in order. -/
def integerRun (typed : {ι φ : Type} → ι → Numeric ι φ) : List Opcode :=
  [.add, .sub, .mul, .div .signed, .div .unsigned, .rem .signed, .rem .unsigned, .and, .or, .xor,
      .shl, .shr .unsigned, .shr .signed].map (fun op => binary (typed op)) ++
    [.eq, .ne, .lt .signed, .le .signed, .lt .unsigned, .le .unsigned, .gt .signed, .ge .signed,
      .gt .unsigned, .ge .unsigned].map (fun op => compare (typed op)) ++
    [.clz, .ctz, .popcnt].map (fun op => unary (typed op))

def floatRun (typed : {ι φ : Type} → φ → Numeric ι φ) : List Opcode :=
  [.add, .sub, .mul, .div, .min, .max].map (fun op => binary (typed op)) ++
    [.abs, .neg].map (fun op => unary (typed op)) ++
    [binary (typed .copySign)] ++
    [.ceil, .floor, .trunc, .nearest, .sqrt].map (fun op => unary (typed op)) ++
    [.eq, .ne, .lt, .le, .gt, .ge].map (fun op => compare (typed op))

/-- Every opcode, in the order of the bytes. -/
def all : List Opcode :=
  [nop, block, loop, ifStart, elseStart, select, br, brIf, brTable, ret, unreachable, blockEnd,
      const .i32, const .i64, const .f64, const .f32, getLocal, setLocal, call, callIndirect,
      callImport] ++
    [.load8 .i32 .signed, .load8 .i32 .unsigned, .load16 .i32 .signed, .load16 .i32 .unsigned,
      .load8 .i64 .signed, .load8 .i64 .unsigned, .load16 .i64 .signed, .load16 .i64 .unsigned,
      .load32 .signed, .load32 .unsigned, .full .i32, .full .i64, .full .f32,
      .full .f64].map load ++
    [.store8 .i32, .store16 .i32, .store8 .i64, .store16 .i64, .store32, .full .i32, .full .i64,
      .full .f32, .full .f64].map store ++
    [growMemory, currentMemory] ++
    integerRun Numeric.i32 ++ [test (.i32 .eqz)] ++
    integerRun Numeric.i64 ++
    floatRun Numeric.f32 ++
    floatRun Numeric.f64 ++
    [.trunc .i32 .f32 .signed, .trunc .i32 .f64 .signed, .trunc .i32 .f32 .unsigned,
      .trunc .i32 .f64 .unsigned, .wrap, .trunc .i64 .f32 .signed, .trunc .i64 .f64 .signed,
      .trunc .i64 .f32 .unsigned, .trunc .i64 .f64 .unsigned, .extend .signed, .extend .unsigned,
      .convert .f32 .i32 .signed, .convert .f32 .i32 .unsigned, .convert .f32 .i64 .signed,
      .convert .f32 .i64 .unsigned, .demote, .reinterpret .f32, .convert .f64 .i32 .signed,
      .convert .f64 .i32 .unsigned, .convert .f64 .i64 .signed, .convert .f64 .i64 .unsigned,
      .promote, .reinterpret .f64, .reinterpret .i32, .reinterpret .i64].map convert ++
    [binary (.i32 .rotr), binary (.i32 .rotl), binary (.i64 .rotr), binary (.i64 .rotl),
      test (.i64 .eqz)]

def ofCode? (code : UInt8) : Option Opcode :=
  all.find? (·.code == code)

/-- The opcode with the given mnemonic, which has to match exactly. -/
def ofMnemonic? (mnemonic : String) : Option Opcode :=
  all.find? (·.mnemonic == mnemonic)

end Opcode

/-! ## Failed searches -/

inductive OpcodeError
  | unknownCode (code : UInt8)
  | unknownMnemonic (mnemonic : String)
  deriving DecidableEq, Repr

def OpcodeError.message : OpcodeError → String
  | unknownCode code =>
      "No discriminant in enum `Opcode` matches the value `" ++ toString code.toNat ++ "`"
  | unknownMnemonic _ => "Matching variant not found"

namespace Opcode

/-- The opcode with the given byte, or the reason why there is none. -/
def ofCode (code : UInt8) : Except OpcodeError Opcode :=
  match ofCode? code with
  | some opcode => .ok opcode
  | none => .error (.unknownCode code)

def ofMnemonic (mnemonic : String) : Except OpcodeError Opcode :=
  match ofMnemonic? mnemonic with
  | some opcode => .ok opcode
  | none => .error (.unknownMnemonic mnemonic)

end Opcode

end WasmBinary
