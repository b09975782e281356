/-!
Value types, and the operators of numeric and memory instructions.
-/

namespace WasmBinary

/-! ## Value types and signatures -/

/-- The types of the values an instruction consumes and produces. -/
inductive ValueType
  | i32
  | i64
  | f32
  | f64
  deriving DecidableEq, Repr, Inhabited

inductive IntType
  | i32
  | i64
  deriving DecidableEq, Repr

inductive FloatType
  | f32
  | f64
  deriving DecidableEq, Repr

namespace ValueType

def all : List ValueType :=
  [i32, i64, f32, f64]

/-- The byte that stands for a value type in signatures and local groups. -/
def tag : ValueType → UInt8
  | i32 => 0x01
  | i64 => 0x02
  | f32 => 0x03
  | f64 => 0x04

def ofTag? (tag : UInt8) : Option ValueType :=
  all.find? (·.tag == tag)

def text : ValueType → String
  | i32 => "i32"
  | i64 => "i64"
  | f32 => "f32"
  | f64 => "f64"

/-- The capitalised name, as it occurs in the names of typed instructions. -/
def name : ValueType → String
  | i32 => "I32"
  | i64 => "I64"
  | f32 => "F32"
  | f64 => "F64"

theorem mem_all (type : ValueType) : type ∈ all := by
  cases type <;> simp [all]

theorem ofTag?_tag (type : ValueType) : ofTag? type.tag = some type := by
  cases type <;> rfl

end ValueType

def IntType.toValueType : IntType → ValueType
  | i32 => .i32
  | i64 => .i64

def FloatType.toValueType : FloatType → ValueType
  | f32 => .f32
  | f64 => .f64

structure FunctionType where
  params : List ValueType
  result : Option ValueType
  deriving DecidableEq, Repr, Inhabited

def FunctionType.leadByte : UInt8 := 0x40

/-- A signature as text: the parameters in parentheses, an arrow, and the result or `()`. -/
def FunctionType.text (signature : FunctionType) : String :=
  let params := " ".intercalate (signature.params.map ValueType.text)
  let result := (signature.result.map ValueType.text).getD "()"
  "(" ++ params ++ ") -> " ++ result

/-! ## Operators

The operators of numeric and memory instructions, grouped into families. A family of numeric
operators is paired with its operand type by `Numeric`. Conversions, loads and stores carry their
types themselves, so that every value of these types is an instruction.

Each operator has a `mnemonic`, its part of the text format, and a `name`, its part of the
capitalised name of an instruction.
-/

/-- How an operator reads the bits of an integer. -/
inductive Sign
  | signed
  | unsigned
  deriving DecidableEq, Repr

namespace Sign

/-- The ending of a signed or unsigned operator in the text format. -/
def mnemonic : Sign → String
  | signed => "_s"
  | unsigned => "_u"

/-- The ending of a signed or unsigned operator in instruction names. -/
def name : Sign → String
  | signed => "S"
  | unsigned => "U"

end Sign

/-! ### Numeric families -/

inductive IntUnary
  | clz
  | ctz
  | popcnt
  deriving DecidableEq, Repr

inductive FloatUnary
  | neg
  | abs
  | ceil
  | floor
  | trunc
  | nearest
  | sqrt
  deriving DecidableEq, Repr

inductive IntBinary
  | add
  | sub
  | mul
  | div (sign : Sign)
  | rem (sign : Sign)
  | and
  | or
  | xor
  | shl
  | shr (sign : Sign)
  | rotl
  | rotr
  deriving DecidableEq, Repr

inductive FloatBinary
  | add
  | sub
  | mul
  | div
  | min
  | max
  | copySign
  deriving DecidableEq, Repr

inductive IntTest
  | eqz
  deriving DecidableEq, Repr

inductive IntCompare
  | eq
  | ne
  | lt (sign : Sign)
  | le (sign : Sign)
  | gt (sign : Sign)
  | ge (sign : Sign)
  deriving DecidableEq, Repr

inductive FloatCompare
  | eq
  | ne
  | lt
  | le
  | gt
  | ge
  deriving DecidableEq, Repr

namespace IntUnary

def all : List IntUnary :=
  [clz, ctz, popcnt]

def mnemonic : IntUnary → String
  | clz => "clz"
  | ctz => "ctz"
  | popcnt => "popcnt"

def name : IntUnary → String
  | clz => "Clz"
  | ctz => "Ctz"
  | popcnt => "Popcnt"

end IntUnary

namespace FloatUnary

def all : List FloatUnary :=
  [neg, abs, ceil, floor, trunc, nearest, sqrt]

def mnemonic : FloatUnary → String
  | neg => "neg"
  | abs => "abs"
  | ceil => "ceil"
  | floor => "floor"
  | trunc => "trunc"
  | nearest => "nearest"
  | sqrt => "sqrt"

def name : FloatUnary → String
  | neg => "Neg"
  | abs => "Abs"
  | ceil => "Ceil"
  | floor => "Floor"
  | trunc => "Trunc"
  | nearest => "Nearest"
  | sqrt => "Sqrt"

end FloatUnary

namespace IntBinary

def all : List IntBinary :=
  [add, sub, mul, div .signed, div .unsigned, rem .signed, rem .unsigned, and, or, xor,
    shl, shr .signed, shr .unsigned, rotl, rotr]

def mnemonic : IntBinary → String
  | add => "add"
  | sub => "sub"
  | mul => "mul"
  | div sign => "div" ++ sign.mnemonic
  | rem sign => "rem" ++ sign.mnemonic
  | and => "and"
  | or => "or"
  | xor => "xor"
  | shl => "shl"
  | shr sign => "shr" ++ sign.mnemonic
  | rotl => "rotl"
  | rotr => "rotr"

def name : IntBinary → String
  | add => "Add"
  | sub => "Sub"
  | mul => "Mul"
  | div sign => "Div" ++ sign.name
  | rem sign => "Rem" ++ sign.name
  | and => "And"
  | or => "Or"
  | xor => "Xor"
  | shl => "Shl"
  | shr sign => "Shr" ++ sign.name
  | rotl => "Rotl"
  | rotr => "Rotr"

end IntBinary

namespace FloatBinary

def all : List FloatBinary :=
  [add, sub, mul, div, min, max, copySign]

def mnemonic : FloatBinary → String
  | add => "add"
  | sub => "sub"
  | mul => "mul"
  | div => "div"
  | min => "min"
  | max => "max"
  | copySign => "copysign"

def name : FloatBinary → String
  | add => "Add"
  | sub => "Sub"
  | mul => "Mul"
  | div => "Div"
  | min => "Min"
  | max => "Max"
  | copySign => "CopySign"

end FloatBinary

namespace IntTest

def all : List IntTest :=
  [eqz]

def mnemonic : IntTest → String
  | eqz => "eqz"

def name : IntTest → String
  | eqz => "Eqz"

end IntTest

namespace IntCompare

def all : List IntCompare :=
  [eq, ne, lt .signed, lt .unsigned, le .signed, le .unsigned, gt .signed, gt .unsigned,
    ge .signed, ge .unsigned]

def mnemonic : IntCompare → String
  | eq => "eq"
  | ne => "ne"
  | lt sign => "lt" ++ sign.mnemonic
  | le sign => "le" ++ sign.mnemonic
  | gt sign => "gt" ++ sign.mnemonic
  | ge sign => "ge" ++ sign.mnemonic

def name : IntCompare → String
  | eq => "Eq"
  | ne => "Ne"
  | lt sign => "Lt" ++ sign.name
  | le sign => "Le" ++ sign.name
  | gt sign => "Gt" ++ sign.name
  | ge sign => "Ge" ++ sign.name

end IntCompare

namespace FloatCompare

def all : List FloatCompare :=
  [eq, ne, lt, le, gt, ge]

def mnemonic : FloatCompare → String
  | eq => "eq"
  | ne => "ne"
  | lt => "lt"
  | le => "le"
  | gt => "gt"
  | ge => "ge"

def name : FloatCompare → String
  | eq => "Eq"
  | ne => "Ne"
  | lt => "Lt"
  | le => "Le"
  | gt => "Gt"
  | ge => "Ge"

end FloatCompare

/-! ### Pairing with a type -/

/-- An operator together with the type it works on: integer operators are of type `ι`, float
operators of type `φ`. -/
inductive Numeric (ι φ : Type)
  | i32 (op : ι)
  | i64 (op : ι)
  | f32 (op : φ)
  | f64 (op : φ)
  deriving DecidableEq, Repr

abbrev UnaryOp := Numeric IntUnary FloatUnary

/-- Operators with two operands of one type and a result of that type. -/
abbrev BinaryOp := Numeric IntBinary FloatBinary

/-- Tests of one operand; there are none on floats. -/
abbrev TestOp := Numeric IntTest Empty

abbrev CompareOp := Numeric IntCompare FloatCompare

namespace Numeric

variable {ι φ : Type}

def type : Numeric ι φ → ValueType
  | i32 _ => .i32
  | i64 _ => .i64
  | f32 _ => .f32
  | f64 _ => .f64

/-- Applies one function to an integer operator and another to a float operator. -/
def elim {α : Type} (int : ι → α) (float : φ → α) : Numeric ι φ → α
  | i32 op => int op
  | i64 op => int op
  | f32 op => float op
  | f64 op => float op

end Numeric

/-! ### Conversions and memory access -/

inductive ConvertOp
  /-- The low half of a 64 bit integer. -/
  | wrap
  /-- A 32 bit integer widened to 64 bits. -/
  | extend (sign : Sign)
  /-- A float rounded toward zero to an integer. -/
  | trunc (target : IntType) (source : FloatType) (sign : Sign)
  /-- An integer rounded to a float. -/
  | convert (target : FloatType) (source : IntType) (sign : Sign)
  | demote
  | promote
  /-- The same bits read as the other kind of number. -/
  | reinterpret (target : ValueType)
  deriving DecidableEq, Repr

namespace ConvertOp

def target : ConvertOp → ValueType
  | wrap => .i32
  | extend _ => .i64
  | trunc target _ _ => target.toValueType
  | convert target _ _ => target.toValueType
  | demote => .f32
  | promote => .f64
  | reinterpret target => target

def source : ConvertOp → ValueType
  | wrap => .i64
  | extend _ => .i32
  | trunc _ source _ => source.toValueType
  | convert _ source _ => source.toValueType
  | demote => .f64
  | promote => .f32
  | reinterpret .i32 => .f32
  | reinterpret .i64 => .f64
  | reinterpret .f32 => .i32
  | reinterpret .f64 => .i64

/-- Every conversion, by the type it converts to. -/
def all : List ConvertOp :=
  [wrap,
    trunc .i32 .f32 .signed, trunc .i32 .f32 .unsigned,
    trunc .i32 .f64 .signed, trunc .i32 .f64 .unsigned,
    reinterpret .i32,
    extend .signed, extend .unsigned,
    trunc .i64 .f32 .signed, trunc .i64 .f32 .unsigned,
    trunc .i64 .f64 .signed, trunc .i64 .f64 .unsigned,
    reinterpret .i64,
    convert .f32 .i32 .signed, convert .f32 .i32 .unsigned,
    convert .f32 .i64 .signed, convert .f32 .i64 .unsigned,
    demote, reinterpret .f32,
    convert .f64 .i32 .signed, convert .f64 .i32 .unsigned,
    convert .f64 .i64 .signed, convert .f64 .i64 .unsigned,
    promote, reinterpret .f64]

private def conversionVerb : ConvertOp → String
  | wrap => "wrap"
  | extend sign => "extend" ++ sign.mnemonic
  | trunc _ _ sign => "trunc" ++ sign.mnemonic
  | convert _ _ sign => "convert" ++ sign.mnemonic
  | demote => "demote"
  | promote => "promote"
  | reinterpret _ => "reinterpret"

private def conversionVerbName : ConvertOp → String
  | wrap => "Wrap"
  | extend sign => "Extend" ++ sign.name
  | trunc _ _ sign => "Trunc" ++ sign.name
  | convert _ _ sign => "Convert" ++ sign.name
  | demote => "Demote"
  | promote => "Promote"
  | reinterpret _ => "Reinterpret"

/-- The whole mnemonic, such as `i32.trunc_s/f64`. -/
def mnemonic (op : ConvertOp) : String :=
  op.target.text ++ "." ++ op.conversionVerb ++ "/" ++ op.source.text

/-- The whole name, such as `I32TruncSF64`. -/
def name (op : ConvertOp) : String :=
  op.target.name ++ op.conversionVerbName ++ op.source.name

end ConvertOp

/-- Loads from memory: of a whole value, or of fewer bytes that are widened to an integer. -/
inductive LoadOp
  | full (type : ValueType)
  | load8 (target : IntType) (sign : Sign)
  | load16 (target : IntType) (sign : Sign)
  /-- Four bytes widened to a 64 bit integer. -/
  | load32 (sign : Sign)
  deriving DecidableEq, Repr

namespace LoadOp

def all : List LoadOp :=
  [full .i32, full .i64, full .f32, full .f64,
    load8 .i32 .signed, load8 .i32 .unsigned, load16 .i32 .signed, load16 .i32 .unsigned,
    load8 .i64 .signed, load8 .i64 .unsigned, load16 .i64 .signed, load16 .i64 .unsigned,
    load32 .signed, load32 .unsigned]

/-- The whole mnemonic, such as `i64.load16_u`. -/
def mnemonic : LoadOp → String
  | full type => type.text ++ ".load"
  | load8 target sign => target.toValueType.text ++ ".load8" ++ sign.mnemonic
  | load16 target sign => target.toValueType.text ++ ".load16" ++ sign.mnemonic
  | load32 sign => "i64.load32" ++ sign.mnemonic

/-- The whole name, such as `I64Load16U`. -/
def name : LoadOp → String
  | full type => type.name ++ "Load"
  | load8 target sign => target.toValueType.name ++ "Load8" ++ sign.name
  | load16 target sign => target.toValueType.name ++ "Load16" ++ sign.name
  | load32 sign => "I64Load32" ++ sign.name

end LoadOp

/-- Stores to memory: of a whole value, or of the low bytes of an integer. -/
inductive StoreOp
  | full (type : ValueType)
  | store8 (source : IntType)
  | store16 (source : IntType)
  /-- The low four bytes of a 64 bit integer. -/
  | store32
  deriving DecidableEq, Repr

namespace StoreOp

def all : List StoreOp :=
  [full .i32, full .i64, full .f32, full .f64, store8 .i32, store16 .i32, store8 .i64,
    store16 .i64, store32]

/-- The whole mnemonic, such as `i64.store16`. -/
def mnemonic : StoreOp → String
  | full type => type.text ++ ".store"
  | store8 source => source.toValueType.text ++ ".store8"
  | store16 source => source.toValueType.text ++ ".store16"
  | store32 => "i64.store32"

/-- The whole name, such as `I64Store16`. -/
def name : StoreOp → String
  | full type => type.name ++ "Store"
  | store8 source => source.toValueType.name ++ "Store8"
  | store16 source => source.toValueType.name ++ "Store16"
  | store32 => "I64Store32"

end StoreOp

end WasmBinary
