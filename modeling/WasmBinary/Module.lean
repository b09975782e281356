import WasmBinary.Operator

/-!
Modules, as a validator hands them over: nothing about them is checked again. The operands of an
instruction are nested inside it, in the order in which they are evaluated.
-/

namespace WasmBinary

/-! ## Instruction trees -/

abbrev Index := UInt32

/-- A constant. Floats are given by their bits, so that every pattern can be written. -/
inductive Literal
  | i32 (value : Int32)
  | i64 (value : Int64)
  | f32 (bits : UInt32)
  | f64 (bits : UInt64)
  deriving DecidableEq

def Literal.type : Literal → ValueType
  | i32 _ => .i32
  | i64 _ => .i64
  | f32 _ => .f32
  | f64 _ => .f64

/-- Where in memory a load or a store reaches. -/
structure MemoryAccess where
  /-- The distance from the address operand. -/
  offset : UInt64
  /-- The exponent of the alignment: an access is aligned to `2 ^ align` bytes. -/
  align : UInt32
  deriving DecidableEq

/-- An instruction with its operands. -/
inductive Expr
  | nop
  | unreachable
  | block (body : List Expr)
  | loop (body : List Expr)
  /-- A conditional; an empty `otherwise` is no branch at all. -/
  | ifElse (condition : Expr) (body otherwise : List Expr)
  | select (ifTrue ifFalse condition : Expr)
  | br (label : Index) (value : Option Expr)
  | brIf (label : Index) (value : Option Expr) (condition : Expr)
  | brTable (targets : List Index) (fallback : Index) (value : Option Expr) (index : Expr)
  | ret (value : Option Expr)
  | const (literal : Literal)
  | getLocal (index : Index)
  | setLocal (index : Index) (value : Expr)
  | call (function : Index) (args : List Expr)
  | callImport (entry : Index) (args : List Expr)
  /-- Calls the table entry that `callee` selects, which has the signature `type`. -/
  | callIndirect (type : Index) (callee : Expr) (args : List Expr)
  | load (op : LoadOp) (access : MemoryAccess) (address : Expr)
  | store (op : StoreOp) (access : MemoryAccess) (address value : Expr)
  | currentMemory
  | growMemory (pages : Expr)
  | unary (op : UnaryOp) (operand : Expr)
  | binary (op : BinaryOp) (left right : Expr)
  | test (op : TestOp) (operand : Expr)
  | compare (op : CompareOp) (left right : Expr)
  | convert (op : ConvertOp) (operand : Expr)
  deriving Inhabited

/-! ## Modules -/

/-- A function taken from another module. -/
structure Import where
  type : Index
  moduleName : String
  functionName : String
  deriving DecidableEq, Inhabited

structure Function where
  type : Index
  /-- The types of the locals beyond the parameters, in order. -/
  locals : List ValueType
  body : List Expr
  deriving Inhabited

/-- Bytes that memory holds from the start. -/
structure Segment where
  address : UInt64
  data : List UInt8
  deriving DecidableEq, Inhabited

/-- The memory of a module. Its sizes count pages. -/
structure Memory where
  min : UInt64
  max : UInt64
  segments : List Segment
  deriving DecidableEq, Inhabited

inductive ExportTarget
  | function (index : Index)
  | memory
  deriving DecidableEq, Inhabited

/-- A name under which a part of the module is visible from outside. -/
structure Export where
  name : String
  target : ExportTarget
  deriving DecidableEq, Inhabited

structure Module where
  types : List FunctionType := []
  imports : List Import := []
  functions : List Function := []
  /-- The functions that an indirect call can reach, in order. -/
  table : List Index := []
  memory : Option Memory := none
  exports : List Export := []
  start : Option Index := none
  deriving Inhabited

namespace Module

def exportsMemory (module : Module) : Bool :=
  module.exports.any (·.target == .memory)

def segments (module : Module) : List Segment :=
  (module.memory.map Memory.segments).getD []

end Module

/-! ## Locals in groups

The locals of a function, written as runs of neighbours of one type.
-/

structure LocalGroup where
  type : ValueType
  count : Nat
  deriving DecidableEq, Repr

namespace LocalGroup

/-- Adds one local in front of some groups: it joins the first group when the types agree. -/
def cons (type : ValueType) : List LocalGroup → List LocalGroup
  | [] => [⟨type, 1⟩]
  | group :: rest =>
      if group.type = type then
        ⟨type, group.count + 1⟩ :: rest
      else
        ⟨type, 1⟩ :: group :: rest

/-- The groups of some locals. Only neighbours join: a type that comes back later opens a group of
its own. -/
def ofLocals (locals : List ValueType) : List LocalGroup :=
  locals.foldr cons []

/-- Adds one local behind some groups: it joins the last group when the types agree. -/
def push (groups : Array LocalGroup) (type : ValueType) : Array LocalGroup :=
  match groups.back? with
  | some group =>
      if group.type = type then
        groups.pop.push ⟨type, group.count + 1⟩
      else
        groups.push ⟨type, 1⟩
  | none => groups.push ⟨type, 1⟩

/-- The groups that a loop over some locals leaves. -/
def scan (locals : List ValueType) : Array LocalGroup :=
  locals.foldl push #[]

def expand (groups : List LocalGroup) : List ValueType :=
  groups.flatMap fun group => List.replicate group.count group.type

end LocalGroup

/-! ## Sections -/

/-- The parts of an encoded module. -/
inductive SectionId
  | types
  | imports
  | functions
  | table
  | memory
  | exports
  | start
  | code
  | data
  /-- Closes the module. -/
  | terminator
  deriving DecidableEq, Repr

namespace SectionId

/-- Every section, in the order in which the format wants them. -/
def all : List SectionId :=
  [types, imports, functions, table, memory, exports, start, code, data, terminator]

def name : SectionId → String
  | types => "type"
  | imports => "import"
  | functions => "function"
  | table => "table"
  | memory => "memory"
  | exports => "export"
  | start => "start"
  | code => "code"
  | data => "data"
  | terminator => "end"

theorem mem_all (id : SectionId) : id ∈ all := by
  cases id <;> simp [all]

theorem name_inj {first second : SectionId} (same : first.name = second.name) :
    first = second := by
  have distinct :
      ∀ first ∈ all, ∀ second ∈ all, first.name = second.name → first = second := by
    decide +kernel
  exact distinct first (mem_all first) second (mem_all second) same

/-- The sections that the format wants in front of a section. -/
def before (id : SectionId) : List SectionId :=
  all.takeWhile (· != id)

def after (id : SectionId) : List SectionId :=
  (all.dropWhile (· != id)).tail

/-- Each section cuts the list of all sections in front of it and behind it. -/
theorem all_eq (id : SectionId) : all = id.before ++ id :: id.after := by
  cases id <;> rfl

theorem nodup_all : all.Nodup := by
  decide

/-- A list of all sections can be cut at a section in one way only. -/
theorem before_eq_of_all_eq {front back : List SectionId} {id : SectionId}
    (split : all = front ++ id :: back) : id.before = front := by
  have distinct := nodup_all
  have notInFront : ∀ other ∈ front, (other != id) = true := by
    intro other member
    rw [split] at distinct
    have different := (List.nodup_append.mp distinct).2.2 other member id List.mem_cons_self
    exact bne_iff_ne.mpr different
  rw [before, split, List.takeWhile_append_of_pos notInFront, List.takeWhile_cons_of_neg (by simp),
    List.append_nil]

theorem not_mem_before {id other : SectionId} (member : other ∈ id :: id.after) :
    other ∉ id.before := by
  intro inFront
  have distinct := nodup_all
  rw [id.all_eq] at distinct
  exact (List.nodup_append.mp distinct).2.2 other inFront other member rfl

end SectionId

/-- Whether a module has something to put into a section. The terminator is always written. -/
def Module.needs (module : Module) : SectionId → Bool
  | .types => !module.types.isEmpty
  | .imports => !module.imports.isEmpty
  | .functions => !module.functions.isEmpty
  | .table => !module.table.isEmpty
  | .memory => module.memory.isSome
  | .exports => !module.exports.isEmpty
  | .start => module.start.isSome
  | .code => !module.functions.isEmpty
  | .data => !module.segments.isEmpty
  | .terminator => true

/-! ## A module that shows what an encoding looks like -/

/-- The factorial of the 64 bit parameter, by recursion. The function calls itself as function 0. -/
def factorial : Function where
  type := 0
  locals := []
  body :=
    let parameter := Expr.getLocal 0
    let one := Expr.const (.i64 1)
    [.ifElse (.test (.i64 .eqz) parameter)
      [one]
      [.binary (.i64 .mul) parameter (.call 0 [.binary (.i64 .sub) parameter one])]]

/-- The factorial under the name `fac`, and an exported page of memory with a greeting at address
8. -/
def sampleModule : Module where
  types := [{ params := [.i64], result := some .i64 }]
  functions := [factorial]
  memory := some
    { min := 1
      max := 1
      segments := [{ address := 8, data := "Hello, world!".toList.map (·.toUInt8) }] }
  exports := [{ name := "fac", target := .function 0 }, { name := "memory", target := .memory }]

end WasmBinary
