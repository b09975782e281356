import WasmBinary.Format

/-!
What a reader sees of an encoded module: its sections, the code of its functions and their
instruction trees.
-/

namespace WasmBinary

/-! ## Sections

A walk over an encoded module needs nothing but the frames: sections are found by their sizes and
names, and function bodies are skipped by theirs.
-/

/-- A section as it stands in the bytes of a module. -/
structure SectionView where
  name : List UInt8
  offset : Nat
  payload : List UInt8
  deriving DecidableEq

namespace SectionView

/-- Takes a section that begins at the given position. -/
def read (offset : Nat) : Reader SectionView := fun input => do
  let (size, rest) ← Reader.sizeField input
  let (name, rest) ← Reader.string rest
  let (payload, rest) ← Reader.take size rest
  return ({ name, offset, payload }, rest)

/-- Reads sections from the given position on, until no byte is left. -/
def readAll (offset : Nat) (input : List UInt8) : Option (List SectionView) :=
  go input.length offset input
where
  /-- Reads at most as many sections as the first argument says. -/
  go : Nat → Nat → List UInt8 → Option (List SectionView)
    | _, _, [] => some []
    | 0, _, _ :: _ => none
    | fuel + 1, offset, byte :: rest => do
        let (view, remaining) ← read offset (byte :: rest)
        let views ← go fuel (offset + ((byte :: rest).length - remaining.length)) remaining
        return view :: views

def ofName? (views : List SectionView) (name : String) : Option SectionView :=
  views.find? (·.name == utf8 name)

def payload? (views : List SectionView) (name : String) : Option (List UInt8) :=
  (ofName? views name).map payload

end SectionView

/-- The locals of a function and the bytes of its body. -/
structure CodeEntry where
  groups : List LocalGroup
  body : List UInt8
  deriving DecidableEq

namespace CodeEntry

def readGroup : Reader LocalGroup := fun input => do
  let (count, rest) ← Leb128.readUnsigned input
  let (tag, rest) ← Reader.byte rest
  let type ← ValueType.ofTag? tag
  return ({ type, count }, rest)

/-- Takes the code of a function, without looking into its body. -/
def read : Reader CodeEntry := fun input => do
  let (groups, rest) ← Reader.vector readGroup input
  let (size, rest) ← Reader.sizeField rest
  let (body, rest) ← Reader.take size rest
  return ({ groups, body }, rest)

end CodeEntry

/-- What a reader sees of a section of a module. -/
def Module.sectionView (module : Module) (id : SectionId) : SectionView where
  name := utf8 id.name
  offset := module.offset id
  payload := module.payload id

/-! ## Instructions -/

namespace Reader

def memoryAccess : Reader MemoryAccess := fun input => do
  let (align, rest) ← index input
  let (offset, rest) ← word rest
  return ({ offset, align }, rest)

def literal : ValueType → Reader Literal
  | .i32, input => do
      let (value, rest) ← Leb128.readSigned input
      if Int32.minValue.toInt ≤ value ∧ value ≤ Int32.maxValue.toInt then
        some (.i32 (Int32.ofInt value), rest)
      else
        none
  | .i64, input => do
      let (value, rest) ← Leb128.readSigned input
      if Int64.minValue.toInt ≤ value ∧ value ≤ Int64.maxValue.toInt then
        some (.i64 (Int64.ofInt value), rest)
      else
        none
  | .f32, input => do
      let (bits, rest) ← littleEndian 4 input
      return (.f32 bits.toUInt32, rest)
  | .f64, input => do
      let (bits, rest) ← littleEndian 8 input
      return (.f64 bits.toUInt64, rest)

end Reader

namespace Instruction

/-- Takes the immediates that belong to an opcode. -/
def readImmediates : Opcode → Reader Instruction
  | .nop, input => some (nop, input)
  | .unreachable, input => some (unreachable, input)
  | .block, input => some (block, input)
  | .loop, input => some (loop, input)
  | .ifStart, input => some (ifStart, input)
  | .elseStart, input => some (elseStart, input)
  | .blockEnd, input => some (blockEnd, input)
  | .select, input => some (select, input)
  | .br, input => do
      let (carries, rest) ← Reader.flag input
      let (label, rest) ← Reader.index rest
      return (br carries label, rest)
  | .brIf, input => do
      let (carries, rest) ← Reader.flag input
      let (label, rest) ← Reader.index rest
      return (brIf carries label, rest)
  | .brTable, input => do
      let (carries, rest) ← Reader.flag input
      let (targets, rest) ← Reader.vector Reader.index rest
      let (fallback, rest) ← Reader.index rest
      return (brTable carries targets fallback, rest)
  | .ret, input => do
      let (carries, rest) ← Reader.flag input
      return (ret carries, rest)
  | .const type, input => do
      let (literal, rest) ← Reader.literal type input
      return (const literal, rest)
  | .getLocal, input => do
      let (index, rest) ← Reader.index input
      return (getLocal index, rest)
  | .setLocal, input => do
      let (index, rest) ← Reader.index input
      return (setLocal index, rest)
  | .call, input => do
      let (argCount, rest) ← Leb128.readUnsigned input
      let (function, rest) ← Reader.index rest
      return (call argCount function, rest)
  | .callImport, input => do
      let (argCount, rest) ← Leb128.readUnsigned input
      let (entry, rest) ← Reader.index rest
      return (callImport argCount entry, rest)
  | .callIndirect, input => do
      let (argCount, rest) ← Leb128.readUnsigned input
      let (type, rest) ← Reader.index rest
      return (callIndirect argCount type, rest)
  | .load op, input => do
      let (access, rest) ← Reader.memoryAccess input
      return (load op access, rest)
  | .store op, input => do
      let (access, rest) ← Reader.memoryAccess input
      return (store op access, rest)
  | .currentMemory, input => some (currentMemory, input)
  | .growMemory, input => some (growMemory, input)
  | .unary op, input => some (unary op, input)
  | .binary op, input => some (binary op, input)
  | .test op, input => some (test op, input)
  | .compare op, input => some (compare op, input)
  | .convert op, input => some (convert op, input)

def read : Reader Instruction := fun input => do
  let (code, rest) ← Reader.byte input
  let opcode ← Opcode.ofCode? code
  readImmediates opcode rest

/-- Reads instructions until no byte is left. -/
def readAll (input : List UInt8) : Option (List Instruction) :=
  go input.length input
where
  /-- Reads at most as many instructions as the first argument says. -/
  go : Nat → List UInt8 → Option (List Instruction)
    | _, [] => some []
    | 0, _ :: _ => none
    | fuel + 1, byte :: rest => do
        let (instruction, rest) ← read (byte :: rest)
        let instructions ← go fuel rest
        return instruction :: instructions

end Instruction

/-! ## Trees

A stack holds the trees that are finished and the regions that are open. An instruction takes its
operands from the top of the stack and puts a tree in their place; the end of a region takes
everything above the mark of the region.
-/

inductive StackItem
  | tree (expr : Expr)
  | block
  | loop
  /-- An open conditional in its first branch. -/
  | conditional (condition : Expr)
  /-- An open conditional in its second branch, the first one being finished. -/
  | alternative (condition : Expr) (body : List Expr)
  deriving Inhabited

/-- Finished trees and open regions, the latest one first. -/
abbrev Stack := List StackItem

namespace Stack

def pushAll (stack : Stack) (exprs : List Expr) : Stack :=
  (exprs.map StackItem.tree).reverse ++ stack

def pop : Stack → Option (Expr × Stack)
  | .tree expr :: rest => some (expr, rest)
  | _ => none

/-- Takes some trees from the top; the result lists them in the order in which they were put. -/
def popMany (count : Nat) (stack : Stack) : Option (List Expr × Stack) :=
  go count [] stack
where
  /-- Takes trees in front of those already taken. -/
  go : Nat → List Expr → Stack → Option (List Expr × Stack)
    | 0, taken, stack => some (taken, stack)
    | count + 1, taken, .tree expr :: rest => go count (expr :: taken) rest
    | _ + 1, _, _ => none

/-- Takes all trees above the nearest open region, in the order in which they were put. -/
def popRegion (stack : Stack) : List Expr × Stack :=
  go [] stack
where
  /-- Takes trees in front of those already taken. -/
  go (taken : List Expr) : Stack → List Expr × Stack
    | .tree expr :: rest => go (expr :: taken) rest
    | stack => (taken, stack)

/-- Takes what a branch carries: a value above the mark that its presence flag left, or the tree of
an instruction without effect when there is no value. -/
def popCarried (carries : Bool) (stack : Stack) : Option (Option Expr × Stack) :=
  match carries, stack with
  | true, .tree value :: .block :: rest => some (some value, rest)
  | false, .tree .nop :: rest => some (none, rest)
  | _, _ => none

/-- Closes the nearest open region. -/
def close (stack : Stack) : Option Stack :=
  match popRegion stack with
  | (body, .block :: rest) => some (.tree (.block body) :: rest)
  | (body, .loop :: rest) => some (.tree (.loop body) :: rest)
  | (body, .conditional condition :: rest) => some (.tree (.ifElse condition body []) :: rest)
  | (otherwise, .alternative condition body :: rest) =>
      some (.tree (.ifElse condition body otherwise) :: rest)
  | _ => none

def step (stack : Stack) : Instruction → Option Stack
  | .nop => some (.tree .nop :: stack)
  | .unreachable => some (.tree .unreachable :: stack)
  | .block => some (.block :: stack)
  | .loop => some (.loop :: stack)
  | .ifStart => do
      let (condition, stack) ← stack.pop
      return .conditional condition :: stack
  | .elseStart =>
      match popRegion stack with
      | (body, .conditional condition :: rest) => some (.alternative condition body :: rest)
      | _ => none
  | .blockEnd => stack.close
  | .select => do
      let (condition, stack) ← stack.pop
      let (ifFalse, stack) ← stack.pop
      let (ifTrue, stack) ← stack.pop
      return .tree (.select ifTrue ifFalse condition) :: stack
  | .br carries label => do
      let (value, stack) ← stack.popCarried carries
      return .tree (.br label value) :: stack
  | .brIf carries label => do
      let (condition, stack) ← stack.pop
      let (value, stack) ← stack.popCarried carries
      return .tree (.brIf label value condition) :: stack
  | .brTable carries targets fallback => do
      let (index, stack) ← stack.pop
      let (value, stack) ← stack.popCarried carries
      return .tree (.brTable targets fallback value index) :: stack
  | .ret carries => do
      let (value, stack) ← stack.popCarried carries
      return .tree (.ret value) :: stack
  | .const literal => some (.tree (.const literal) :: stack)
  | .getLocal index => some (.tree (.getLocal index) :: stack)
  | .setLocal index => do
      let (value, stack) ← stack.pop
      return .tree (.setLocal index value) :: stack
  | .call argCount function => do
      let (args, stack) ← stack.popMany argCount
      return .tree (.call function args) :: stack
  | .callImport argCount entry => do
      let (args, stack) ← stack.popMany argCount
      return .tree (.callImport entry args) :: stack
  | .callIndirect argCount type => do
      let (args, stack) ← stack.popMany argCount
      let (callee, stack) ← stack.pop
      return .tree (.callIndirect type callee args) :: stack
  | .load op access => do
      let (address, stack) ← stack.pop
      return .tree (.load op access address) :: stack
  | .store op access => do
      let (value, stack) ← stack.pop
      let (address, stack) ← stack.pop
      return .tree (.store op access address value) :: stack
  | .currentMemory => some (.tree .currentMemory :: stack)
  | .growMemory => do
      let (pages, stack) ← stack.pop
      return .tree (.growMemory pages) :: stack
  | .unary op => do
      let (operand, stack) ← stack.pop
      return .tree (.unary op operand) :: stack
  | .binary op => do
      let (right, stack) ← stack.pop
      let (left, stack) ← stack.pop
      return .tree (.binary op left right) :: stack
  | .test op => do
      let (operand, stack) ← stack.pop
      return .tree (.test op operand) :: stack
  | .compare op => do
      let (right, stack) ← stack.pop
      let (left, stack) ← stack.pop
      return .tree (.compare op left right) :: stack
  | .convert op => do
      let (operand, stack) ← stack.pop
      return .tree (.convert op operand) :: stack

def run (stack : Stack) (instructions : List Instruction) : Option Stack :=
  instructions.foldlM step stack

/-- Takes so many instructions off the front of some bytes, each of which acts on the stack before
the next one is read. -/
def scan : Nat → Stack → Reader Stack
  | 0, stack, input => some (stack, input)
  | count + 1, stack, input => do
      let (instruction, rest) ← Instruction.read input
      let stack ← stack.step instruction
      scan count stack rest

end Stack

/-- Reads trees from bytes, until no byte is left. -/
def Expr.readAll (input : List UInt8) : Option (List Expr) := do
  let instructions ← Instruction.readAll input
  let stack ← Stack.run [] instructions
  match stack.popRegion with
  | (exprs, []) => some exprs
  | _ => none

end WasmBinary
