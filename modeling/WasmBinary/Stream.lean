import WasmBinary.Number

/-!
The output of an encoder. Bytes are only ever appended. Overwrites of bytes that are already written
are staged as patches, and they are applied at the very end, in the order of staging. A module is
never at fault: the only limit that it can reach is the capacity of a size field.
-/

namespace WasmBinary

/-! ## Refusals -/

/-- A region of the output whose length is written in front of it. -/
inductive Frame
  /-- The payload of a section. -/
  | sectionNamed (name : String)
  /-- The instructions of the function with this index. -/
  | functionBody (index : UInt32)
  deriving DecidableEq, Repr

def Frame.text : Frame → String
  | sectionNamed name => "section `" ++ name ++ "`"
  | functionBody index => "body of function " ++ toString index.toNat

inductive EncodingError
  /-- A region is longer than its size field can say. -/
  | frameTooLong (frame : Frame) (size limit : Nat)
  /-- An overwrite was staged for a position that has not been written. -/
  | patchPastEnd (position : Nat)
  deriving DecidableEq, Repr

namespace EncodingError

def message : EncodingError → String
  | frameTooLong frame size limit =>
      frame.text ++ " measures " ++ toString size ++
        " bytes, which does not fit in a 4 byte size field (limit " ++ toString limit ++ ")"
  | patchPastEnd position => "patch at " ++ toString position ++ " past end of stream"

/-- The text with which an encoder stops that does not hand its errors on. -/
def abortMessage (error : EncodingError) : String :=
  "Encoding failed: " ++ error.message

end EncodingError

theorem exists_of_bind_eq_ok {ε α β : Type} {first : Except ε α} {next : α → Except ε β}
    {result : β} (isOk : first >>= next = .ok result) :
    ∃ middle, first = .ok middle ∧ next middle = .ok result := by
  cases first with
  | error error => cases isOk
  | ok middle => exact ⟨middle, rfl, isOk⟩

/-- The state that an operation leaves, unless it is refused. Who gives up at the first refusal has
no use for the state beside it. -/
def accepted {σ : Type} (outcome : Except EncodingError Unit × σ) : Except EncodingError σ :=
  outcome.1.map fun _ => outcome.2

/-- An operation is accepted exactly when it answers without an error, and then its state is the
result. -/
theorem accepted_eq_ok_iff {σ : Type} {outcome : Except EncodingError Unit × σ} {state : σ} :
    accepted outcome = .ok state ↔ outcome = (.ok (), state) := by
  rcases outcome with ⟨_ | _, _⟩
  all_goals simp [accepted, Except.map]

theorem accepted_map {σ τ : Type} (outcome : Except EncodingError Unit × σ) (change : σ → τ) :
    accepted (Prod.map id change outcome) = (accepted outcome).map change := by
  rcases outcome with ⟨_ | _, _⟩
  all_goals rfl

/-! ## Bytes and staged overwrites -/

structure Patch where
  position : Nat
  byte : UInt8
  deriving DecidableEq, Repr

/-- Bytes written so far, and the overwrites staged for them. -/
structure Stream where
  buffer : Array UInt8 := #[]
  patches : Array Patch := #[]
  deriving DecidableEq, Repr, Inhabited

namespace Stream

/-- The number of bytes written so far, which is also the position of the next byte. -/
def position (stream : Stream) : Nat :=
  stream.buffer.size

/-- The bytes written so far, without the staged overwrites. -/
def bytes (stream : Stream) : List UInt8 :=
  stream.buffer.toList

def putByte (stream : Stream) (byte : UInt8) : Stream :=
  { stream with buffer := stream.buffer.push byte }

def putBytes (stream : Stream) (bytes : List UInt8) : Stream :=
  { stream with buffer := stream.buffer ++ bytes }

/-- Stages an overwrite of a byte that has been written. -/
def patch (stream : Stream) (position : Nat) (byte : UInt8) : Except EncodingError Stream :=
  if position < stream.position then
    .ok { stream with patches := stream.patches.push ⟨position, byte⟩ }
  else
    .error (.patchPastEnd position)

/-- Stages overwrites of consecutive bytes, the first of them at `position`, one after another up
to the first that is refused. Those before it stay staged. -/
def patchBytes (stream : Stream) (position : Nat) :
    List UInt8 → Except EncodingError Unit × Stream
  | [] => (.ok (), stream)
  | byte :: rest =>
      match stream.patch position byte with
      | .ok staged => staged.patchBytes (position + 1) rest
      | .error error => (.error error, stream)

end Stream

def Patch.apply (patch : Patch) (buffer : Array UInt8) : Array UInt8 :=
  buffer.setIfInBounds patch.position patch.byte

namespace Stream

/-- The finished bytes: every staged overwrite is applied, so of several for one position the last
one wins. -/
def patched (stream : Stream) : Array UInt8 :=
  stream.patches.foldl (fun buffer patch => patch.apply buffer) stream.buffer

/-! ### The appended bytes and the staged overwrites after each operation -/

@[simp] theorem position_eq_length_bytes (stream : Stream) :
    stream.position = stream.bytes.length := by
  simp [position, bytes]

@[simp] theorem bytes_putByte (stream : Stream) (byte : UInt8) :
    (stream.putByte byte).bytes = stream.bytes ++ [byte] := by
  simp [putByte, bytes]

@[simp] theorem bytes_putBytes (stream : Stream) (bytes : List UInt8) :
    (stream.putBytes bytes).bytes = stream.bytes ++ bytes := by
  simp [putBytes, Stream.bytes]

@[simp] theorem patches_putByte (stream : Stream) (byte : UInt8) :
    (stream.putByte byte).patches = stream.patches := rfl

@[simp] theorem patches_putBytes (stream : Stream) (bytes : List UInt8) :
    (stream.putBytes bytes).patches = stream.patches := rfl

/-- A stream is determined by its bytes and its staged overwrites. -/
theorem ext_bytes {first second : Stream} (sameBytes : first.bytes = second.bytes)
    (samePatches : first.patches = second.patches) : first = second := by
  cases first
  cases second
  simp_all [bytes]

theorem putByte_eq_putBytes (stream : Stream) (byte : UInt8) :
    stream.putByte byte = stream.putBytes [byte] :=
  ext_bytes (by simp) rfl

@[simp] theorem putBytes_putBytes (stream : Stream) (first second : List UInt8) :
    (stream.putBytes first).putBytes second = stream.putBytes (first ++ second) :=
  ext_bytes (by simp) rfl

@[simp] theorem putBytes_nil (stream : Stream) : stream.putBytes [] = stream :=
  ext_bytes (by simp) rfl

end Stream

/-! ## Values

Numbers of fixed width stand with their low byte first, counts and integer constants are LEB128, and
floats are the bytes of their bits. A collection is preceded by its length, and an optional value by
a flag.
-/

def utf8 (text : String) : List UInt8 :=
  text.toByteArray.data.toList

theorem utf8_inj {text other : String} (same : utf8 text = utf8 other) : text = other :=
  String.toByteArray_inj.mp (ByteArray.ext (Array.toList_inj.mp same))

namespace Stream

/-! ### Fixed width -/

def putUInt16 (stream : Stream) (value : UInt16) : Stream :=
  (stream.putByte (value &&& 0xff).toUInt8).putByte (value >>> 8).toUInt8

/-- Appends the four bytes of a number, low half first. -/
def putUInt32 (stream : Stream) (value : UInt32) : Stream :=
  (stream.putUInt16 (value &&& 0xffff).toUInt16).putUInt16 (value >>> 16).toUInt16

def putUInt64 (stream : Stream) (value : UInt64) : Stream :=
  (stream.putUInt32 (value &&& 0xffffffff).toUInt32).putUInt32 (value >>> 32).toUInt32

/-- Appends a 32 bit float, given by its bits. -/
def putFloat32 (stream : Stream) (bits : UInt32) : Stream :=
  stream.putUInt32 bits

def putFloat64 (stream : Stream) (bits : UInt64) : Stream :=
  stream.putUInt64 bits

def putFlag (stream : Stream) (flag : Bool) : Stream :=
  stream.putByte (if flag then 1 else 0)

/-! ### Variable width -/

def putUnsigned (stream : Stream) (value : Nat) : Stream :=
  stream.putBytes (Leb128.unsigned value)

def putSigned (stream : Stream) (value : Int) : Stream :=
  stream.putBytes (Leb128.signed value)

def putIndex (stream : Stream) (index : UInt32) : Stream :=
  stream.putUnsigned index.toNat

/-! ### Collections -/

/-- Appends a byte count and the bytes themselves. -/
def putString (stream : Stream) (bytes : List UInt8) : Stream :=
  (stream.putUnsigned bytes.length).putBytes bytes

/-- Appends a count and then each item. -/
def putVector {α : Type} (stream : Stream) (items : List α)
    (put : Stream → α → Stream) : Stream :=
  items.foldl put (stream.putUnsigned items.length)

/-- Appends a presence flag, and the item if there is one. -/
def putOption {α : Type} (stream : Stream) (item : Option α)
    (put : Stream → α → Stream) : Stream :=
  match item with
  | none => stream.putFlag false
  | some item => put (stream.putFlag true) item

/-- Appends a count and then each item, where writing an item has an effect such as failure. -/
def putVectorM {m : Type → Type} [Monad m] {α : Type} (stream : Stream) (items : List α)
    (put : Stream → α → m Stream) : m Stream :=
  items.foldlM put (stream.putUnsigned items.length)

end Stream

/-! ## Size fields

A region whose length is known only at its end begins with a gap: a field of four bytes that reads
as zero and is overwritten later. LEB128 allows high groups of zero, so a short size fills the field
as well, and nothing behind the field moves.
-/

structure Gap where
  position : Nat
  deriving DecidableEq, Repr

namespace Gap

def width : Nat := 4

/-- The largest number that a size field can hold. -/
def capacity : Nat := 1 <<< (7 * width) - 1

theorem capacity_eq : capacity = 128 * 128 * 128 * 128 - 1 := by
  decide

/-- What stands in a size field until it is filled: zero, written in four groups. -/
def blank : List UInt8 := [0x80, 0x80, 0x80, 0x00]

/-- Whether a position lies in the field. -/
def Covers (gap : Gap) (position : Nat) : Prop :=
  gap.position ≤ position ∧ position < gap.position + width

instance (gap : Gap) (position : Nat) : Decidable (gap.Covers position) :=
  inferInstanceAs (Decidable (_ ∧ _))

/-- Sets the continuation bit of the last byte. -/
def continueLast : List UInt8 → List UInt8
  | [] => []
  | [byte] => [byte ||| 0x80]
  | byte :: rest => byte :: continueLast rest

/-- The bytes that a size puts at the front of its field: its shortest form, which goes on into the
zero groups of the field when it does not fill it. -/
def sizeBytes (size : Nat) : List UInt8 :=
  let shortest := Leb128.unsigned size
  if shortest.length < width then continueLast shortest else shortest

end Gap

namespace Stream

def reserve (stream : Stream) : Gap × Stream :=
  (⟨stream.position⟩, stream.putBytes Gap.blank)

/-- Stages a size for a reserved field. A size that needs more groups than the field has is
refused before anything is staged. -/
def fill (stream : Stream) (gap : Gap) (size : Nat) (frame : Frame) :
    Except EncodingError Unit × Stream :=
  if Gap.width < (Leb128.unsigned size).length then
    (.error (.frameTooLong frame size Gap.capacity), stream)
  else
    stream.patchBytes gap.position (Gap.sizeBytes size)

end Stream

end WasmBinary
