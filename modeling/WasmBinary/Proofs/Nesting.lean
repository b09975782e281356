import WasmBinary.Proofs.Stream.Put

/-!
Collections can be read back when their elements can. Nothing is asked of a writer but that it
appends bytes; they may depend on what has been written before. Main statement: the law passes from
elements to lists and optional values, and so to values that are nested to any depth.
-/

namespace WasmBinary

/-! ## Nested values

How a value is written and read that is built from elements, when it is known how an element is.
-/

/-- A way to build values from elements. -/
inductive Nesting
  | element
  | string
  | vector (items : Nesting)
  | option (item : Nesting)
  /-- One value behind another. -/
  | pair (first second : Nesting)
  deriving DecidableEq, Repr

namespace Nesting

/-- The values that are built from elements of the given type. -/
def Value (α : Type) : Nesting → Type
  | element => α
  | string => List UInt8
  | vector items => List (items.Value α)
  | option item => Option (item.Value α)
  | pair first second => first.Value α × second.Value α

variable {α : Type}

def put (putElement : Stream → α → Stream) :
    (nesting : Nesting) → Stream → nesting.Value α → Stream
  | element, stream, value => putElement stream value
  | string, stream, bytes => stream.putString bytes
  | vector items, stream, values => stream.putVector values (items.put putElement)
  | option item, stream, value => stream.putOption value (item.put putElement)
  | pair first second, stream, (value, other) =>
      second.put putElement (first.put putElement stream value) other

def read (readElement : Reader α) : (nesting : Nesting) → Reader (nesting.Value α)
  | element => readElement
  | string => Reader.string
  | vector items => Reader.vector (items.read readElement)
  | option item => Reader.option (item.read readElement)
  | pair first second => fun input => do
      let (value, rest) ← first.read readElement input
      let (other, rest) ← second.read readElement rest
      return ((value, other), rest)

end Nesting

/-! ## Reading nested values back -/

namespace Reader

/-- Whether a reader takes an item off the front of these bytes and leaves whatever follows them. -/
def Reads {α : Type} (read : Reader α) (item : α) (bytes : List UInt8) : Prop :=
  ∀ rest, read (bytes ++ rest) = some (item, rest)

/-- Whether a reader undoes a writer: a write appends some bytes to any stream and does nothing
else, and the reader takes the item off the front of these bytes. -/
def Undoes {α : Type} (read : Reader α) (put : Stream → α → Stream) : Prop :=
  ∀ stream item, ∃ bytes, put stream item = stream.putBytes bytes ∧ read.Reads item bytes

namespace Undoes

variable {α β : Type} {read : Reader α} {put : Stream → α → Stream}

/-- A reader that inverts the bytes of a writer undoes it. -/
theorem of_inverts {bytes : α → List UInt8}
    (each : ∀ stream item, put stream item = stream.putBytes (bytes item))
    (inverts : Inverts read bytes) : read.Undoes put := by
  intro stream item
  exact ⟨bytes item, each stream item, inverts item⟩

theorem string : Reader.string.Undoes Stream.putString :=
  of_inverts Stream.putString_eq inverts_string

/-- Items written one after another are read one after another. -/
theorem foldl (undoes : read.Undoes put) (items : List α) (stream : Stream) :
    ∃ bytes,
      items.foldl put stream = stream.putBytes bytes ∧
        (times read items.length).Reads items bytes := by
  induction items generalizing stream with
  | nil => exact ⟨[], (stream.putBytes_nil).symm, fun _ => rfl⟩
  | cons item items inductionHypothesis =>
      obtain ⟨first, isFirst, readsFirst⟩ := undoes stream item
      obtain ⟨others, areOthers, readsOthers⟩ := inductionHypothesis (stream.putBytes first)
      refine ⟨first ++ others, ?_, ?_⟩
      · rw [List.foldl_cons, isFirst, areOthers, Stream.putBytes_putBytes]
      · intro rest
        simp [times, readsFirst (others ++ rest), readsOthers rest]

theorem vector (undoes : read.Undoes put) :
    (Reader.vector read).Undoes fun stream items => stream.putVector items put := by
  intro stream items
  let count := Leb128.unsigned items.length
  obtain ⟨bytes, areBytes, reads⟩ := undoes.foldl items (stream.putBytes count)
  refine ⟨count ++ bytes, ?_, ?_⟩
  · change items.foldl put (stream.putBytes count) = _
    rw [areBytes, Stream.putBytes_putBytes]
  · intro rest
    have counted := inverts_unsigned items.length (bytes ++ rest)
    simp [Reader.vector, count, counted, reads rest]

theorem option (undoes : read.Undoes put) :
    (Reader.option read).Undoes fun stream item => stream.putOption item put := by
  intro stream item
  cases item with
  | none => exact ⟨Format.flag false, Stream.putFlag_eq stream false, fun _ => rfl⟩
  | some item =>
      obtain ⟨bytes, areBytes, reads⟩ := undoes (stream.putBytes (Format.flag true)) item
      refine ⟨Format.flag true ++ bytes, ?_, ?_⟩
      · change put (stream.putFlag true) item = _
        rw [Stream.putFlag_eq, areBytes, Stream.putBytes_putBytes]
      · intro rest
        have present := inverts_flag true (bytes ++ rest)
        simp [Reader.option, present, reads rest]

/-- Values that are nested to any depth can be read back when their elements can. -/
theorem nesting (undoes : read.Undoes put) (nesting : Nesting) :
    (nesting.read read).Undoes (nesting.put put) := by
  induction nesting with
  | element => exact undoes
  | string => exact string
  | vector _ items => exact items.vector
  | option _ item => exact item.option
  | pair firstNesting secondNesting first second =>
      intro stream item
      obtain ⟨value, other⟩ := item
      obtain ⟨front, isFront, readsFront⟩ := first stream value
      obtain ⟨back, isBack, readsBack⟩ := second (stream.putBytes front) other
      refine ⟨front ++ back, ?_, ?_⟩
      · rw [Nesting.put, isFront, isBack, Stream.putBytes_putBytes]
      · intro rest
        simp [Nesting.read, readsFront (back ++ rest), readsBack rest]

/-- What stands on a stream that was empty before a write is read back. -/
theorem read_bytes_append (undoes : read.Undoes put) (item : α) (rest : List UInt8) :
    read ((put {} item).bytes ++ rest) = some (item, rest) := by
  obtain ⟨bytes, areBytes, reads⟩ := undoes {} item
  rw [areBytes, Stream.bytes_putBytes]
  exact reads rest

end Undoes

/-- When elements can be read back, so can a list of them from its count and that many elements, an
optional one from its flag, any bytes from their number, and every value that is nested from these,
whatever follows. -/
theorem readBack_nested {α : Type} {read : Reader α} {put : Stream → α → Stream}
    (undoes : read.Undoes put) :
    (∀ items rest,
        vector read ((({} : Stream).putVector items put).bytes ++ rest) = some (items, rest)) ∧
      (∀ item rest,
        option read ((({} : Stream).putOption item put).bytes ++ rest) = some (item, rest)) ∧
      (∀ bytes rest,
        string ((({} : Stream).putString bytes).bytes ++ rest) = some (bytes, rest)) ∧
      ∀ nesting : Nesting, (nesting.read read).Undoes (nesting.put put) :=
  ⟨undoes.vector.read_bytes_append, undoes.option.read_bytes_append,
    Undoes.string.read_bytes_append, undoes.nesting⟩

/-- A list of byte strings with optional indices. -/
def labels : Nesting :=
  .vector (.pair .string (.option .element))

theorem readBack_nested_labels :
    index.Undoes Stream.putIndex ∧
      vector index ((({} : Stream).putVector [5, 300] Stream.putIndex).bytes ++ [7]) =
        some ([5, 300], [7]) ∧
      option index ((({} : Stream).putOption (some 300) Stream.putIndex).bytes ++ [7]) =
        some (some 300, [7]) ∧
      labels.read index
          ((labels.put Stream.putIndex {} [([0x61], some (300 : Index)), ([], none)]).bytes ++
            [7]) =
        some ([([0x61], some (300 : Index)), ([], none)], [7]) := by
  have undoes : index.Undoes Stream.putIndex := .of_inverts Stream.putIndex_eq inverts_index
  obtain ⟨vectors, options, _, nestings⟩ := readBack_nested undoes
  exact ⟨undoes, vectors _ _, options _ _, (nestings labels).read_bytes_append _ _⟩

end Reader

end WasmBinary
