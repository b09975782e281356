import Mathlib.Data.List.Forall2
import WasmBinary.Layout

/-!
A printed layout loses nothing. Main statement: all lines of the table are divided at the same
places, the cells between these places say what the layout says, and no other layout has the same
text.
-/

namespace WasmBinary

/-! ## Numerals -/

/-- The digits up to base sixteen, in lower case. -/
def digits : List Char :=
  ['0', '1', '2', '3', '4', '5', '6', '7', '8', '9', 'a', 'b', 'c', 'd', 'e', 'f']

/-- The value of a digit; a character that is no digit has a value that no base allows. -/
def digitValue (digit : Char) : Nat :=
  digits.idxOf digit

/-- The number that some digits stand for, the highest one first. -/
def ofDigits (base : Nat) (numeral : List Char) : Nat :=
  numeral.foldl (fun high digit => base * high + digitValue digit) 0

/-- Whether a text is a number in a base. Zeros stand in front of it only to fill it up to a
width. -/
structure IsNumeral (base width : Nat) (numeral : List Char) (number : Nat) : Prop where
  digits : ∀ digit ∈ numeral, digitValue digit < base
  value : ofDigits base numeral = number
  filled : width ≤ numeral.length
  shortest : width < numeral.length → numeral.head? ≠ some '0'

/-! ## Reading a table

What is read from the text alone: the lines, the places at which columns meet, and the cells between
these places.
-/

/-- Whether two columns meet at a character, on a line of cells or on a separating line. -/
def isJunction (character : Char) : Bool :=
  character == '│' || character == '┼' || character == '┴'

/-- Where the three columns of a table meet, and where its lines end. -/
structure Columns where
  first : Nat
  second : Nat
  last : Nat
  deriving DecidableEq, Repr

namespace Columns

/-- Whether a line is as long as the columns are wide, has a blank border on either side, and is
divided where the columns meet and nowhere else. -/
structure Divide (columns : Columns) (line : List Char) : Prop where
  length : line.length = columns.last + 1
  leftBorder : line.head? = some ' '
  rightBorder : line.getLast? = some ' '
  junctions : line.findIdxs isJunction = [columns.first, columns.second]

/-- What stands on a line between its borders and the places at which the columns meet. -/
def cut (columns : Columns) (line : List Char) : TableRow (List Char) where
  name := (line.take columns.first).drop 1
  offset := (line.take columns.second).drop (columns.first + 1)
  size := (line.take columns.last).drop (columns.second + 1)

end Columns

def trimLeft (text : List Char) : List Char :=
  text.dropWhile (· == ' ')

def trimRight (text : List Char) : List Char :=
  (text.reverse.dropWhile (· == ' ')).reverse

namespace TableRow

/-- Removes the padding of cells: a blank on either side, and what fills a cell up behind a name or
in front of a number. -/
def trim (row : TableRow (List Char)) : TableRow (List Char) where
  name := trimRight (row.name.drop 1)
  offset := trimLeft row.offset.dropLast
  size := trimLeft row.size.dropLast

/-- Whether some texts say what a layout says about a section. -/
structure Shows (row : TableRow (List Char)) (entry : LayoutEntry) : Prop where
  name : row.name = entry.name.toList
  offset : ∃ numeral, row.offset = ['0', 'x'] ++ numeral ∧ IsNumeral 16 4 numeral entry.offset
  size : IsNumeral 10 1 row.size entry.size

end TableRow

/-- The parts of a printed table. -/
structure TableView where
  columns : Columns
  titles : List Char
  top : List Char
  data : List (List Char)
  bottom : List Char
  total : List Char

namespace TableView

def lines (view : TableView) : List (List Char) :=
  [view.titles, view.top] ++ view.data ++ [view.bottom]

/-- Whether a text is a table with these parts, followed by the total length, and says what a layout
says. -/
structure Shows (view : TableView) (text : List Char) (layout : Layout) : Prop where
  lines :
    text.splitOn '\n' = view.lines ++ ["Total: ".toList ++ view.total ++ " bytes".toList]
  divided : ∀ line ∈ view.lines, view.columns.Divide line
  data :
    List.Forall₂ (fun line entry => (view.columns.cut line).trim.Shows entry) view.data
      layout.sections.toList
  total : IsNumeral 10 1 view.total layout.total

end TableView

def isPrintable (character : Char) : Bool :=
  ' ' ≤ character && character ≤ '~'

/-- Whether the name of a section is printable ASCII and does not end in a blank. -/
structure LayoutEntry.Plain (entry : LayoutEntry) : Prop where
  printable : ∀ character ∈ entry.name.toList, isPrintable character = true
  noBlank : entry.name.toList.getLast? ≠ some ' '

/-! ## Digits

The digits of a number, filled up with zeros, are a numeral of that number and of no other.
-/

theorem digitValue_digitChar {value : Nat} (small : value < 16) :
    digitValue value.digitChar = value := by
  have each : ∀ value < 16, digitValue value.digitChar = value := by
    decide
  exact each value small

theorem ofDigits_concat (base : Nat) (numeral : List Char) (digit : Char) :
    ofDigits base (numeral ++ [digit]) = base * ofDigits base numeral + digitValue digit :=
  List.foldl_append

theorem ofDigits_replicate_zero_append (base count : Nat) (numeral : List Char) :
    ofDigits base (List.replicate count '0' ++ numeral) = ofDigits base numeral := by
  have zeros : ofDigits base (List.replicate count '0') = 0 := by
    induction count with
    | zero => rfl
    | succ count inductionHypothesis =>
        rw [List.replicate_succ', ofDigits_concat, inductionHypothesis]
        rfl
  rw [ofDigits, List.foldl_append]
  change numeral.foldl _ (ofDigits base (List.replicate count '0')) = _
  rw [zeros]
  rfl

section Digits

variable {base : Nat}

/-- What holds of the numbers of one digit and passes on when a digit is added holds of all. -/
theorem toDigits_induction {motive : Nat → List Char → Prop} (atLeastTwo : 1 < base)
    (single : ∀ digit < base, motive digit [digit.digitChar])
    (more : ∀ high digit, 0 < high → digit < base → motive high (Nat.toDigits base high) →
      motive (base * high + digit) (Nat.toDigits base high ++ [digit.digitChar]))
    (number : Nat) : motive number (Nat.toDigits base number) := by
  induction number using Nat.strongRecOn with
  | ind number inductionHypothesis =>
      rw [Nat.toDigits_eq_if atLeastTwo]
      by_cases small : number < base
      · rw [if_pos small]
        exact single number small
      · have high : 0 < number / base := Nat.div_pos (Nat.not_lt.mp small) (by omega)
        have less : number / base < number := Nat.div_lt_self (by omega) atLeastTwo
        have step :=
          more (number / base) (number % base) high (Nat.mod_lt _ (by omega))
            (inductionHypothesis _ less)
        rw [Nat.div_add_mod] at step
        rw [if_neg small]
        exact step

theorem ofDigits_toDigits (atLeastTwo : 1 < base) (atMost : base ≤ 16) (number : Nat) :
    ofDigits base (Nat.toDigits base number) = number := by
  apply toDigits_induction (motive := fun number numeral => ofDigits base numeral = number)
    atLeastTwo
  · intro digit small
    have value := digitValue_digitChar (Nat.lt_of_lt_of_le small atMost)
    simp [ofDigits, value]
  · intro high digit _ small value
    rw [ofDigits_concat, value, digitValue_digitChar (Nat.lt_of_lt_of_le small atMost)]

theorem digitValue_lt_of_mem_toDigits (atLeastTwo : 1 < base) (atMost : base ≤ 16)
    (number : Nat) : ∀ digit ∈ Nat.toDigits base number, digitValue digit < base := by
  apply toDigits_induction
    (motive := fun _ numeral => ∀ digit ∈ numeral, digitValue digit < base) atLeastTwo
  · intro value small
    rw [List.forall_mem_singleton, digitValue_digitChar (Nat.lt_of_lt_of_le small atMost)]
    exact small
  · intro high value _ small each
    rw [List.forall_mem_append, List.forall_mem_singleton,
      digitValue_digitChar (Nat.lt_of_lt_of_le small atMost)]
    exact ⟨each, small⟩

/-- Only zero begins with a zero. -/
theorem head?_toDigits (atLeastTwo : 1 < base) (atMost : base ≤ 16) {number : Nat}
    (positive : 0 < number) : (Nat.toDigits base number).head? ≠ some '0' := by
  revert positive
  apply toDigits_induction
    (motive := fun number numeral => 0 < number → numeral.head? ≠ some '0') atLeastTwo
  · intro digit small positive isZero
    have same : digit.digitChar = '0' := by simpa using isZero
    have value := digitValue_digitChar (Nat.lt_of_lt_of_le small atMost)
    rw [same] at value
    have zero : digitValue '0' = 0 := rfl
    omega
  · intro high digit positive _ notZero _
    cases numeral : Nat.toDigits base high with
    | nil => exact absurd numeral Nat.toDigits_ne_nil
    | cons first rest =>
        rw [numeral] at notZero
        exact notZero positive

end Digits

/-- The digits of a number are a numeral of it when they are filled up to a width. -/
theorem isNumeral_padLeft {base width : Nat} (atLeastTwo : 1 < base) (atMost : base ≤ 16)
    (nonempty : 0 < width) (number : Nat) :
    IsNumeral base width (padLeft '0' width (Nat.toDigits base number)) number where
  digits := by
    intro digit member
    rcases List.mem_append.mp member with isFill | isDigit
    · rw [List.eq_of_mem_replicate isFill]
      exact Nat.lt_trans Nat.zero_lt_one atLeastTwo
    · exact digitValue_lt_of_mem_toDigits atLeastTwo atMost number digit isDigit
  value := by
    rw [padLeft, ofDigits_replicate_zero_append, ofDigits_toDigits atLeastTwo atMost]
  filled := by
    rw [padLeft, List.length_append, List.length_replicate]
    omega
  shortest := by
    intro longer
    rw [padLeft, List.length_append, List.length_replicate] at longer
    have noFill : width - (Nat.toDigits base number).length = 0 := by
      omega
    have positive : 0 < number := by
      rw [Nat.pos_iff_ne_zero]
      intro isZero
      rw [isZero, Nat.toDigits_zero, List.length_singleton] at longer
      omega
    rw [padLeft, noFill, List.replicate_zero, List.nil_append]
    exact head?_toDigits atLeastTwo atMost positive

theorem isNumeral_hex (number : Nat) :
    IsNumeral 16 4 (padLeft '0' 4 (Nat.toDigits 16 number)) number :=
  isNumeral_padLeft (by omega) (by omega) (by omega) number

theorem isNumeral_decimal (number : Nat) : IsNumeral 10 1 (decimal number) number := by
  have isNumeral : IsNumeral 10 1 (padLeft '0' 1 (Nat.toDigits 10 number)) number :=
    isNumeral_padLeft (by omega) (by omega) (by omega) number
  have nonempty : 0 < (Nat.toDigits 10 number).length :=
    List.length_pos_iff.mpr Nat.toDigits_ne_nil
  have noFill : 1 - (Nat.toDigits 10 number).length = 0 := by
    omega
  rw [padLeft, noFill] at isNumeral
  exact isNumeral

theorem IsNumeral.unique {base width number other : Nat} {numeral : List Char}
    (isNumeral : IsNumeral base width numeral number)
    (isOther : IsNumeral base width numeral other) : number = other :=
  isNumeral.value.symm.trans isOther.value

/-! ## Padding -/

theorem length_padLeft {fill : Char} {width : Nat} {text : List Char}
    (fits : text.length ≤ width) : (padLeft fill width text).length = width := by
  rw [padLeft, List.length_append, List.length_replicate]
  omega

theorem length_padRight {fill : Char} {width : Nat} {text : List Char}
    (fits : text.length ≤ width) : (padRight fill width text).length = width := by
  rw [padRight, List.length_append, List.length_replicate]
  omega

theorem trimLeft_replicate_append {text : List Char} (noBlank : text.head? ≠ some ' ')
    (count : Nat) : trimLeft (List.replicate count ' ' ++ text) = text := by
  rw [trimLeft, List.dropWhile_append_of_pos (by simp)]
  cases text with
  | nil => rfl
  | cons first rest =>
      have different : first ≠ ' ' := by simpa using noBlank
      rw [List.dropWhile_cons_of_neg (by simpa using different)]

theorem trimRight_append_replicate {text : List Char} (noBlank : text.getLast? ≠ some ' ')
    (count : Nat) : trimRight (text ++ List.replicate count ' ') = text := by
  rw [← List.head?_reverse] at noBlank
  have trimmed := trimLeft_replicate_append noBlank count
  rw [trimLeft] at trimmed
  rw [trimRight, List.reverse_append, List.reverse_replicate, trimmed, List.reverse_reverse]

/-! ## Lines of three cells -/

theorem drop_take_append {α : Type} {start stop : Nat} {front cell back : List α}
    (isStart : front.length = start) (isStop : (front ++ cell).length = stop) :
    ((front ++ cell ++ back).take stop).drop start = cell := by
  rw [← isStop, ← isStart, List.take_left, List.drop_left]

namespace TableRow

/-- A line of three cells from border to border, with a character where two cells meet. -/
def join (junction : Char) (cells : TableRow (List Char)) : List Char :=
  [' '] ++ cells.name ++ [junction] ++ cells.offset ++ [junction] ++ cells.size ++ [' ']

/-- Whether cells are as wide as the columns with their padding, and hold nothing that would divide
a line or end it. -/
structure Fill (cells : TableRow (List Char)) (widths : TableRow Nat) : Prop where
  name : cells.name.length = widths.name + 2
  offset : cells.offset.length = widths.offset + 2
  size : cells.size.length = widths.size + 2
  plain :
    ∀ character ∈ cells.name ++ cells.offset ++ cells.size,
      isJunction character = false ∧ character ≠ '\n'

end TableRow

namespace Columns

/-- Where columns of these widths meet. -/
def ofWidths (widths : TableRow Nat) : Columns where
  first := widths.name + 3
  second := widths.name + widths.offset + 6
  last := widths.name + widths.offset + widths.size + 9

variable {cells : TableRow (List Char)} {widths : TableRow Nat} {junction : Char}

/-- Cells that fill their columns put the junctions where the columns meet. -/
theorem divide_join (fill : cells.Fill widths) (divides : isJunction junction = true) :
    (ofWidths widths).Divide (cells.join junction) where
  length := by
    simp only [TableRow.join, ofWidths, List.length_append, List.length_singleton, fill.name,
      fill.offset, fill.size]
    omega
  leftBorder := rfl
  rightBorder := List.getLast?_concat
  junctions := by
    have plain := fill.plain
    rw [List.forall_mem_append, List.forall_mem_append] at plain
    obtain ⟨⟨name, offset⟩, size⟩ := plain
    have none {cell : List Char} (start : Nat)
        (plain : ∀ character ∈ cell, isJunction character = false ∧ character ≠ '\n') :
        cell.findIdxs isJunction start = [] :=
      List.findIdxs_eq_nil_iff.mpr fun character member => (plain character member).1
    have blank : isJunction ' ' = false := rfl
    simp only [TableRow.join, ofWidths, List.append_assoc, List.cons_append, List.nil_append,
      List.append_nil, List.findIdxs_append, List.findIdxs_cons, List.findIdxs_nil, blank, divides,
      none _ name, none _ offset, none _ size, fill.name, fill.offset, Bool.false_eq_true,
      if_false, if_true, Nat.zero_add, List.cons.injEq, and_true]
    omega

/-- Cutting a line where its columns meet gives its cells back. -/
theorem cut_join (fill : cells.Fill widths) (junction : Char) :
    (ofWidths widths).cut (cells.join junction) = cells := by
  have name : ((cells.join junction).take (ofWidths widths).first).drop 1 = cells.name := by
    have shape :
        cells.join junction =
          [' '] ++ cells.name ++
            ([junction] ++ cells.offset ++ [junction] ++ cells.size ++ [' ']) := by
      simp [TableRow.join]
    rw [shape]
    apply drop_take_append
    · rfl
    · simp [ofWidths, fill.name]
  have offset :
      ((cells.join junction).take (ofWidths widths).second).drop ((ofWidths widths).first + 1) =
        cells.offset := by
    have shape :
        cells.join junction =
          [' '] ++ cells.name ++ [junction] ++ cells.offset ++
            ([junction] ++ cells.size ++ [' ']) := by
      simp [TableRow.join]
    rw [shape]
    apply drop_take_append
    · simp [ofWidths, fill.name]
    · simp only [ofWidths, List.length_append, List.length_singleton, fill.name, fill.offset]
      omega
  have size :
      ((cells.join junction).take (ofWidths widths).last).drop ((ofWidths widths).second + 1) =
        cells.size := by
    rw [TableRow.join]
    apply drop_take_append
    · simp only [ofWidths, List.length_append, List.length_singleton, fill.name, fill.offset]
      omega
    · simp only [ofWidths, List.length_append, List.length_singleton, fill.name, fill.offset,
        fill.size]
      omega
  rw [cut, name, offset, size]

end Columns

/-! ## The cells of a line -/

namespace TableRow

def padded (widths : TableRow Nat) (row : TableRow (List Char)) : TableRow (List Char) where
  name := [' '] ++ padRight ' ' widths.name row.name ++ [' ']
  offset := [' '] ++ padLeft ' ' widths.offset row.offset ++ [' ']
  size := [' '] ++ padLeft ' ' widths.size row.size ++ [' ']

def ruled (widths : TableRow Nat) : TableRow (List Char) where
  name := List.replicate (widths.name + 2) '─'
  offset := List.replicate (widths.offset + 2) '─'
  size := List.replicate (widths.size + 2) '─'

theorem line_eq_join (widths : TableRow Nat) (row : TableRow (List Char)) :
    line widths row = (padded widths row).join '│' := by
  simp [line, join, padded]

theorem rule_eq_join (junction : Char) (widths : TableRow Nat) :
    rule junction widths = (ruled widths).join junction := by
  simp [rule, join, ruled]

structure Fits (row : TableRow (List Char)) (widths : TableRow Nat) : Prop where
  name : row.name.length ≤ widths.name
  offset : row.offset.length ≤ widths.offset
  size : row.size.length ≤ widths.size

theorem fits_widths {rows : List (TableRow (List Char))} {row : TableRow (List Char)}
    (member : row ∈ rows) : row.Fits (widths rows) := by
  induction rows with
  | nil => cases member
  | cons first rest inductionHypothesis =>
      rcases List.mem_cons.mp member with isFirst | inRest
      · subst isFirst
        exact ⟨Nat.le_max_left .., Nat.le_max_left .., Nat.le_max_left ..⟩
      · have fits := inductionHypothesis inRest
        exact
          ⟨Nat.le_trans fits.name (Nat.le_max_right ..),
            Nat.le_trans fits.offset (Nat.le_max_right ..),
            Nat.le_trans fits.size (Nat.le_max_right ..)⟩

def Printable (row : TableRow (List Char)) : Prop :=
  ∀ character ∈ row.name ++ row.offset ++ row.size, isPrintable character = true

theorem printable_titles : titles.Printable :=
  List.all_eq_true.mp (by decide)

variable {widths : TableRow Nat} {row : TableRow (List Char)}

/-- A printable character neither looks like a junction nor ends a line. -/
theorem plain_of_printable {character : Char} (printable : isPrintable character = true) :
    isJunction character = false ∧ character ≠ '\n' := by
  have differs (other : Char) (unprintable : isPrintable other = false) : character ≠ other := by
    intro same
    rw [same, unprintable] at printable
    cases printable
  simp [isJunction, differs '│' rfl, differs '┼' rfl, differs '┴' rfl, differs '\n' rfl]

theorem fill_padded (fits : row.Fits widths) (printable : row.Printable) :
    (padded widths row).Fill widths where
  name := by
    simp [padded, length_padRight fits.name]
  offset := by
    simp [padded, length_padLeft fits.offset]
  size := by
    simp [padded, length_padLeft fits.size]
  plain := by
    intro character member
    apply plain_of_printable
    have isBlankOrCell :
        character = ' ' ∨ character ∈ row.name ++ row.offset ++ row.size := by
      simp only [padded, padLeft, padRight, List.mem_append, List.mem_singleton,
        List.mem_replicate] at member ⊢
      tauto
    rcases isBlankOrCell with isBlank | isCell
    · subst isBlank
      decide
    · exact printable character isCell

theorem fill_ruled (widths : TableRow Nat) : (ruled widths).Fill widths where
  name := List.length_replicate
  offset := List.length_replicate
  size := List.length_replicate
  plain := by
    intro character member
    have isDash : character = '─' := by
      simp only [ruled, List.mem_append, List.mem_replicate] at member
      tauto
    subst isDash
    decide

/-- Padding can be told from a cell that does not begin or end in a blank on the padded side. -/
theorem trim_padded (name : row.name.getLast? ≠ some ' ') (offset : row.offset.head? ≠ some ' ')
    (size : row.size.head? ≠ some ' ') : (padded widths row).trim = row := by
  have nameTrimmed : trimRight ((padded widths row).name.drop 1) = row.name := by
    have shape :
        (padded widths row).name.drop 1 =
          row.name ++ List.replicate (widths.name - row.name.length + 1) ' ' := by
      simp [padded, padRight, List.replicate_succ']
    rw [shape, trimRight_append_replicate name]
  have numberTrimmed {number : List Char} (noBlank : number.head? ≠ some ' ') (width : Nat) :
      trimLeft ([' '] ++ padLeft ' ' width number ++ [' ']).dropLast = number := by
    have shape :
        ([' '] ++ padLeft ' ' width number ++ [' ']).dropLast =
          List.replicate (width - number.length + 1) ' ' ++ number := by
      rw [List.dropLast_concat]
      simp [padLeft, List.replicate_succ]
    rw [shape, trimLeft_replicate_append noBlank]
  rw [trim, nameTrimmed]
  exact congrArg₂ (TableRow.mk row.name) (numberTrimmed offset _) (numberTrimmed size _)

/-- Whether a line consists of cells that fill the columns. -/
def Joined (widths : TableRow Nat) (line : List Char) : Prop :=
  ∃ junction cells,
    isJunction junction = true ∧ Fill cells widths ∧ line = join junction cells

theorem joined_line (fits : row.Fits widths) (printable : row.Printable) :
    Joined widths (line widths row) :=
  ⟨'│', padded widths row, rfl, fill_padded fits printable, line_eq_join widths row⟩

theorem joined_rule {junction : Char} (divides : isJunction junction = true)
    (widths : TableRow Nat) : Joined widths (rule junction widths) :=
  ⟨junction, ruled widths, divides, fill_ruled widths, rule_eq_join junction widths⟩

theorem Joined.divide {line : List Char} (joined : Joined widths line) :
    (Columns.ofWidths widths).Divide line := by
  obtain ⟨junction, cells, divides, fill, isJoin⟩ := joined
  rw [isJoin]
  exact Columns.divide_join fill divides

theorem Joined.noBreak {line : List Char} (joined : Joined widths line) : '\n' ∉ line := by
  obtain ⟨junction, cells, divides, fill, isJoin⟩ := joined
  intro member
  have isJunctionOrCell :
      '\n' = junction ∨ '\n' ∈ cells.name ++ cells.offset ++ cells.size := by
    have notBlank : '\n' ≠ ' ' := by decide
    simp only [isJoin, join, List.mem_append, List.mem_singleton] at member ⊢
    tauto
  rcases isJunctionOrCell with isJunction | isCell
  · rw [← isJunction] at divides
    exact absurd divides (by decide)
  · exact (fill.plain _ isCell).2 rfl

end TableRow

/-! ## What a line shows -/

theorem printable_of_digitValue_lt {digit : Char} (small : digitValue digit < 16) :
    isPrintable digit = true := by
  have each : ∀ digit ∈ digits, isPrintable digit = true := List.all_eq_true.mp (by decide)
  exact each digit (List.idxOf_lt_length_iff.mp small)

theorem IsNumeral.printable {base width number : Nat} {numeral : List Char} (atMost : base ≤ 16)
    (isNumeral : IsNumeral base width numeral number) :
    ∀ digit ∈ numeral, isPrintable digit = true :=
  fun digit member =>
    printable_of_digitValue_lt (Nat.lt_of_lt_of_le (isNumeral.digits digit member) atMost)

theorem IsNumeral.head?_ne_blank {base width number : Nat} {numeral : List Char}
    (atMost : base ≤ 16) (isNumeral : IsNumeral base width numeral number) :
    numeral.head? ≠ some ' ' := by
  intro isBlank
  have small := isNumeral.digits ' ' (List.mem_of_mem_head? isBlank)
  have large : digitValue ' ' = 16 := rfl
  omega

namespace LayoutEntry

variable {entry : LayoutEntry}

theorem shows_cells (entry : LayoutEntry) : entry.cells.Shows entry where
  name := rfl
  offset := ⟨_, rfl, isNumeral_hex entry.offset⟩
  size := isNumeral_decimal entry.size

theorem printable_cells (plain : entry.Plain) : entry.cells.Printable := by
  have prefixPrintable : ∀ character ∈ ['0', 'x'], isPrintable character = true :=
    List.all_eq_true.mp (by decide)
  have offset := (isNumeral_hex entry.offset).printable (by omega)
  have size := (isNumeral_decimal entry.size).printable (by omega)
  rw [TableRow.Printable, List.forall_mem_append, List.forall_mem_append]
  exact ⟨⟨plain.printable, List.forall_mem_append.mpr ⟨prefixPrintable, offset⟩⟩, size⟩

/-- The cells of a line come back when their padding is removed. -/
theorem trim_padded_cells (plain : entry.Plain) (widths : TableRow Nat) :
    (TableRow.padded widths entry.cells).trim = entry.cells := by
  apply TableRow.trim_padded
  · exact plain.noBlank
  · simp [cells, hexOffset]
  · exact (isNumeral_decimal entry.size).head?_ne_blank (by omega)

end LayoutEntry

/-! ## The whole text -/

theorem splitOn_lines {lines : List (List Char)} {last : List Char}
    (noBreaks : ∀ line ∈ lines, '\n' ∉ line) (noBreak : '\n' ∉ last) :
    (lines.flatMap (· ++ ['\n']) ++ last).splitOn '\n' = lines ++ [last] := by
  induction lines with
  | nil => exact List.splitOn_eq_singleton noBreak
  | cons first rest inductionHypothesis =>
      rw [List.forall_mem_cons] at noBreaks
      obtain ⟨noBreakInFirst, noBreaksInRest⟩ := noBreaks
      have shape :
          (first :: rest).flatMap (· ++ ['\n']) ++ last =
            first ++ '\n' :: (rest.flatMap (· ++ ['\n']) ++ last) := by
        simp
      rw [shape, List.splitOn_append_cons_self_of_not_mem noBreakInFirst,
        inductionHypothesis noBreaksInRest, List.cons_append]

namespace Layout

def view (layout : Layout) : TableView where
  columns := Columns.ofWidths layout.columnWidths
  titles := TableRow.line layout.columnWidths TableRow.titles
  top := TableRow.rule '┼' layout.columnWidths
  data := layout.rows.map (TableRow.line layout.columnWidths)
  bottom := TableRow.rule '┴' layout.columnWidths
  total := decimal layout.total

variable {layout : Layout}

theorem printable_of_mem_rows (plain : ∀ entry ∈ layout.sections, entry.Plain)
    {row : TableRow (List Char)} (member : row ∈ layout.rows) : row.Printable := by
  obtain ⟨entry, isSection, isRow⟩ := List.mem_map.mp member
  rw [← isRow]
  exact LayoutEntry.printable_cells (plain entry (Array.mem_toList_iff.mp isSection))

/-- All lines of a table have their junctions at the same places. -/
theorem joined_of_mem_lines (plain : ∀ entry ∈ layout.sections, entry.Plain) :
    ∀ line ∈ layout.view.lines, TableRow.Joined layout.columnWidths line := by
  have titles : TableRow.Joined layout.columnWidths layout.view.titles :=
    TableRow.joined_line (TableRow.fits_widths List.mem_cons_self) TableRow.printable_titles
  have top : TableRow.Joined layout.columnWidths layout.view.top :=
    TableRow.joined_rule rfl layout.columnWidths
  have data : ∀ line ∈ layout.view.data, TableRow.Joined layout.columnWidths line := by
    intro line member
    obtain ⟨row, isRow, isLine⟩ := List.mem_map.mp member
    rw [← isLine]
    exact
      TableRow.joined_line (TableRow.fits_widths (List.mem_cons_of_mem _ isRow))
        (printable_of_mem_rows plain isRow)
  have bottom : TableRow.Joined layout.columnWidths layout.view.bottom :=
    TableRow.joined_rule rfl layout.columnWidths
  rw [TableView.lines, List.forall_mem_append, List.forall_mem_append, List.forall_mem_cons,
    List.forall_mem_singleton, List.forall_mem_singleton]
  exact ⟨⟨⟨titles, top⟩, data⟩, bottom⟩

theorem noBreak_totalLine (layout : Layout) : '\n' ∉ layout.totalLine := by
  have label : '\n' ∉ "Total: ".toList := by
    decide
  have number : '\n' ∉ decimal layout.total := by
    intro member
    have printable := (isNumeral_decimal layout.total).printable (by omega) _ member
    exact absurd printable (by decide)
  have unit : '\n' ∉ " bytes".toList := by
    decide
  intro member
  rcases List.mem_append.mp member with inFront | inUnit
  · rcases List.mem_append.mp inFront with inLabel | inNumber
    · exact label inLabel
    · exact number inNumber
  · exact unit inUnit

/-- The printed text has one line for the titles, one for each section and two that separate, and
the total in the last line. -/
theorem splitOn_text (plain : ∀ entry ∈ layout.sections, entry.Plain) :
    layout.text.toList.splitOn '\n' = layout.view.lines ++ [layout.totalLine] := by
  rw [text, String.toList_ofList]
  exact
    splitOn_lines (fun line member => (joined_of_mem_lines plain line member).noBreak)
      layout.noBreak_totalLine

theorem length_view_lines (layout : Layout) :
    layout.view.lines.length = layout.sections.size + 3 := by
  simp [TableView.lines, view, rows]

theorem shows_cut_line (plain : ∀ entry ∈ layout.sections, entry.Plain) {entry : LayoutEntry}
    (member : entry ∈ layout.sections.toList) :
    (layout.view.columns.cut
      (TableRow.line layout.columnWidths entry.cells)).trim.Shows entry := by
  have isRow : entry.cells ∈ layout.rows := List.mem_map_of_mem member
  have isPlain := plain entry (Array.mem_toList_iff.mp member)
  have fill :=
    TableRow.fill_padded (TableRow.fits_widths (List.mem_cons_of_mem TableRow.titles isRow))
      (LayoutEntry.printable_cells isPlain)
  rw [TableRow.line_eq_join]
  change ((Columns.ofWidths layout.columnWidths).cut _).trim.Shows entry
  rw [columnWidths, Columns.cut_join fill, LayoutEntry.trim_padded_cells isPlain]
  exact entry.shows_cells

/-- The printed text is a table that says what the layout says. -/
theorem shows_view (plain : ∀ entry ∈ layout.sections, entry.Plain) :
    layout.view.Shows layout.text.toList layout where
  lines := splitOn_text plain
  divided line member := (joined_of_mem_lines plain line member).divide
  data := by
    rw [view, rows, List.map_map, List.forall₂_map_left_iff, List.forall₂_same]
    intro entry member
    exact shows_cut_line plain member
  total := isNumeral_decimal layout.total

end Layout

/-! ## One text, one layout -/

theorem TableRow.Shows.unique {row : TableRow (List Char)} {entry other : LayoutEntry}
    (shows : row.Shows entry) (showsOther : row.Shows other) : entry = other := by
  have name : entry.name = other.name :=
    String.toList_inj.mp (shows.name.symm.trans showsOther.name)
  have offset : entry.offset = other.offset := by
    obtain ⟨numeral, isNumeral, stands⟩ := shows.offset
    obtain ⟨otherNumeral, isOther, otherStands⟩ := showsOther.offset
    have same : numeral = otherNumeral :=
      List.append_cancel_left (isNumeral.symm.trans isOther)
    subst same
    exact stands.unique otherStands
  have size : entry.size = other.size := shows.size.unique showsOther.size
  cases entry
  cases other
  simp_all

theorem Columns.Divide.unique {columns other : Columns} {line : List Char}
    (divide : columns.Divide line) (divideOther : other.Divide line) : columns = other := by
  have last : columns.last = other.last :=
    Nat.add_right_cancel (divide.length.symm.trans divideOther.length)
  have junctions : [columns.first, columns.second] = [other.first, other.second] :=
    divide.junctions.symm.trans divideOther.junctions
  cases columns
  cases other
  simp_all

namespace TableView

variable {view other : TableView} {text : List Char} {layout otherLayout : Layout}

/-- A text is divided into the parts of a table in at most one way. -/
theorem Shows.view_unique (shows : view.Shows text layout)
    (showsOther : other.Shows text otherLayout) : view = other := by
  have lines :
      view.lines ++ ["Total: ".toList ++ view.total ++ " bytes".toList] =
        other.lines ++ ["Total: ".toList ++ other.total ++ " bytes".toList] :=
    shows.lines.symm.trans showsOther.lines
  obtain ⟨tableLines, totalLines⟩ := List.append_inj' lines rfl
  have total : view.total = other.total :=
    List.append_cancel_left (List.append_cancel_right (List.singleton_injective totalLines))
  obtain ⟨front, bottomLines⟩ := List.append_inj' tableLines rfl
  obtain ⟨heading, data⟩ := List.append_inj front rfl
  have titles : view.titles = other.titles := List.head_eq_of_cons_eq heading
  have columns : view.columns = other.columns := by
    have divide := shows.divided view.titles List.mem_cons_self
    have divideOther := showsOther.divided other.titles List.mem_cons_self
    rw [titles] at divide
    exact divide.unique divideOther
  cases view
  cases other
  simp_all

/-- A text that is a table is the table of one layout only. -/
theorem Shows.unique (shows : view.Shows text layout) (showsOther : other.Shows text otherLayout) :
    layout = otherLayout := by
  have view := shows.view_unique showsOther
  subst view
  have rightUnique :
      Relator.RightUnique fun line entry => (view.columns.cut line).trim.Shows entry :=
    fun _ _ _ => TableRow.Shows.unique
  have sections : layout.sections.toList = otherLayout.sections.toList :=
    List.right_unique_forall₂' rightUnique shows.data showsOther.data
  have total : layout.total = otherLayout.total := shows.total.unique showsOther.total
  cases layout
  cases otherLayout
  simp_all

end TableView

/-- The text of a layout is a table with one line a section, and says what the layout says; no other
layout has this text. -/
theorem Layout.text_shows (layout : Layout) (plain : ∀ entry ∈ layout.sections, entry.Plain) :
    (∃ view : TableView,
      view.lines.length = layout.sections.size + 3 ∧ view.Shows layout.text.toList layout) ∧
      ∀ other : Layout,
        (∀ entry ∈ other.sections, entry.Plain) → other.text = layout.text → other = layout := by
  refine ⟨⟨layout.view, layout.length_view_lines, shows_view plain⟩, ?_⟩
  intro other otherPlain sameText
  have showsOther := shows_view otherPlain
  rw [sameText] at showsOther
  exact showsOther.unique (shows_view plain)

example :
    (⟨#[⟨"type", 8, 5⟩, ⟨"end", 22, 0⟩], 30⟩ : Layout).tableLines.map String.ofList =
      ["  Section │ Offset │ Size  ",
       " ─────────┼────────┼────── ",
       "  type    │ 0x0008 │    5  ",
       "  end     │ 0x0016 │    0  ",
       " ─────────┴────────┴────── "] := by
  decide +kernel

/-- A layout with a section that holds something and one that is empty. -/
def Layout.typeAndEnd : Layout where
  sections := #[⟨"type", 8, 5⟩, ⟨"end", 22, 0⟩]
  total := 30

theorem Layout.text_shows_typeAndEnd :
    (∀ entry ∈ typeAndEnd.sections, entry.Plain) ∧
      (∃ view : TableView,
        view.lines.length = 5 ∧ view.Shows typeAndEnd.text.toList typeAndEnd) ∧
      ∀ other : Layout,
        (∀ entry ∈ other.sections, entry.Plain) → other.text = typeAndEnd.text →
          other = typeAndEnd := by
  have plain : ∀ entry ∈ typeAndEnd.sections, entry.Plain := by
    intro entry member
    simp only [typeAndEnd, List.mem_toArray, List.mem_cons, List.not_mem_nil, or_false] at member
    rcases member with isType | isEnd
    · subst isType
      exact ⟨List.all_eq_true.mp (by decide), by decide⟩
    · subst isEnd
      exact ⟨List.all_eq_true.mp (by decide), by decide⟩
  exact ⟨plain, Layout.text_shows typeAndEnd plain⟩

end WasmBinary
