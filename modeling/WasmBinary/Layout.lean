/-!
A layout as a table with one line a section, a line in the box style below the titles and one below
the last section, and the length of the module behind the table.

The lines are drawn by a table printer that is not part of this program. The program hands it the
titles and the cells, says which columns stand to the right, and chooses the separators and the
padding. That the printer then behaves as `TableRow.widths`, `TableRow.line` and `TableRow.rule` say
is an assumption about it: a column is as wide as its widest cell, a cell has one blank on either
side, the borders are blanks, a separating line repeats its character and has a junction where
columns meet, and no style codes are printed.
-/

namespace WasmBinary

/-! ## Places of sections -/

structure LayoutEntry where
  name : String
  /-- The position of the size field of the section. -/
  offset : Nat
  /-- The length of the payload: neither the size field nor the name counts. -/
  size : Nat
  deriving DecidableEq, Repr, Inhabited

/-- The places of all sections, in the order of the output. -/
structure Layout where
  sections : Array LayoutEntry := #[]
  total : Nat := 0
  deriving DecidableEq, Repr, Inhabited

namespace Layout

def push (layout : Layout) (entry : LayoutEntry) : Layout :=
  { layout with sections := layout.sections.push entry }

def withTotal (layout : Layout) (total : Nat) : Layout :=
  { layout with total }

def find? (layout : Layout) (name : String) : Option LayoutEntry :=
  layout.sections.find? (·.name == name)

end Layout

/-! ## The table -/

structure TableRow (α : Type) where
  name : α
  offset : α
  size : α
  deriving DecidableEq, Repr

def padLeft (fill : Char) (width : Nat) (text : List Char) : List Char :=
  List.replicate (width - text.length) fill ++ text

def padRight (fill : Char) (width : Nat) (text : List Char) : List Char :=
  text ++ List.replicate (width - text.length) fill

def decimal (value : Nat) : List Char :=
  Nat.toDigits 10 value

/-- A position as the table shows it: hexadecimal, with four digits or more. -/
def hexOffset (offset : Nat) : List Char :=
  ['0', 'x'] ++ padLeft '0' 4 (Nat.toDigits 16 offset)

def LayoutEntry.cells (entry : LayoutEntry) : TableRow (List Char) where
  name := entry.name.toList
  offset := hexOffset entry.offset
  size := decimal entry.size

namespace TableRow

def titles : TableRow (List Char) where
  name := "Section".toList
  offset := "Offset".toList
  size := "Size".toList

/-- The width of each column: that of its widest cell. -/
def widths (rows : List (TableRow (List Char))) : TableRow Nat :=
  rows.foldr
    (fun row widest =>
      { name := max row.name.length widest.name
        offset := max row.offset.length widest.offset
        size := max row.size.length widest.size })
    { name := 0, offset := 0, size := 0 }

/-- A line of cells: names to the left, numbers to the right. -/
def line (widths : TableRow Nat) (row : TableRow (List Char)) : List Char :=
  [' ', ' '] ++ padRight ' ' widths.name row.name ++
    [' ', '│', ' '] ++ padLeft ' ' widths.offset row.offset ++
    [' ', '│', ' '] ++ padLeft ' ' widths.size row.size ++ [' ', ' ']

/-- A separating line, with the given character where it meets a column separator. -/
def rule (junction : Char) (widths : TableRow Nat) : List Char :=
  [' '] ++ List.replicate (widths.name + 2) '─' ++
    [junction] ++ List.replicate (widths.offset + 2) '─' ++
    [junction] ++ List.replicate (widths.size + 2) '─' ++ [' ']

end TableRow

namespace Layout

def rows (layout : Layout) : List (TableRow (List Char)) :=
  layout.sections.toList.map LayoutEntry.cells

def columnWidths (layout : Layout) : TableRow Nat :=
  TableRow.widths (TableRow.titles :: layout.rows)

def tableLines (layout : Layout) : List (List Char) :=
  let widths := layout.columnWidths
  [TableRow.line widths TableRow.titles, TableRow.rule '┼' widths] ++
    layout.rows.map (TableRow.line widths) ++
    [TableRow.rule '┴' widths]

def totalLine (layout : Layout) : List Char :=
  "Total: ".toList ++ decimal layout.total ++ " bytes".toList

def text (layout : Layout) : String :=
  String.ofList (layout.tableLines.flatMap (· ++ ['\n']) ++ layout.totalLine)

end Layout

end WasmBinary
