import Mathlib

/-! # Two columns of numbers

A file of comma-separated values with a line of two names and a line for each pair of numbers, as a
program writes it and as Python's `csv.DictReader` and `int` read it. What is written is what is read
(`readCsv_text`). No field has a comma, a quote or a line break, so nothing is quoted.
-/
namespace ItchIngestion.Library
set_option autoImplicit false

/-- The contents of a file. -/
abbrev Text := List Char

/-- Two column names that can be told apart. -/
structure Columns where
  first : Text
  second : Text
  ne : first ≠ second
  comma : ',' ∉ first ++ second
  newline : '\n' ∉ first ++ second

namespace Columns
variable (cols : Columns)

def header : Text := cols.first ++ ',' :: cols.second

end Columns

/-! ## Writing -/

def csvLine (row : ℕ × ℕ) : Text := Nat.toDigits 10 row.1 ++ ',' :: Nat.toDigits 10 row.2

/-- A file of two columns. -/
def csvText (cols : Columns) (rows : List (ℕ × ℕ)) : Text :=
  cols.header ++ ['\n'] ++ rows.flatMap fun row => csvLine row ++ ['\n']

/-! ## Reading -/

/-- `int` of digits. -/
def parseInt (t : Text) : Option ℕ :=
  if t ≠ [] ∧ t.all Char.isDigit then some (Nat.ofDigitChars 10 t 0) else none

/-- `row[name]`, where `row` is a `dict` of the names and the fields. -/
def rowField (names row : List Text) (name : Text) : Option Text :=
  (names.zip row).reverse.lookup name

/-- The two numbers of a row, by the names of their columns. -/
def readRow (cols : Columns) (names row : List Text) : Option (ℕ × ℕ) := do
  let x ← parseInt (← rowField names row cols.first)
  let y ← parseInt (← rowField names row cols.second)
  return (x, y)

/-- The first line has the names, and empty lines are skipped. -/
def readCsv (cols : Columns) (file : Text) : Option (List (ℕ × ℕ)) :=
  match file.splitOn '\n' with
  | [] => none
  | names :: lines => ((lines.filter fun l => l ≠ []).map fun l => l.splitOn ',').mapM
      (readRow cols (names.splitOn ','))

/-! ## Numbers -/

theorem parseInt_toDigits (n : ℕ) : parseInt (Nat.toDigits 10 n) = some n := by
  have hall : (Nat.toDigits 10 n).all Char.isDigit = true :=
    List.all_eq_true.mpr fun c hc => Nat.isDigit_of_mem_toDigits (by decide) (by decide) hc
  rw [parseInt, if_pos ⟨Nat.toDigits_ne_nil, hall⟩, Nat.ofDigitChars_ten_toDigits]

theorem notMem_toDigits {c : Char} (hc : c.isDigit = false) (n : ℕ) : c ∉ Nat.toDigits 10 n := by
  intro hmem
  rw [Nat.isDigit_of_mem_toDigits (by decide) (by decide) hmem] at hc
  cases hc

/-! ## Lines -/

theorem splitOn_csvLine (row : ℕ × ℕ) :
    (csvLine row).splitOn ',' = [Nat.toDigits 10 row.1, Nat.toDigits 10 row.2] := by
  rw [csvLine, List.splitOn_append_cons_self_of_not_mem (notMem_toDigits rfl _),
    List.splitOn_eq_singleton (notMem_toDigits rfl _)]

theorem newline_notMem_csvLine (row : ℕ × ℕ) : '\n' ∉ csvLine row := by
  rw [csvLine, List.mem_append, List.mem_cons]
  rintro (h | h | h)
  · exact notMem_toDigits rfl _ h
  · cases h
  · exact notMem_toDigits rfl _ h

theorem csvLine_ne_nil (row : ℕ × ℕ) : csvLine row ≠ [] := by
  simp [csvLine]

section Columns
variable (cols : Columns)

theorem splitOn_header : cols.header.splitOn ',' = [cols.first, cols.second] := by
  have hfirst : ',' ∉ cols.first := fun h => cols.comma (List.mem_append_left _ h)
  have hsecond : ',' ∉ cols.second := fun h => cols.comma (List.mem_append_right _ h)
  rw [Columns.header, List.splitOn_append_cons_self_of_not_mem hfirst,
    List.splitOn_eq_singleton hsecond]

theorem newline_notMem_header : '\n' ∉ cols.header := by
  simpa [Columns.header] using cols.newline

theorem readRow_csvLine (row : ℕ × ℕ) :
    readRow cols (cols.header.splitOn ',') ((csvLine row).splitOn ',') = some row := by
  have hfirst : ∀ x y : Text, rowField [cols.first, cols.second] [x, y] cols.first = some x := by
    intro x y
    have hne : (cols.first == cols.second) = false := beq_eq_false_iff_ne.mpr cols.ne
    simp [rowField, List.lookup_cons, hne]
  have hsecond : ∀ x y : Text, rowField [cols.first, cols.second] [x, y] cols.second = some y := by
    intro x y
    simp [rowField]
  simp [splitOn_header, splitOn_csvLine, readRow, hfirst, hsecond, parseInt_toDigits]

theorem mapM_readRow (rows : List (ℕ × ℕ)) : ((rows.map csvLine).map fun l => l.splitOn ',').mapM
    (readRow cols (cols.header.splitOn ',')) = some rows := by
  induction rows with
  | nil => rfl
  | cons row rows ih =>
    rw [List.map_cons, List.map_cons, List.mapM_cons, readRow_csvLine, ih]
    rfl

end Columns

theorem splitOn_csvLines (rows : List (ℕ × ℕ)) :
    (rows.flatMap fun row => csvLine row ++ ['\n']).splitOn '\n' = rows.map csvLine ++ [[]] := by
  induction rows with
  | nil => rfl
  | cons row rows ih =>
    rw [List.flatMap_cons, List.append_assoc, List.singleton_append,
      List.splitOn_append_cons_self_of_not_mem (newline_notMem_csvLine row), ih]
    rfl

/-- **Rows written are the rows read.** -/
theorem readCsv_text (cols : Columns) (rows : List (ℕ × ℕ)) :
    readCsv cols (csvText cols rows) = some rows := by
  have hsplit : (csvText cols rows).splitOn '\n' = cols.header :: (rows.map csvLine ++ [[]]) := by
    rw [csvText, List.append_assoc, List.singleton_append,
      List.splitOn_append_cons_self_of_not_mem (newline_notMem_header cols), splitOn_csvLines]
  have hfilter : (rows.map csvLine ++ [[]]).filter (fun l => l ≠ []) = rows.map csvLine := by
    rw [List.filter_append, List.filter_eq_self.mpr]
    · simp
    · intro l hl
      obtain ⟨row, -, rfl⟩ := List.mem_map.mp hl
      exact decide_eq_true (csvLine_ne_nil row)
  rw [readCsv, hsplit]
  dsimp only
  rw [hfilter, mapM_readRow]

end ItchIngestion.Library
