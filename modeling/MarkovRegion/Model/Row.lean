import MarkovRegion.Weight

/-!
# Sparse rows

A row lists columns with their weights.  A row in canonical form has strictly increasing columns and
no weight zero.  There are two ways to it from a list of entries in any order:

* `Row.normalize` sorts the entries, adds those of one column and drops the zeros;
* `Row.ofEntries` inserts the entries one after the other with `Row.addAt`, which keeps the
  canonical form.

Both add the weights given for one column from left to right.
-/

namespace MarkovRegion

/-- A sparse row, as columns with their weights. -/
abbrev Row (W : Type) := List (Nat × W)

namespace Row

variable {W : Type} [Weight W]

/-- The weight at a column, if one is stored. -/
def get? {W : Type} (row : Row W) (column : Nat) : Option W := row.lookup column

/-- The row without its entry at a column. -/
def erase {W : Type} (row : Row W) (column : Nat) : Row W := row.filter fun e => e.1 != column

/-- The columns of a row. -/
def columns {W : Type} (row : Row W) : List Nat := row.map Prod.fst

/-- Whether no weight of the row has a parameter. -/
def isConstant (row : Row W) : Bool := row.all fun e => Weight.isConstant e.2

/-- Add a weight at a column of a canonical row; an entry that cancels is removed. -/
def addAt (column : Nat) (weight : W) : Row W → Row W
  | [] => if Weight.isZero weight then [] else [(column, weight)]
  | (c, w) :: rest =>
    if column < c then
      if Weight.isZero weight then (c, w) :: rest else (column, weight) :: (c, w) :: rest
    else if column = c then
      if Weight.isZero (Weight.add w weight) then rest else (c, Weight.add w weight) :: rest
    else (c, w) :: addAt column weight rest

/-- Add all entries to a canonical row, from left to right. -/
def addEntries (row : Row W) (entries : Row W) : Row W :=
  entries.foldl (fun row e => addAt e.1 e.2 row) row

/-- The canonical row of a list of entries, by insertion. -/
def ofEntries (entries : Row W) : Row W := addEntries [] entries

/-- Add up the neighbours that follow an entry in the same column. -/
def collapseFrom (column : Nat) (weight : W) : Row W → Row W
  | [] => [(column, weight)]
  | (c, w) :: rest =>
    if c = column then collapseFrom column (Weight.add weight w) rest
    else (column, weight) :: collapseFrom c w rest

/-- Add up neighbours in the same column. -/
def collapse : Row W → Row W
  | [] => []
  | (c, w) :: rest => collapseFrom c w rest

/-- The canonical row of a list of entries, by sorting. -/
def normalize (entries : Row W) : Row W :=
  (collapse (entries.mergeSort fun a b => a.1 ≤ b.1)).filter fun e => !Weight.isZero e.2

end Row

end MarkovRegion
