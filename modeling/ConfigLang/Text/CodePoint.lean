/-!
# Sets and maps of code points

The tables of character properties are lists of closed intervals; the case tables are lists of
runs that move by one distance.
-/

namespace ConfigLang.Text

/-- Whether the code point of `c` lies in one of the closed intervals of `table`. -/
def inRanges (table : List (Nat × Nat)) (c : Char) : Bool :=
  table.any fun range => range.1 ≤ c.toNat && c.toNat ≤ range.2

/-- Every `step`-th code point from `first` to `last` moves by `distance`. -/
structure Shift where
  first : Nat
  last : Nat
  step : Nat
  distance : Int

/-- Whether the run moves the code point `n`. -/
def Shift.covers (run : Shift) (n : Nat) : Bool :=
  run.first ≤ n && n ≤ run.last && (n - run.first) % run.step == 0

/-- The character that `runs` moves `c` to, and `c` itself when no run covers it. -/
def shift (runs : List Shift) (c : Char) : Char :=
  match runs.find? (·.covers c.toNat) with
  | some run => Char.ofNat (c.toNat + run.distance).toNat
  | none => c

end ConfigLang.Text
