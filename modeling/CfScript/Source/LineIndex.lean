import CfScript.Source.Span
import CfScript.Text.Lines

/-!
# Line numbers

A line index holds the offset at which each line of a source starts: 0, and the offset after every
line feed. Lines count from 1. The line of an offset is found by binary search: an offset at which a
line starts is on that line, and another one is on the line before the place where it would stand.

Line numbers have 32 bits and wrap around: behind the largest of them comes 0, which is no line.

## Main results

* `length_startsFrom`: a text has one line start after each of its line feeds;
* `count_ofText`: a source has one line more than it has line feeds.
-/

namespace CfScript

/-- The number of a line. -/
abbrev LineNumber := UInt32

/-- A count of lines as a line number, in 32 bits. -/
instance : Coe Nat LineNumber := ⟨UInt32.ofNat⟩

/-- What a line number counts. -/
instance : Coe LineNumber Nat := ⟨UInt32.toNat⟩

/-- Counts of lines as line numbers, each in 32 bits. -/
instance : Coe (List Nat) (List LineNumber) := ⟨List.map UInt32.ofNat⟩

/-- Where a binary search ends. -/
inductive Bisection where
  /-- The number that was looked for stands at the index. -/
  | found (i : Nat)
  /-- The number stands nowhere, and would have to stand at the index. -/
  | absent (i : Nat)
deriving DecidableEq

namespace Bisection

/-- The last of the `size` indices from `base` on at which no larger number than `x` stands, or `base`
if larger numbers stand at all of them. -/
def narrow (xs : Array Nat) (x base size : Nat) (hPos : 0 < size) (hFits : base + size ≤ xs.size) :
    Fin xs.size :=
  if size = 1 then ⟨base, by omega⟩
  else if x < xs[base + size / 2] then narrow xs x base (size - size / 2) (by omega) (by omega)
  else narrow xs x (base + size / 2) (size - size / 2) (by omega) (by omega)
termination_by size

/-- What the number at the last index that is left says about `x`. -/
def landing (xs : Array Nat) (x : Nat) (i : Fin xs.size) : Bisection :=
  if xs[i] = x then found i else if xs[i] < x then absent (i + 1) else absent i

/-- Looks for `x` among numbers that stand in order. -/
def search (xs : Array Nat) (x : Nat) : Bisection :=
  if h : 0 < xs.size then landing xs x (narrow xs x 0 xs.size h (by omega)) else absent 0

/-- The line of an offset for which a search among the line starts ends here. -/
def line : Bisection → LineNumber
  | found i => UInt32.ofNat i + 1
  | absent i => UInt32.ofNat i

end Bisection

/-- Where the lines of a source start. -/
structure LineIndex where
  /-- The offset of the first byte of each line, in order. -/
  starts : Array Nat
  /-- The number of bytes of the source. -/
  size : Nat

namespace LineIndex

/-- The offsets after the line feeds of the characters, the first of which stands at `offset`. -/
def startsFrom (offset : Nat) : List Char → List Nat
  | [] => []
  | c :: cs =>
    let next := offset + c.utf8Size
    if c = '\n' then next :: startsFrom next cs else startsFrom next cs

/-- The line index of a source. -/
def ofText (source : String) : LineIndex :=
  ⟨(0 :: startsFrom 0 source.toList).toArray, Text.byteLength source.toList⟩

/-- The number of lines. -/
def count (index : LineIndex) : Nat := index.starts.size

/-- The line at an offset; an offset past the end is on the last line. -/
def line (index : LineIndex) (offset : Nat) : LineNumber :=
  (Bisection.search index.starts (min offset index.size)).line

/-- The offset at which a line starts. -/
def lineStart (index : LineIndex) (k : LineNumber) : Option Nat :=
  if k = 0 then none else index.starts[k.toNat - 1]?

/-- The text of a line without the line breaks at its end. -/
def lineText (index : LineIndex) (source : String) (k : LineNumber) : Option String := do
  let start ← index.lineStart k
  let stop := (index.lineStart (k + 1)).getD (Text.byteLength source.toList)
  let chars ← Text.sliceBytes start stop source.toList
  return String.ofList (Text.trimEndBy Text.isLineBreak chars)

theorem lineStart_of_pos {index : LineIndex} {k : LineNumber} {n : Nat} (hk : k.toNat = n)
    (hPos : 0 < n) : index.lineStart k = index.starts[n - 1]? := by
  have hLine : k ≠ 0 := by
    rintro rfl
    exact absurd hk (Nat.ne_of_lt hPos)
  rw [lineStart, if_neg hLine, hk]

theorem length_startsFrom (offset : Nat) (chars : List Char) :
    (startsFrom offset chars).length = chars.count '\n' := by
  induction chars generalizing offset with
  | nil => rfl
  | cons c cs ih => by_cases h : c = '\n' <;> simp [startsFrom, h, ih]

theorem count_ofText (source : String) :
    (ofText source).count = source.toList.count '\n' + 1 := by
  simp [count, ofText, length_startsFrom]

end LineIndex

end CfScript
