import CfScript.Text.Blank

/-!
# Lines of a text

A line ends at a line feed. The carriage return of a CR LF pair belongs to the line break, not to the
line. A line feed at the end of a text starts no further line.

## Main results

* `lines_free`: no line holds a line feed;
* `lines_of_free`: a text without a line feed is one line, or none if it is empty.
-/

namespace CfScript.Text

/-- Whether the character is part of a line break. -/
def isLineBreak (c : Char) : Bool := c == '\n' || c == '\r'

/-- A character before the first of the lines. -/
def consLine (c : Char) : List (List Char) → List (List Char)
  | [] => [[c]]
  | line :: rest => (c :: line) :: rest

/-- The lines of the characters, without their line breaks. -/
def lines : List Char → List (List Char)
  | [] => []
  | '\n' :: cs => [] :: lines cs
  | '\r' :: '\n' :: cs => [] :: lines cs
  | c :: cs => consLine c (lines cs)

/-- The first line of the characters, without its line break. -/
def firstLine (chars : List Char) : List Char := (lines chars).headD []

theorem consLine_free {c : Char} {rest : List (List Char)} (hc : c ≠ '\n')
    (hRest : ∀ line ∈ rest, '\n' ∉ line) : ∀ line ∈ consLine c rest, '\n' ∉ line := by
  cases rest with
  | nil =>
    intro line hMem
    rw [List.mem_singleton.1 hMem]
    simpa using Ne.symm hc
  | cons first rest =>
    intro line hMem
    rcases List.mem_cons.1 hMem with rfl | hMem
    · have hFirst := hRest first (by simp)
      simpa [Ne.symm hc] using hFirst
    · exact hRest line (List.mem_cons_of_mem _ hMem)

theorem lines_free (chars : List Char) : ∀ line ∈ lines chars, '\n' ∉ line := by
  fun_induction lines chars with
  | case1 => simp
  | case2 cs ih => simpa using ih
  | case3 cs ih => simpa using ih
  | case4 c cs hFeed _ ih => exact consLine_free (fun h => hFeed (h ▸ rfl)) ih

theorem lines_of_free {chars : List Char} (hFree : '\n' ∉ chars) (hNe : chars ≠ []) :
    lines chars = [chars] := by
  fun_induction lines chars with
  | case1 => exact absurd rfl hNe
  | case2 cs => simp at hFree
  | case3 cs => simp at hFree
  | case4 c cs _ _ ih =>
    cases cs with
    | nil => rfl
    | cons d ds =>
      rw [ih (fun h => hFree (List.mem_cons_of_mem _ h)) (by simp)]
      rfl

end CfScript.Text
