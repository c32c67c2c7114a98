/-!
# File paths

A path is a text whose segments are separated by slashes. Empty segments and segments `.` say nothing
but that a folder stands before them, except a `.` at the head. The extension of a file name is what
follows its last dot, unless that dot is its first character.

The system limits the bytes of a path and of each name on it.

Paths are ordered segment by segment, so what is in a folder comes right after the folder's name.

## Main results

* `segments_ne_nil`: every path has a segment;
* `splitName_append`: a file name is split at its dot without loss.
-/

namespace CfScript

/-- The name of a file or folder, as written. -/
structure Path where
  text : String
deriving DecidableEq, Inhabited

namespace Path

/-- The characters between the slashes; `segment` is what has been read of the first segment. -/
def segmentsFrom (segment : List Char) : List Char → List (List Char)
  | [] => [segment]
  | c :: cs => if c = '/' then segment :: segmentsFrom [] cs else segmentsFrom (segment ++ [c]) cs

/-- The segments of a path, the empty ones included. -/
def segments (p : Path) : List String := (segmentsFrom [] p.text.toList).map String.ofList

/-- Whether the path starts at the root of all files. -/
def isAbsolute (p : Path) : Bool := p.text.toList.head? == some '/'

/-- Whether a segment leads nowhere. -/
def isIdle (segment : String) : Bool := segment.isEmpty || segment == "."

/-- The segments that lead somewhere. -/
def names (p : Path) : List String := p.segments.filter (!isIdle ·)

/-- A path of as many bytes is too long for the system. -/
def maxBytes : Nat := 4096

/-- The number of bytes in the longest name of a file or folder. -/
def maxNameBytes : Nat := 255

/-- The place of a segment in the order of paths: the root, then `.`, then `..`, then the names, by
their characters. -/
def rank (segment : String) : List Nat :=
  if segment == ".." then [2] else 3 :: segment.toList.map Char.toNat

/-- The path as a list of numbers for each of its segments. -/
def key (p : Path) : List (List Nat) :=
  let head := if p.isAbsolute then [[0]] else if p.segments.head? == some "." then [[1]] else []
  head ++ p.names.map rank

/-- Whether a list of numbers comes before another one: at the first place where they differ, or as a
first part of it. -/
def comesBefore (a b : List Nat) : Bool := a.lex b Nat.blt

/-- Whether a path does not come after another one. -/
def le (a b : Path) : Bool := !b.key.lex a.key comesBefore

/-- The path of a name in a folder. -/
def join (folder : Path) (name : String) : Path :=
  if folder.text.isEmpty || folder.text.toList.getLast? == some '/' then ⟨folder.text ++ name⟩
  else ⟨folder.text ++ "/" ++ name⟩

/-- The characters, from the last one on, without those of segments that lead nowhere. -/
def dropIdle : List Char → List Char
  | '/' :: cs => dropIdle cs
  | '.' :: '/' :: cs => dropIdle cs
  | cs => cs

/-- The characters up to the last segment that leads somewhere, and that segment, if it is a name. -/
def folderAndName? (chars : List Char) : Option (List Char × List Char) :=
  let reversed := dropIdle chars.reverse
  let name := (reversed.takeWhile (· ≠ '/')).reverse
  if name = [] ∨ name = ['.'] ∨ name = ['.', '.'] then none
  else some ((reversed.dropWhile (· ≠ '/')).reverse, name)

/-- A file name without its extension, and the extension. -/
def splitName (name : List Char) : List Char × Option (List Char) :=
  let reversed := name.reverse
  match (reversed.dropWhile (· ≠ '.')).tail.reverse with
  | [] => (name, none)
  | stem => (stem, some (reversed.takeWhile (· ≠ '.')).reverse)

/-- The extension of the file name. -/
def extension? (p : Path) : Option (List Char) :=
  (folderAndName? p.text.toList).bind fun (_, name) => (splitName name).2

/-- The path with another extension. What follows the file name is dropped; if no file name is left
once the old extension is taken away, nothing is added. -/
def withExtension (p : Path) (extension : String) : Path :=
  let length := (p.extension?.getD []).length
  let kept := p.text.toList.take (p.text.toList.length - length)
  match folderAndName? kept with
  | none => ⟨String.ofList kept⟩
  | some (folder, name) => ⟨String.ofList (folder ++ (splitName name).1) ++ "." ++ extension⟩

theorem segmentsFrom_ne_nil (segment chars : List Char) : segmentsFrom segment chars ≠ [] := by
  induction chars generalizing segment with
  | nil => simp [segmentsFrom]
  | cons c cs ih =>
    unfold segmentsFrom
    split
    · simp
    · exact ih _

theorem segments_ne_nil (p : Path) : p.segments ≠ [] := by
  simp [segments, segmentsFrom_ne_nil]

theorem takeWhile_append_of_dropWhile {p : Char → Bool} {chars rest : List Char} {c : Char}
    (h : chars.dropWhile p = c :: rest) : chars.takeWhile p ++ c :: rest = chars := by
  rw [← h, List.takeWhile_append_dropWhile]

theorem splitName_append {name stem extension : List Char}
    (h : splitName name = (stem, some extension)) : stem ++ '.' :: extension = name := by
  simp only [splitName] at h
  split at h
  · simp at h
  · next hStem =>
    simp only [Prod.mk.injEq, Option.some.injEq] at h
    obtain ⟨rfl, rfl⟩ := h
    cases hDrop : name.reverse.dropWhile (· ≠ '.') with
    | nil => exact absurd (by rw [hDrop]; rfl) hStem
    | cons c rest =>
      have hDot : c = '.' := by
        have hHead := List.head?_dropWhile_not (· ≠ '.') name.reverse
        rw [hDrop] at hHead
        simpa using hHead
      have hName := congrArg List.reverse (takeWhile_append_of_dropWhile hDrop)
      rw [List.reverse_reverse, List.reverse_append, List.reverse_cons, hDot] at hName
      simpa using hName

end Path

end CfScript
