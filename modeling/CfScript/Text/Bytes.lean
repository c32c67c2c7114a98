/-!
# Byte offsets into a text

Positions in a source count the bytes of its UTF-8 form, so a character is one to four bytes wide.
A range of bytes that ends inside a character has no text.

## Main results

* `dropBytes_append`, `takeBytes_append`: the bytes of a first part split a text after that part;
* `sliceBytes_append`: the slice under a part is that part.
-/

namespace CfScript.Text

/-- The number of bytes of the characters in UTF-8. -/
def byteLength : List Char → Nat
  | [] => 0
  | c :: cs => c.utf8Size + byteLength cs

@[simp] theorem byteLength_nil : byteLength [] = 0 := rfl

@[simp] theorem byteLength_append (a b : List Char) :
    byteLength (a ++ b) = byteLength a + byteLength b := by
  induction a with
  | nil => simp [byteLength]
  | cons c cs ih => simp [byteLength, ih, Nat.add_assoc]

/-- The characters after the first `count` bytes, if a character ends there. -/
def dropBytes : Nat → List Char → Option (List Char)
  | 0, chars => some chars
  | _ + 1, [] => none
  | count + 1, c :: cs =>
    if c.utf8Size ≤ count + 1 then dropBytes (count + 1 - c.utf8Size) cs else none

/-- The characters of the first `count` bytes, if a character ends there. -/
def takeBytes : Nat → List Char → Option (List Char)
  | 0, _ => some []
  | _ + 1, [] => none
  | count + 1, c :: cs =>
    if c.utf8Size ≤ count + 1 then (takeBytes (count + 1 - c.utf8Size) cs).map (c :: ·) else none

/-- The characters from byte `start` up to byte `stop`, if both fall between characters. -/
def sliceBytes (start stop : Nat) (chars : List Char) : Option (List Char) :=
  if start ≤ stop then (dropBytes start chars).bind (takeBytes (stop - start)) else none

theorem dropBytes_append (a b : List Char) : dropBytes (byteLength a) (a ++ b) = some b := by
  induction a with
  | nil => cases b <;> rfl
  | cons c cs ih =>
    have hPos := c.utf8Size_pos
    obtain ⟨n, hn⟩ : ∃ n, c.utf8Size + byteLength cs = n + 1 :=
      ⟨c.utf8Size + byteLength cs - 1, by omega⟩
    have hRest : n + 1 - c.utf8Size = byteLength cs := by omega
    simp only [byteLength, List.cons_append, hn, dropBytes]
    rw [if_pos (by omega), hRest, ih]

theorem takeBytes_append (a b : List Char) : takeBytes (byteLength a) (a ++ b) = some a := by
  induction a with
  | nil => cases b <;> rfl
  | cons c cs ih =>
    have hPos := c.utf8Size_pos
    obtain ⟨n, hn⟩ : ∃ n, c.utf8Size + byteLength cs = n + 1 :=
      ⟨c.utf8Size + byteLength cs - 1, by omega⟩
    have hRest : n + 1 - c.utf8Size = byteLength cs := by omega
    simp only [byteLength, List.cons_append, hn, takeBytes]
    rw [if_pos (by omega), hRest, ih]
    rfl

theorem sliceBytes_append (a b c : List Char) :
    sliceBytes (byteLength a) (byteLength a + byteLength b) (a ++ (b ++ c)) = some b := by
  simp [sliceBytes, dropBytes_append, takeBytes_append]

end CfScript.Text
