/-!
# Blank characters

A character is *blank* when it has the Unicode property `White_Space`: twenty-five code points. Two
texts are compared "up to blanks" through `collapse`, which turns every run of blanks into one space
and drops the runs at the two ends.

## Main results

* `isBlank_of_isWhitespace`: the four ASCII characters that core calls whitespace are blank;
* `exists_trimEndBy`, `trimEndBy_append`: what trimming the end of a text takes, and what it leaves;
* `words_blankFree`: the words of a text hold no blank, and none is empty.
-/

namespace CfScript.Text

/-- The code points with the property `White_Space`, as closed ranges. -/
def blankRanges : List (Nat × Nat) :=
  [(0x09, 0x0D), (0x20, 0x20), (0x85, 0x85), (0xA0, 0xA0), (0x1680, 0x1680), (0x2000, 0x200A),
    (0x2028, 0x2029), (0x202F, 0x202F), (0x205F, 0x205F), (0x3000, 0x3000)]

/-- Whether the character has the property `White_Space`. -/
def isBlank (c : Char) : Bool := blankRanges.any fun (low, high) => low ≤ c.toNat && c.toNat ≤ high

theorem isBlank_of_isWhitespace {c : Char} (h : c.isWhitespace = true) : isBlank c = true := by
  simp only [Char.isWhitespace, Bool.or_eq_true, decide_eq_true_eq] at h
  rcases h with ((rfl | rfl) | rfl) | rfl <;> decide

/-- The characters between the first and the last one that `p` refuses. -/
def trimBy (p : Char → Bool) (chars : List Char) : List Char :=
  ((chars.dropWhile p).reverse.dropWhile p).reverse

/-- The text without the characters at its end that `p` accepts. -/
def trimEndBy (p : Char → Bool) (chars : List Char) : List Char :=
  (chars.reverse.dropWhile p).reverse

theorem exists_trimEndBy (p : Char → Bool) (chars : List Char) :
    ∃ tail, chars = trimEndBy p chars ++ tail ∧ ∀ c ∈ tail, p c = true := by
  have hSplit := congrArg List.reverse (List.takeWhile_append_dropWhile (p := p) (l := chars.reverse))
  rw [List.reverse_append, List.reverse_reverse] at hSplit
  exact ⟨_, hSplit.symm, fun c hMem => List.all_eq_true.1 List.all_takeWhile c (List.mem_reverse.1 hMem)⟩

theorem not_of_getLast?_trimEndBy {p : Char → Bool} {chars : List Char} {c : Char}
    (h : (trimEndBy p chars).getLast? = some c) : p c = false := by
  have hHead := List.head?_dropWhile_not p chars.reverse
  rw [trimEndBy, List.getLast?_reverse] at h
  rw [h] at hHead
  simpa using hHead

/-- What is trimmed from the end is what stands behind the last character that stays. -/
theorem trimEndBy_append {p : Char → Bool} {text tail : List Char}
    (hText : ∀ c, text.getLast? = some c → p c = false) (hTail : ∀ c ∈ tail, p c = true) :
    trimEndBy p (text ++ tail) = text := by
  have hKept : text.reverse.dropWhile p = text.reverse := by
    cases hRev : text.reverse with
    | nil => rfl
    | cons c cs =>
      have hLast : text.getLast? = some c := by rw [List.getLast?_eq_head?_reverse, hRev]; rfl
      exact List.dropWhile_cons_of_neg (by simp [hText c hLast])
  rw [trimEndBy, List.reverse_append, List.dropWhile_append_of_pos, hKept, List.reverse_reverse]
  exact fun c hMem => hTail c (List.mem_reverse.1 hMem)

/-- The text without the blanks at its two ends. -/
def trim (text : String) : String := String.ofList (trimBy isBlank text.toList)

/-- Whether the text has no character but blanks. -/
def isBlankText (text : String) : Bool := text.toList.all isBlank

/-- Adds a word to a list of words, unless it is empty. -/
def consWord (word : List Char) (words : List (List Char)) : List (List Char) :=
  if word.isEmpty then words else word :: words

/-- The word that is being read, and the words after it. -/
def wordsFrom (word : List Char) : List Char → List (List Char)
  | [] => consWord word []
  | c :: cs => if isBlank c then consWord word (wordsFrom [] cs) else wordsFrom (word ++ [c]) cs

/-- The maximal runs of characters that are not blank, in order. -/
def words (text : String) : List String := (wordsFrom [] text.toList).map String.ofList

/-- The words of the text with one space between each two. -/
def collapse (text : String) : String := String.intercalate " " (words text)

theorem mem_consWord {word w : List Char} {words : List (List Char)} (h : w ∈ consWord word words) :
    (w = word ∧ word ≠ []) ∨ w ∈ words := by
  unfold consWord at h
  split at h
  · exact Or.inr h
  · next hWord =>
    rcases List.mem_cons.1 h with rfl | h
    · exact Or.inl ⟨rfl, by simpa using hWord⟩
    · exact Or.inr h

theorem wordsFrom_blankFree (chars word : List Char) (hWord : ∀ c ∈ word, isBlank c = false) :
    ∀ w ∈ wordsFrom word chars, w ≠ [] ∧ ∀ c ∈ w, isBlank c = false := by
  induction chars generalizing word with
  | nil =>
    intro w hMem
    rcases mem_consWord hMem with ⟨rfl, hNe⟩ | hMem
    · exact ⟨hNe, hWord⟩
    · simp at hMem
  | cons c cs ih =>
    intro w hMem
    unfold wordsFrom at hMem
    split at hMem
    · rcases mem_consWord hMem with ⟨rfl, hNe⟩ | hMem
      · exact ⟨hNe, hWord⟩
      · exact ih [] (by simp) w hMem
    · next hBlank =>
      refine ih (word ++ [c]) ?_ w hMem
      intro d hd
      rcases List.mem_append.1 hd with hd | hd
      · exact hWord d hd
      · simpa [List.mem_singleton.1 hd] using hBlank

theorem words_blankFree (text : String) :
    ∀ w ∈ words text, w ≠ "" ∧ ∀ c ∈ w.toList, isBlank c = false := by
  intro w hMem
  obtain ⟨chars, hChars, rfl⟩ := List.mem_map.1 hMem
  have h := wordsFrom_blankFree text.toList [] (by simp) chars hChars
  refine ⟨?_, by simpa using h.2⟩
  intro hEmpty
  have hNil : chars = [] := by simpa using congrArg String.toList hEmpty
  exact h.1 hNil

end CfScript.Text
