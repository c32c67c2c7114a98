import CfScript.Layout.Text
import CfScript.Proofs.Lexemes
import CfScript.Text.Quoted

/-!
# The text of a plain expression

An expression is plain if its names, numbers, strings and keys are such as the scanner accepts and no
function stands in it. The text that is printed for it is put together from lexemes, which are told
here one by one: where nothing stands between two of them, neither goes on into the other.

One thing is kept out: the operator `IS` in front of an operand that is written with `NOT` first. The
two words would be read as one operator.

## Main results

* `Expression.isPlain`: plain expressions;
* `Layout.lexemes`: the lexemes of a printed expression;
* `Expression.lexes_render`: the text of a plain expression is put together from its lexemes.
-/

namespace CfScript

/-! ## Plain expressions -/

namespace Layout

/-- Whether an operand of `IS` is written with the word `NOT` first. -/
def startsWithNot (operand : Expression) : Bool :=
  (atLeast (rightStrength .is operand) BinaryOp.is.tightens operand
    (expression · operand)).head? == some (.write UnaryOp.notWord.text)

/-- The words of a path between its dots. -/
def pathWords (path : String) : List String := (path.toList.splitOn '.').map String.ofList

end Layout

/-- Whether the expression may be the key of a struct entry: a word, a string or an integer. -/
def Expression.isPlainKey : Expression → Bool
  | identifier id _ => Scan.isWord id.name
  | string text quote _ => Text.paired quote.char text.toList
  | number text _ => Scan.kindOf? text == some .integer
  | _ => false

mutual

/-- Whether the expression is made of names, literals and operators as they are read from a source,
without functions. -/
def Expression.isPlain : Expression → Bool
  | .identifier id _ => Scan.kindOf? id.name == some .identifier
  | .string text quote _ => Text.paired quote.char text.toList
  | .number text _ => Scan.kindOf? text == some .integer || Scan.kindOf? text == some .float
  | .boolean _ _ => true
  | .null _ => true
  | .binary op left right _ =>
    left.isPlain && right.isPlain && !(op == .is && Layout.startsWithNot right)
  | .unary _ operand _ => operand.isPlain
  | .postfixOp _ operand _ => operand.isPlain
  | .assignment _ target value _ => target.isPlain && value.isPlain
  | .ternary condition thenValue elseValue _ =>
    condition.isPlain && thenValue.isPlain && elseValue.isPlain
  | .elvis value default _ => value.isPlain && default.isPlain
  | .paren inner _ => inner.isPlain
  | .call callee args _ => callee.isPlain && plainArguments args
  | .member object property _ _ => object.isPlain && Scan.isWord property.name
  | .index object index _ => object.isPlain && index.isPlain
  | .array items _ => plainExpressions items
  | .struct entries _ => plainEntries entries
  | .new className args _ => (Layout.pathWords className).all Scan.isWord && plainArguments args
  | .function .. => false
  | .lambda .. => false

/-- Whether all of the expressions are plain. -/
def plainExpressions : List Expression → Bool
  | [] => true
  | e :: es => e.isPlain && plainExpressions es

/-- Whether the names and the values of the arguments are plain. -/
def plainArguments : List (Argument Expression) → Bool
  | [] => true
  | ⟨name?, value⟩ :: args =>
    name?.all (Scan.isWord ·.name) && value.isPlain && plainArguments args

/-- Whether the keys and the values of the entries are plain. -/
def plainEntries : List (StructEntry Expression) → Bool
  | [] => true
  | ⟨key, _, value⟩ :: entries => key.isPlainKey && value.isPlain && plainEntries entries

end

/-! ## Lexemes -/

/-- The lexemes of the operator. -/
def BinaryOp.lexemes : BinaryOp → List String
  | isNot => ["IS", "NOT"]
  | doesNotContain => ["DOES", "NOT", "CONTAIN"]
  | op => [op.text]

namespace Layout

/-- A string between its quotes. -/
def stringLexeme (text : String) (quote : Quote) : String :=
  String.ofList (quote.char :: (text.toList ++ [quote.char]))

/-- The lexemes of an expression at a place; see `atLeast`. -/
def lexemesAtLeast (least : Nat) (tight : Bool) (e : Expression) (lexemes : Bool → List String) :
    List String :=
  if Strength.ofExpression tight e < least then "(" :: lexemes false ++ [")"] else lexemes tight

mutual

/-- The lexemes of a plain expression, in a tight place or not; see `expression`. -/
def lexemes (tight : Bool) : Expression → List String
  | .identifier id _ => [id.name]
  | .string text quote _ => [stringLexeme text quote]
  | .number text _ => [text]
  | .boolean value _ => [if value then "true" else "false"]
  | .null _ => ["null"]
  | .binary op left right _ =>
    lexemesAtLeast (Strength.binary op) tight left (lexemes · left) ++ op.lexemes ++
      lexemesAtLeast (rightStrength op right) op.tightens right (lexemes · right)
  | .unary .notWord operand _ =>
    "NOT" ::
      if tight then lexemesAtLeast Strength.prefixed true operand (lexemes · operand)
      else lexemesAtLeast Strength.leadingNot false operand (lexemes · operand)
  | .unary op operand _ =>
    op.text :: lexemesAtLeast Strength.prefixed true operand (lexemes · operand)
  | .postfixOp op operand _ =>
    lexemesAtLeast Strength.suffixed false operand (lexemes · operand) ++ [op.text]
  | .assignment op target value _ =>
    lexemesAtLeast Strength.conditional false target (lexemes · target) ++
      op.text :: lexemes false value
  | .ternary condition thenValue elseValue _ =>
    lexemesAtLeast Strength.loosestBinary false condition (lexemes · condition) ++
      "?" :: lexemesAtLeast Strength.conditional false thenValue (lexemes · thenValue) ++
      ":" :: lexemesAtLeast Strength.conditional false elseValue (lexemes · elseValue)
  | .elvis value default _ =>
    lexemesAtLeast Strength.loosestBinary false value (lexemes · value) ++
      "?:" :: lexemesAtLeast Strength.conditional false default (lexemes · default)
  | .paren inner _ => "(" :: lexemes false inner ++ [")"]
  | .call callee args _ =>
    lexemesAtLeast Strength.suffixed false callee (lexemes · callee) ++
      "(" :: [","].intercalate (argumentLexemes args) ++ [")"]
  | .member object property safe _ =>
    lexemesAtLeast Strength.suffixed false object (lexemes · object) ++
      [if safe then "?." else ".", property.name]
  | .index object index _ =>
    lexemesAtLeast Strength.suffixed false object (lexemes · object) ++
      "[" :: lexemes false index ++ ["]"]
  | .array items _ => "[" :: [","].intercalate (itemLexemes items) ++ ["]"]
  | .struct entries _ => "\x7b" :: [","].intercalate (entryLexemes entries) ++ ["\x7d"]
  | .new className args _ =>
    "new" :: (pathWords className).intersperse "." ++
      "(" :: [","].intercalate (argumentLexemes args) ++ [")"]
  | .function .. => []
  | .lambda .. => []

/-- The lexemes of each of the expressions. -/
def itemLexemes : List Expression → List (List String)
  | [] => []
  | e :: es => lexemes false e :: itemLexemes es

/-- The lexemes of each of the arguments. -/
def argumentLexemes : List (Argument Expression) → List (List String)
  | [] => []
  | ⟨some name, value⟩ :: args =>
    (name.name :: "=" :: lexemesAtLeast Strength.conditional false value (lexemes · value)) ::
      argumentLexemes args
  | ⟨none, value⟩ :: args =>
    (if value.isAssignment then "(" :: lexemes false value ++ [")"] else lexemes false value) ::
      argumentLexemes args

/-- The lexemes of each of the struct entries. -/
def entryLexemes : List (StructEntry Expression) → List (List String)
  | [] => []
  | ⟨key, separator, value⟩ :: entries =>
    (lexemesAtLeast Strength.primary false key (lexemes · key) ++
      separator.text :: lexemes false value) :: entryLexemes entries

end

end Layout

/-! ## Texts that come in lexemes -/

namespace Scan

variable {F G : List Char → Prop} {a b : List Char} {v w : List String}

/-- Whether characters come in the lexemes, in front of all characters that `F` holds of. -/
def Emits (F : List Char → Prop) (chars : List Char) (texts : List String) : Prop :=
  ∀ rest more, F rest → Lexes rest more → Lexes (chars ++ rest) (texts ++ more)

/-- Whether a symbol stays what it is in front of the characters. -/
def Free (s : Symbol) (rest : List Char) : Prop := ∀ d ∈ rest.head?, d ∉ s.joins

namespace Emits

theorem nil : Emits F [] [] := fun _ _ _ h => h

theorem append (ha : Emits F a v) (hb : Emits G b w) (h : ∀ rest, G rest → F (b ++ rest)) :
    Emits G (a ++ b) (v ++ w) := by
  intro rest more hRest hMore
  rw [List.append_assoc, List.append_assoc]
  exact ha _ _ (h rest hRest) (hb rest more hRest hMore)

theorem weaken (h : Emits F a v) (hFG : ∀ rest, G rest → F rest) : Emits G a v :=
  fun rest more hRest => h rest more (hFG rest hRest)

theorem gap (h : a.all isGap = true) : Emits F a [] := fun _ _ _ hMore => hMore.gap h

theorem operand {text : String} {kind : TokenKind} (h : kindOf? text = some kind)
    (hKind : isOperand kind = true) : Emits Follows text.toList [text] :=
  fun _ _ hRest hMore => hMore.text (stands_operand h hKind hRest) (isSolid_operand h hKind)

theorem symbol {s : Symbol} (hArrow : s ≠ .arrow) : Emits (Free s) s.spelling [s.text] := by
  intro rest more hRest hMore
  have hText := hMore.text (stands_symbol s hRest) (isSolid_symbol hArrow)
  rwa [Symbol.text, String.toList_ofList] at hText

/-- A symbol that no character joins. -/
theorem closed (s : Symbol) (h : s.isClosed = true) : Emits F s.spelling [s.text] := by
  simp only [Symbol.isClosed, Bool.and_eq_true, List.isEmpty_iff, bne_iff_ne] at h
  exact (symbol h.2).weaken fun _ _ => by simp [Free, h.1]

/-- Words, literals and symbols, each with a blank behind it. -/
theorem spaced (texts : List String) (h : texts.all isSolid = true) :
    Emits F (texts.flatMap fun text => text.toList ++ [' ']) texts := by
  induction texts with
  | nil => exact nil
  | cons text texts ih =>
    rw [List.all_cons, Bool.and_eq_true] at h
    intro rest more hRest hMore
    have hTail := (ih h.2 rest more hRest hMore).gap (show [' '].all isGap = true from rfl)
    rw [List.flatMap_cons, List.append_assoc, List.append_assoc]
    obtain ⟨kind, hText⟩ := exists_isLexeme h.1
    exact hTail.text (hText.stands rfl _) h.1

end Emits

end Scan

open Scan

namespace Layout

/-- The characters that the steps write. -/
def written (steps : List Step) : List Char :=
  steps.flatMap fun
    | .write text => text.toList
    | _ => []

@[simp] theorem written_nil : written [] = [] := rfl

@[simp] theorem written_append (a b : List Step) : written (a ++ b) = written a ++ written b :=
  List.flatMap_append

@[simp] theorem written_write (text : String) (steps : List Step) :
    written (.write text :: steps) = text.toList ++ written steps := rfl

@[simp] theorem written_space (steps : List Step) :
    written (.space :: steps) = ' ' :: written steps := rfl

/-- Steps that only write, and write the lexemes in front of all characters that `F` holds of. -/
structure Prints (F : List Char → Prop) (steps : List Step) (texts : List String) : Prop where
  writes : ∀ step ∈ steps, ∃ text, step = .write text
  emits : Emits F (written steps) texts

namespace Prints

variable {F G : List Char → Prop} {a b : List Step} {v w : List String}

theorem nil : Prints F [] [] := ⟨by simp, .nil⟩

theorem append (ha : Prints F a v) (hb : Prints G b w) (h : ∀ rest, G rest → F (written b ++ rest)) :
    Prints G (a ++ b) (v ++ w) where
  writes step hStep := (List.mem_append.1 hStep).elim (ha.writes step) (hb.writes step)
  emits := by
    rw [written_append]
    exact ha.emits.append hb.emits h

theorem weaken (h : Prints F a v) (hFG : ∀ rest, G rest → F rest) : Prints G a v :=
  ⟨h.writes, h.emits.weaken hFG⟩

theorem write {text : String} (h : Emits F text.toList v) : Prints F [.write text] v where
  writes step hStep := ⟨text, List.mem_singleton.1 hStep⟩
  emits := by rwa [written_write, written_nil, List.append_nil]

theorem space : Prints F [.space] [] := .write (.gap rfl)

theorem symbol {s : Symbol} (hArrow : s ≠ .arrow) : Prints (Free s) [.write s.text] [s.text] :=
  .write (by
    rw [Symbol.text, String.toList_ofList]
    exact .symbol hArrow)

/-- A symbol that no character joins. -/
theorem closed (s : Symbol) (h : s.isClosed = true) : Prints F [.write s.text] [s.text] :=
  .write (by
    rw [Symbol.text, String.toList_ofList]
    exact .closed s h)

theorem operand {text : String} {kind : TokenKind} (h : kindOf? text = some kind)
    (hKind : isOperand kind = true) : Prints Follows [.write text] [text] :=
  .write (.operand h hKind)

end Prints

/-! ## Operators -/

theorem prints_binaryOp {F : List Char → Prop} (op : BinaryOp) :
    Prints F [.space, .write op.text, .space] op.lexemes := by
  have hSolid : op.lexemes.all isSolid = true := by cases op <;> decide
  have hText : op.text.toList ++ [' '] = op.lexemes.flatMap fun text => text.toList ++ [' '] := by
    cases op <;> decide
  have hWord : Prints F ([.write op.text] ++ [.space]) op.lexemes := ⟨by simp [Step.space], by
    simp only [written_append, written_write, written_space, written_nil, List.append_nil, hText]
    exact .spaced _ hSolid⟩
  exact (Prints.space (F := fun _ => True)).append hWord fun _ _ => trivial

theorem prints_enclosed {F : List Char → Prop} {steps : List Step} {texts : List String}
    (opening closing : Symbol) (hOpening : opening.isClosed = true) (hClosing : closing.isClosed = true)
    (hBreak : closing.spelling.head?.any isBreak = true) (h : Prints Follows steps texts) :
    Prints F (enclosed opening.text steps closing.text)
      (opening.text :: texts ++ [closing.text]) := by
  have hInner : Prints F (steps ++ [.write closing.text]) (texts ++ [closing.text]) :=
    h.append (.closed closing hClosing) fun rest _ => by
      obtain ⟨c, cs, hSpelling⟩ := List.exists_cons_of_ne_nil closing.spelling_ne_nil
      rw [hSpelling] at hBreak
      rw [written_write, written_nil, List.append_nil, Symbol.text, String.toList_ofList, hSpelling]
      exact follows_of_isBreak hBreak _
  exact (Prints.closed (F := fun _ => True) opening hOpening).append hInner fun _ _ => trivial

/-- Parts with commas between them. -/
theorem prints_joined {separator : List Step} (hSeparator : Prints (fun _ => True) separator [","])
    (hComma : ∃ cs, written separator = ',' :: cs) {parts : List (List Step)}
    {texts : List (List String)} (h : List.Forall₂ (Prints Follows) parts texts) :
    Prints Follows (joined separator parts) ([","].intercalate texts) := by
  induction h with
  | nil => exact .nil
  | @cons part text parts texts hHead hTail ih =>
    cases hTail with
    | nil => simpa [joined] using hHead
    | @cons next words _ _ hNext hRest =>
      rw [List.intercalate_cons_cons]
      obtain ⟨cs, hComma⟩ := hComma
      refine (hHead.append (G := fun _ => True) hSeparator fun rest _ => ?_).append ih fun _ _ => trivial
      rw [hComma]
      exact follows_of_isBreak rfl _

/-! ## How the text of an expression starts -/

/-- The start of a text that is printed for an expression: no character that an equals sign before it
would go on with, and no sign if it is an operand that does not start with one. -/
def Opens (strength : Nat) (signed : Bool) (chars : List Char) : Prop :=
  ∃ c cs, chars = c :: cs ∧ c ≠ '=' ∧ c ≠ '>' ∧
    (Strength.suffixed ≤ strength ∨ Strength.prefixed ≤ strength ∧ signed = false →
      c ≠ '+' ∧ c ≠ '-')

/-- Steps that print an expression of a strength. -/
structure Shown (strength : Nat) (signed : Bool) (steps : List Step) (texts : List String) : Prop where
  prints : Prints Follows steps texts
  opens : Opens strength signed (written steps)

theorem Opens.of_char {strength : Nat} {signed : Bool} {c : Char} {cs : List Char}
    (h : c ∉ ['=', '>', '+', '-']) : Opens strength signed (c :: cs) := by
  simp only [List.mem_cons, List.not_mem_nil, or_false, not_or] at h
  exact ⟨c, cs, rfl, h.1, h.2.1, fun _ => h.2.2⟩

theorem opens_sign {c : Char} {cs : List Char} (h : c ∈ ['+', '-']) :
    Opens Strength.prefixed true (c :: cs) := by
  refine ⟨c, cs, rfl, ?_, ?_, fun hPlace => ?_⟩
  · rintro rfl
    revert h
    decide
  · rintro rfl
    revert h
    decide
  · exact absurd hPlace (by decide)

/-- What follows does not change the start, of an operand that something is applied to or of one that
no operator needs in front of it. -/
theorem Opens.append {strength strength' : Nat} {signed signed' : Bool} {a : List Char}
    (h : Opens strength signed a) (hStrength : Strength.suffixed ≤ strength ∨ strength' < Strength.prefixed)
    (b : List Char) : Opens strength' signed' (a ++ b) := by
  obtain ⟨c, cs, rfl, hEquals, hGreater, hSign⟩ := h
  refine ⟨c, cs ++ b, rfl, hEquals, hGreater, fun hPlace => hSign ?_⟩
  have hLt : Strength.prefixed < Strength.suffixed := by decide
  rcases hStrength with hStrong | hLoose
  · exact .inl hStrong
  · omega

theorem opens_kind {strength : Nat} {signed : Bool} {text : String} {kind : TokenKind}
    (h : kindOf? text = some kind) (hKind : isOperand kind = true) :
    Opens strength signed text.toList := by
  obtain ⟨c, cs, hText, -, hOne⟩ := kindOf?_eq_some h
  rw [hText]
  refine .of_char fun hChar => ?_
  have hSymbol : lexeme c cs = symbol c cs := by
    simp only [List.mem_cons, List.not_mem_nil, or_false] at hChar
    rcases hChar with rfl | rfl | rfl | rfl <;> rfl
  rw [← show (lexeme c cs).1 = kind by rw [hOne], hSymbol, symbol] at hKind
  split at hKind <;> simp [isOperand] at hKind

variable {e : Expression}

/-- An expression that is printed where it stands, in parentheses if need be. -/
theorem shown_atLeast
    (h : ∀ tight, Shown (Strength.ofExpression tight e) (startsWithSign e) (expression tight e)
      (lexemes tight e)) (least : Nat) (tight : Bool) :
    Shown least (startsWithSign e) (atLeast least tight e (expression · e))
      (lexemesAtLeast least tight e (lexemes · e)) := by
  unfold atLeast lexemesAtLeast
  split
  · exact ⟨prints_enclosed .lParen .rParen rfl rfl rfl (h false).prints,
      .of_char (by decide)⟩
  next hLe =>
    obtain ⟨hPrints, c, cs, hText, hEquals, hGreater, hSign⟩ := h tight
    have hLe := Nat.not_lt.1 hLe
    exact ⟨hPrints, c, cs, hText, hEquals, hGreater, fun hPlace =>
      hSign (hPlace.imp hLe.trans' (And.imp_left hLe.trans'))⟩

/-! ## Expressions -/

variable {strength strength' : Nat} {signed signed' : Bool} {F : List Char → Prop}
  {steps more between : List Step} {texts words rest : List String}

theorem shown_operand {text : String} {kind : TokenKind} (h : kindOf? text = some kind)
    (hKind : isOperand kind = true) : Shown strength signed [.write text] [text] :=
  ⟨.operand h hKind, by simpa using opens_kind h hKind⟩

/-- A string whose quotes come in pairs is one token, in front of all but a further quote. -/
theorem lexeme_stringLexeme {text : String} {quote : Quote} {rest : List Char}
    (h : Text.paired quote.char text.toList = true) (hRest : ∀ d ∈ rest.head?, d ≠ quote.char) :
    lexeme quote.char (text.toList ++ quote.char :: rest) = (.string, text.toList.length + 1) := by
  have hClosed : closingQuote quote.char (text.toList ++ quote.char :: rest) =
      some (text.toList.length + 1) :=
    closingQuote_eq_some_iff.2 ⟨_, rest, rfl, rfl, h, hRest⟩
  have hQuoted (cs : List Char) : lexeme quote.char cs = quoted quote.char cs := by cases quote <;> rfl
  rw [hQuoted, quoted, hClosed]

theorem kindOf?_stringLexeme {text : String} {quote : Quote}
    (h : Text.paired quote.char text.toList = true) :
    kindOf? (stringLexeme text quote) = some .string := by
  have hGap : isGap quote.char = false := by cases quote <;> rfl
  have hLexeme : lexeme quote.char (text.toList ++ [quote.char]) = _ :=
    lexeme_stringLexeme h (by simp)
  simp [kindOf?, stringLexeme, hGap, hLexeme]

theorem shown_string {text : String} {quote : Quote}
    (h : Text.paired quote.char text.toList = true) :
    Shown strength signed [.write (String.singleton quote.char), .write text,
      .write (String.singleton quote.char)] [stringLexeme text quote] := by
  have hWritten : written [.write (String.singleton quote.char), .write text,
      .write (String.singleton quote.char)] = (stringLexeme text quote).toList := by
    simp [stringLexeme]
  have hKind := kindOf?_stringLexeme h
  refine ⟨⟨by simp, ?_⟩, ?_⟩
  · rw [hWritten]
    exact .operand hKind rfl
  · rw [hWritten]
    exact opens_kind hKind rfl

/-- An operand with something behind it. -/
theorem Shown.behind (h : Shown strength signed steps texts) (hMore : Prints Follows more words)
    (hBreak : ∀ rest, Follows (written more ++ rest))
    (hStrength : Strength.suffixed ≤ strength ∨ strength' < Strength.prefixed) :
    Shown strength' signed' (steps ++ more) (texts ++ words) where
  prints := h.prints.append hMore fun rest _ => hBreak rest
  opens := by
    rw [written_append]
    exact h.opens.append hStrength _

/-- An operand in front of another. -/
theorem Prints.before (h : Prints (fun _ => True) between texts) (hMore : Prints Follows more words) :
    Prints Follows (between ++ more) (texts ++ words) :=
  h.append hMore fun _ _ => trivial

/-- A word, a literal or a symbol between blanks, in one text. -/
theorem prints_padded (padded text : String) (hText : padded.toList = ' ' :: (text.toList ++ [' ']))
    (h : isSolid text = true) : Prints F [.write padded] [text] := by
  have hSpaced := Emits.spaced (F := F) [text] (by simpa using h)
  rw [List.flatMap_singleton] at hSpaced
  refine .write ?_
  rw [hText]
  exact (Emits.gap (F := fun _ => True) (a := [' ']) rfl).append hSpaced fun _ _ => trivial

/-- A word, a literal or a symbol in front of a blank, in one text. -/
theorem prints_spaced (spaced text : String) (hText : spaced.toList = text.toList ++ [' '])
    (h : isSolid text = true) : Prints F [.write spaced] [text] := by
  have hSpaced := Emits.spaced (F := F) [text] (by simpa using h)
  rw [List.flatMap_singleton, ← hText] at hSpaced
  exact .write hSpaced

theorem prints_assignOp (op : AssignOp) : Prints F [.space, .write op.text, .space] [op.text] := by
  have hSpaced : Prints F ([.write op.text] ++ [.space]) [op.text] := by
    refine ⟨by simp [Step.space], ?_⟩
    have hOp := Emits.spaced (F := F) [op.text] (by cases op <;> decide)
    rwa [List.flatMap_singleton] at hOp
  exact (Prints.space (F := fun _ => True)).append hSpaced fun _ _ => trivial

/-- An operator in front of its operand, with a space between them if a sign follows. -/
theorem shown_prefixed (s : Symbol) (hJoins : s.joins.all (· ∈ ['=', '+', '-']) = true)
    (hOpens : Opens Strength.prefixed signed' s.spelling)
    (h : Shown Strength.prefixed signed steps texts) :
    Shown Strength.prefixed signed'
      (.write s.text :: (if signed then [.space] else []) ++ steps) (s.text :: texts) := by
  have hFree (rest : List Char) :
      Free s (written ((if signed then [.space] else []) ++ steps) ++ rest) := by
    intro d hd hJoin
    have hSign : d ∈ ['=', '+', '-'] := of_decide_eq_true (List.all_eq_true.1 hJoins d hJoin)
    cases signed with
    | true =>
      cases hd
      revert hSign
      decide
    | false =>
      obtain ⟨c, cs, hText, hEquals, -, hNone⟩ := h.opens
      obtain ⟨hPlus, hMinus⟩ := hNone (.inr ⟨Nat.le_refl _, rfl⟩)
      simp only [Bool.false_eq_true, if_false, List.nil_append, hText, List.cons_append] at hd
      cases hd
      simp [hEquals, hPlus, hMinus] at hSign
  have hOperand : Prints Follows ((if signed then [.space] else []) ++ steps) texts := by
    cases signed with
    | true => exact (Prints.space (F := fun _ => True)).append h.prints fun _ _ => trivial
    | false => exact h.prints
  obtain ⟨c, cs, hText, hStart⟩ := hOpens
  have hArrow : s ≠ .arrow := by
    rintro rfl
    exact hStart.1 (List.cons.inj hText).1.symm
  refine ⟨(Prints.symbol hArrow).append hOperand fun rest _ => hFree rest, ?_⟩
  exact ⟨c, _, by rw [List.cons_append, written_write, Symbol.text, String.toList_ofList, hText]; rfl,
    hStart⟩

theorem isWordStart_of_isWord {text : String} (h : isWord text = true) :
    ∃ c cs, text.toList = c :: cs ∧ isWordStart c = true := by
  obtain ⟨kind, hKind, hWord⟩ := (Option.any_eq_true _ _).1 h
  obtain ⟨c, cs, hText, -, hOne⟩ := kindOf?_eq_some hKind
  refine ⟨c, cs, hText, ?_⟩
  by_contra hStart
  have hKind : (lexeme c cs).1.isWord = true := by rwa [hOne]
  revert hKind
  rw [lexeme, if_neg hStart]
  split
  · unfold number
    dsimp only
    split <;> simp [TokenKind.isWord]
  split
  · unfold quoted
    split <;> simp [TokenKind.isWord]
  split
  · simp [TokenKind.isWord]
  split
  · unfold blockComment
    split <;> simp [TokenKind.isWord]
  · unfold symbol
    split <;> simp [TokenKind.isWord]

theorem isOperand_of_isWord {kind : TokenKind} (h : kind.isWord = true) : isOperand kind = true := by
  cases kind <;> first | rfl | cases h

theorem prints_word {text : String} (h : isWord text = true) : Prints Follows [.write text] [text] := by
  obtain ⟨kind, hKind, hWord⟩ := (Option.any_eq_true _ _).1 h
  exact .operand hKind (isOperand_of_isWord hWord)

/-- After a dot stands a word, so the dot is no decimal point. -/
theorem follows_dot {text : String} (h : isWord text = true) (rest : List Char) :
    Follows ('.' :: (text.toList ++ rest)) := by
  obtain ⟨c, cs, hText, hStart⟩ := isWordStart_of_isWord h
  refine ⟨rfl, by decide, by decide, fun _ d hd => ?_⟩
  rw [hText, List.cons_append] at hd
  cases hd
  exact isDigit_of_isWordStart hStart

/-- A path is printed as its words with dots between them. -/
theorem prints_path {path : String} (h : (pathWords path).all isWord = true) :
    Prints Follows [.write path] ((pathWords path).intersperse ".") := by
  have hParts (parts : List (List Char)) (h : (parts.map String.ofList).all isWord = true) :
      Emits Follows (['.'].intercalate parts) ((parts.map String.ofList).intersperse ".") := by
    induction parts with
    | nil => exact .nil
    | cons part parts ih =>
      rw [List.map_cons, List.all_cons, Bool.and_eq_true] at h
      have hPart : Emits Follows part [String.ofList part] := by
        simpa using (prints_word h.1).emits
      cases parts with
      | nil => simpa using hPart
      | cons next parts =>
        have hNext : isWord (String.ofList next) = true := by
          have hRest := h.2
          rw [List.map_cons, List.all_cons, Bool.and_eq_true] at hRest
          exact hRest.1
        obtain ⟨tail, hTail⟩ : ∃ tail, ['.'].intercalate (next :: parts) = next ++ tail := by
          cases parts with
          | nil => exact ⟨[], by simp⟩
          | cons => exact ⟨_, by rw [List.intercalate_cons_cons, List.append_assoc]⟩
        have hDot := (Emits.closed (F := fun _ => True) .dot rfl).append (ih h.2) fun _ _ => trivial
        rw [List.intercalate_cons_cons, List.append_assoc]
        refine hPart.append hDot fun rest _ => ?_
        have hFollows := follows_dot hNext (tail ++ rest)
        rwa [String.toList_ofList, ← List.append_assoc, ← hTail] at hFollows
  refine .write ?_
  have hPath := hParts (path.toList.splitOn '.') h
  rwa [List.intercalate_splitOn] at hPath

theorem prints_key {key : Expression} (h : key.isPlainKey = true) :
    Prints Follows (atLeast Strength.primary false key (expression · key))
      (lexemesAtLeast Strength.primary false key (lexemes · key)) := by
  cases key with
  | identifier id => exact prints_word h
  | string text quote =>
    have hString : Shown Strength.primary false _ _ := shown_string h
    exact hString.prints
  | number text => exact .operand (beq_iff_eq.1 h) rfl
  | _ => cases h

mutual

/-- The steps of a plain expression print its lexemes. -/
theorem expression_shown (tight : Bool) : (e : Expression) → e.isPlain = true →
    Shown (Strength.ofExpression tight e) (startsWithSign e) (expression tight e) (lexemes tight e)
  | .identifier id _, h => shown_operand (beq_iff_eq.1 h) rfl
  | .string text quote _, h => shown_string h
  | .number text _, h => by
    rcases (Bool.or_eq_true _ _).mp h with h | h
    · exact shown_operand (beq_iff_eq.1 h) rfl
    · exact shown_operand (beq_iff_eq.1 h) rfl
  | .boolean true _, _ => shown_operand (show kindOf? "true" = some (.keyword .true_) by decide) rfl
  | .boolean false _, _ => shown_operand (show kindOf? "false" = some (.keyword .false_) by decide) rfl
  | .null _, _ => shown_operand (show kindOf? "null" = some (.keyword .null) by decide) rfl
  | .binary op left right _, h => by
    simp only [Expression.isPlain, Bool.and_eq_true] at h
    have hLeft := shown_atLeast (expression_shown · left h.1.1) (Strength.binary op) tight
    have hRight := shown_atLeast (expression_shown · right h.1.2) (rightStrength op right) op.tightens
    rw [expression, lexemes, List.append_assoc, List.append_assoc]
    exact hLeft.behind ((prints_binaryOp op).before hRight.prints)
      (fun rest => follows_of_isBreak rfl _) (.inr (Strength.strength_binary_lt_prefixed op))
  | .unary .notWord operand _, h => by
    have hOperand (least : Nat) (tight : Bool) :=
      shown_atLeast (expression_shown · operand h) least tight
    have hWord : Prints (fun _ => True) [.write UnaryOp.notWord.text] ["NOT"] :=
      prints_spaced _ _ rfl (by decide)
    cases tight with
    | true => exact ⟨hWord.before (hOperand Strength.prefixed true).prints, .of_char (by decide)⟩
    | false => exact ⟨hWord.before (hOperand Strength.leadingNot false).prints, .of_char (by decide)⟩
  | .unary .neg operand _, h =>
    shown_prefixed .minus rfl (opens_sign (by decide))
      (shown_atLeast (expression_shown · operand h) Strength.prefixed true)
  | .unary .plus operand _, h =>
    shown_prefixed .plus rfl (opens_sign (by decide))
      (shown_atLeast (expression_shown · operand h) Strength.prefixed true)
  | .unary .not operand _, h =>
    shown_prefixed .bang rfl (.of_char (by decide))
      (shown_atLeast (expression_shown · operand h) Strength.prefixed true)
  | .unary .increment operand _, h =>
    shown_prefixed .plusPlus rfl (opens_sign (by decide))
      (shown_atLeast (expression_shown · operand h) Strength.prefixed true)
  | .unary .decrement operand _, h =>
    shown_prefixed .minusMinus rfl (opens_sign (by decide))
      (shown_atLeast (expression_shown · operand h) Strength.prefixed true)
  | .postfixOp op operand _, h => by
    have hOperand := shown_atLeast (expression_shown · operand h) Strength.suffixed false
    cases op with
    | increment =>
      exact hOperand.behind (.closed .plusPlus rfl) (fun rest => follows_of_isBreak rfl _)
        (.inl le_rfl)
    | decrement =>
      exact hOperand.behind (.closed .minusMinus rfl) (fun rest => follows_of_isBreak rfl _)
        (.inl le_rfl)
  | .assignment op target value _, h => by
    simp only [Expression.isPlain, Bool.and_eq_true] at h
    have hTarget := shown_atLeast (expression_shown · target h.1) Strength.conditional false
    have hValue := expression_shown false value h.2
    rw [expression, lexemes, List.append_assoc]
    exact hTarget.behind ((prints_assignOp op).before hValue.prints)
      (fun rest => follows_of_isBreak rfl _) (.inr (show Strength.assignment < _ by decide))
  | .ternary condition thenValue elseValue _, h => by
    simp only [Expression.isPlain, Bool.and_eq_true] at h
    have hCondition := shown_atLeast (expression_shown · condition h.1.1) Strength.loosestBinary false
    have hThen := shown_atLeast (expression_shown · thenValue h.1.2) Strength.conditional false
    have hElse := shown_atLeast (expression_shown · elseValue h.2) Strength.conditional false
    have hBranches : Shown Strength.conditional false _ _ :=
      hThen.behind ((prints_padded " : " ":" rfl (by decide)).before hElse.prints)
        (fun rest => follows_of_isBreak rfl _) (.inr (by decide))
    simp only [expression, lexemes, List.append_assoc, List.cons_append]
    exact hCondition.behind ((prints_padded " ? " "?" rfl (by decide)).before
      hBranches.prints) (fun rest => follows_of_isBreak rfl _)
      (.inr (show Strength.conditional < _ by decide))
  | .elvis value default _, h => by
    simp only [Expression.isPlain, Bool.and_eq_true] at h
    have hValue := shown_atLeast (expression_shown · value h.1) Strength.loosestBinary false
    have hDefault := shown_atLeast (expression_shown · default h.2) Strength.conditional false
    rw [expression, lexemes, List.append_assoc]
    exact hValue.behind ((prints_padded " ?: " "?:" rfl (by decide)).before
      hDefault.prints) (fun rest => follows_of_isBreak rfl _)
      (.inr (show Strength.conditional < _ by decide))
  | .paren inner _, h =>
    ⟨prints_enclosed .lParen .rParen rfl rfl rfl (expression_shown false inner h).prints,
      .of_char (by decide)⟩
  | .call callee args _, h => by
    simp only [Expression.isPlain, Bool.and_eq_true] at h
    have hCallee := shown_atLeast (expression_shown · callee h.1) Strength.suffixed false
    have hArgs := prints_joined (prints_spaced ", " "," rfl (by decide)) ⟨_, rfl⟩
      (arguments_shown args h.2)
    rw [expression, lexemes, List.append_assoc]
    exact hCallee.behind (prints_enclosed .lParen .rParen rfl rfl rfl hArgs)
      (fun rest => follows_of_isBreak rfl _) (.inl le_rfl)
  | .member object property safe _, h => by
    simp only [Expression.isPlain, Bool.and_eq_true] at h
    have hObject := shown_atLeast (expression_shown · object h.1) Strength.suffixed false
    have hName := prints_word h.2
    cases safe with
    | true =>
      exact hObject.behind ((Prints.closed .safeDot rfl).before hName)
        (fun rest => follows_of_isBreak rfl _) (.inl le_rfl)
    | false =>
      refine hObject.behind ((Prints.closed .dot rfl).before hName) (fun rest => ?_) (.inl le_rfl)
      have hDot := follows_dot h.2 rest
      simpa [Symbol.text, Symbol.spelling] using hDot
  | .index object index _, h => by
    simp only [Expression.isPlain, Bool.and_eq_true] at h
    have hObject := shown_atLeast (expression_shown · object h.1) Strength.suffixed false
    rw [expression, lexemes, List.append_assoc]
    exact hObject.behind
      (prints_enclosed .lBracket .rBracket rfl rfl rfl (expression_shown false index h.2).prints)
      (fun rest => follows_of_isBreak rfl _) (.inl le_rfl)
  | .array items _, h => by
    have hItems := prints_joined (prints_spaced ", " "," rfl (by decide))
      ⟨_, rfl⟩ (expressions_shown items h)
    exact ⟨prints_enclosed .lBracket .rBracket rfl rfl rfl hItems, .of_char (by decide)⟩
  | .struct [] _, _ => by
    have hBraces : Prints Follows [.write "\x7b\x7d"] ["\x7b", "\x7d"] :=
      .write ((Emits.closed (F := fun _ => True) .lBrace rfl).append (Emits.closed .rBrace rfl)
        fun _ _ => trivial)
    exact ⟨hBraces, .of_char (by decide)⟩
  | .struct (entry :: entries) _, h => by
    have hComma : Prints (fun _ => True) ([.write ","] ++ [.space]) [","] :=
      (Prints.closed (F := fun _ => True) .comma rfl).append .space fun _ _ => trivial
    have hEntries := prints_joined hComma ⟨_, rfl⟩ (structEntries_shown (entry :: entries) h)
    have hOpening : Prints (fun _ => True) ([.write "\x7b"] ++ [.space]) ["\x7b"] :=
      (Prints.closed (F := fun _ => True) .lBrace rfl).append .space fun _ _ => trivial
    have hClosing : Prints Follows [.write " \x7d"] ["\x7d"] :=
      .write ((Emits.gap (F := fun _ => True) (a := [' ']) rfl).append (Emits.closed .rBrace rfl)
        fun _ _ => trivial)
    exact ⟨hOpening.before (hEntries.append hClosing fun rest _ => follows_of_isBreak rfl _),
      .of_char (by decide)⟩
  | .new className args _, h => by
    simp only [Expression.isPlain, Bool.and_eq_true] at h
    have hWord : Prints (fun _ => True) [.write "new "] ["new"] :=
      prints_spaced _ _ rfl (by decide)
    have hArgs := prints_joined (prints_spaced ", " "," rfl (by decide)) ⟨_, rfl⟩
      (arguments_shown args h.2)
    have hListed : Prints Follows (listed (arguments args)) _ :=
      prints_enclosed .lParen .rParen rfl rfl rfl hArgs
    refine ⟨?_, .of_char (by decide)⟩
    rw [expression, lexemes, List.append_assoc]
    exact hWord.before ((prints_path h.1).append hListed fun rest _ => follows_of_isBreak rfl _)

/-- The steps of each of the expressions print its lexemes. -/
theorem expressions_shown : (es : List Expression) → plainExpressions es = true →
    List.Forall₂ (Prints Follows) (expressions es) (itemLexemes es)
  | [], _ => .nil
  | e :: es, h => by
    simp only [plainExpressions, Bool.and_eq_true] at h
    exact .cons (expression_shown false e h.1).prints (expressions_shown es h.2)

/-- The steps of each of the arguments print its lexemes. -/
theorem arguments_shown : (args : List (Argument Expression)) → plainArguments args = true →
    List.Forall₂ (Prints Follows) (arguments args) (argumentLexemes args)
  | [], _ => .nil
  | ⟨some name, value⟩ :: args, h => by
    simp only [plainArguments, Option.all_some, Bool.and_eq_true] at h
    have hValue := shown_atLeast (expression_shown · value h.1.2) Strength.conditional false
    have hEquals : Prints Follows ([.write "="] ++ _) (["="] ++ _) :=
      (Prints.symbol (s := .assign) (by decide)).append hValue.prints fun rest _ => by
        obtain ⟨c, cs, hText, hNotEquals, hNotGreater, -⟩ := hValue.opens
        rw [hText]
        intro d hd hJoin
        cases hd
        have hJoins : Symbol.assign.joins.all (· ∈ ['=', '>']) = true := rfl
        have hChar : c ∈ ['=', '>'] := of_decide_eq_true (List.all_eq_true.1 hJoins c hJoin)
        simp [hNotEquals, hNotGreater] at hChar
    exact .cons ((prints_word h.1.1).append hEquals fun rest _ => follows_of_isBreak rfl _)
      (arguments_shown args h.2)
  | ⟨none, value⟩ :: args, h => by
    simp only [plainArguments, Option.all_none, Bool.true_and, Bool.and_eq_true] at h
    have hValue := expression_shown false value h.1
    rw [arguments, argumentLexemes]
    refine .cons ?_ (arguments_shown args h.2)
    split
    · exact prints_enclosed .lParen .rParen rfl rfl rfl hValue.prints
    · exact hValue.prints

/-- The steps of each of the struct entries print its lexemes. -/
theorem structEntries_shown : (entries : List (StructEntry Expression)) →
    plainEntries entries = true →
    List.Forall₂ (Prints Follows) (structEntries entries) (entryLexemes entries)
  | [], _ => .nil
  | ⟨key, separator, value⟩ :: entries, h => by
    simp only [plainEntries, Bool.and_eq_true] at h
    have hKey := prints_key h.1.1
    have hValue := (expression_shown false value h.1.2).prints
    have hSeparator : Prints (fun _ => True) [.write (match separator with
        | .colon => ": "
        | .equals => " = ")] [separator.text] := by
      cases separator with
      | colon => exact prints_spaced _ _ rfl (by decide)
      | equals => exact prints_padded _ _ rfl (by decide)
    refine .cons (hKey.append (hSeparator.before hValue) fun rest _ => ?_)
      (structEntries_shown entries h.2)
    cases separator <;> exact follows_of_isBreak rfl _

end

/-- Steps that only write are printed as what they write. -/
theorem run_of_writes {p : Printer} (hPending : p.pending = false)
    (h : ∀ step ∈ steps, ∃ text, step = .write text) :
    (p.run steps).text = p.text ++ String.ofList (written steps) := by
  induction steps generalizing p with
  | nil => simp
  | cons step steps ih =>
    obtain ⟨text, rfl⟩ := h step (by simp)
    have hRest := fun step hStep => h step (List.mem_cons_of_mem _ hStep)
    have hWrite : (p.write text).pending = false ∧ (p.write text).text = p.text ++ text := by
      unfold Printer.write
      by_cases hEmpty : text.isEmpty = true
      · rw [if_pos hEmpty, String.isEmpty_iff.1 hEmpty]
        simp [hPending]
      · simp [hEmpty, hPending]
    rw [Printer.run_cons, Printer.step, ih hWrite.1 hRest, hWrite.2, written_write]
    simp [String.append_assoc]

end Layout

/-- The text of a plain expression is put together from its lexemes, in any style and at any depth. -/
theorem Expression.lexes_render {e : Expression} (h : e.isPlain = true) (style : Style) (depth : Nat) :
    Scan.Lexes (e.render style depth).toList (Layout.lexemes false e) := by
  have hShown := (Layout.expression_shown false e h).prints
  have hText : (e.render style depth).toList = Layout.written (Layout.expression false e) := by
    rw [Expression.render, Step.print, Layout.run_of_writes rfl hShown.writes]
    simp [Printer.new]
  have hLexes := hShown.emits [] [] trivial (.nil rfl)
  rwa [List.append_nil, List.append_nil, ← hText] at hLexes

end CfScript
