import CfScript.Token.Basic

/-!
# Token streams

The parser reads the tokens of a source without its comments. A stream is those tokens with a cursor
among them; the end of the input stands after the last one and is never passed, so looking ahead
always finds a token. The stream can be wound back or forward to any place.

## Main results

* `tokens_advance`, `tokens_seek`: moving the cursor changes no token;
* `seek_pos`: seeking the place of the cursor changes nothing;
* `rest_length_advance`: a step forward leaves fewer tokens, except at an end of the input.
-/

namespace CfScript

/-- The tokens that the parser sees, with a cursor. -/
structure TokenStream where
  /-- The tokens before the cursor, the nearest first. -/
  before : List Token
  /-- The tokens from the cursor on, without the last one. -/
  rest : List Token
  /-- The end of the input. -/
  last : Token
  last_isEnd : last.isEnd = true
deriving DecidableEq

namespace TokenStream

instance : Inhabited TokenStream := ⟨[], [], .endAt 0 1, rfl⟩

/-- The stream of the tokens that are no comments, at the first of them. Tokens that do not end with
the end of the input are given one. -/
def ofTokens (tokens : List Token) : TokenStream :=
  let visible := tokens.filter (!·.kind.isTrivia)
  match visible.getLast? with
  | none => ⟨[], [], .endAt 0 1, rfl⟩
  | some t =>
    if hEnd : t.isEnd = true then ⟨[], visible.dropLast, t, hEnd⟩
    else ⟨[], visible, .endAt t.span.stop.toNat t.line, rfl⟩

/-- All tokens of the stream but the last. -/
def body (s : TokenStream) : List Token := s.before.reverse ++ s.rest

/-- All tokens of the stream. -/
def tokens (s : TokenStream) : List Token := s.body ++ [s.last]

/-- The number of tokens, the last one included. -/
def length (s : TokenStream) : Nat := s.body.length + 1

/-- Whether the stream has no token but the last. -/
def isEmpty (s : TokenStream) : Bool := s.length ≤ 1

/-- The number of tokens before the cursor. -/
def pos (s : TokenStream) : Nat := s.before.length

/-- The token `n` places after the cursor; past the end this is the last one. -/
def peek (s : TokenStream) (n : Nat) : Token := s.rest[n]?.getD s.last

/-- The token at the cursor. -/
def current (s : TokenStream) : Token := s.rest.head?.getD s.last

/-- The token just before the cursor. -/
def previous (s : TokenStream) : Option Token := s.before.head?

/-- Whether the cursor stands at an end of the input. -/
def atEnd (s : TokenStream) : Bool := s.current.isEnd

/-- The stream one token further; an end of the input is not passed. -/
def advance (s : TokenStream) : TokenStream :=
  match s.rest with
  | [] => s
  | t :: ts => if t.isEnd then s else { s with before := t :: s.before, rest := ts }

/-- The stream `n` tokens further. -/
def advanceBy (s : TokenStream) : Nat → TokenStream
  | 0 => s
  | n + 1 => s.advance.advanceBy n

/-- The stream with `n` tokens before the cursor, or all of them but the last. -/
def seek (s : TokenStream) (n : Nat) : TokenStream :=
  { s with before := (s.body.take n).reverse, rest := s.body.drop n }

/-- The stream at its first token. -/
def rewind (s : TokenStream) : TokenStream := s.seek 0

@[simp] theorem peek_zero (s : TokenStream) : s.peek 0 = s.current := by
  cases h : s.rest <;> simp [peek, current, h]

@[simp] theorem body_seek (s : TokenStream) (n : Nat) : (s.seek n).body = s.body := by
  rw [seek, body]
  simp only [List.reverse_reverse, List.take_append_drop]

theorem tokens_seek (s : TokenStream) (n : Nat) : (s.seek n).tokens = s.tokens := by
  rw [tokens, body_seek]
  rfl

@[simp] theorem body_advance (s : TokenStream) : s.advance.body = s.body := by
  unfold advance
  split
  · rfl
  · next t ts h =>
    split
    · rfl
    · simp [body, h]

@[simp] theorem last_advance (s : TokenStream) : s.advance.last = s.last := by
  unfold advance
  split
  · rfl
  · split <;> rfl

theorem tokens_advance (s : TokenStream) : s.advance.tokens = s.tokens := by
  simp [tokens]

theorem seek_pos (s : TokenStream) : s.seek s.pos = s := by
  have hTake : s.body.take s.pos = s.before.reverse := by simp [body, pos]
  have hDrop : s.body.drop s.pos = s.rest := by simp [body, pos]
  simp [seek, hTake, hDrop]

theorem rest_length_advance (s : TokenStream) :
    s.advance.rest.length + (if s.rest ≠ [] ∧ s.atEnd = false then 1 else 0) = s.rest.length := by
  unfold advance atEnd current
  cases h : s.rest with
  | nil => simp [h]
  | cons t ts => by_cases hEnd : t.isEnd = true <;> simp [h, hEnd]

end TokenStream

end CfScript
