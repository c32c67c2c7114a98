import CfScript.Proofs.LetterCase
import CfScript.Token.Stream
import CfScript.Tree.Basic
import Mathlib.Data.List.Forall2

/-!
# Sources that look alike

Two sources may agree in what they say and differ in how they are written: in the blanks and comments
between their tokens, or in the letter case of their words. A *view* says which of these differences it
sees. Tokens, trees and findings are alike in a view if they differ in nothing that it sees; in every
view they are of the same kinds, in the same order, and of the same words up to letter case.

What is alike in a view is told apart by no decision of the parser: decisions look at kinds, and at
words in small letters.

## Main results

* `View.wording`, `View.standing`: the view that sees no places, and the one that sees no letter case;
* `Tree.Like.rec_on`: induction over two trees that are alike;
* `Tree.Like.written`, `Tree.Like.span?`: what trees that are alike have in common.
-/

namespace CfScript

/-- What is seen of a source, besides kinds of tokens and words up to letter case. -/
structure View where
  /-- Whether the letter case of texts is seen. -/
  spelling : Bool
  /-- Whether places and lines are seen. -/
  places : Bool

namespace View

/-- The view that sees texts as they are spelled, wherever they stand. -/
def wording : View := ⟨true, false⟩

/-- The view that sees where texts stand, in whatever letter case they are spelled. -/
def standing : View := ⟨false, true⟩

variable {v : View} {a b c d : String}

/-- Texts that are alike: the same up to letter case, which may be seen. -/
structure SameText (v : View) (a b : String) : Prop where
  fold : Text.fold a = Text.fold b
  spelling : v.spelling = true → a = b

theorem SameText.refl (a : String) : v.SameText a a := ⟨rfl, fun _ => rfl⟩

theorem SameText.append (hab : v.SameText a b) (hcd : v.SameText c d) :
    v.SameText (a ++ c) (b ++ d) where
  fold := by rw [Text.fold_append, Text.fold_append, hab.fold, hcd.fold]
  spelling hSeen := by rw [hab.spelling hSeen, hcd.spelling hSeen]

theorem SameText.sameName (h : v.SameText a b) (name : String) :
    Text.sameName a name = Text.sameName b name := by
  simp [Text.sameName, h.fold]

theorem SameText.sameName_right (h : v.SameText a b) (name : String) :
    Text.sameName name a = Text.sameName name b := by
  simp [Text.sameName, h.fold]

end View

/-! ## Tokens -/

/-- Tokens that are alike. -/
structure Token.Like (v : View) (t u : Token) : Prop where
  kind : t.kind = u.kind
  lexeme : v.SameText t.lexeme u.lexeme
  span : v.places = true → t.span = u.span
  line : v.places = true → t.line = u.line

namespace Token.Like

variable {v : View} {t u : Token}

theorem isEnd (h : t.Like v u) : t.isEnd = u.isEnd := by rw [Token.isEnd, Token.isEnd, h.kind]

theorem isWordNamed (h : t.Like v u) (name : String) : t.isWordNamed name = u.isWordNamed name := by
  rw [Token.isWordNamed, Token.isWordNamed, h.kind, h.lexeme.sameName]

theorem found (h : t.Like v u) (hSeen : v.spelling = true) : t.found = u.found := by
  rw [Token.found, Token.found, h.isEnd, h.lexeme.spelling hSeen]

end Token.Like

/-! ## Findings -/

/-- Findings that are alike. The words of a finding may show a text of the source. -/
structure Diagnostic.Like (v : View) (d e : Diagnostic) : Prop where
  severity : d.severity = e.severity
  phase : d.phase = e.phase
  code : d.code = e.code
  notes : d.notes = e.notes
  help : d.help = e.help
  message : v.spelling = true → d.message = e.message
  span : v.places = true → d.span = e.span

/-- Logs whose findings are alike in turn. -/
def Log.Like (v : View) (log other : Log) : Prop :=
  List.Forall₂ (Diagnostic.Like v) log.entries other.entries

namespace Log.Like

variable {v : View} {log other : Log}

theorem empty : Log.empty.Like v .empty := .nil

theorem length (h : log.Like v other) : log.length = other.length := h.length_eq

theorem append (h : log.Like v other) {ds es : List Diagnostic}
    (hMore : List.Forall₂ (Diagnostic.Like v) ds es) : (log.append ds).Like v (other.append es) :=
  List.rel_append h hMore

theorem push (h : log.Like v other) {d e : Diagnostic} (hMore : d.Like v e) :
    (log.push d).Like v (other.push e) :=
  h.append (.cons hMore .nil)

theorem truncate (h : log.Like v other) (count : Nat) :
    (log.truncate count).Like v (other.truncate count) :=
  List.forall₂_take count h

/-- The source of a finding adds its line and its context. -/
theorem locate (h : log.Like v other) (source text : String) :
    (log.locate source).Like v (other.locate text) :=
  List.rel_map (fun _ _ h => ⟨h.severity, h.phase, h.code, h.notes, h.help, h.message, h.span⟩) h

end Log.Like

namespace Token.Like

variable {v : View} {t u : Token}

theorem invalidText (h : t.Like v u) :
    (Token.invalidText t.lexeme t.span t.line).Like v
      (Token.invalidText u.lexeme u.span u.line) := by
  have hCode : invalidCode t.lexeme = invalidCode u.lexeme := by
    rw [← invalidCode_fold, h.lexeme.fold, invalidCode_fold]
  constructor
  · rfl
  · rfl
  · exact congrArg some hCode
  · rfl
  · rfl
  · intro hSeen
    simp only [Token.invalidText, h.lexeme.spelling hSeen]
    split <;> rfl
  · exact h.span

/-- The findings about tokens that are alike are alike. -/
theorem complaint? (h : t.Like v u) :
    List.Forall₂ (Diagnostic.Like v) t.complaint?.toList u.complaint?.toList := by
  unfold Token.complaint?
  rw [h.kind]
  split
  · exact .cons h.invalidText .nil
  · exact .nil

end Token.Like

/-! ## Streams -/

namespace TokenStream

/-- Streams whose tokens are alike in turn, at the same place. -/
structure Like (v : View) (s t : TokenStream) : Prop where
  before : List.Forall₂ (Token.Like v) s.before t.before
  rest : List.Forall₂ (Token.Like v) s.rest t.rest
  last : s.last.Like v t.last

namespace Like

variable {v : View} {s t : TokenStream}

theorem pos (h : s.Like v t) : s.pos = t.pos := h.before.length_eq

theorem body (h : s.Like v t) : List.Forall₂ (Token.Like v) s.body t.body :=
  List.rel_append (List.rel_reverse h.before) h.rest

theorem peek (h : s.Like v t) (n : Nat) : (s.peek n).Like v (t.peek n) := by
  have hRest := h.rest
  unfold TokenStream.peek
  generalize s.rest = ts at hRest
  generalize t.rest = us at hRest
  induction hRest generalizing n with
  | nil => exact h.last
  | cons hToken _ ih =>
    cases n with
    | zero => exact hToken
    | succ n => exact ih n

theorem current (h : s.Like v t) : s.current.Like v t.current := by
  simpa using h.peek 0

theorem atEnd (h : s.Like v t) : s.atEnd = t.atEnd := h.current.isEnd

theorem advance (h : s.Like v t) : s.advance.Like v t.advance := by
  have hRest := h.rest
  unfold TokenStream.advance
  split
  · next hNil =>
    rw [hNil] at hRest
    simpa only [List.forall₂_nil_left_iff.1 hRest] using h
  · next a as hCons =>
    rw [hCons] at hRest
    obtain ⟨b, bs, hToken, hTail, hEq⟩ := List.forall₂_cons_left_iff.1 hRest
    simp only [hEq, hToken.isEnd]
    split
    · exact h
    · exact ⟨.cons hToken h.before, hTail, h.last⟩

theorem advanceBy (h : s.Like v t) (n : Nat) : (s.advanceBy n).Like v (t.advanceBy n) := by
  induction n generalizing s t with
  | zero => exact h
  | succ n ih => exact ih h.advance

theorem seek (h : s.Like v t) (n : Nat) : (s.seek n).Like v (t.seek n) :=
  ⟨List.rel_reverse (List.forall₂_take n h.body), List.forall₂_drop n h.body, h.last⟩

end Like

end TokenStream

/-! ## Trees -/

/-- Leaves that are alike. -/
inductive Leaf.Like (v : View) : Leaf → Leaf → Prop where
  | matched {t u : Token} (h : t.Like v u) : Like v (.matched t) (.matched u)
  | skipped {t u : Token} (h : t.Like v u) : Like v (.skipped t) (.skipped u)
  | assumed (what : String) : Like v (.assumed what) (.assumed what)

namespace Leaf.Like

variable {v : View} {l m : Leaf}

theorem isError (h : l.Like v m) : l.isError = m.isError := by
  cases h <;> rfl

theorem text (h : l.Like v m) : v.SameText l.text m.text := by
  cases h with
  | matched h => exact h.lexeme
  | skipped h => exact h.lexeme
  | assumed what => exact .refl ""

theorem written (h : l.Like v m) (hSeen : v.spelling = true) : l.written = m.written := by
  cases h with
  | matched h => rw [Leaf.written, Leaf.written, h.isEnd, h.lexeme.spelling hSeen]
  | skipped h => rw [Leaf.written, Leaf.written, h.isEnd, h.lexeme.spelling hSeen]
  | assumed what => rfl

theorem span? (h : l.Like v m) (hSeen : v.places = true) : l.span? = m.span? := by
  cases h with
  | matched h => simp only [Leaf.span?, Leaf.token?, Option.bind_some, h.isEnd, h.span hSeen]
  | skipped h => simp only [Leaf.span?, Leaf.token?, Option.bind_some, h.isEnd, h.span hSeen]
  | assumed what => rfl

end Leaf.Like

/-- Trees of the same rules whose leaves are alike in turn. -/
inductive Tree.Like (v : View) : Tree → Tree → Prop where
  | node (r : Rule) {cs ds : List Tree} (h : List.Forall₂ (Like v) cs ds) :
    Like v (.node r cs) (.node r ds)
  | leaf {l m : Leaf} (h : l.Like v m) : Like v (.leaf l) (.leaf m)

namespace Tree

variable {v : View} {t u : Tree}

mutual

/-- Induction over two trees that are alike. -/
theorem Like.rec_on {motive : Tree → Tree → Prop}
    (node : ∀ r cs ds, List.Forall₂ (Like v) cs ds → List.Forall₂ motive cs ds →
      motive (.node r cs) (.node r ds))
    (leaf : ∀ l m, l.Like v m → motive (.leaf l) (.leaf m)) :
    (t u : Tree) → t.Like v u → motive t u
  | .node r cs, _, .node _ h => node r cs _ h (Like.rec_all node leaf cs _ h)
  | .leaf l, _, .leaf h => leaf l _ h

/-- Induction over the trees of two lists that are alike in turn. -/
theorem Like.rec_all {motive : Tree → Tree → Prop}
    (node : ∀ r cs ds, List.Forall₂ (Like v) cs ds → List.Forall₂ motive cs ds →
      motive (.node r cs) (.node r ds))
    (leaf : ∀ l m, l.Like v m → motive (.leaf l) (.leaf m)) :
    (cs ds : List Tree) → List.Forall₂ (Like v) cs ds → List.Forall₂ motive cs ds
  | [], _, .nil => .nil
  | c :: cs, _, .cons h hs => .cons (Like.rec_on node leaf c _ h) (Like.rec_all node leaf cs _ hs)

end

namespace Like

theorem leaves (h : t.Like v u) : List.Forall₂ (Leaf.Like v) t.leaves u.leaves := by
  refine rec_on (motive := fun t u => List.Forall₂ (Leaf.Like v) t.leaves u.leaves)
    (fun r cs ds hLike h => ?_) (fun l m h => .cons h .nil) t u h
  simp only [Tree.leaves]
  clear hLike
  induction h with
  | nil => exact .nil
  | cons h _ ih => exact List.rel_append h ih

theorem rule? (h : t.Like v u) : t.rule? = u.rule? := by
  cases h <;> rfl

theorem children (h : t.Like v u) : List.Forall₂ (Like v) t.children u.children := by
  cases h with
  | node r h => exact h
  | leaf h => exact .nil

theorem hasErrors (h : t.Like v u) : t.hasErrors = u.hasErrors := by
  have hLeaves := h.leaves
  rw [hasErrors_eq_leaves, hasErrors_eq_leaves]
  generalize t.leaves = ls, u.leaves = ms at hLeaves
  induction hLeaves with
  | nil => rfl
  | cons hLeaf _ ih => rw [List.any_cons, List.any_cons, ih, hLeaf.isError]

theorem text (h : t.Like v u) : v.SameText t.text u.text := by
  have hLeaves := h.leaves
  unfold Tree.text
  generalize t.leaves = ls, u.leaves = ms at hLeaves
  induction hLeaves with
  | nil => exact .refl ""
  | cons hLeaf _ ih =>
    simp only [List.map_cons, String.join_cons]
    exact hLeaf.text.append ih

theorem firstToken? (h : t.Like v u) : Option.Rel (Token.Like v) t.firstToken? u.firstToken? := by
  have hLeaves := h.leaves
  unfold Tree.firstToken?
  generalize t.leaves = ls, u.leaves = ms at hLeaves
  induction hLeaves with
  | nil => exact .none
  | cons hLeaf _ ih =>
    cases hLeaf with
    | matched h => exact .some h
    | skipped h => exact .some h
    | assumed what => exact ih

/-- Trees that are alike are written alike, if spelling is seen. -/
theorem written (h : t.Like v u) (hSeen : v.spelling = true) : t.written = u.written := by
  refine rec_on (motive := fun t u => t.written = u.written) (fun r cs ds hLike h => ?_)
    (fun l m h => h.written hSeen) t u h
  have hAll : writtenAll cs = writtenAll ds := by
    clear hLike
    induction h with
    | nil => rfl
    | cons h _ ih => rw [writtenAll, writtenAll, h, ih]
  rw [Tree.written, Tree.written, hAll]

/-- Trees that are alike cover the same places, if places are seen. -/
theorem span? (h : t.Like v u) (hSeen : v.places = true) : t.span? = u.span? := by
  refine rec_on (motive := fun t u => t.span? = u.span?) (fun r cs ds hLike h => ?_)
    (fun l m h => h.span? hSeen) t u h
  have hAll : spans cs = spans ds := by
    clear hLike
    induction h with
    | nil => rfl
    | cons h _ ih => rw [spans, spans, h, ih]
  rw [Tree.span?, Tree.span?, hAll]

theorem span (h : t.Like v u) (hSeen : v.places = true) : t.span = u.span := by
  have hAll : spans t.children = spans u.children := by
    have hChildren := h.children
    generalize t.children = cs, u.children = ds at hChildren
    induction hChildren with
    | nil => rfl
    | cons h _ ih => rw [spans, spans, h.span? hSeen, ih]
  rw [Tree.span, Tree.span, hAll]

end Like

end Tree

end CfScript
