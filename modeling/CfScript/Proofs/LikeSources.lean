import CfScript.Proofs.LetterCase
import CfScript.Proofs.LikeStatements

/-!
# Sources that say the same

What a script is depends on the tokens of its source that are no comments, and of a token on its kind
and its text: blanks, line breaks and comments change places and nothing else. Letter case changes the
texts of words and nothing else: no token, no tree and no finding is elsewhere or of another kind.

Both are the same induction over two runs, seen in the two views of what is alike.

## Main results

* `Script.ofSource_layout`: sources that differ in blanks and comments have the same script;
* `Token.tokens_fold`: the tokens of a source in small letters;
* `Script.ofSource_letterCase`: sources that differ in letter case have scripts of the same shape.
-/

namespace CfScript

variable {v : View}

/-! ## Blanks and comments -/

theorem Token.visible_like {source text : String}
    (h : (Token.visible source).map (fun t => (t.kind, t.lexeme)) =
      (Token.visible text).map fun t => (t.kind, t.lexeme)) :
    List.Forall₂ (Token.Like .wording) (Token.visible source) (Token.visible text) := by
  rw [← List.forall₂_eq_eq_eq, List.forall₂_map_left_iff, List.forall₂_map_right_iff] at h
  refine h.imp fun t u hSame => ?_
  obtain ⟨hKind, hLexeme⟩ := Prod.mk.inj hSame
  exact ⟨hKind, hLexeme ▸ .refl t.lexeme, nofun, nofun⟩

theorem View.wording_admits (rules : AttributeRules) : View.wording.Admits rules :=
  fun _ _ _ h => by rw [h.spelling rfl]

theorem Statement.root_beq {x? y? : Option Statement}
    (h : Option.Rel (Statement.Like .wording) x? y?) : (x? == y?) = true := by
  cases h with
  | none => rfl
  | some h => exact h rfl

/-- Sources whose tokens agree in kind and text, comments aside, have the same script up to places. -/
theorem Script.ofSource_layout {source text : String}
    (h : (Token.visible source).map (fun t => (t.kind, t.lexeme)) =
      (Token.visible text).map fun t => (t.kind, t.lexeme))
    (options : ParseOptions) (rules : AttributeRules) :
    let x := ofSource source options rules
    let y := ofSource text options rules
    x.prediction = y.prediction ∧ x.tree.written = y.tree.written ∧ (x.root? == y.root?) = true ∧
      x.findings.entries.map (fun d => (d.severity, d.phase, d.code, d.message, d.notes, d.help)) =
        y.findings.entries.map
          fun d => (d.severity, d.phase, d.code, d.message, d.notes, d.help) := by
  intro x y
  have hLike : x.Like .wording y :=
    ofSource_like (Token.visible_like h) options (View.wording_admits rules)
  refine ⟨hLike.prediction, hLike.tree.written rfl, Statement.root_beq hLike.root?, ?_⟩
  rw [← List.forall₂_eq_eq_eq, List.forall₂_map_left_iff, List.forall₂_map_right_iff]
  refine List.Forall₂.imp (fun d e h => ?_) hLike.findings
  rw [h.severity, h.phase, h.code, h.message rfl, h.notes, h.help]

/-- A comment and a line break do not change what is found about a missing semicolon. -/
theorem Script.ofSource_layout_comment :
    (Token.visible "a = b c").map (fun t => (t.kind, t.lexeme)) =
        (Token.visible "a /* to */=\n b\n\nc // end").map (fun t => (t.kind, t.lexeme)) ∧
      let x := ofSource "a = b c"
      let y := ofSource "a /* to */=\n b\n\nc // end"
      x.hasErrors = true ∧ x.prediction = y.prediction ∧ x.tree.written = y.tree.written ∧
        (x.root? == y.root?) = true := by
  have hTokens : (Token.visible "a = b c").map (fun t => (t.kind, t.lexeme)) =
      (Token.visible "a /* to */=\n b\n\nc // end").map fun t => (t.kind, t.lexeme) := by
    decide +kernel
  obtain ⟨hPrediction, hTree, hRoot, -⟩ := ofSource_layout hTokens {} {}
  exact ⟨hTokens, by decide +kernel, hPrediction, hTree, hRoot⟩

/-! ## Letter case -/

/-- The token with its text in small letters. -/
def Token.folded (t : Token) : Token := { t with lexeme := Text.fold t.lexeme }

/-- The leaf with its text in small letters. -/
def Leaf.folded : Leaf → Leaf
  | .matched t => .matched t.folded
  | .skipped t => .skipped t.folded
  | .assumed what => .assumed what

mutual

/-- The tree with its texts in small letters. -/
def Tree.folded : Tree → Tree
  | .node r cs => .node r (foldedAll cs)
  | .leaf l => .leaf l.folded

/-- The trees with their texts in small letters. -/
def Tree.foldedAll : List Tree → List Tree
  | [] => []
  | t :: ts => t.folded :: foldedAll ts

end

theorem Token.Like.folded {t u : Token} (h : t.Like .standing u) : t.folded = u.folded := by
  rw [Token.folded, Token.folded, h.kind, h.lexeme.fold, h.span rfl, h.line rfl]

theorem Token.like_of_folded {t u : Token} (h : t.folded = u.folded) : t.Like .standing u := by
  obtain ⟨hKind, hLexeme, hSpan, hLine⟩ := Token.mk.inj h
  exact ⟨hKind, ⟨hLexeme, nofun⟩, fun _ => hSpan, fun _ => hLine⟩

theorem Leaf.Like.folded {l m : Leaf} (h : l.Like .standing m) : l.folded = m.folded := by
  cases h with
  | matched h => rw [Leaf.folded, Leaf.folded, h.folded]
  | skipped h => rw [Leaf.folded, Leaf.folded, h.folded]
  | assumed what => rfl

theorem Tree.Like.folded {t u : Tree} (h : t.Like .standing u) : t.folded = u.folded := by
  refine rec_on (motive := fun t u => t.folded = u.folded) (fun r cs ds hLike h => ?_)
    (fun l m h => ?_) t u h
  · have hAll : foldedAll cs = foldedAll ds := by
      clear hLike
      induction h with
      | nil => rfl
      | cons h _ ih => rw [foldedAll, foldedAll, h, ih]
    rw [Tree.folded, Tree.folded, hAll]
  · rw [Tree.folded, Tree.folded, h.folded]

namespace Token

theorem ofLexeme_foldChars (c : Char) (cs : List Char) (start : Nat) (line : LineNumber) :
    ofLexeme c.toLower (Text.foldChars cs) start line = (ofLexeme c cs start line).folded := by
  simp only [ofLexeme, folded, Scan.lexeme_foldChars, ← Text.foldChars_take, ← Text.foldChars_cons,
    Text.fold_ofList, Text.byteLength_foldChars]

theorem scan_foldChars (chars : List Char) (offset : Nat) (line : LineNumber) :
    scan (Text.foldChars chars) offset line = (scan chars offset line).map folded := by
  have hGap : Scan.isGap ∘ Char.toLower = Scan.isGap :=
    funext fun c => Text.apply_toLower Scan.isGap (by decide) c
  have hBefore (chars : List Char) : (Text.foldChars chars).takeWhile Scan.isGap =
      Text.foldChars (chars.takeWhile Scan.isGap) := by
    rw [Text.foldChars, List.takeWhile_map, hGap, Text.foldChars]
  have hAfter (chars : List Char) : (Text.foldChars chars).dropWhile Scan.isGap =
      Text.foldChars (chars.dropWhile Scan.isGap) := by
    rw [Text.foldChars, List.dropWhile_map, hGap, Text.foldChars]
  have hLines (chars : List Char) : (Text.foldChars chars).count '\n' = chars.count '\n' :=
    Text.count_foldChars (by decide) chars
  fun_induction scan chars offset line with
  | case1 chars offset line gap start startLine hRest =>
    have hFolded : (Text.foldChars chars).dropWhile Scan.isGap = [] := by rw [hAfter, hRest]; rfl
    rw [scan_of_gap _ _ hFolded, hBefore, Text.byteLength_foldChars, hLines]
    rfl
  | case2 chars offset line gap start startLine c cs hRest more text ih =>
    have hFolded : (Text.foldChars chars).dropWhile Scan.isGap =
        c.toLower :: Text.foldChars cs := by rw [hAfter, hRest]; rfl
    rw [scan_of_lexeme _ _ hFolded, List.map_cons, ← ih]
    simp only [Scan.lexeme_foldChars, ofLexeme_foldChars, hBefore, ← Text.foldChars_take,
      ← Text.foldChars_drop, ← Text.foldChars_cons, Text.byteLength_foldChars, hLines, start,
      startLine, gap, text, more]

/-- The tokens of a source in small letters are its tokens in small letters. -/
theorem tokens_fold (source : String) : tokens (Text.fold source) = (tokens source).map folded := by
  rw [tokens, Text.fold, String.toList_ofList, scan_foldChars, tokens]

theorem visible_like_of_fold {source text : String} (h : Text.fold source = Text.fold text) :
    List.Forall₂ (Token.Like .standing) (visible source) (visible text) := by
  have hFolded : (tokens source).map folded = (tokens text).map folded := by
    rw [← tokens_fold, ← tokens_fold, h]
  rw [← List.forall₂_eq_eq_eq, List.forall₂_map_left_iff, List.forall₂_map_right_iff] at hFolded
  exact forall₂_filter (hFolded.imp fun _ _ => like_of_folded) fun _ _ h => by rw [h.kind]

end Token

/-- Sources that differ in letter case have tokens, trees and findings at the same places, of the same
kinds and with the same texts up to letter case. -/
theorem Script.ofSource_letterCase {source text : String} (h : Text.fold source = Text.fold text) :
    (Token.tokens source).map Token.folded = (Token.tokens text).map Token.folded ∧
      ∀ (options : ParseOptions) (policy : AttributePolicy),
        let x := ofSource source options { policy }
        let y := ofSource text options { policy }
        x.prediction = y.prediction ∧ x.tree.folded = y.tree.folded ∧
          x.findings.entries.map (fun d => (d.code, d.severity, d.span)) =
            y.findings.entries.map fun d => (d.code, d.severity, d.span) := by
  refine ⟨by rw [← Token.tokens_fold, ← Token.tokens_fold, h], fun options policy => ?_⟩
  intro x y
  have hLike : x.Like .standing y :=
    ofSource_like (Token.visible_like_of_fold h) options fun _ _ _ _ => rfl
  refine ⟨hLike.prediction, hLike.tree.folded, ?_⟩
  rw [← List.forall₂_eq_eq_eq, List.forall₂_map_left_iff, List.forall₂_map_right_iff]
  refine List.Forall₂.imp (fun d e h => ?_) hLike.findings
  rw [h.code, h.severity, h.span rfl]

/-- Keywords, exponents, modifiers and attribute names in capitals change nothing. -/
theorem Script.ofSource_letterCase_capitals :
    let small := "private function f(required a) output=1 output=2 { if (a lt 1e5) return b c }"
    let large := "PRIVATE Function F(REQUIRED A) output=1 OUTPUT=2 { IF (A LT 1E5) Return B C }"
    Text.fold small = Text.fold large ∧
      let x := ofSource small
      let y := ofSource large
      x.findings.length = 2 ∧ x.prediction = y.prediction ∧ x.tree.folded = y.tree.folded := by
  intro small large
  have hFold : Text.fold small = Text.fold large := by decide +kernel
  obtain ⟨hPrediction, hTree, -⟩ := (ofSource_letterCase hFold).2 {} .warn
  exact ⟨hFold, by decide +kernel, hPrediction, hTree⟩

end CfScript
