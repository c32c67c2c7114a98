import CfScript.Text.Blank
import CfScript.Text.Lines
import CfScript.Text.Search

/-!
# Fixtures

A fixture records what is expected of a source: its tokens, its parse tree and its text when it is
written out again. It is kept in a text with up to three sections. Each section starts with a marker
line; the tokens end where another marker begins, and the other two sections end with an end marker.
Line breaks around the text of a section do not belong to it.

A text without any marker is a bare tree. A section that is not there and an empty one are the same,
except that an empty third section says that the source is expected to be written as it stands.

## Main results

* `expectedText_of_not_blank`: a third section with text is itself what is expected;
* `ofText_eq_error`: an unusable text has the marker of the section that is not terminated.
-/

namespace CfScript

/-- The parts of a fixture. -/
inductive Section where
  | tokens
  | tree
  | decompile
deriving DecidableEq, Inhabited

namespace Section

/-- The name of the section. -/
def name : Section → String
  | tokens => "TOKENS"
  | tree => "TREE"
  | decompile => "DECOMPILE"

/-- How every marker starts. -/
def anyMarker : String := "/*==="

/-- The marker after a tree and after a text. -/
def endMarker : String := "/*======*/"

/-- The marker at the start of the section. -/
def marker (s : Section) : String := "/*===" ++ s.name ++ "===*/"

/-- What ends the section. -/
def terminator : Section → String
  | tokens => anyMarker
  | tree => endMarker
  | decompile => endMarker

/-- What is wrong with a text in which the section has no end. -/
def unterminatedText (s : Section) : String := s.name ++ " section is not terminated"

/-- The text of the section in a fixture, if its marker is there. -/
def read (s : Section) (chars : List Char) : Except Section (Option String) :=
  match Text.cut s.marker.toList chars with
  | none => .ok none
  | some (_, after) =>
    match Text.cut s.terminator.toList (after.dropWhile Text.isLineBreak) with
    | none => .error s
    | some (body, _) => .ok (some (String.ofList (Text.trimEndBy Text.isLineBreak body)))

theorem read_eq_error {s t : Section} {chars : List Char} (h : s.read chars = .error t) :
    t = s ∧ Text.contains s.marker.toList chars = true := by
  unfold read at h
  split at h
  · simp at h
  · next before after hCut =>
    split at h
    · exact ⟨(Except.error.inj h).symm, by simp [Text.contains, hCut]⟩
    · simp at h

end Section

/-- What is expected of a source. -/
structure Fixture where
  tokens? : Option String := none
  tree? : Option String := none
  /-- The text of the source when it is written out; an empty text stands for the source itself. -/
  decompile? : Option String := none
deriving DecidableEq, Inhabited

namespace Fixture

/-- A section that says something: one that is not empty. -/
def filled (section? : Option String) : Option String := section?.filter (!·.isEmpty)

/-- The fixture of a text, or the section that is not terminated. -/
def ofText (text : String) : Except Section Fixture :=
  let chars := text.toList
  if Text.contains Section.anyMarker.toList chars then do
    let tokens? ← Section.tokens.read chars
    let tree? ← Section.tree.read chars
    let decompile? ← Section.decompile.read chars
    return { tokens? := filled tokens?, tree? := filled tree?, decompile? }
  else .ok { tree? := some text }

/-- A section with its markers. -/
def sectionText (s : Section) (body : String) : String :=
  s.marker ++ "\n" ++ body ++ "\n" ++ if s = .tokens then "" else Section.endMarker

/-- The text of a fixture. -/
def toText (f : Fixture) : String :=
  let tokens := (f.tokens?.map (sectionText .tokens)).getD ""
  let tree := (f.tree?.map (sectionText .tree)).getD ""
  let head := tokens ++ tree
  match f.decompile? with
  | none => head
  | some body => (if head.isEmpty then "" else head ++ "\n") ++ sectionText .decompile body

/-- What the source is expected to be written as, if anything is expected. -/
def expectedText (f : Fixture) (source : String) : Option String :=
  f.decompile?.map fun text => if Text.isBlankText text then source else text

theorem expectedText_of_not_blank {f : Fixture} {text : String} (source : String)
    (h : f.decompile? = some text) (hText : Text.isBlankText text = false) :
    f.expectedText source = some text := by
  simp [expectedText, h, hText]

theorem ofText_eq_error {text : String} {s : Section} (h : ofText text = .error s) :
    Text.contains s.marker.toList text.toList = true := by
  simp only [ofText] at h
  split at h
  · cases hTokens : Section.tokens.read text.toList with
    | error t =>
      rw [hTokens] at h
      obtain ⟨rfl, hMarker⟩ := Section.read_eq_error hTokens
      exact Except.error.inj h ▸ hMarker
    | ok tokens? =>
      cases hTree : Section.tree.read text.toList with
      | error t =>
        rw [hTokens, hTree] at h
        obtain ⟨rfl, hMarker⟩ := Section.read_eq_error hTree
        exact Except.error.inj h ▸ hMarker
      | ok tree? =>
        cases hText : Section.decompile.read text.toList with
        | error t =>
          rw [hTokens, hTree, hText] at h
          obtain ⟨rfl, hMarker⟩ := Section.read_eq_error hText
          exact Except.error.inj h ▸ hMarker
        | ok decompile? =>
          rw [hTokens, hTree, hText] at h
          simp [bind, Except.bind, pure, Except.pure] at h
  · simp at h

end Fixture

end CfScript
