import CfScript.Fixture.Check
import CfScript.Proofs.Coverage

/-!
# A fixture is read back from its text

The sections of a fixture stand between markers that are found by searching for them, and whatever
looks like a marker is taken for one. So the text of a fixture says what the fixture says if no
section has the start of a marker in it; if one has, it is cut off there.

A marker holds no line feed, and the text of a fixture is made of pieces with a line feed between each
two: markers and texts of sections. So a search passes the pieces one by one, and what is read of a
section is the section without the line breaks at its ends, which no comparison looks at. Only the
tokens have no end of their own: they go on to the next section, so there must be one.

## Main results

* `Text.after?_onLines`: a search passes the pieces that do not hold what is searched for;
* `Fixture.read_toText`: every section is read back without the line breaks at its ends;
* `Fixture.ofText_toText`: a fixture with free, trimmed and non-empty sections is read back as it is;
* `Fixture.check_ofText_toText`: a source without errors passes the fixture that is read back.
-/

namespace CfScript

/-! ## Searching -/

namespace Text

variable {pattern a b : List Char}

theorem contains_eq_false_iff : contains pattern a = false ↔ ¬ pattern <:+: a := by
  rw [contains, Option.isSome_eq_false_iff, Option.isNone_iff_eq_none, cut_eq_none_iff]
  constructor
  · rintro h ⟨before, after, rfl⟩
    exact h before after (List.append_assoc ..)
  · intro h before after hEq
    exact h ⟨before, after, by rw [hEq, List.append_assoc]⟩

theorem free_of_part (h : contains pattern b = false) (hPart : a <:+: b) :
    contains pattern a = false :=
  contains_eq_false_iff.2 fun hIn => contains_eq_false_iff.1 h (hIn.trans hPart)

/-- A text without the start of a pattern is without the pattern. -/
theorem free_of_start {start : List Char} (h : contains start a = false) (hStart : start <:+: pattern) :
    contains pattern a = false :=
  contains_eq_false_iff.2 fun hIn => contains_eq_false_iff.1 h (hStart.trans hIn)

theorem cut_head (pattern after : List Char) : cut pattern (pattern ++ after) = some ([], after) := by
  cases h : pattern ++ after with
  | nil =>
    obtain ⟨rfl, rfl⟩ := List.append_eq_nil_iff.1 h
    rfl
  | cons c cs =>
    have hPrefix : pattern.isPrefixOf (c :: cs) = true :=
      List.isPrefixOf_iff_prefix.2 ⟨after, h⟩
    rw [cut, if_pos hPrefix, ← h, List.drop_left]

/-- What begins in front of a character that it does not hold ends there. -/
theorem isPrefixOf_separated {c : Char} (hc : c ∉ pattern) :
    pattern.isPrefixOf (a ++ c :: b) = pattern.isPrefixOf a := by
  rw [Bool.eq_iff_iff, List.isPrefixOf_iff_prefix, List.isPrefixOf_iff_prefix]
  refine ⟨fun h => ?_, fun h => h.trans (List.prefix_append ..)⟩
  rcases List.prefix_or_prefix_of_prefix h (List.prefix_append a (c :: b)) with h | ⟨rest, rfl⟩
  · exact h
  · cases rest with
    | nil => simp
    | cons d ds =>
      have hHead := (List.prefix_append_right_inj a).1 h
      rw [List.cons_prefix_cons] at hHead
      exact absurd (by simp [hHead.1]) hc

/-- A search passes what stands in front of a character that is not searched for. -/
theorem cut_separated {c : Char} (hc : c ∉ pattern) (h : contains pattern a = false) :
    cut pattern (a ++ c :: b) = (cut pattern b).map fun (before, after) => (a ++ c :: before, after) := by
  induction a with
  | nil =>
    have hNot : pattern.isPrefixOf (c :: b) = false := by
      have hNil := isPrefixOf_separated (a := []) (b := b) hc
      rw [List.nil_append] at hNil
      rw [hNil]
      cases pattern with
      | nil => cases h
      | cons => rfl
    rw [List.nil_append, cut, hNot]
    rfl
  | cons d ds ih =>
    have hNot : pattern.isPrefixOf (d :: ds) = false := by
      rw [← Bool.not_eq_true, List.isPrefixOf_iff_prefix]
      exact fun hPrefix => contains_eq_false_iff.1 h hPrefix.isInfix
    have hTail := ih (free_of_part h (List.suffix_cons d ds).isInfix)
    have hSame : pattern.isPrefixOf (d :: (ds ++ c :: b)) = false :=
      (isPrefixOf_separated (a := d :: ds) hc).trans hNot
    rw [List.cons_append, cut, hSame, if_neg Bool.false_ne_true, hTail, Option.map_map]
    rfl

/-- The characters after the first occurrence of a pattern. -/
def after? (pattern chars : List Char) : Option (List Char) := (cut pattern chars).map (·.2)

theorem after?_head (pattern after : List Char) : after? pattern (pattern ++ after) = some after := by
  rw [after?, cut_head]
  rfl

theorem after?_separated {c : Char} (hc : c ∉ pattern) (h : contains pattern a = false) :
    after? pattern (a ++ c :: b) = after? pattern b := by
  rw [after?, cut_separated hc h, Option.map_map]
  rfl

theorem after?_eq_none_iff : after? pattern a = none ↔ contains pattern a = false := by
  rw [after?, Option.map_eq_none_iff, contains, Option.isSome_eq_false_iff, Option.isNone_iff_eq_none]

/-! ## Pieces between line feeds -/

/-- The pieces with a line feed between each two. -/
def onLines (pieces : List (List Char)) : List Char := ['\n'].intercalate pieces

@[simp] theorem onLines_nil : onLines [] = [] := rfl

@[simp] theorem onLines_singleton (piece : List Char) : onLines [piece] = piece := by
  simp [onLines]

@[simp] theorem onLines_cons_cons (piece next : List Char) (rest : List (List Char)) :
    onLines (piece :: next :: rest) = piece ++ '\n' :: onLines (next :: rest) := by
  simp [onLines]

theorem onLines_cons {pieces : List (List Char)} (piece : List Char) (h : pieces ≠ []) :
    onLines (piece :: pieces) = piece ++ '\n' :: onLines pieces := by
  obtain ⟨next, rest, rfl⟩ := List.exists_cons_of_ne_nil h
  exact onLines_cons_cons piece next rest

/-- A search for a text without a line feed passes the pieces that do not hold it. -/
theorem after?_onLines {front rest : List (List Char)} (hFeed : '\n' ∉ pattern)
    (h : ∀ piece ∈ front, contains pattern piece = false) (hRest : rest ≠ []) :
    after? pattern (onLines (front ++ rest)) = after? pattern (onLines rest) := by
  induction front with
  | nil => rfl
  | cons piece front ih =>
    obtain ⟨hPiece, hFront⟩ := List.forall_mem_cons.1 h
    rw [List.cons_append, onLines_cons piece (by simp [hRest]), after?_separated hFeed hPiece,
      ih hFront]

/-- A text without a line feed that no piece holds is not found. -/
theorem after?_onLines_eq_none {pieces : List (List Char)} (hFeed : '\n' ∉ pattern)
    (hPattern : pattern ≠ []) (h : ∀ piece ∈ pieces, contains pattern piece = false) :
    after? pattern (onLines pieces) = none := by
  rcases List.eq_nil_or_concat pieces with rfl | ⟨front, last, rfl⟩
  · rw [onLines_nil, after?, cut, if_neg (by simpa using hPattern)]
    rfl
  · obtain ⟨hFront, hLast⟩ := List.forall_mem_append.1 (List.concat_eq_append ▸ h)
    rw [List.concat_eq_append, after?_onLines hFeed hFront (List.cons_ne_nil _ _), onLines_singleton,
      after?_eq_none_iff]
    exact hLast last (List.mem_singleton_self last)

/-! ## Line breaks at the ends -/

/-- The text without the line breaks at its ends. -/
def trimBreaks (text : String) : String := String.ofList (trimBy isLineBreak text.toList)

theorem isBlank_of_isLineBreak {c : Char} (h : isLineBreak c = true) : isBlank c = true := by
  simp only [isLineBreak, Bool.or_eq_true, beq_iff_eq] at h
  rcases h with rfl | rfl <;> decide

theorem wordsFrom_append_blanks {tail : List Char} (h : ∀ c ∈ tail, isBlank c = true)
    (word chars : List Char) : wordsFrom word (chars ++ tail) = wordsFrom word chars := by
  induction chars generalizing word with
  | cons c cs ih => simp only [List.cons_append, wordsFrom, ih]
  | nil =>
    rw [List.nil_append]
    induction tail generalizing word with
    | nil => rfl
    | cons c cs ih =>
      have hTail := ih (fun d hd => h d (by simp [hd])) []
      simp [wordsFrom, h c (by simp), hTail, consWord]

theorem wordsFrom_dropWhile {p : Char → Bool} (h : ∀ c, p c = true → isBlank c = true)
    (chars : List Char) : wordsFrom [] (chars.dropWhile p) = wordsFrom [] chars := by
  induction chars with
  | nil => rfl
  | cons c cs ih =>
    cases hc : p c with
    | false => rw [List.dropWhile_cons_of_neg (by simp [hc])]
    | true =>
      rw [List.dropWhile_cons_of_pos hc, ih, wordsFrom, if_pos (h c hc)]
      rfl

/-- The line breaks at its ends are no part of the words of a text. -/
theorem words_trimBreaks (text : String) : words (trimBreaks text) = words text := by
  obtain ⟨tail, hSplit, hTail⟩ := exists_trimEndBy isLineBreak (text.toList.dropWhile isLineBreak)
  have hBlank : ∀ c ∈ tail, isBlank c = true := fun c hMem => isBlank_of_isLineBreak (hTail c hMem)
  have hTrim : wordsFrom [] (trimBy isLineBreak text.toList) = wordsFrom [] text.toList :=
    calc wordsFrom [] (trimEndBy isLineBreak (text.toList.dropWhile isLineBreak))
        = wordsFrom [] (trimEndBy isLineBreak (text.toList.dropWhile isLineBreak) ++ tail) :=
          (wordsFrom_append_blanks hBlank [] _).symm
      _ = wordsFrom [] (text.toList.dropWhile isLineBreak) := by rw [← hSplit]
      _ = wordsFrom [] text.toList := wordsFrom_dropWhile (fun _ => isBlank_of_isLineBreak) _
  rw [words, words, trimBreaks, String.toList_ofList, hTrim]

theorem trimBreaks_append_newline (text : String) : trimBreaks (text ++ "\n") = trimBreaks text := by
  have hNewline : ("\n" : String).toList = ['\n'] := rfl
  have hBreak : isLineBreak '\n' = true := rfl
  have hDrop : (text.toList ++ ['\n']).dropWhile isLineBreak =
      if (text.toList.dropWhile isLineBreak).isEmpty then []
      else text.toList.dropWhile isLineBreak ++ ['\n'] := by
    rw [List.dropWhile_append, List.dropWhile_cons_of_pos hBreak]
    rfl
  rw [trimBreaks, trimBreaks, String.toList_append, hNewline, trimBy, hDrop]
  split
  · next hEmpty => simp [trimBy, List.isEmpty_iff.1 hEmpty]
  · simp [trimBy, hBreak]

/-- Whether no line break stands at either end of the text. -/
def Trimmed (text : String) : Prop :=
  (∀ c ∈ text.toList.head?, isLineBreak c = false) ∧ ∀ c ∈ text.toList.getLast?, isLineBreak c = false

theorem dropWhile_eq_self_of_head? {p : Char → Bool} {chars : List Char}
    (h : ∀ c ∈ chars.head?, p c = false) : chars.dropWhile p = chars := by
  cases chars with
  | nil => rfl
  | cons c cs => exact List.dropWhile_cons_of_neg (by simp [h c rfl])

theorem trimBreaks_of_trimmed {text : String} (h : Trimmed text) : trimBreaks text = text := by
  obtain ⟨hHead, hLast⟩ := h
  rw [← List.head?_reverse] at hLast
  rw [trimBreaks, trimBy, dropWhile_eq_self_of_head? hHead, dropWhile_eq_self_of_head? hLast,
    List.reverse_reverse, String.ofList_toList]

theorem collapse_trimBreaks (text : String) : collapse (trimBreaks text) = collapse text := by
  rw [collapse, collapse, words_trimBreaks]

end Text

/-! ## Reading a section -/

namespace Section

theorem newline_not_mem_marker (s : Section) : '\n' ∉ s.marker.toList := by
  cases s <;> decide

theorem newline_not_mem_terminator (s : Section) : '\n' ∉ s.terminator.toList := by
  cases s <;> decide

theorem start_prefix_marker (s : Section) : anyMarker.toList <+: s.marker.toList := by
  cases s <;> decide

theorem start_infix_marker (s : Section) : anyMarker.toList <:+: s.marker.toList :=
  s.start_prefix_marker.isInfix

theorem start_infix_terminator (s : Section) : anyMarker.toList <:+: s.terminator.toList := by
  cases s <;> decide

/-- A section between its markers is read without the line breaks at its ends. -/
theorem read_between {s : Section} {chars rest : List Char} {body : String}
    (hMarker : Text.after? s.marker.toList chars =
      some ('\n' :: (body.toList ++ '\n' :: (s.terminator.toList ++ rest))))
    (hFree : Text.contains s.terminator.toList body.toList = false) :
    s.read chars = .ok (some (Text.trimBreaks body)) := by
  have hStop : (s.terminator.toList ++ rest).dropWhile Text.isLineBreak =
      s.terminator.toList ++ rest := by
    obtain ⟨c, cs, hHead, hBreak⟩ :
        ∃ c cs, s.terminator.toList = c :: cs ∧ Text.isLineBreak c = false := by
      cases s <;> exact ⟨_, _, rfl, by decide⟩
    rw [hHead, List.cons_append, List.dropWhile_cons_of_neg (by simp [hBreak])]
  have hNewline : Text.isLineBreak '\n' = true := rfl
  have hTrim : Text.trimBy Text.isLineBreak body.toList =
      Text.trimEndBy Text.isLineBreak (body.toList.dropWhile Text.isLineBreak) := rfl
  have hInner : Text.contains s.terminator.toList (body.toList.dropWhile Text.isLineBreak) = false :=
    Text.free_of_part hFree (List.dropWhile_suffix _).isInfix
  obtain ⟨⟨before, after⟩, hCut, rfl⟩ := Option.map_eq_some_iff.1 hMarker
  rw [Text.trimBreaks, hTrim]
  simp only [read, hCut, List.dropWhile_cons_of_pos hNewline, List.dropWhile_append, hStop]
  generalize body.toList.dropWhile Text.isLineBreak = inner at hInner
  cases inner with
  | nil => simp [Text.cut_head]
  | cons c cs =>
    rw [List.isEmpty_cons, if_neg Bool.false_ne_true,
      Text.cut_separated s.newline_not_mem_terminator hInner, Text.cut_head]
    simp [Text.trimEndBy, hNewline]

/-- A section whose marker stands in no piece is not there. -/
theorem read_absent {s : Section} {pieces : List (List Char)}
    (h : ∀ piece ∈ pieces, Text.contains s.marker.toList piece = false) :
    s.read (Text.onLines pieces) = .ok none := by
  have hMarker : s.marker.toList ≠ [] := by cases s <;> decide
  have hAfter := Text.after?_onLines_eq_none s.newline_not_mem_marker hMarker h
  rw [read, Option.map_eq_none_iff.1 hAfter]

/-- A section is found behind pieces without its marker, and read up to what ends it. -/
theorem read_present {s : Section} {front rest : List (List Char)} {body : String} {stop : List Char}
    (hFront : ∀ piece ∈ front, Text.contains s.marker.toList piece = false)
    (hBody : Text.contains s.terminator.toList body.toList = false)
    (hStop : s.terminator.toList <+: stop) :
    s.read (Text.onLines (front ++ s.marker.toList :: body.toList :: stop :: rest)) =
      .ok (some (Text.trimBreaks body)) := by
  obtain ⟨after, hAfter⟩ : s.terminator.toList <+: Text.onLines (stop :: rest) := by
    cases rest with
    | nil => rwa [Text.onLines_singleton]
    | cons next rest => exact Text.onLines_cons_cons .. ▸ hStop.trans (List.prefix_append ..)
  have hFound : Text.after? s.marker.toList
      (Text.onLines (front ++ s.marker.toList :: body.toList :: stop :: rest)) =
        some ('\n' :: (body.toList ++ '\n' :: (s.terminator.toList ++ after))) := by
    rw [Text.after?_onLines s.newline_not_mem_marker hFront (List.cons_ne_nil _ _),
      Text.onLines_cons_cons, Text.after?_head, Text.onLines_cons_cons, hAfter]
  exact read_between hFound hBody

/-- The pieces of a section: its marker, its text and the marker after it. -/
def pieces (s : Section) : Option String → List (List Char)
  | none => []
  | some body =>
    s.marker.toList :: body.toList :: if s = .tokens then [] else [endMarker.toList]

/-- The marker of another section stands in no piece of a section that is free of markers. -/
theorem pieces_free {s t : Section} {body? : Option String} (hOther : s ≠ t)
    (hFree : ∀ body ∈ body?, Text.contains anyMarker.toList body.toList = false) :
    ∀ piece ∈ t.pieces body?, Text.contains s.marker.toList piece = false := by
  cases body? with
  | none => simp [pieces]
  | some body =>
    have hMarker : Text.contains s.marker.toList t.marker.toList = false := by
      cases s <;> cases t <;> first | decide | exact absurd rfl hOther
    have hEnd : Text.contains s.marker.toList endMarker.toList = false := by cases s <;> decide
    have hBody := Text.free_of_start (hFree body rfl) s.start_infix_marker
    simp only [pieces, List.forall_mem_cons]
    refine ⟨hMarker, hBody, ?_⟩
    split
    · simp
    · exact List.forall_mem_singleton.2 hEnd

/-- A section is read out of its pieces. The tokens need a further piece that ends them. -/
theorem read_pieces {s : Section} {body? : Option String} {front back : List (List Char)}
    (hFree : ∀ body ∈ body?, Text.contains anyMarker.toList body.toList = false)
    (hFront : ∀ piece ∈ front, Text.contains s.marker.toList piece = false)
    (hBack : ∀ piece ∈ back, Text.contains s.marker.toList piece = false)
    (hNext : s = .tokens → body?.isSome → ∃ stop ∈ back.head?, anyMarker.toList <+: stop) :
    s.read (Text.onLines (front ++ (s.pieces body? ++ back))) = .ok (body?.map Text.trimBreaks) := by
  cases body? with
  | none => exact read_absent (List.forall_mem_append.2 ⟨hFront, hBack⟩)
  | some body =>
    have hBody := Text.free_of_start (hFree body rfl) s.start_infix_terminator
    obtain ⟨stop, rest, hPieces, hStop⟩ : ∃ stop rest,
        s.pieces (some body) ++ back = s.marker.toList :: body.toList :: stop :: rest ∧
          s.terminator.toList <+: stop := by
      cases s with
      | tokens =>
        obtain ⟨stop, hHead, hStop⟩ := hNext rfl rfl
        obtain ⟨rest, rfl⟩ := List.head?_eq_some_iff.1 hHead
        exact ⟨stop, rest, rfl, hStop⟩
      | tree => exact ⟨_, back, rfl, List.prefix_rfl⟩
      | decompile => exact ⟨_, back, rfl, List.prefix_rfl⟩
    rw [hPieces, read_present hFront hBody hStop]
    rfl

end Section

/-! ## Reading a fixture -/

namespace Fixture

variable {f : Fixture}

/-- The text of a section, if the fixture has it. -/
def body? (f : Fixture) : Section → Option String
  | .tokens => f.tokens?
  | .tree => f.tree?
  | .decompile => f.decompile?

/-- Whether no section has the start of a marker in it. -/
def Unmarked (f : Fixture) : Prop :=
  ∀ s, ∀ body ∈ f.body? s, Text.contains Section.anyMarker.toList body.toList = false

/-- The tokens as they stand in the text: without a tree behind them, one line feed more follows. -/
def tokenPiece? (f : Fixture) : Option String :=
  f.tokens?.map fun tokens => if f.tree?.isSome then tokens else tokens ++ "\n"

theorem tokenPiece_free
    (h : ∀ body ∈ f.tokens?, Text.contains Section.anyMarker.toList body.toList = false) :
    ∀ body ∈ f.tokenPiece?, Text.contains Section.anyMarker.toList body.toList = false := by
  intro body hBody
  obtain ⟨tokens, hTokens, rfl⟩ := Option.map_eq_some_iff.1 hBody
  have hFree := h tokens hTokens
  split
  · exact hFree
  · have hNewline : ("\n" : String).toList = ['\n'] := rfl
    have hFeed : '\n' ∉ Section.anyMarker.toList := by decide
    rw [String.toList_append, hNewline, Text.contains, Text.cut_separated hFeed hFree]
    rfl

theorem map_trimBreaks_tokenPiece? (f : Fixture) :
    f.tokenPiece?.map Text.trimBreaks = f.tokens?.map Text.trimBreaks := by
  rw [tokenPiece?, Option.map_map]
  congr 1
  funext tokens
  simp only [Function.comp]
  split
  · rfl
  · exact Text.trimBreaks_append_newline tokens

/-- The pieces of the text of a fixture. -/
def pieces (f : Fixture) : List (List Char) :=
  Section.tokens.pieces f.tokenPiece? ++ Section.tree.pieces f.tree? ++
    Section.decompile.pieces f.decompile?

theorem toList_toText (f : Fixture) : f.toText.toList = Text.onLines f.pieces := by
  obtain ⟨tokens?, tree?, decompile?⟩ := f
  have hNewline : ("\n" : String).toList = ['\n'] := rfl
  cases tokens? <;> cases tree? <;> cases decompile? <;>
    simp [toText, sectionText, pieces, tokenPiece?, Section.pieces, hNewline]


/-- Every section of the text of a fixture is read without the line breaks at its ends. -/
theorem read_toText (h : f.Unmarked) (hEnd : f.tree?.isSome ∨ f.decompile?.isSome) (s : Section) :
    s.read f.toText.toList = .ok ((f.body? s).map Text.trimBreaks) := by
  have hTokens := tokenPiece_free (h .tokens)
  have hTree (s : Section) (hOther : s ≠ .tree) := Section.pieces_free hOther (h .tree)
  have hText (s : Section) (hOther : s ≠ .decompile) := Section.pieces_free hOther (h .decompile)
  rw [toList_toText]
  cases s with
  | tokens =>
    have hNext : ∃ stop ∈ (Section.tree.pieces f.tree? ++ Section.decompile.pieces f.decompile?).head?,
        Section.anyMarker.toList <+: stop := by
      rcases hEnd with hSome | hSome
      · obtain ⟨tree, hSome⟩ := Option.isSome_iff_exists.1 hSome
        rw [hSome]
        exact ⟨_, rfl, Section.start_prefix_marker .tree⟩
      · obtain ⟨text, hSome⟩ := Option.isSome_iff_exists.1 hSome
        rw [hSome]
        cases f.tree? with
        | none => exact ⟨_, rfl, Section.start_prefix_marker .decompile⟩
        | some tree => exact ⟨_, rfl, Section.start_prefix_marker .tree⟩
    have hBack := List.forall_mem_append.2 ⟨hTree .tokens (by decide), hText .tokens (by decide)⟩
    have hFront : ∀ piece ∈ ([] : List (List Char)),
        Text.contains Section.tokens.marker.toList piece = false := by simp
    have hRead := Section.read_pieces hTokens hFront hBack fun _ _ => hNext
    rw [map_trimBreaks_tokenPiece?] at hRead
    rwa [pieces, List.append_assoc]
  | tree =>
    rw [pieces, List.append_assoc]
    exact Section.read_pieces (h .tree) (Section.pieces_free (by decide) hTokens)
      (hText .tree (by decide)) (by simp)
  | decompile =>
    have hFront := List.forall_mem_append.2
      ⟨Section.pieces_free (t := .tokens) (by decide) hTokens, hTree .decompile (by decide)⟩
    rw [pieces, ← List.append_nil (Section.decompile.pieces f.decompile?)]
    exact Section.read_pieces (h .decompile) hFront (by simp) (by simp)

/-- The text of a fixture whose sections are free of markers is read back, up to line breaks at the
ends of the sections and up to sections that are empty then. -/
theorem ofText_toText_trimmed (h : f.Unmarked) (hEnd : f.tree?.isSome ∨ f.decompile?.isSome) :
    ofText f.toText =
      .ok ⟨filled (f.tokens?.map Text.trimBreaks), filled (f.tree?.map Text.trimBreaks),
        f.decompile?.map Text.trimBreaks⟩ := by
  have hRead := read_toText h hEnd
  have hMarked : Text.contains Section.anyMarker.toList f.toText.toList = true := by
    rw [← Bool.not_eq_false]
    intro hFree
    have hNone (s : Section) : f.body? s = none := by
      have hCut := Text.after?_eq_none_iff.2 (Text.free_of_start hFree s.start_infix_marker)
      have hAbsent : s.read f.toText.toList = .ok none := by
        rw [Section.read, Option.map_eq_none_iff.1 hCut]
      exact Option.map_eq_none_iff.1 (Except.ok.inj ((hRead s).symm.trans hAbsent))
    rcases hEnd with hTree | hText
    · exact absurd (hNone .tree) (Option.isSome_iff_ne_none.1 hTree)
    · exact absurd (hNone .decompile) (Option.isSome_iff_ne_none.1 hText)
  simp only [ofText, hMarked, if_true, hRead]
  rfl

/-- The text of a fixture is read back as the fixture, unless what is read would be cut short: by a
marker in a section, by line breaks at its ends, or for want of a section behind the tokens. -/
theorem ofText_toText (hEnd : f.tree?.isSome ∨ f.decompile?.isSome) (hTokens : f.tokens? ≠ some "")
    (hTree : f.tree? ≠ some "") (hUnmarked : f.Unmarked)
    (hTrimmed : ∀ s, ∀ body ∈ f.body? s, Text.Trimmed body) : ofText f.toText = .ok f := by
  have hSame (s : Section) : (f.body? s).map Text.trimBreaks = f.body? s :=
    (Option.map_congr fun body hBody => Text.trimBreaks_of_trimmed (hTrimmed s body hBody)).trans
      Option.map_id_apply
  have hFilled {section? : Option String} (h : section? ≠ some "") : filled section? = section? := by
    cases section? with
    | none => rfl
    | some body => simpa [filled, Option.filter] using h
  have hRead := ofText_toText_trimmed hUnmarked hEnd
  rw [show f.tokens?.map Text.trimBreaks = f.tokens? from hSame .tokens,
    show f.tree?.map Text.trimBreaks = f.tree? from hSame .tree,
    show f.decompile?.map Text.trimBreaks = f.decompile? from hSame .decompile, hFilled hTokens,
    hFilled hTree] at hRead
  exact hRead

/-- Tokens without a tree behind them, and a source that is expected to be written as it stands. -/
theorem ofText_toText_noTree :
    ofText (toText ⟨some "IDENTIFIER:x", none, some ""⟩) = .ok ⟨some "IDENTIFIER:x", none, some ""⟩ := by
  refine ofText_toText (.inr rfl) (by decide) (by decide) ?_ ?_
  · intro s body hBody
    cases s <;> cases hBody <;> decide
  · intro s body hBody
    cases s with
    | tokens =>
      cases hBody
      exact ⟨by rintro c ⟨⟩; rfl, by rintro c ⟨⟩; rfl⟩
    | tree => cases hBody
    | decompile =>
      cases hBody
      exact ⟨by rintro c ⟨⟩, by rintro c ⟨⟩⟩

/-! ## Comparing with what is read back -/

/-- Whether no section of a fixture has the start of a marker in it. -/
structure Free (tokens tree : String) (text? : Option String) : Prop where
  tokens : Text.contains Section.anyMarker.toList tokens.toList = false
  tree : Text.contains Section.anyMarker.toList tree.toList = false
  text : ∀ text ∈ text?, Text.contains Section.anyMarker.toList text.toList = false

theorem Free.unmarked {tokens tree : String} {text? : Option String} (h : Free tokens tree text?) :
    Unmarked ⟨some tokens, some tree, text?⟩ := by
  intro s body hBody
  cases s with
  | tokens => exact Option.some.inj hBody ▸ h.tokens
  | tree => exact Option.some.inj hBody ▸ h.tree
  | decompile => exact h.text body hBody

theorem all_isBlank_dropWhile {p : Char → Bool} (h : ∀ c, p c = true → Text.isBlank c = true)
    (chars : List Char) : (chars.dropWhile p).all Text.isBlank = chars.all Text.isBlank := by
  induction chars with
  | nil => rfl
  | cons c cs ih =>
    cases hc : p c with
    | false => rw [List.dropWhile_cons_of_neg (by simp [hc])]
    | true => rw [List.dropWhile_cons_of_pos hc, ih, List.all_cons, h c hc, Bool.true_and]

theorem isBlankText_trimBreaks (text : String) :
    Text.isBlankText (Text.trimBreaks text) = Text.isBlankText text := by
  have hBreak (c : Char) : Text.isLineBreak c = true → Text.isBlank c = true :=
    Text.isBlank_of_isLineBreak
  simp only [Text.isBlankText, Text.trimBreaks, String.toList_ofList, Text.trimBy, List.all_reverse,
    all_isBlank_dropWhile hBreak]

theorem compare?_trimBreaks (part : Section) (text : String) :
    compare? part (Text.trimBreaks text) text = none := by
  simp [compare?, Text.collapse_trimBreaks]

/-- A section that is read back does not differ. -/
theorem compared_trimBreaks (part : Section) (text : String) :
    (compared (filled (some (Text.trimBreaks text)))).bind (compare? part · text) = none := by
  rw [Option.bind_eq_none_iff]
  intro read hRead
  simp only [compared, filled, Option.filter_some] at hRead
  obtain rfl : Text.trimBreaks text = read := by
    split at hRead <;> simp_all [Option.filter]
  exact compare?_trimBreaks part text

/-- A source without errors passes the fixture that is read back from the text of its fixture. -/
theorem check_ofText_toText {actual : Actual} (source : String) (hErrors : actual.errors = [])
    (hFree : Free actual.tokens actual.tree actual.toFixture.decompile?) :
    ∃ fixture, ofText actual.toFixture.toText = .ok fixture ∧
      fixture.tree? = filled (some (Text.trimBreaks actual.tree)) ∧ fixture.check source actual = [] := by
  refine ⟨⟨filled (some (Text.trimBreaks actual.tokens)), filled (some (Text.trimBreaks actual.tree)),
    actual.toFixture.decompile?.map Text.trimBreaks⟩,
    ofText_toText_trimmed hFree.unmarked (.inl rfl), by dsimp only, ?_⟩
  have hErrorFree : actual.errorFailure? = none := by simp [Actual.errorFailure?, hErrors]
  have hText : (expectedText ⟨filled (some (Text.trimBreaks actual.tokens)),
      filled (some (Text.trimBreaks actual.tree)),
      actual.toFixture.decompile?.map Text.trimBreaks⟩ source).bind (compare? .decompile · actual.text) =
        none := by
    by_cases hRecords : actual.recordsText = true
    · have hBlank : Text.isBlankText actual.text = false := by
        simp only [Actual.recordsText, Bool.and_eq_true, Bool.not_eq_true'] at hRecords
        exact hRecords.2
      simp [expectedText, Actual.toFixture, hRecords, isBlankText_trimBreaks, hBlank,
        compare?_trimBreaks]
    · simp [expectedText, Actual.toFixture, hRecords]
  rw [check, compared_trimBreaks, compared_trimBreaks, hErrorFree, hText]
  rfl

end Fixture

end CfScript
