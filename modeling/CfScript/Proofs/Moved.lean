import CfScript.Proofs.Agreement

/-!
# Parses of tokens that are moved

A parse asks of a token only its kind and its text, and of the tokens behind the cursor only how
many they are. So where tokens stand further on in their source, and others stand before them, a
parse takes the same decisions and gives the same trees with their leaves moved.

The two runs are followed side by side. Nothing is assumed of them: they end in the same way, bails
and attempts that fail included.

## Main results

* `Span.moved_ofLength`, `Token.moved_endAt`: what is measured further on is moved;
* `exec_moved`, `run_moved`: what runs on moved tokens come to.
-/

namespace CfScript

/-- How far something stands further on. -/
structure Distance where
  bytes : Nat
  lines : LineNumber

/-! ## Places, tokens and trees -/

/-- A position is held at the largest one before or after it is moved. -/
theorem BytePos.offset_ofNat (count delta : Nat) :
    (BytePos.ofNat count).offset delta = .ofNat (count + delta) := by
  apply BytePos.ext
  simp only [BytePos.offset, BytePos.toNat_ofNat, BytePos.limit]
  omega

theorem BytePos.offset_mono {p q : BytePos} (h : p.toNat ≤ q.toNat) (delta : Nat) :
    (p.offset delta).toNat ≤ (q.offset delta).toNat :=
  ofNat_mono (Nat.add_le_add_right h delta)

namespace Span

/-- The span so many bytes further on. -/
def moved (s : Span) (bytes : Nat) : Span :=
  ⟨s.start.offset bytes, s.stop.offset bytes, BytePos.offset_mono s.start_le_stop bytes⟩

theorem moved_ofLength (start length bytes : Nat) :
    (ofLength start length).moved bytes = ofLength (start + bytes) length := by
  have hStop : (BytePos.ofNat (start + length)).offset bytes = .ofNat (start + bytes + length) := by
    rw [BytePos.offset_ofNat, Nat.add_right_comm]
  exact ext (BytePos.offset_ofNat start bytes) hStop

theorem moved_point (p : BytePos) (bytes : Nat) : (point p).moved bytes = point (p.offset bytes) :=
  rfl

end Span

namespace Token

/-- The token further on in its source. -/
def moved (d : Distance) (t : Token) : Token :=
  { t with span := t.span.moved d.bytes, line := t.line + d.lines }

variable (d : Distance) (t : Token)

@[simp] theorem kind_moved : (t.moved d).kind = t.kind := rfl

@[simp] theorem lexeme_moved : (t.moved d).lexeme = t.lexeme := rfl

@[simp] theorem isEnd_moved : (t.moved d).isEnd = t.isEnd := rfl

theorem moved_endAt (size : Nat) (line : LineNumber) :
    (endAt size line).moved d = endAt (size + d.bytes) (line + d.lines) := by
  rw [moved, endAt, Span.moved_point, BytePos.offset_ofNat]
  rfl

end Token

/-- The stream with its tokens further on in their source. -/
def TokenStream.moved (d : Distance) (s : TokenStream) : TokenStream where
  before := s.before.map (Token.moved d)
  rest := s.rest.map (Token.moved d)
  last := s.last.moved d
  last_isEnd := s.last_isEnd

/-- The leaf further on in its source. -/
def Leaf.moved (d : Distance) : Leaf → Leaf
  | .matched t => .matched (t.moved d)
  | .skipped t => .skipped (t.moved d)
  | .assumed what => .assumed what

namespace Tree

mutual

/-- The tree with its leaves further on in their source. -/
def moved (d : Distance) : Tree → Tree
  | node r cs => node r (movedAll d cs)
  | leaf l => leaf (l.moved d)

/-- The trees with their leaves further on in their source. -/
def movedAll (d : Distance) : List Tree → List Tree
  | [] => []
  | t :: ts => t.moved d :: movedAll d ts

end

variable (d : Distance)

theorem movedAll_eq_map (ts : List Tree) : movedAll d ts = ts.map (moved d) := by
  induction ts with
  | nil => rfl
  | cons t ts ih => rw [movedAll, ih, List.map_cons]

@[simp] theorem movedAll_append (ts us : List Tree) :
    movedAll d (ts ++ us) = movedAll d ts ++ movedAll d us := by
  simp [movedAll_eq_map]

@[simp] theorem length_movedAll (ts : List Tree) : (movedAll d ts).length = ts.length := by
  simp [movedAll_eq_map]

@[simp] theorem rule?_moved (t : Tree) : (t.moved d).rule? = t.rule? := by
  cases t <;> rfl

mutual

/-- A tree that is moved has the same leaves further on. -/
theorem leaves_moved : (t : Tree) → (t.moved d).leaves = t.leaves.map (Leaf.moved d)
  | node _ cs => leavesAll_movedAll cs
  | leaf _ => rfl

theorem leavesAll_movedAll :
    (ts : List Tree) → leavesAll (movedAll d ts) = (leavesAll ts).map (Leaf.moved d)
  | [] => rfl
  | t :: ts => by
    rw [movedAll, leavesAll, leaves_moved t, leavesAll_movedAll ts, leavesAll, List.map_append]

end

theorem hasErrorsAny_movedAll (ts : List Tree) :
    hasErrorsAny (movedAll d ts) = hasErrorsAny ts := by
  have hLeaf : ∀ l : Leaf, (l.moved d).isError = l.isError := fun l => by cases l <;> rfl
  simp [hasErrorsAny_eq_leaves, leavesAll_movedAll, Function.comp_def, hLeaf]

end Tree

/-! ## States and outcomes -/

/-- The second state stands where the first does, among tokens that are moved by `d`, behind `k`
more tokens. -/
structure ParserState.MovesTo (d : Distance) (k : Nat) (s t : ParserState) : Prop where
  rest : t.stream.rest = s.stream.rest.map (Token.moved d)
  last : t.stream.last = s.stream.last.moved d
  pos : t.stream.pos = s.stream.pos + k
  findings : t.findings.length = s.findings.length

/-- The frame with parts that are moved. -/
def Frame.moved (d : Distance) (f : Frame) : Frame := { f with parts := Tree.movedAll d f.parts }

/-- Outcomes that are the same but for places. -/
inductive Outcome.MovesTo (d : Distance) (k : Nat) : Outcome → Outcome → Prop where
  | parsed {parts : List Tree} {s t : ParserState} (h : s.MovesTo d k t) :
      MovesTo d k (.parsed parts s) (.parsed (Tree.movedAll d parts) t)
  | bailed {bail other : Bail} {s t : ParserState} : MovesTo d k (.bailed bail s) (.bailed other t)
  | unfinished : MovesTo d k .unfinished .unfinished

namespace ParserState.MovesTo

variable {d : Distance} {k : Nat} {s t : ParserState}

theorem peek (h : s.MovesTo d k t) (n : Nat) : t.stream.peek n = (s.stream.peek n).moved d := by
  rw [TokenStream.peek, TokenStream.peek, h.rest, h.last, List.getElem?_map]
  cases s.stream.rest[n]? <;> rfl

theorem current (h : s.MovesTo d k t) : t.current = s.current.moved d := by
  simpa [ParserState.current] using h.peek 0

theorem kind (h : s.MovesTo d k t) : t.current.kind = s.current.kind := by
  rw [h.current, Token.kind_moved]

theorem lexeme (h : s.MovesTo d k t) : t.current.lexeme = s.current.lexeme := by
  rw [h.current, Token.lexeme_moved]

theorem window (h : s.MovesTo d k t) : t.window = s.window := by
  simp only [ParserState.window, h.peek, Token.kind_moved]

theorem kindsAhead (h : s.MovesTo d k t) : t.kindsAhead = s.kindsAhead := by
  simp [ParserState.kindsAhead, h.rest, h.last, Function.comp_def]

theorem stream_advance (h : s.MovesTo d k t) {s' t' : ParserState}
    (hs : s'.stream = s.stream.advance) (ht : t'.stream = t.stream.advance)
    (hFound : t'.findings.length = s'.findings.length) : s'.MovesTo d k t' := by
  have hRest := h.rest
  refine ⟨?_, ?_, ?_, hFound⟩
  · rw [hs, ht]
    unfold TokenStream.advance
    cases hHead : s.stream.rest with
    | nil => simp [hHead, hRest]
    | cons u us => by_cases hEnd : u.isEnd = true <;> simp [hHead, hRest, hEnd]
  · rw [hs, ht, TokenStream.last_advance, TokenStream.last_advance, h.last]
  · rw [hs, ht]
    have hPos := h.pos
    unfold TokenStream.advance
    cases hHead : s.stream.rest with
    | nil => simpa [hHead, hRest] using hPos
    | cons u us =>
      by_cases hEnd : u.isEnd = true
      · simpa [hHead, hRest, hEnd] using hPos
      · simp only [TokenStream.pos] at hPos
        simp [hHead, hRest, hEnd, TokenStream.pos, hPos, Nat.add_right_comm]

theorem advance (h : s.MovesTo d k t) : s.advance.MovesTo d k t.advance :=
  h.stream_advance rfl rfl h.findings

theorem report (h : s.MovesTo d k t) (fault : Fault) :
    (s.report fault).MovesTo d k (t.report fault) :=
  ⟨h.rest, h.last, h.pos, by simp [ParserState.report, h.findings]⟩

theorem advanceBy (n : Nat) (h : s.MovesTo d k t) :
    ParserState.MovesTo d k { s with stream := s.stream.advanceBy n }
      { t with stream := t.stream.advanceBy n } := by
  induction n generalizing s t with
  | zero => exact h
  | succ n ih => exact ih h.advance

end ParserState.MovesTo

namespace Frame

variable {d : Distance} {k : Nat} {s t : ParserState}

theorem moved_start (h : s.MovesTo d k t) : (start s).moved d = start t := by
  rw [start, start, moved, h.findings]
  rfl

theorem moved_append (f : Frame) (parts : List Tree) :
    (f.append parts).moved d = (f.moved d).append (Tree.movedAll d parts) := by
  simp [moved, append]

theorem moved_push (f : Frame) (part : Tree) :
    (f.push part).moved d = (f.moved d).push (part.moved d) :=
  moved_append f [part]

theorem moved_take (f : Frame) (h : s.MovesTo d k t) :
    (f.push (.token s.current)).moved d = (f.moved d).push (.token t.current) := by
  rw [moved_push, h.current]
  rfl

theorem moved_skip (f : Frame) (h : s.MovesTo d k t) :
    (f.push (.skipped s.current)).moved d = (f.moved d).push (.skipped t.current) := by
  rw [moved_push, h.current]
  rfl

end Frame

/-- Of a broken statement that is moved the same tokens are skipped. -/
theorem Token.skipStatement_moved (d : Distance) (stack : DelimiterStack) (ts : List Token) :
    skipStatement stack (ts.map (moved d)) =
      ((skipStatement stack ts).1.map (moved d), (skipStatement stack ts).2.map (moved d)) := by
  induction ts generalizing stack with
  | nil => rfl
  | cons t ts ih =>
    simp only [List.map_cons, skipStatement, isEnd_moved, kind_moved, ih]
    split
    · rfl
    split
    · rfl
    split
    · rfl
    split <;> rfl

/-! ## Runs -/

section

variable {d : Distance} {k : Nat}

/-- Outcomes that go on in the same way are the same but for places if they go on so. -/
theorem Outcome.MovesTo.andThen {o p : Outcome} (h : o.MovesTo d k p)
    {next other : List Tree → ParserState → Outcome}
    (hNext : ∀ parts s t, s.MovesTo d k t →
      (next parts s).MovesTo d k (other (Tree.movedAll d parts) t)) :
    (o.andThen next).MovesTo d k (p.andThen other) := by
  cases h with
  | parsed hState => exact hNext _ _ _ hState
  | bailed => exact .bailed
  | unfinished => exact .unfinished

/-- A production on moved tokens, if all that it calls does the same on moved tokens. -/
theorem exec_moved {call : Setting → Goal → Frame → ParserState → Outcome}
    (hCall : ∀ σ goal f s t, s.MovesTo d k t →
      (call σ goal f s).MovesTo d k (call σ goal (f.moved d) t)) (p : Production) :
    ∀ σ f s t, s.MovesTo d k t → (p.exec call σ f s).MovesTo d k (p.exec call σ (f.moved d) t) := by
  induction p with
  | done => exact fun σ f s t h => .parsed h
  | take next ih =>
    intro σ f s t h
    rw [Production.exec, Production.exec, ← f.moved_take h]
    exact ih _ _ _ _ h.advance
  | expect kind next ih =>
    intro σ f s t h
    unfold Production.exec
    rw [h.kind, ← f.moved_take h]
    split
    · exact ih _ _ _ _ h.advance
    · split
      · exact .bailed
      · exact f.moved_push (d := d) (.assumed kind.describe) ▸ ih _ _ _ _ (h.report _)
  | word next ih =>
    intro σ f s t h
    unfold Production.exec
    rw [h.kind, ← f.moved_take h]
    split
    · exact ih _ _ _ _ h.advance
    · split
      · exact .bailed
      · exact f.moved_push (d := d) (.assumed _) ▸ ih _ _ _ _ (h.report _)
  | assume fault next ih =>
    intro σ f s t h
    unfold Production.exec
    split
    · exact .bailed
    · exact f.moved_push (d := d) (.assumed fault.assumption) ▸ ih _ _ _ _ (h.report _)
  | reject fault next ih =>
    intro σ f s t h
    unfold Production.exec
    rw [← f.moved_skip h]
    split
    · exact .bailed
    · exact ih _ _ _ _ (h.report _).advance
  | skip next ih =>
    intro σ f s t h
    unfold Production.exec
    rw [← f.moved_skip h]
    split
    · exact .bailed
    · exact ih _ _ _ _ h.advance
  | recover next ih =>
    intro σ f s t h
    unfold Production.exec
    rw [h.rest, Token.skipStatement_moved]
    generalize Token.skipStatement .empty s.stream.rest = passed
    obtain ⟨skipped, semicolon⟩ := passed
    have hParts : Tree.movedAll d (skipped.map .skipped ++ semicolon.toList.map .token) =
        (skipped.map (Token.moved d)).map .skipped ++
          (semicolon.map (Token.moved d)).toList.map .token := by
      cases semicolon <;>
        simp [Tree.movedAll_eq_map, Tree.moved, Tree.skipped, Tree.token, Leaf.moved]
    have hLength : (semicolon.map (Token.moved d)).toList.length = semicolon.toList.length := by
      cases semicolon <;> rfl
    dsimp only
    rw [← hParts, ← f.moved_append, hLength, List.length_map]
    exact ih _ _ _ _ (h.advanceBy _)
  | parse goal next ih =>
    intro σ f s t h
    have hGoal := hCall σ goal (.start s) s t h
    rw [Frame.moved_start h] at hGoal
    refine hGoal.andThen fun parts s' t' h' => ?_
    rw [← f.moved_append]
    exact ih _ _ _ _ h'
  | node rule inner next ihInner ih =>
    intro σ f s t h
    have hInner := ihInner σ (.start s) s t h
    rw [Frame.moved_start h] at hInner
    refine hInner.andThen fun parts s' t' h' => ?_
    have hNode : (f.push (.node rule parts)).moved d =
        (f.moved d).push (.node rule (Tree.movedAll d parts)) := f.moved_push _
    rw [← hNode]
    exact ih _ _ _ _ h'
  | close rule next ih => exact fun σ f s t h => ih σ (f.close rule) s t h
  | again goal => exact fun σ f s t h => hCall σ goal f s t h
  | progress goal stuck next ihStuck ih =>
    intro σ f s t h
    have hGoal := hCall σ goal (.start s) s t h
    rw [Frame.moved_start h] at hGoal
    refine hGoal.andThen fun parts s' t' h' => ?_
    have hPos : t'.stream.pos = t.stream.pos ↔ s'.stream.pos = s.stream.pos := by
      rw [h'.pos, h.pos]
      omega
    simp only [hPos]
    split
    · refine ihStuck _ _ _ _ ⟨h'.rest, h'.last, h'.pos, ?_⟩
      simp only [Log.truncate, Log.length, List.length_take]
      rw [← Log.length, ← Log.length, ← Log.length, ← Log.length, h.findings, h'.findings]
    · rw [← f.moved_append]
      exact ih _ _ _ _ h'
  | look choose ih =>
    intro σ f s t h
    unfold Production.exec
    rw [h.window]
    exact ih _ _ _ _ _ h
  | spell choose ih =>
    intro σ f s t h
    unfold Production.exec
    rw [h.lexeme]
    exact ih _ _ _ _ _ h
  | scan decision test yes no ihYes ihNo =>
    intro σ f s t h
    unfold Production.exec
    split
    · exact .bailed
    · exact ihNo _ _ _ _ h
    · rw [h.kindsAhead]
      split
      · exact ihYes _ _ _ _ h
      · exact ihNo _ _ _ _ h
  | trial decision attempt follow yes no ihAttempt ihYes ihNo =>
    intro σ f s t h
    unfold Production.exec
    split
    · exact .bailed
    · have hAttempt := ihAttempt { σ with trying := true } (.start s) s t h
      rw [Frame.moved_start h] at hAttempt
      revert hAttempt
      generalize attempt.exec call { σ with trying := true } (.start s) s = o
      generalize attempt.exec call { σ with trying := true } (.start t) t = p
      intro hAttempt
      cases hAttempt with
      | unfinished => exact .unfinished
      | bailed => exact ihNo _ _ _ _ h
      | parsed h' =>
        dsimp only
        rw [h'.kind]
        split
        · exact ihYes _ _ _ _ h
        · exact ihNo _ _ _ _ h
  | single yes no ihYes ihNo =>
    intro σ f s t h
    have hLength : (f.moved d).parts.length = f.parts.length := Tree.length_movedAll d f.parts
    unfold Production.exec
    rw [hLength]
    split
    · exact ihYes _ _ _ _ h
    · exact ihNo _ _ _ _ h
  | troubled yes no ihYes ihNo =>
    intro σ f s t h
    have hMark : (f.moved d).mark = f.mark := rfl
    unfold Production.exec
    rw [h.findings, hMark]
    split
    · exact ihYes _ _ _ _ h
    · exact ihNo _ _ _ _ h

theorem run_moved (steps : Nat) : ∀ σ goal f s t, ParserState.MovesTo d k s t →
    (run steps σ goal f s).MovesTo d k (run steps σ goal (f.moved d) t) := by
  induction steps with
  | zero => exact fun σ goal f s t h => .unfinished
  | succ steps ih => exact fun σ goal => exec_moved ih goal.production σ

end

end CfScript
