import CfScript.Source.LineIndex
import Mathlib.Algebra.Group.Nat.Defs

/-!
# The lines of a source

A line index finds lines by halving a list of offsets, and cuts texts out of a source by bytes. Here it
is measured against the source itself: against its bytes, among which the line feeds are counted, and
against its characters, which fall apart at the line feeds.

The search is a fact about numbers in order. Halving keeps the place that is looked for among the
indices that are left, so where it ends, at the offset or beside it, the line starts it has reached are
exactly those that are not behind the offset. These starts are counted by the line feeds in front of
the offset, since no wider character has the byte of a line feed in it.

Line numbers have 32 bits, and a count of line feeds has not. In 32 bits the line of an offset is one
more than the line feeds in front of it, whatever the source. It is the same number if the lines and the
place behind them can be counted, and a source of too many line feeds has a line 0.

## Main results

* `Bisection.reached_search`: a search counts the numbers that are not larger than the one it looks for;
* `LineIndex.line_ofText`, `LineIndex.line_eq_feedsBefore`: the line index counts the line feeds in front
  of an offset;
* `LineIndex.lineText_of_isLine`: the text of a line is what stands between two line feeds;
* `LineIndex.describes_ofText`: what the line index of a source says about all offsets and all lines;
* `LineIndex.line_feeds_wraps`: where the line numbers of a source wrap around.
-/

namespace CfScript

/-! ## Binary search -/

namespace Bisection

/-- Whether the numbers stand in order and no two are the same. -/
def Rising (xs : Array Nat) : Prop :=
  ∀ (i j : Nat) (hi : i < xs.size) (hj : j < xs.size), i < j → xs[i] < xs[j]

variable {xs : Array Nat} {x : Nat}

/-- How many of the numbers are not larger than the one that was looked for. -/
def reached : Bisection → Nat
  | found i => i + 1
  | absent i => i

/-- The line of a search is the number of those that it reaches, in 32 bits. -/
theorem line_eq (b : Bisection) : b.line = UInt32.ofNat b.reached := by
  cases b with
  | found i => exact (UInt32.ofNat_add i 1).symm
  | absent i => rfl

/-- Halving keeps the place that is looked for among the indices that are left: no larger number
stands at the first of them, unless that is the first of all, and only larger ones stand behind the
last. -/
theorem narrow_spec (hRising : Rising xs) {base size : Nat} (hPos : 0 < size)
    (hFits : base + size ≤ xs.size) (hBase : ∀ hb : base < xs.size, base = 0 ∨ xs[base] ≤ x)
    (hAbove : ∀ (j : Nat) (hj : j < xs.size), base + size ≤ j → x < xs[j]) {i : Fin xs.size}
    (h : narrow xs x base size hPos hFits = i) :
    (i.val = 0 ∨ xs[i] ≤ x) ∧ ∀ (j : Nat) (hj : j < xs.size), i.val < j → x < xs[j] := by
  fun_induction narrow xs x base size hPos hFits with
  | case1 base hPos hFits =>
    rw [narrow, if_pos rfl] at h
    subst h
    exact ⟨hBase _, hAbove⟩
  | case2 base size hPos hFits hMany hLarger ih =>
    rw [narrow, if_neg hMany, if_pos hLarger] at h
    refine ih hBase (fun j hj hBehind => ?_) h
    by_cases hMiddle : base + size / 2 = j
    · subst hMiddle
      exact hLarger
    · exact Nat.lt_trans hLarger (hRising _ _ (by omega) hj (by omega))
  | case3 base size hPos hFits hMany hSmaller ih =>
    rw [narrow, if_neg hMany, if_neg hSmaller] at h
    exact ih (fun _ => .inr (Nat.le_of_not_lt hSmaller)) (fun j hj hBehind => hAbove j hj (by omega)) h

/-- A search reaches exactly the numbers that are not larger than the one that is looked for. -/
theorem lt_reached_search_iff (hRising : Rising xs) {j : Nat} (hj : j < xs.size) :
    j < (search xs x).reached ↔ xs[j] ≤ x := by
  have hPos : 0 < xs.size := by omega
  rw [search, dif_pos hPos]
  generalize hNarrow : narrow xs x 0 xs.size hPos (by omega) = i
  obtain ⟨hHere, hBehind⟩ := narrow_spec hRising hPos (by omega) (fun _ => .inl rfl)
    (fun j hj h => absurd hj (by omega)) hNarrow
  have hBefore : j < i → xs[j] < xs[i] := hRising j i hj i.isLt
  have hAfter : i < j → x < xs[j] := hBehind j hj
  have hSame : j = i → xs[j] = xs[i] := fun h => getElem_congr_idx h
  unfold landing
  split
  · rw [reached]
    omega
  split
  · rw [reached]
    omega
  · rw [reached]
    omega

theorem reached_search_le (xs : Array Nat) (x : Nat) : (search xs x).reached ≤ xs.size := by
  unfold search landing
  split
  · split
    · exact Fin.isLt _
    split
    · exact Fin.isLt _
    · exact Nat.le_of_lt (Fin.isLt _)
  · exact Nat.zero_le _

/-- Numbers that stand in order are counted by the search. -/
theorem reached_search (hRising : Rising xs) : (search xs x).reached = xs.toList.countP (· ≤ x) := by
  have hLe := reached_search_le xs x
  generalize hReached : (search xs x).reached = n at hLe
  have hIff {j : Nat} (hj : j < xs.size) : j < n ↔ xs[j] ≤ x :=
    hReached ▸ lt_reached_search_iff hRising hj
  have hFirst : (xs.toList.take n).countP (· ≤ x) = n := by
    rw [List.countP_eq_length.2, List.length_take, Array.length_toList, Nat.min_eq_left hLe]
    intro y hMem
    obtain ⟨j, hj, rfl⟩ := List.getElem_of_mem hMem
    rw [List.length_take, Array.length_toList] at hj
    simpa using (hIff (j := j) (by omega)).1 (by omega)
  have hRest : (xs.toList.drop n).countP (· ≤ x) = 0 := by
    rw [List.countP_eq_zero]
    intro y hMem
    obtain ⟨j, hj, rfl⟩ := List.getElem_of_mem hMem
    rw [List.length_drop, Array.length_toList] at hj
    have hLarger := mt (hIff (j := n + j) (by omega)).2 (by omega)
    simpa using hLarger
  rw [← List.take_append_drop n xs.toList, List.countP_append, hFirst, hRest]
  rfl

end Bisection

/-! ## Line starts -/

namespace LineIndex

theorem startsFrom_append (offset : Nat) (front back : List Char) :
    startsFrom offset (front ++ back) =
      startsFrom offset front ++ startsFrom (offset + Text.byteLength front) back := by
  induction front generalizing offset with
  | nil => rfl
  | cons c cs ih => by_cases h : c = '\n' <;> simp [startsFrom, Text.byteLength, h, ih, Nat.add_assoc]

theorem le_of_mem_startsFrom {offset start : Nat} {chars : List Char}
    (h : start ∈ startsFrom offset chars) :
    offset < start ∧ start ≤ offset + Text.byteLength chars := by
  induction chars generalizing offset with
  | nil => cases h
  | cons c cs ih =>
    have hSize := c.utf8Size_pos
    have hRest (hMem : start ∈ startsFrom (offset + c.utf8Size) cs) :
        offset < start ∧ start ≤ offset + Text.byteLength (c :: cs) := by
      have := ih hMem
      simp only [Text.byteLength]
      omega
    by_cases hc : c = '\n'
    · simp only [startsFrom, hc, if_true, List.mem_cons] at h
      subst hc
      rcases h with rfl | h
      · simp only [Text.byteLength]
        omega
      · exact hRest h
    · simp only [startsFrom, hc, if_false] at h
      exact hRest h

theorem pairwise_startsFrom (offset : Nat) (chars : List Char) :
    (startsFrom offset chars).Pairwise (· < ·) := by
  induction chars generalizing offset with
  | nil => exact .nil
  | cons c cs ih =>
    unfold startsFrom
    split
    · exact .cons (fun start hMem => (le_of_mem_startsFrom hMem).1) (ih _)
    · exact ih _

theorem rising_ofText (source : String) : Bisection.Rising (ofText source).starts := by
  have hPairwise : (0 :: startsFrom 0 source.toList).Pairwise (· < ·) :=
    .cons (fun start hMem => (le_of_mem_startsFrom hMem).1) (pairwise_startsFrom 0 _)
  intro i j hi hj hLt
  exact List.pairwise_iff_getElem.1 hPairwise i j hi hj hLt

/-- Behind fewer than `2 ^ 32 - 1` line feeds the line number is one more than the line feeds. -/
theorem toNat_one_add {feeds : Nat} (h : feeds + 1 < 2 ^ 32) :
    (1 + UInt32.ofNat feeds).toNat = 1 + feeds := by
  rw [UInt32.toNat_add, UInt32.toNat_one, UInt32.toNat_ofNat', Nat.mod_eq_of_lt (by omega),
    Nat.mod_eq_of_lt (by omega)]

/-- How many lines start at an offset or before it. -/
def linesTo (source : String) (offset : Nat) : Nat :=
  (0 :: startsFrom 0 source.toList).countP (· ≤ min offset (Text.byteLength source.toList))

theorem linesTo_pos (source : String) (offset : Nat) : 0 < linesTo source offset := by
  simp [linesTo]

theorem linesTo_le (source : String) (offset : Nat) : linesTo source offset ≤ (ofText source).count :=
  List.countP_le_length

theorem linesTo_mono (source : String) {a b : Nat} (hLe : a ≤ b) :
    linesTo source a ≤ linesTo source b := by
  refine List.countP_mono_left fun start _ hStart => ?_
  simp only [decide_eq_true_eq] at hStart ⊢
  omega

theorem lt_linesTo_iff {source : String} {j : Nat} (hj : j < (ofText source).starts.size)
    (offset : Nat) : j < linesTo source offset ↔
      (ofText source).starts[j] ≤ min offset (Text.byteLength source.toList) := by
  rw [← Bisection.lt_reached_search_iff (rising_ofText source) hj,
    Bisection.reached_search (rising_ofText source)]
  rfl

/-- The lines that start up to the end of a text are one more than its line feeds. -/
theorem linesTo_byteLength {source : String} {front back : List Char}
    (h : source.toList = front ++ back) :
    linesTo source (Text.byteLength front) = 1 + front.count '\n' := by
  have hBefore : (startsFrom 0 front).countP (· ≤ Text.byteLength front) = front.count '\n' := by
    rw [← length_startsFrom 0, List.countP_eq_length]
    intro start hMem
    simpa using (le_of_mem_startsFrom hMem).2
  have hAfter : (startsFrom (Text.byteLength front) back).countP (· ≤ Text.byteLength front) = 0 := by
    rw [List.countP_eq_zero]
    intro start hMem
    simpa using (le_of_mem_startsFrom hMem).1
  have hSize : min (Text.byteLength front) (Text.byteLength (front ++ back)) =
      Text.byteLength front := by simp
  rw [linesTo]
  simp only [h, hSize, startsFrom_append, List.countP_cons, List.countP_append,
    Nat.zero_add, hBefore, hAfter]
  simp [Nat.add_comm]

/-- The line of an offset is the number of lines that start at or before it, in 32 bits. -/
theorem line_eq_linesTo (source : String) (offset : Nat) :
    (ofText source).line offset = UInt32.ofNat (linesTo source offset) := by
  rw [line, Bisection.line_eq, Bisection.reached_search (rising_ofText source)]
  rfl

/-- The line of an offset is one more than the line feeds in front of it, in 32 bits. -/
theorem line_ofText {source : String} {front back : List Char} (h : source.toList = front ++ back) :
    (ofText source).line (Text.byteLength front) = 1 + UInt32.ofNat (front.count '\n') := by
  rw [line_eq_linesTo, linesTo_byteLength h, UInt32.ofNat_add]
  rfl

/-! ## Line numbers that do not wrap around -/

section

variable {source : String} (hLines : (ofText source).count + 1 < 2 ^ 32)

include hLines

theorem toNat_line (offset : Nat) : ((ofText source).line offset).toNat = linesTo source offset := by
  have hLe := linesTo_le source offset
  rw [line_eq_linesTo, UInt32.toNat_ofNat', Nat.mod_eq_of_lt (by omega)]

/-- The line numbers of a source go up with the offsets. -/
theorem line_mono {a b : Nat} (hLe : a ≤ b) : (ofText source).line a ≤ (ofText source).line b := by
  rw [UInt32.le_iff_toNat_le, toNat_line hLines, toNat_line hLines]
  exact linesTo_mono source hLe

/-- The line of an offset starts at it or before it. -/
theorem lineStart_line (offset : Nat) :
    ∃ start, (ofText source).lineStart ((ofText source).line offset) = some start ∧
      start ≤ min offset (Text.byteLength source.toList) := by
  have hPos := linesTo_pos source offset
  have hLast : linesTo source offset - 1 < (ofText source).starts.size := by
    have hLe : linesTo source offset ≤ (ofText source).starts.size := linesTo_le source offset
    omega
  refine ⟨(ofText source).starts[linesTo source offset - 1], ?_,
    (lt_linesTo_iff hLast offset).1 (Nat.sub_lt hPos Nat.one_pos)⟩
  rw [lineStart_of_pos (toNat_line hLines offset) hPos, Array.getElem?_eq_getElem hLast]

/-- The line behind the one of an offset starts behind the offset. -/
theorem lt_of_lineStart_succ {offset next : Nat}
    (h : (ofText source).lineStart ((ofText source).line offset + 1) = some next) :
    min offset (Text.byteLength source.toList) < next := by
  have hLe := linesTo_le source offset
  have hBehind : ((ofText source).line offset + 1).toNat = linesTo source offset + 1 := by
    rw [UInt32.toNat_add, toNat_line hLines, UInt32.toNat_one, Nat.mod_eq_of_lt (by omega)]
  rw [lineStart_of_pos hBehind (Nat.succ_pos _)] at h
  obtain ⟨hj, rfl⟩ := Array.getElem?_eq_some_iff.1 h
  exact Nat.lt_of_not_le fun hLe => Nat.lt_irrefl _ ((lt_linesTo_iff hj offset).2 hLe)

end

end LineIndex

/-! ## Bytes -/

namespace Text

/-- The bytes of the characters in UTF-8. -/
def bytes (chars : List Char) : List UInt8 := chars.flatMap String.utf8EncodeChar

theorem toList_toByteArray (source : String) : source.toByteArray.data.toList = bytes source.toList := by
  rw [← String.utf8Encode_toList, List.utf8Encode, List.data_toByteArray]
  rfl

theorem length_bytes (chars : List Char) : (bytes chars).length = byteLength chars := by
  induction chars with
  | nil => rfl
  | cons c cs ih =>
    rw [byteLength, ← ih, ← String.length_utf8EncodeChar, ← List.length_append]
    rfl

theorem utf8ByteSize_eq (source : String) : source.utf8ByteSize = byteLength source.toList := by
  rw [← length_bytes, ← toList_toByteArray]
  rfl

/-- No other character has the byte of a line feed in it. -/
theorem feed_notMem {c : Char} (h : c ≠ '\n') : (10 : UInt8) ∉ String.utf8EncodeChar c := by
  intro hMem
  have hNat (n : Nat) : (10 : UInt8) = UInt8.ofNat n ↔ n % 256 = 10 := by
    rw [← UInt8.toNat_inj, UInt8.toNat_ofNat']
    exact eq_comm
  have hOther : c.val.toNat ≠ 10 := fun hIs => h (Char.ext (UInt32.toNat_inj.1 hIs))
  unfold String.utf8EncodeChar at hMem
  dsimp only at hMem
  -- One case for each width.
  repeat' split at hMem
  all_goals
    simp only [List.mem_cons, List.not_mem_nil, or_false, hNat] at hMem
    omega

end Text

namespace LineIndex

/-- The number of line feeds among the first bytes of a source. -/
def feedsBefore (source : String) (size : Nat) : Nat :=
  (source.toByteArray.data.toList.take size).count 10

/-- The line starts up to a byte are counted by the line feeds in front of it. -/
theorem countP_startsFrom (offset stop : Nat) (chars : List Char) :
    (startsFrom offset chars).countP (· ≤ stop) = ((Text.bytes chars).take (stop - offset)).count 10 := by
  induction chars generalizing offset with
  | nil => simp [startsFrom, Text.bytes]
  | cons c cs ih =>
    have hBytes : Text.bytes (c :: cs) = String.utf8EncodeChar c ++ Text.bytes cs := rfl
    have hRest : stop - offset - c.utf8Size = stop - (offset + c.utf8Size) := by omega
    rw [hBytes, List.take_append, List.count_append, String.length_utf8EncodeChar, hRest, ← ih]
    by_cases hc : c = '\n'
    · subst hc
      have hFeed : String.utf8EncodeChar '\n' = [10] := rfl
      have hSize : '\n'.utf8Size = 1 := rfl
      rw [startsFrom, if_pos rfl, hSize, hFeed, List.countP_cons, Nat.add_comm]
      congr 1
      by_cases hLe : offset + 1 ≤ stop
      · have hTake : [(10 : UInt8)].take (stop - offset) = [10] := List.take_of_length_le (by simp; omega)
        simp [hLe, hTake]
      · have hTake : stop - offset = 0 := by omega
        simp [hLe, hTake]
    · have hNone : ((String.utf8EncodeChar c).take (stop - offset)).count 10 = 0 :=
        List.count_eq_zero.2 fun hMem => Text.feed_notMem hc (List.mem_of_mem_take hMem)
      rw [startsFrom, if_neg hc, hNone, Nat.zero_add]

/-- The lines up to an offset are one more than the line feeds among the bytes in front of it. -/
theorem linesTo_eq_feedsBefore (source : String) (offset : Nat) :
    linesTo source offset = 1 + feedsBefore source (min offset source.utf8ByteSize) := by
  rw [linesTo, List.countP_cons, countP_startsFrom, feedsBefore, Text.toList_toByteArray,
    Text.utf8ByteSize_eq, Nat.sub_zero, Nat.add_comm]
  simp

/-- The line of an offset is one more than the line feeds among the bytes in front of it, in 32 bits. -/
theorem line_eq_feedsBefore (source : String) (offset : Nat) :
    (ofText source).line offset =
      1 + UInt32.ofNat (feedsBefore source (min offset source.utf8ByteSize)) := by
  rw [line_eq_linesTo, linesTo_eq_feedsBefore, UInt32.ofNat_add]
  rfl

/-! ## The text of a line -/

/-- Whether `text` is line `k` of the characters: behind line feed `k - 1` and in front of line feed
`k`, or at the ends of the characters, stand the text and carriage returns only, and the text has none
at its end. -/
structure IsLine (chars : List Char) (k : Nat) (text : List Char) : Prop where
  noFeed : '\n' ∉ text
  noReturn : text.getLast? ≠ some '\r'
  stands : ∃ front returns back,
    chars = front ++ ((text ++ List.replicate returns '\r') ++ back) ∧ front.count '\n' + 1 = k ∧
      (front = [] ∨ front.getLast? = some '\n') ∧ (back = [] ∨ back.head? = some '\n')

/-- A text falls apart behind each of its line feeds. -/
theorem exists_front {chars : List Char} {n : Nat} (h : n ≤ chars.count '\n') :
    ∃ front back, chars = front ++ back ∧ front.count '\n' = n ∧
      (front = [] ∨ front.getLast? = some '\n') := by
  induction n with
  | zero => exact ⟨[], chars, rfl, rfl, .inl rfl⟩
  | succ n ih =>
    obtain ⟨front, back, rfl, hCount, -⟩ := ih (by omega)
    rw [List.count_append, hCount] at h
    have hMem : '\n' ∈ back := List.count_pos_iff.1 (by omega)
    obtain ⟨line, rest, rfl, hLine⟩ := List.eq_append_cons_of_mem hMem
    refine ⟨front ++ (line ++ ['\n']), rest, by simp, ?_, .inr (by simp)⟩
    rw [List.count_append, List.count_append, hCount, List.count_eq_zero.2 hLine]
    rfl

/-- A text falls apart in front of its first line feed. -/
theorem exists_line (chars : List Char) :
    ∃ line back, chars = line ++ back ∧ '\n' ∉ line ∧ (back = [] ∨ back.head? = some '\n') := by
  by_cases hMem : '\n' ∈ chars
  · obtain ⟨line, rest, rfl, hLine⟩ := List.eq_append_cons_of_mem hMem
    exact ⟨line, '\n' :: rest, rfl, hLine, .inr rfl⟩
  · exact ⟨chars, [], by simp, hMem, .inl rfl⟩

/-- A text falls apart in front of the carriage returns at its end. -/
theorem exists_returns (line : List Char) :
    ∃ text returns, line = text ++ List.replicate returns '\r' ∧ text.getLast? ≠ some '\r' := by
  obtain ⟨tail, hSplit, hTail⟩ := Text.exists_trimEndBy (· == '\r') line
  have hReturns : tail = List.replicate tail.length '\r' :=
    List.eq_replicate_iff.2 ⟨rfl, fun c hMem => by simpa using hTail c hMem⟩
  refine ⟨Text.trimEndBy (· == '\r') line, tail.length, hReturns ▸ hSplit, fun hLast => ?_⟩
  simpa using Text.not_of_getLast?_trimEndBy hLast

/-- Each line number up to the last one is that of a line. -/
theorem exists_isLine {source : String} {k : Nat} (hFirst : 1 ≤ k) (hLast : k ≤ (ofText source).count) :
    ∃ text, IsLine source.toList k text := by
  rw [count_ofText] at hLast
  have hFeeds : k - 1 ≤ source.toList.count '\n' := by omega
  obtain ⟨front, behind, hSplit, hCount, hFront⟩ := exists_front hFeeds
  obtain ⟨line, back, rfl, hLine, hBack⟩ := exists_line behind
  obtain ⟨text, returns, rfl, hText⟩ := exists_returns line
  exact ⟨text, fun hMem => hLine (List.mem_append_left _ hMem), hText, front, returns, back, hSplit,
    by omega, hFront, hBack⟩

/-- A line starts behind each line feed, and at the start. -/
theorem lineStart_ofText {source : String} {front back : List Char} {k : LineNumber}
    (hk : k.toNat = front.count '\n' + 1) (h : source.toList = front ++ back)
    (hFront : front = [] ∨ front.getLast? = some '\n') :
    (ofText source).lineStart k = some (Text.byteLength front) := by
  rw [lineStart_of_pos hk (Nat.succ_pos _), Nat.add_sub_cancel, ofText, List.getElem?_toArray, h]
  rcases hFront with rfl | hFront
  · rfl
  · obtain ⟨init, rfl⟩ := List.getLast?_eq_some_iff.1 hFront
    have hFeed : startsFrom (Text.byteLength init) ['\n'] = [Text.byteLength (init ++ ['\n'])] := by
      simp [startsFrom, Text.byteLength]
    have hCount : (init ++ ['\n']).count '\n' = (startsFrom 0 init).length + 1 := by
      rw [length_startsFrom, List.count_append]
      rfl
    rw [startsFrom_append, startsFrom_append, Nat.zero_add, hFeed, hCount, List.getElem?_cons_succ,
      List.append_assoc, List.getElem?_append_right (Nat.le_refl _), Nat.sub_self]
    rfl

/-- Where a line stops: behind the line feed that ends it, or at the end of the source. -/
theorem stop_ofText {source : String} {front line back : List Char} {k : LineNumber}
    (hk : k.toNat = front.count '\n' + 1 + 1) (h : source.toList = front ++ (line ++ back))
    (hLine : '\n' ∉ line) (hBack : back = [] ∨ back.head? = some '\n') :
    ∃ breaks rest, back = breaks ++ rest ∧ (∀ c ∈ breaks, c = '\n') ∧
      ((ofText source).lineStart k).getD (Text.byteLength source.toList) =
        Text.byteLength front + Text.byteLength (line ++ breaks) := by
  have hNone := List.count_eq_zero.2 hLine
  rcases hBack with rfl | hBack
  · refine ⟨[], [], rfl, nofun, ?_⟩
    have hEnd : (ofText source).lineStart k = none := by
      rw [lineStart_of_pos hk (Nat.succ_pos _)]
      refine Array.getElem?_eq_none ?_
      have hCount := count_ofText source
      rw [h, List.append_nil, List.count_append, hNone] at hCount
      exact Nat.le_of_eq hCount
    rw [hEnd, h, Text.byteLength_append]
    rfl
  · obtain ⟨rest, rfl⟩ := List.head?_eq_some_iff.1 hBack
    refine ⟨['\n'], rest, rfl, by simp, ?_⟩
    have hNext : source.toList = (front ++ (line ++ ['\n'])) ++ rest := by simp [h]
    have hCount : (front ++ (line ++ ['\n'])).count '\n' = front.count '\n' + 1 := by
      rw [List.count_append, List.count_append, hNone]
      rfl
    rw [lineStart_ofText (hCount ▸ hk) hNext (.inr (by simp)), Text.byteLength_append]
    rfl

/-- The text of a line is what stands on it, without the carriage returns at its end. -/
theorem lineText_of_isLine {source : String} {k : LineNumber} {text : List Char}
    (hNext : k.toNat + 1 < 2 ^ 32) (h : IsLine source.toList k.toNat text) :
    (ofText source).lineText source k = some (String.ofList text) := by
  obtain ⟨front, returns, back, hSplit, hk, hFront, hBack⟩ := h.stands
  have hBehind : (k + 1).toNat = front.count '\n' + 1 + 1 := by
    rw [UInt32.toNat_add, UInt32.toNat_one, Nat.mod_eq_of_lt hNext, hk]
  have hLine : '\n' ∉ text ++ List.replicate returns '\r' := by
    simp [h.noFeed, List.mem_replicate]
  obtain ⟨breaks, rest, rfl, hBreaks, hStop⟩ := stop_ofText hBehind hSplit hLine hBack
  have hSlice := Text.sliceBytes_append front (text ++ List.replicate returns '\r' ++ breaks) rest
  rw [List.append_assoc _ breaks rest, ← hSplit, ← hStop] at hSlice
  have hTrim : Text.trimEndBy Text.isLineBreak (text ++ List.replicate returns '\r' ++ breaks) =
      text := by
    rw [List.append_assoc]
    refine Text.trimEndBy_append (fun c hLast => ?_) fun c hMem => ?_
    · have hFeed : c ≠ '\n' := fun hIs => h.noFeed (hIs ▸ List.mem_of_getLast? hLast)
      have hReturn : c ≠ '\r' := fun hIs => h.noReturn (hIs ▸ hLast)
      simp [Text.isLineBreak, hFeed, hReturn]
    · rcases List.mem_append.1 hMem with hMem | hMem
      · simp [Text.isLineBreak, List.eq_of_mem_replicate hMem]
      · simp [Text.isLineBreak, hBreaks c hMem]
  simp only [lineText, lineStart_ofText hk.symm hSplit hFront, hSlice, hTrim, Option.bind_eq_bind,
    Option.bind_some]
  rfl

/-- There is no text for a number that is not that of a line. -/
theorem lineText_eq_none {source : String} {k : LineNumber}
    (h : ¬ (1 ≤ k.toNat ∧ k.toNat ≤ (ofText source).count)) :
    (ofText source).lineText source k = none := by
  have hStart : (ofText source).lineStart k = none := by
    by_cases hLine : k = 0
    · exact if_pos hLine
    have hPos : 0 < k.toNat := Nat.pos_of_ne_zero fun hZero => hLine (UInt32.toNat_inj.1 hZero)
    rw [lineStart_of_pos rfl hPos]
    refine Array.getElem?_eq_none ?_
    rw [count] at h
    omega
  rw [lineText, hStart]
  rfl

/-! ## The line index of a source -/

/-- What a line index says about a source. -/
structure Describes (index : LineIndex) (source : String) : Prop where
  /-- There is one line more than there are line feeds. -/
  count : index.count = source.toList.count '\n' + 1
  /-- The line of an offset is one more than the line feeds among the bytes in front of it. An offset
  past the end is on the last line. -/
  line : ∀ offset,
    (index.line offset).toNat = 1 + feedsBefore source (min offset source.utf8ByteSize)
  mono : ∀ a b, a ≤ b → index.line a ≤ index.line b
  /-- The line of an offset starts at it or before it. -/
  start : ∀ offset, ∃ start, index.lineStart (index.line offset) = some start ∧
    start ≤ min offset source.utf8ByteSize
  /-- The next line, if there is one, starts behind the offset. -/
  next : ∀ offset start, index.lineStart (index.line offset + 1) = some start →
    min offset source.utf8ByteSize < start
  /-- Each number up to the number of lines has a text, and that is what stands on its line. -/
  text : ∀ k : LineNumber, 1 ≤ k.toNat → k.toNat ≤ index.count →
    ∃ text, IsLine source.toList k.toNat text ∧ index.lineText source k = some (String.ofList text)
  /-- No other number has a text. -/
  noText : ∀ k : LineNumber, ¬ (1 ≤ k.toNat ∧ k.toNat ≤ index.count) → index.lineText source k = none

/-- The line index of a source numbers its lines and has their texts, if there are fewer line feeds than
`2 ^ 32 - 2`: then the lines and the place behind the last of them have a number. -/
theorem describes_ofText {source : String} (hFeeds : source.toList.count '\n' < 2 ^ 32 - 2) :
    (ofText source).Describes source := by
  have hLines : (ofText source).count + 1 < 2 ^ 32 := by
    rw [count_ofText]
    omega
  refine ⟨count_ofText source, fun offset => ?_, fun _ _ => line_mono hLines, fun offset => ?_,
    fun offset start h => ?_, fun k hFirst hLast => ?_, fun k => lineText_eq_none⟩
  · rw [toNat_line hLines, linesTo_eq_feedsBefore]
  · rw [Text.utf8ByteSize_eq]
    exact lineStart_line hLines offset
  · rw [Text.utf8ByteSize_eq]
    exact lt_of_lineStart_succ hLines h
  · obtain ⟨text, hText⟩ := exists_isLine hFirst hLast
    exact ⟨text, hText, lineText_of_isLine (by omega) hText⟩

/-- A line that ends with a carriage return, an empty one and one without a line feed. -/
theorem describes_ofText_returns :
    let source := "é\r\n\nb"
    source.toList.count '\n' < 2 ^ 32 - 2 ∧ (ofText source).Describes source ∧
      (ofText source).line 4 = 2 ∧ (ofText source).lineText source 1 = some "é" := by
  intro source
  have hFeeds : source.toList.count '\n' < 2 ^ 32 - 2 := by decide +kernel
  exact ⟨hFeeds, describes_ofText hFeeds, by decide +kernel, by decide +kernel⟩

/-! ## Where line numbers wrap around -/

theorem byteLength_feeds (n : Nat) : Text.byteLength (List.replicate n '\n') = n := by
  induction n with
  | zero => rfl
  | succ n ih =>
    rw [List.replicate_succ, Text.byteLength, ih]
    exact Nat.add_comm 1 n

/-- Behind the first line feeds of a source of line feeds only start as many lines and one. -/
theorem linesTo_feeds {m n : Nat} (h : m ≤ n) :
    linesTo (String.ofList (List.replicate n '\n')) m = 1 + m := by
  have hSplit : (String.ofList (List.replicate n '\n')).toList =
      List.replicate m '\n' ++ List.replicate (n - m) '\n' := by
    rw [String.toList_ofList, List.replicate_append_replicate, Nat.add_sub_cancel' h]
  have hLines := linesTo_byteLength hSplit
  rwa [byteLength_feeds, List.count_replicate_self] at hLines

/-- The line behind `2 ^ 32 - 1` line feeds has no number: the number of the line before is the largest
one, and that of the last line is 0. -/
theorem line_feeds_wraps :
    let source := String.ofList (List.replicate (2 ^ 32 - 1) '\n')
    source.utf8ByteSize < 2 ^ 32 ∧ 1 + feedsBefore source source.utf8ByteSize = 2 ^ 32 ∧
      (ofText source).line source.utf8ByteSize = 0 ∧
      ¬ ∀ a b, a ≤ b → (ofText source).line a ≤ (ofText source).line b := by
  intro source
  have hSize : source.utf8ByteSize = 2 ^ 32 - 1 := by
    rw [Text.utf8ByteSize_eq, String.toList_ofList, byteLength_feeds]
  have hFeeds := linesTo_eq_feedsBefore source (2 ^ 32 - 1)
  rw [linesTo_feeds (Nat.le_refl _), hSize, Nat.min_self] at hFeeds
  have hLast : (ofText source).line (2 ^ 32 - 1) = 0 := by
    rw [line_eq_linesTo, linesTo_feeds (Nat.le_refl _)]
    rfl
  have hBefore : (ofText source).line (2 ^ 32 - 2) = 4294967295 := by
    rw [line_eq_linesTo, linesTo_feeds (by decide)]
    rfl
  rw [hSize]
  refine ⟨by decide, hFeeds.symm, hLast, fun hMono => ?_⟩
  have hLe := hMono (2 ^ 32 - 2) (2 ^ 32 - 1) (by decide)
  rw [hLast, hBefore] at hLe
  exact absurd hLe (by decide)

end LineIndex

end CfScript
