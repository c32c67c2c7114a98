import CfScript.Text.Bytes

/-!
# Positions and ranges in a source

A position counts bytes from the start of a source and fits in 32 bits: a larger count is held at the
largest position. A span is a half-open range of positions. Tokens, tree leaves and nodes of the
program tree carry a span; the empty span at position 0 is the span of what stands nowhere.

## Main results

* `BytePos.toNat_ofNat_of_le`: a count below 2 ^ 32 is its own position;
* `Span.merge_comm`, `Span.merge_assoc`, `Span.merge_self`: merging is a join;
* `Span.contains_merge`: a merge holds what its two sides hold.
-/

namespace CfScript

/-- A byte offset into a source. -/
structure BytePos where
  /-- The number of bytes before the position. -/
  toNat : Nat
  /-- Positions fit in 32 bits. -/
  le_limit : toNat ≤ 4294967295
deriving DecidableEq

namespace BytePos

/-- The largest position. -/
def limit : Nat := 4294967295

/-- The position after `count` bytes, held at the largest position. -/
def ofNat (count : Nat) : BytePos := ⟨min count limit, Nat.min_le_right ..⟩

/-- The start of the source. -/
def zero : BytePos := ⟨0, by decide⟩

instance : Inhabited BytePos := ⟨zero⟩

/-- The position `delta` bytes further, held at the largest position. -/
def offset (p : BytePos) (delta : Nat) : BytePos := ofNat (p.toNat + delta)

/-- The written form of a position, for debugging. -/
def debugText (p : BytePos) : String := "@" ++ toString p.toNat

@[simp] theorem toNat_ofNat (count : Nat) : (ofNat count).toNat = min count limit := rfl

theorem toNat_ofNat_of_le {count : Nat} (h : count ≤ limit) : (ofNat count).toNat = count :=
  Nat.min_eq_left h

theorem ofNat_mono {a b : Nat} (h : a ≤ b) : (ofNat a).toNat ≤ (ofNat b).toNat := by
  simp only [toNat_ofNat, limit]
  omega

theorem ext {p q : BytePos} (h : p.toNat = q.toNat) : p = q := by
  cases p
  cases q
  simpa using h

end BytePos

/-- A half-open range of positions. -/
structure Span where
  /-- The first position inside. -/
  start : BytePos
  /-- The first position after. -/
  stop : BytePos
  /-- A span does not end before it starts. -/
  start_le_stop : start.toNat ≤ stop.toNat
deriving DecidableEq

namespace Span

/-- The span of what stands nowhere in a source. -/
def dummy : Span := ⟨.zero, .zero, Nat.le_refl _⟩

instance : Inhabited Span := ⟨dummy⟩

/-- The empty span at a position. -/
def point (p : BytePos) : Span := ⟨p, p, Nat.le_refl _⟩

/-- The span of `length` bytes from byte `start`. -/
def ofLength (start length : Nat) : Span :=
  ⟨.ofNat start, .ofNat (start + length), BytePos.ofNat_mono (Nat.le_add_right ..)⟩

/-- The span between two byte offsets, if they are in order. -/
def ofBounds? (start stop : Nat) : Option Span :=
  if h : (BytePos.ofNat start).toNat ≤ (BytePos.ofNat stop).toNat then
    some ⟨.ofNat start, .ofNat stop, h⟩
  else none

/-- The smallest span around both. -/
def merge (a b : Span) : Span :=
  ⟨⟨min a.start.toNat b.start.toNat, Nat.le_trans (Nat.min_le_left ..) a.start.le_limit⟩,
    ⟨max a.stop.toNat b.stop.toNat, Nat.max_le.2 ⟨a.stop.le_limit, b.stop.le_limit⟩⟩,
    Nat.le_trans (Nat.min_le_left ..) (Nat.le_trans a.start_le_stop (Nat.le_max_left ..))⟩

/-- The number of bytes inside. -/
def length (s : Span) : Nat := s.stop.toNat - s.start.toNat

/-- Whether nothing is inside. -/
def isEmpty (s : Span) : Bool := s.length == 0

/-- Whether a position is inside. -/
def contains (s : Span) (p : BytePos) : Bool :=
  s.start.toNat ≤ p.toNat && p.toNat < s.stop.toNat

/-- The text under the span, if the span lies in the source and cuts no character. -/
def slice (s : Span) (source : String) : Option String :=
  (Text.sliceBytes s.start.toNat s.stop.toNat source.toList).map String.ofList

/-- The written form of a span, for debugging. -/
def debugText (s : Span) : String := toString s.start.toNat ++ ".." ++ toString s.stop.toNat

theorem ext {a b : Span} (hStart : a.start = b.start) (hStop : a.stop = b.stop) : a = b := by
  cases a
  cases b
  simp_all

theorem merge_comm (a b : Span) : a.merge b = b.merge a :=
  ext (BytePos.ext (Nat.min_comm ..)) (BytePos.ext (Nat.max_comm ..))

theorem merge_assoc (a b c : Span) : (a.merge b).merge c = a.merge (b.merge c) :=
  ext (BytePos.ext (Nat.min_assoc ..)) (BytePos.ext (Nat.max_assoc ..))

@[simp] theorem merge_self (a : Span) : a.merge a = a :=
  ext (BytePos.ext (Nat.min_self ..)) (BytePos.ext (Nat.max_self ..))

theorem contains_merge {a b : Span} {p : BytePos} (h : a.contains p = true) :
    (a.merge b).contains p = true := by
  simp only [contains, Bool.and_eq_true, decide_eq_true_eq] at h ⊢
  exact ⟨Nat.le_trans (Nat.min_le_left ..) h.1, Nat.lt_of_lt_of_le h.2 (Nat.le_max_left ..)⟩

end Span

end CfScript
