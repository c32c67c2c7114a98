/-!
# Names compared without regard to letter case

Keywords, attribute names and file extensions match in any letter case. Only the twenty-six ASCII
letters have a case here: every other character stands for itself, so `İ` is not an `i`.

## Main results

* `fold_fold`: folding twice is folding once;
* `sameName_refl`, `sameName_symm`, `sameName_trans`: agreement up to case is an equivalence.
-/

namespace CfScript.Text

/-- The characters with every ASCII capital replaced by its small letter. -/
def foldChars (chars : List Char) : List Char := chars.map Char.toLower

/-- The text with every ASCII capital replaced by its small letter. -/
def fold (text : String) : String := String.ofList (foldChars text.toList)

/-- Whether two names agree once letter case is ignored. -/
def sameName (a b : String) : Bool := fold a == fold b

theorem toLower_toLower (c : Char) : c.toLower.toLower = c.toLower := by
  delta Char.toLower
  split
  · next h =>
    have hLow : 65 ≤ c.val.toNat := UInt32.le_iff_toNat_le.1 h.1
    have hHigh : c.val.toNat ≤ 90 := UInt32.le_iff_toNat_le.1 h.2
    have hSum : (c.val + ('a'.val - 'A'.val)).toNat = c.val.toNat + 32 := by
      rw [UInt32.toNat_add, show ('a'.val - 'A'.val).toNat = 32 from rfl]
      omega
    split
    · next hAgain =>
      have hAgain : (c.val + ('a'.val - 'A'.val)).toNat ≤ 90 :=
        UInt32.le_iff_toNat_le.1 hAgain.2
      omega
    · rfl
  · rfl

@[simp] theorem foldChars_foldChars (chars : List Char) :
    foldChars (foldChars chars) = foldChars chars := by
  simp only [foldChars, List.map_map]
  exact List.map_congr_left fun c _ => toLower_toLower c

@[simp] theorem fold_fold (text : String) : fold (fold text) = fold text := by
  simp [fold]

theorem sameName_iff {a b : String} : sameName a b = true ↔ fold a = fold b := by
  simp [sameName]

@[simp] theorem sameName_refl (a : String) : sameName a a = true := by
  simp [sameName]

theorem sameName_symm {a b : String} (h : sameName a b = true) : sameName b a = true :=
  sameName_iff.2 (sameName_iff.1 h).symm

theorem sameName_trans {a b c : String} (hab : sameName a b = true) (hbc : sameName b c = true) :
    sameName a c = true :=
  sameName_iff.2 ((sameName_iff.1 hab).trans (sameName_iff.1 hbc))

end CfScript.Text
