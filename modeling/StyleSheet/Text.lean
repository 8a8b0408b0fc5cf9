namespace StyleSheet

/-- Style text, character by character. -/
abbrev Text := List Char

namespace Text

/-- The code points of white space, as closed ranges in ascending order. -/
def blankRanges : List (Nat × Nat) :=
  [(0x9, 0xD), (0x20, 0x20), (0x85, 0x85), (0xA0, 0xA0), (0x1680, 0x1680), (0x2000, 0x200A),
    (0x2028, 0x2029), (0x202F, 0x202F), (0x205F, 0x205F), (0x3000, 0x3000)]

/-- White space of any script; zero-width characters and the byte order mark are none. -/
def isBlank (c : Char) : Bool :=
  blankRanges.any fun (lo, hi) => lo ≤ c.toNat && c.toNat ≤ hi

def trim (t : Text) : Text :=
  ((t.dropWhile isBlank).reverse.dropWhile isBlank).reverse

def lower (t : Text) : Text :=
  t.map Char.toLower

@[simp]
theorem length_lower (t : Text) : (lower t).length = t.length := by
  simp [lower]

theorem isAlpha_iff {c : Char} :
    c.isAlpha = true ↔
      65 ≤ c.val.toNat ∧ c.val.toNat ≤ 90 ∨ 97 ≤ c.val.toNat ∧ c.val.toNat ≤ 122 := by
  have hd : c.isAlpha = (decide ('A'.val ≤ c.val ∧ c.val ≤ 'Z'.val) ||
      (decide ('a'.val ≤ c.val) && decide (c.val ≤ 'z'.val))) := rfl
  simp [hd, UInt32.le_iff_toNat_le]

/-- Lower case makes letters of letters only. -/
theorem toLower_eq_iff {c d : Char} (h : d.isAlpha = false) : c.toLower = d ↔ c = d := by
  by_cases hc : 'A'.val ≤ c.val ∧ c.val ≤ 'Z'.val
  · have hl : 65 ≤ c.val.toNat := UInt32.le_iff_toNat_le.mp hc.1
    have hu : c.val.toNat ≤ 90 := UInt32.le_iff_toNat_le.mp hc.2
    have he : c.toLower.val = c.val + ('a'.val - 'A'.val) := congrArg Char.val (dif_pos hc)
    have hn : c.toLower.val.toNat = c.val.toNat + 32 := by
      have hd : ('a'.val - 'A'.val).toNat = 32 := rfl
      rw [he, UInt32.toNat_add]
      omega
    rw [← Bool.not_eq_true, isAlpha_iff] at h
    constructor
    · rintro rfl
      omega
    · rintro rfl
      omega
  · have he : c.toLower = c := dif_neg hc
    rw [he]

end Text

end StyleSheet
