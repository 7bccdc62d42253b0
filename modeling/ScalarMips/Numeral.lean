/-!
# Decimal numerals

Reading and writing the numbers of the language. A word of the machine is a signed 32-bit integer;
line numbers, columns and sizes are unsigned ones. Both are written in decimal without leading
zeros.

A run of digits can be of any length, and whether its number fits in a word is found out while it is
read (`fits`). What has been read is gauged in a register that would overflow itself if it went on
counting. It starts again from zero whenever it passes the greatest word, so that its last value
says nothing about a long run; what is kept of it is that it has passed (`Gauge.Tracks`).
-/

namespace ScalarMips.Numeral

/-! ### Reading -/

/-- The number that a run of decimal digits stands for. -/
def value (digits : List Char) : Nat :=
  Nat.ofDigitChars 10 digits 0

/-- The largest integer that fits in a word. -/
def greatest : Nat := 2147483647

/-- What is kept of a run of digits while it is read. -/
structure Gauge where
  /-- The number of the digits since the last overflow. -/
  value : Int64 := 0
  /-- Whether the number was once too large for a word. -/
  overflow : Bool := false

/-- Reads one more digit. -/
def Gauge.read (g : Gauge) (digit : Char) : Gauge :=
  let value := g.value * 10 + Int64.ofNat (digit.toNat - '0'.toNat)
  if value > Int64.ofNat greatest then ⟨0, true⟩ else ⟨value, g.overflow⟩

/-- Whether the number that a run of digits stands for fits in a word. -/
def fits (digits : List Char) : Bool :=
  !(digits.foldl Gauge.read {}).overflow

/-- The word at the front of `text`: an optional minus sign and a run of digits, whatever follows.
There is none without a digit, and none if the number does not fit. -/
def readWord? (text : String) : Option Int32 :=
  match text.toList with
  | '-' :: rest =>
    let digits := rest.takeWhile Char.isDigit
    if digits ≠ [] ∧ value digits ≤ greatest + 1 then some (Int32.ofInt (-(value digits : Int)))
    else none
  | text =>
    let digits := text.takeWhile Char.isDigit
    if digits ≠ [] ∧ value digits ≤ greatest then some (Int32.ofInt (value digits)) else none

/-! ### Runs of any length -/

/-- What a gauge says of the number `n` that has been read. -/
structure Gauge.Tracks (g : Gauge) (n : Nat) : Prop where
  /-- The register is never negative. -/
  nonneg : 0 ≤ g.value.toInt
  /-- It never holds more than the greatest word. -/
  le_greatest : g.value.toInt ≤ greatest
  /-- Without an overflow it holds the number. -/
  exact : g.overflow = false → g.value.toInt = n
  /-- After an overflow the number is too large. -/
  large : g.overflow = true → greatest < n

/-- The register itself does not wrap around. -/
theorem Gauge.Tracks.toInt_next {g : Gauge} {n : Nat} (h : g.Tracks n) {digit : Nat}
    (hdigit : digit < UInt32.size) :
    (g.value * 10 + Int64.ofNat digit).toInt = g.value.toInt * 10 + digit := by
  have hbound : digit < 4294967296 := hdigit
  have hnonneg := h.nonneg
  have hle : g.value.toInt ≤ 2147483647 := h.le_greatest
  have hten : (10 : Int64).toInt = 10 := by decide
  have hmul : (g.value * 10).toInt = g.value.toInt * 10 := by
    rw [Int64.toInt_mul, hten]
    exact Int.bmod_eq_of_le (by omega) (by omega)
  rw [Int64.toInt_add, hmul, Int64.toInt_ofNat_of_lt (by omega)]
  exact Int.bmod_eq_of_le (by omega) (by omega)

/-- One more digit. -/
theorem Gauge.Tracks.read {g : Gauge} {n : Nat} (h : g.Tracks n) (digit : Char) :
    (g.read digit).Tracks (10 * n + (digit.toNat - '0'.toNat)) := by
  have hdigit : digit.toNat - '0'.toNat < UInt32.size :=
    Nat.lt_of_le_of_lt (Nat.sub_le _ _) digit.val.toNat_lt_size
  have hnext := h.toInt_next hdigit
  have hgreatest : (Int64.ofNat greatest).toInt = greatest := by decide
  have hnonneg := h.nonneg
  unfold Gauge.read
  generalize digit.toNat - '0'.toNat = k at hnext ⊢
  generalize g.value * 10 + Int64.ofNat k = next at hnext ⊢
  simp only [gt_iff_lt, Int64.lt_iff_toInt_lt, hgreatest]
  split
  · rename_i hover
    refine ⟨by decide, by decide, nofun, fun _ ↦ ?_⟩
    cases hflag : g.overflow with
    | false =>
      have hexact := h.exact hflag
      omega
    | true =>
      have hlarge := h.large hflag
      omega
  · rename_i hunder
    have hpos : 0 ≤ next.toInt := by omega
    refine ⟨hpos, Int.not_lt.1 hunder, fun hflag ↦ ?_, fun hflag ↦ ?_⟩
    · have hexact := h.exact hflag
      show next.toInt = _
      omega
    · have hlarge := h.large hflag
      omega

theorem Gauge.Tracks.readAll (digits : List Char) : ∀ {g : Gauge} {n : Nat}, g.Tracks n →
    (digits.foldl Gauge.read g).Tracks (Nat.ofDigitChars 10 digits n) := by
  induction digits with
  | nil => exact fun h ↦ h
  | cons digit digits ih => exact fun h ↦ Nat.ofDigitChars_cons ▸ ih (h.read digit)

/-- Reading a run digit by digit tells whether its number fits in a word. -/
theorem fits_iff (digits : List Char) : fits digits ↔ value digits ≤ greatest := by
  have hstart : Gauge.Tracks {} 0 := ⟨by decide, by decide, fun _ ↦ rfl, nofun⟩
  have htracks := hstart.readAll digits
  unfold fits
  cases hflag : (digits.foldl Gauge.read {}).overflow with
  | false =>
    have hexact := htracks.exact hflag
    have hle := htracks.le_greatest
    simp only [Bool.not_false, true_iff]
    exact Int.ofNat_le.1 (hexact ▸ hle)
  | true =>
    have hlarge := htracks.large hflag
    simp only [Bool.not_true, Bool.false_eq_true, false_iff, Nat.not_le]
    exact hlarge

/-! ### Writing -/

/-- The decimal text of an unsigned number. -/
def ofSize (n : UInt32) : String :=
  n.toNat.repr

/-- The decimal text of a word, with a minus sign if it is negative. -/
def ofWord (n : Int32) : String :=
  n.toInt.repr

end ScalarMips.Numeral
