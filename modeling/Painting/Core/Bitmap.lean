import Mathlib

/-!
# Byte bitmaps

An allocation bitmap is an array of bytes in which bit `i % 8` of byte `i / 8`
says whether number `i` is taken.  Numbers are taken by scanning for the first
clear bit.
-/

namespace Painting.Bitmap

abbrev Map := ℕ → UInt8

/-- The byte `1 << k`. -/
def bit (k : ℕ) : UInt8 := UInt8.ofNat (2 ^ k)

/-- Number `i` is taken. -/
def Marked (map : Map) (i : ℕ) : Prop := map (i / 8) &&& bit (i % 8) ≠ 0

instance (map : Map) (i : ℕ) : Decidable (Marked map i) :=
  inferInstanceAs (Decidable (_ ≠ _))

def mark (map : Map) (i : ℕ) : Map :=
  Function.update map (i / 8) (map (i / 8) ||| bit (i % 8))

def clear (map : Map) (i : ℕ) : Map :=
  Function.update map (i / 8) (map (i / 8) &&& ~~~ bit (i % 8))

/-- The first clear bit among the `count` numbers from `i` on. -/
def firstClear (map : Map) : ℕ → ℕ → Option ℕ
  | _, 0 => none
  | i, count + 1 => if Marked map i then firstClear map (i + 1) count else some i

theorem toNat_bit {k : ℕ} (hk : k < 8) : (bit k).toNat = 2 ^ k := by
  have hlt : 2 ^ k < 2 ^ 8 := Nat.pow_lt_pow_right (by decide) hk
  rw [bit, UInt8.toNat_ofNat', Nat.mod_eq_of_lt hlt]

theorem and_bit_ne_zero {byte : UInt8} {k : ℕ} (hk : k < 8) :
    byte &&& bit k ≠ 0 ↔ byte.toNat.testBit k = true := by
  rw [Ne, ← UInt8.toNat_inj, UInt8.toNat_and, toNat_bit hk, Nat.and_two_pow]
  cases byte.toNat.testBit k <;> simp

theorem marked_iff {map : Map} {i : ℕ} :
    Marked map i ↔ (map (i / 8)).toNat.testBit (i % 8) = true :=
  and_bit_ne_zero (Nat.mod_lt _ (by decide))

theorem testBit_bit {j k : ℕ} (hk : k < 8) : (bit k).toNat.testBit j = decide (k = j) := by
  rw [toNat_bit hk, Nat.testBit_two_pow]

/-- Two numbers are equal when they share byte and bit. -/
theorem eq_of_div_mod {i j : ℕ} (hbyte : i / 8 = j / 8) (hbit : i % 8 = j % 8) : i = j := by
  omega

@[simp]
theorem marked_mark {map : Map} {i j : ℕ} :
    Marked (mark map i) j ↔ j = i ∨ Marked map j := by
  rw [marked_iff, marked_iff, mark]
  by_cases hbyte : j / 8 = i / 8
  · rw [hbyte, Function.update_self, UInt8.toNat_or, Nat.testBit_or,
      testBit_bit (Nat.mod_lt _ (by decide))]
    by_cases hbit : i % 8 = j % 8
    · simp [hbit, eq_of_div_mod hbyte hbit.symm]
    · have hne : j ≠ i := fun heq => hbit (by rw [heq])
      simp [hbit, hne]
  · have hne : j ≠ i := fun heq => hbyte (by rw [heq])
    rw [Function.update_of_ne hbyte]
    simp [hne]

@[simp]
theorem marked_clear {map : Map} {i j : ℕ} :
    Marked (clear map i) j ↔ j ≠ i ∧ Marked map j := by
  rw [marked_iff, marked_iff, clear]
  by_cases hbyte : j / 8 = i / 8
  · have hlow : j % 8 < 8 := Nat.mod_lt _ (by decide)
    have hnot : (~~~ bit (i % 8)).toNat.testBit (j % 8) = !decide (i % 8 = j % 8) := by
      rw [UInt8.toNat_not, Nat.sub_sub, Nat.add_comm 1, ← testBit_bit (Nat.mod_lt i (by decide)),
        show UInt8.size = 2 ^ 8 from rfl,
        Nat.testBit_two_pow_sub_succ (bit (i % 8)).toNat_lt]
      simp [hlow]
    rw [hbyte, Function.update_self, UInt8.toNat_and, Nat.testBit_and, hnot]
    by_cases hbit : i % 8 = j % 8
    · simp [hbit, eq_of_div_mod hbyte hbit.symm]
    · have hne : j ≠ i := fun heq => hbit (by rw [heq])
      simp [hbit, hne]
  · have hne : j ≠ i := fun heq => hbyte (by rw [heq])
    rw [Function.update_of_ne hbyte]
    simp [hne]

theorem firstClear_some {map : Map} {i count found : ℕ}
    (hfound : firstClear map i count = some found) :
    i ≤ found ∧ found < i + count ∧ ¬ Marked map found := by
  induction count generalizing i with
  | zero => simp [firstClear] at hfound
  | succ count ih =>
      rw [firstClear] at hfound
      split at hfound
      · obtain ⟨hlo, hhi, hclear⟩ := ih hfound
        exact ⟨by omega, by omega, hclear⟩
      · obtain rfl := Option.some.inj hfound
        exact ⟨le_rfl, by omega, by assumption⟩

theorem firstClear_eq_none {map : Map} {i count : ℕ} :
    firstClear map i count = none ↔ ∀ j, i ≤ j → j < i + count → Marked map j := by
  induction count generalizing i with
  | zero =>
      simp only [firstClear, true_iff]
      intro j hlo hhi
      omega
  | succ count ih =>
      rw [firstClear]
      split
      · rw [ih]
        constructor
        · intro hall j hlo hhi
          by_cases heq : j = i
          · rw [heq]
            assumption
          · exact hall j (by omega) (by omega)
        · intro hall j hlo hhi
          exact hall j (by omega) (by omega)
      · simp only [reduceCtorEq, false_iff, not_forall]
        exact ⟨i, le_rfl, by omega, by assumption⟩

end Painting.Bitmap
