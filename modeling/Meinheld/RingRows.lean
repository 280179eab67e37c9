import Meinheld.Memory

/-! Rows of one width in memory, written in turn: the entry of number `k` goes to the row `k` modulo
the number of rows. -/
namespace RingRows

variable {α : Type*} {m : Memory α} {rows width n : ℕ} {entry : ℕ → List α}

/-- The place where an entry is written. -/
def place (rows width k : ℕ) : ℕ := k % rows * width

/-- The rows hold the last of the first `n` entries. -/
def Holds (m : Memory α) (rows width n : ℕ) (entry : ℕ → List α) : Prop :=
  ∀ k, k < n → n ≤ k + rows → m.view (place rows width k) width = entry k

theorem place_add_le (hr : 0 < rows) (k : ℕ) : place rows width k + width ≤ rows * width := by
  have hlt : k % rows + 1 ≤ rows := Nat.mod_lt k hr
  calc place rows width k + width = (k % rows + 1) * width := (Nat.succ_mul _ _).symm
    _ ≤ rows * width := Nat.mul_le_mul_right width hlt

theorem place_disjoint {k : ℕ} (hk : k < n) (hn : n < k + rows) :
    place rows width k + width ≤ place rows width n ∨
      place rows width n + width ≤ place rows width k := by
  have hne : k % rows ≠ n % rows := by
    intro heq
    have hzero := Nat.sub_mod_eq_zero_of_mod_eq heq.symm
    rw [Nat.mod_eq_of_lt (by omega)] at hzero
    omega
  rcases Nat.lt_or_gt_of_ne hne with h | h
  · left
    calc place rows width k + width = (k % rows + 1) * width := (Nat.succ_mul _ _).symm
      _ ≤ n % rows * width := Nat.mul_le_mul_right width h
  · right
    calc place rows width n + width = (n % rows + 1) * width := (Nat.succ_mul _ _).symm
      _ ≤ k % rows * width := Nat.mul_le_mul_right width h

/-- The next entry takes the row of the oldest. -/
theorem Holds.write (h : Holds m rows width n entry) (hlen : (entry n).length = width) :
    Holds (m.writeAll (place rows width n) (entry n)) rows width (n + 1) entry := by
  intro k hk hn
  by_cases heq : k = n
  · subst heq
    have hview := Memory.view_writeAll m (place rows width k) (entry k)
    rwa [hlen] at hview
  · have hlt : k < n := by omega
    rw [Memory.view_writeAll_of_disjoint,h k hlt (by omega)]
    rw [hlen]
    exact place_disjoint hlt (by omega)

/-- Entries that are still to come do not count. -/
theorem Holds.congr {entry' : ℕ → List α} (h : Holds m rows width n entry)
    (he : ∀ k, k < n → entry' k = entry k) : Holds m rows width n entry' := by
  intro k hk hn
  rw [he k hk]
  exact h k hk hn

/-- The row of an entry holds the last one that went to it. -/
theorem Holds.view_place (h : Holds m rows width n entry) (hr : 0 < rows) {k : ℕ} (hk : k < n) :
    m.view (place rows width k) width = entry (k + rows * ((n - 1 - k) / rows)) := by
  have hrow : place rows width (k + rows * ((n - 1 - k) / rows)) = place rows width k := by
    rw [place,Nat.add_mul_mod_self_left,place]
  have hdiv := Nat.div_add_mod (n - 1 - k) rows
  have hmod := Nat.mod_lt (n - 1 - k) hr
  rw [← hrow]
  exact h _ (by omega) (by omega)

end RingRows
