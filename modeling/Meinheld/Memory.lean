import Mathlib.Tactic

/-! Cells with the list of the places that have been read or written. -/

structure Memory (α : Type*) where
  cell : ℕ → α
  touched : List ℕ := []

namespace Memory

variable {α : Type*} {m : Memory α} {i j n : ℕ} {c : α}

/-- A cell is read. -/
def read (m : Memory α) (i : ℕ) : Memory α := { m with touched := i :: m.touched }

/-- The `n` cells from `i` on are read. -/
def readAll (m : Memory α) (i n : ℕ) : Memory α := { m with touched := List.range' i n ++ m.touched }

def write (m : Memory α) (i : ℕ) (c : α) : Memory α :=
  { cell := Function.update m.cell i c, touched := i :: m.touched }

/-- What the `n` cells from `i` on hold. -/
def view (m : Memory α) (i : ℕ) : ℕ → List α
  | 0 => []
  | n + 1 => m.cell i :: m.view (i + 1) n

/-- Only the first `n` cells have been touched. -/
def Within (m : Memory α) (n : ℕ) : Prop := ∀ i ∈ m.touched, i < n

@[simp] theorem view_zero (m : Memory α) (i : ℕ) : m.view i 0 = [] := rfl

theorem view_succ (m : Memory α) (i n : ℕ) : m.view i (n + 1) = m.cell i :: m.view (i + 1) n := rfl

/-- A view depends on its cells only. -/
theorem view_congr {m' : Memory α} (h : ∀ k, i ≤ k → m'.cell k = m.cell k) : m'.view i n = m.view i n := by
  induction n generalizing i with
  | zero => rfl
  | succ n ih => rw [view_succ,view_succ,h i le_rfl,ih fun k hk => h k (by omega)]

@[simp] theorem view_read (m : Memory α) (i j n : ℕ) : (m.read i).view j n = m.view j n :=
  view_congr fun _ _ => rfl

@[simp] theorem view_readAll (m : Memory α) (i k j n : ℕ) : (m.readAll i k).view j n = m.view j n :=
  view_congr fun _ _ => rfl

theorem view_write_of_lt (h : i < j) : (m.write i c).view j n = m.view j n :=
  view_congr fun k hk => Function.update_of_ne (by omega) _ _

theorem view_concat (m : Memory α) (i n : ℕ) : m.view i (n + 1) = m.view i n ++ [m.cell (i + n)] := by
  induction n generalizing i with
  | zero => rfl
  | succ n ih =>
    have hplace : i + 1 + n = i + (n + 1) := by omega
    rw [view_succ,ih,view_succ,hplace]
    rfl

/-- A write after a view. -/
theorem view_write_of_le (h : j + n ≤ i) : (m.write i c).view j n = m.view j n := by
  induction n with
  | zero => rfl
  | succ n ih =>
    have hcell : (m.write i c).cell (j + n) = m.cell (j + n) := Function.update_of_ne (by omega) _ _
    rw [view_concat,view_concat,ih (by omega),hcell]

/-- A write at the end of a view makes it longer. -/
theorem view_write_end (m : Memory α) (j n : ℕ) (c : α) :
    (m.write (j + n) c).view j (n + 1) = m.view j n ++ [c] := by
  have hcell : (m.write (j + n) c).cell (j + n) = c := Function.update_self ..
  rw [view_concat,view_write_of_le le_rfl,hcell]

@[simp] theorem length_view (m : Memory α) (i n : ℕ) : (m.view i n).length = n := by
  induction n generalizing i with
  | zero => rfl
  | succ n ih => rw [view_succ,List.length_cons,ih]

theorem take_view {k : ℕ} (h : k ≤ n) : (m.view i n).take k = m.view i k := by
  induction n generalizing i k with
  | zero =>
    obtain rfl := Nat.le_zero.mp h
    rfl
  | succ n ih =>
    cases k with
    | zero => rfl
    | succ k => rw [view_succ,view_succ,List.take_succ_cons,ih (Nat.le_of_succ_le_succ h)]

/-- The view of cells that hold a list. -/
theorem view_eq {s : List α} (h : ∀ k (hk : k < s.length), m.cell (i + k) = s[k]) :
    m.view i s.length = s := by
  induction s generalizing i with
  | nil => rfl
  | cons c s ih =>
    have hhead := h 0 (by simp)
    have htail : ∀ k (hk : k < s.length), m.cell (i + 1 + k) = s[k] := by
      intro k hk
      have hplace : i + 1 + k = i + (k + 1) := by omega
      rw [hplace]
      exact h (k + 1) (Nat.succ_lt_succ hk)
    rw [List.length_cons,view_succ,ih htail]
    exact congrArg (· :: s) hhead

@[simp] theorem within_read : (m.read i).Within n ↔ i < n ∧ m.Within n := List.forall_mem_cons

@[simp] theorem within_write : (m.write i c).Within n ↔ i < n ∧ m.Within n := List.forall_mem_cons

theorem Within.readAll {k : ℕ} (h : m.Within n) (hk : i + k ≤ n) : (m.readAll i k).Within n := by
  intro j hj
  rcases List.mem_append.mp hj with hj | hj
  · have := List.mem_range'_1.mp hj
    omega
  · exact h j hj

/-- A list is written from `i` on. -/
def writeAll (m : Memory α) (i : ℕ) : List α → Memory α
  | [] => m
  | c :: s => (m.write i c).writeAll (i + 1) s

theorem writeAll_concat (m : Memory α) (i : ℕ) (s : List α) (c : α) :
    m.writeAll i (s ++ [c]) = (m.writeAll i s).write (i + s.length) c := by
  induction s generalizing m i with
  | nil => rfl
  | cons d s ih =>
    have hplace : i + 1 + s.length = i + (s.length + 1) := by omega
    rw [List.cons_append,writeAll,ih,hplace]
    rfl

/-- What is written can be read. -/
theorem view_writeAll (m : Memory α) (i : ℕ) (s : List α) : (m.writeAll i s).view i s.length = s := by
  induction s using List.reverseRecOn with
  | nil => rfl
  | append_singleton s c ih =>
    rw [writeAll_concat,List.length_append,List.length_singleton,view_write_end,ih]

/-- What lies before or after a list that is written. -/
theorem view_writeAll_of_disjoint {s : List α} (h : j + n ≤ i ∨ i + s.length ≤ j) :
    (m.writeAll i s).view j n = m.view j n := by
  induction s generalizing m i with
  | nil => rfl
  | cons c s ih =>
    rw [List.length_cons] at h
    rw [writeAll,ih (by omega)]
    rcases h with h | h
    · exact view_write_of_le h
    · exact view_write_of_lt (by omega)

theorem Within.writeAll {s : List α} (h : m.Within n) (hs : i + s.length ≤ n) :
    (m.writeAll i s).Within n := by
  induction s generalizing m i with
  | nil => exact h
  | cons c s ih =>
    rw [List.length_cons] at hs
    exact ih (within_write.mpr ⟨by omega,h⟩) (by omega)

end Memory
