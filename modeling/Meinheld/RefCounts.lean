import Mathlib.Data.List.Count
import Mathlib.Tactic

/-! Counted references: objects are numbered in the order they are created, and each has a count
that goes up and down. A count that is not that of the holders is a leak or a release too many. -/

structure RefCounts where
  created : ℕ := 0
  refs : ℕ → ℤ := fun _ => 0

namespace RefCounts

variable {r : RefCounts} {i j : ℕ} {p : Option ℕ}

/-- A new object with one reference. It gets the number `r.created`. -/
def new (r : RefCounts) : RefCounts :=
  { created := r.created + 1, refs := Function.update r.refs r.created 1 }

/-- One reference more, or with `n = -1` one less. -/
def add (r : RefCounts) (n : ℤ) (i : ℕ) : RefCounts :=
  { r with refs := Function.update r.refs i (r.refs i + n) }

def incref (r : RefCounts) (i : ℕ) : RefCounts := r.add 1 i

def decref (r : RefCounts) (i : ℕ) : RefCounts := r.add (-1) i

/-- A reference is given up unless the pointer is null. -/
def xdecref (r : RefCounts) (p : Option ℕ) : RefCounts := p.elim r r.decref

@[simp] theorem new_created (r : RefCounts) : r.new.created = r.created + 1 := rfl
@[simp] theorem incref_created (r : RefCounts) (i : ℕ) : (r.incref i).created = r.created := rfl
@[simp] theorem decref_created (r : RefCounts) (i : ℕ) : (r.decref i).created = r.created := rfl
@[simp] theorem xdecref_none (r : RefCounts) : r.xdecref none = r := rfl
@[simp] theorem xdecref_some (r : RefCounts) (i : ℕ) : r.xdecref (some i) = r.decref i := rfl

@[simp] theorem xdecref_created (r : RefCounts) (p : Option ℕ) : (r.xdecref p).created = r.created := by
  cases p <;> rfl

theorem new_refs (r : RefCounts) (i : ℕ) : r.new.refs i = if i = r.created then 1 else r.refs i :=
  Function.update_apply ..

theorem incref_refs (r : RefCounts) (i j : ℕ) :
    (r.incref i).refs j = r.refs j + if j = i then 1 else 0 := by
  by_cases h : j = i
  · subst h
    simp [incref,add]
  · simp [incref,add,h]

theorem decref_refs (r : RefCounts) (i j : ℕ) :
    (r.decref i).refs j = r.refs j - if j = i then 1 else 0 := by
  by_cases h : j = i
  · subst h
    simp [decref,add,sub_eq_add_neg]
  · simp [decref,add,h]

/-- What an object has too many, or too few, for its holders. -/
def excess (r : RefCounts) (held : List ℕ) (i : ℕ) : ℤ := r.refs i - held.count i

/-- Every object has one reference for each time it is held. -/
def Balanced (r : RefCounts) (held : List ℕ) : Prop := ∀ i < r.created, r.excess held i = 0

section Excess
variable {held : List ℕ}

theorem excess_new (h : ∀ j ∈ held, j < r.created) :
    r.new.excess held i = if i = r.created then 1 else r.excess held i := by
  unfold excess
  rw [new_refs]
  by_cases hi : i = r.created
  · have hcount : held.count i = 0 := List.count_eq_zero.mpr fun hm => by
      have := h i hm
      omega
    rw [if_pos hi,if_pos hi,hcount]
    rfl
  · rw [if_neg hi,if_neg hi]

theorem excess_decref : (r.decref j).excess held i = r.excess held i - if i = j then 1 else 0 := by
  unfold excess
  rw [decref_refs]
  omega

/-- A holder takes a reference of its own. -/
theorem excess_hold : (r.incref j).excess (held ++ [j]) i = r.excess held i := by
  unfold excess
  rw [incref_refs,List.count_append,List.count_singleton]
  by_cases h : i = j
  · subst h
    simp
  · have hji : (j == i) = false := by simpa using Ne.symm h
    simp [h,hji]

theorem excess_cons : r.excess (j :: held) i = r.excess held i - if i = j then 1 else 0 := by
  unfold excess
  rw [List.count_cons]
  by_cases h : i = j
  · subst h
    simp [sub_sub]
  · have hji : (j == i) = false := by simpa using Ne.symm h
    simp [h,hji]

/-- All holders give up what they hold: nothing is left exactly when all was balanced. -/
theorem foldl_decref_refs (r : RefCounts) (held : List ℕ) (i : ℕ) :
    (held.foldl decref r).refs i = r.excess held i := by
  induction held generalizing r with
  | nil => simp [excess]
  | cons j held ih =>
    rw [List.foldl_cons,ih,excess_decref,excess_cons]

end Excess

end RefCounts
