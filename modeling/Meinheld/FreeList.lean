import Mathlib.Tactic

/-! Blocks of memory that are recycled through a bounded free list, the last one freed first. -/

/-- The free list, the last block freed first, and what the blocks hold that have been allocated and
not been given back to the system. -/
structure FreeList (κ : Type*) where
  free : List ℕ := []
  cell : ℕ → Option κ := fun _ => none

namespace FreeList

variable {κ : Type*} {l l' : FreeList κ} {live : ℕ → Prop} {p fresh : ℕ} {v : κ}

/-- `n` blocks that are all free. -/
def filled (n : ℕ) (v : κ) : FreeList κ := ⟨List.range n,fun p => if p < n then some v else none⟩

/-- A block that holds `v`: the last one freed, or `fresh` from the system. -/
def alloc (l : FreeList κ) (fresh : ℕ) (v : κ) : Option (ℕ × FreeList κ) :=
  match l.free with
  | p :: free => some (p,{ free := free, cell := Function.update l.cell p (some v) })
  | [] =>
    if l.cell fresh = none then some (fresh,{ l with cell := Function.update l.cell fresh (some v) })
    else none

/-- A block is given back, to the list if that is not full. -/
def dealloc (l : FreeList κ) (bound p : ℕ) : FreeList κ :=
  if l.free.length < bound then { l with free := p :: l.free }
  else { l with cell := Function.update l.cell p none }

def set (l : FreeList κ) (p : ℕ) (v : κ) : FreeList κ :=
  { l with cell := Function.update l.cell p (some v) }

/-- The blocks in use are those that are neither free nor given back to the system. -/
structure Valid (l : FreeList κ) (live : ℕ → Prop) : Prop where
  nodup : l.free.Nodup
  cells : ∀ p, l.cell p ≠ none ↔ p ∈ l.free ∨ live p
  unused : ∀ p ∈ l.free, ¬live p

theorem valid_filled (n : ℕ) (v : κ) (h : ∀ p, ¬live p) : (filled n v).Valid live :=
  ⟨List.nodup_range,fun p => by simp [filled,h p],fun p _ => h p⟩

theorem Valid.congr {live' : ℕ → Prop} (h : l.Valid live) (hl : ∀ p, live' p ↔ live p) :
    l.Valid live' :=
  ⟨h.nodup,fun p => by rw [hl p]; exact h.cells p,fun p hp => by rw [hl p]; exact h.unused p hp⟩

/-- A new block was not in use, and those in use hold what they held. -/
theorem Valid.alloc (h : l.Valid live) (ha : l.alloc fresh v = some (p,l')) :
    ¬live p ∧ l'.Valid (fun q => live q ∨ q = p) ∧ l'.cell p = some v ∧
      ∀ q, q ≠ p → l'.cell q = l.cell q := by
  unfold FreeList.alloc at ha
  split at ha
  next q free hfree =>
    obtain ⟨rfl,rfl⟩ := Prod.mk.inj (Option.some.inj ha)
    obtain ⟨hq,hnodup⟩ := List.nodup_cons.mp (hfree ▸ h.nodup)
    have hnot := h.unused q (by simp [hfree])
    refine ⟨hnot,⟨hnodup,fun k => ?_,fun k hk => ?_⟩,by simp,fun k hk => by simp [hk]⟩
    · by_cases hk : k = q
      · simp [hk]
      · simpa [hk,hfree] using h.cells k
    · rintro (hlive | rfl)
      · exact h.unused k (by simp [hfree,hk]) hlive
      · exact hq hk
  next hfree =>
    simp only [Option.ite_none_right_eq_some,Option.some.injEq,Prod.mk.injEq] at ha
    obtain ⟨hnone,rfl,rfl⟩ := ha
    have hnot : ¬live fresh := fun hlive => absurd hnone ((h.cells fresh).mpr (.inr hlive))
    refine ⟨hnot,⟨h.nodup,fun k => ?_,fun k hk => absurd hk (by simp [hfree])⟩,by simp,
      fun k hk => by simp [hk]⟩
    by_cases hk : k = fresh
    · simp [hk]
    · simpa [hk] using h.cells k

theorem Valid.dealloc (h : l.Valid live) (bound : ℕ) (hp : live p) :
    (l.dealloc bound p).Valid fun q => live q ∧ q ≠ p := by
  have hnotin : p ∉ l.free := fun hin => h.unused p hin hp
  unfold FreeList.dealloc
  split
  · refine ⟨List.nodup_cons.mpr ⟨hnotin,h.nodup⟩,fun k => ?_,fun k hk => ?_⟩
    · by_cases hk : k = p
      · simpa [hk] using (h.cells p).mpr (.inr hp)
      · simpa [hk] using h.cells k
    · rintro ⟨hlive,hne⟩
      exact h.unused k (List.mem_of_ne_of_mem hne hk) hlive
  · refine ⟨h.nodup,fun k => ?_,fun k hk hlive => h.unused k hk hlive.1⟩
    by_cases hk : k = p
    · simp [hk,hnotin]
    · simpa [hk] using h.cells k

theorem Valid.set (h : l.Valid live) (hp : l.cell p ≠ none) : (l.set p v).Valid live := by
  refine ⟨h.nodup,fun k => ?_,h.unused⟩
  by_cases hk : k = p
  · simpa [FreeList.set,hk] using (h.cells p).mp hp
  · simpa [FreeList.set,hk] using h.cells k

end FreeList
