import Mathlib.Data.Multiset.Range
import Mathlib.Order.Defs.LinearOrder
import Mathlib.Logic.Equiv.Basic
import Mathlib.Data.Finset.Basic
import Mathlib.Tactic.Common

/-! Binary heaps in an array, in which a hole moves instead of two entries that change places. -/
namespace BinaryHeap

/-- The place above `i`. -/
def parent (i : ℕ) : ℕ := (i - 1) / 2

theorem parent_lt {i : ℕ} (h : 0 < i) : parent i < i := by
  unfold parent
  omega

/-- The entries of the first `n` places. -/
def items {α : Type*} (p : ℕ → α) (n : ℕ) : Multiset α := (Multiset.range n).map p

section Items
variable {α : Type*} {p : ℕ → α} {n i j : ℕ} {x : α}

@[simp] theorem items_zero : items p 0 = 0 := rfl

theorem items_succ : items p (n + 1) = p n ::ₘ items p n := by
  rw [items,Multiset.range_succ,Multiset.map_cons,items]

theorem items_congr {q : ℕ → α} (h : ∀ i < n, p i = q i) : items p n = items q n :=
  Multiset.map_congr rfl fun i hi => h i (Multiset.mem_range.mp hi)

theorem mem_items {a : α} : a ∈ items p n ↔ ∃ i < n, p i = a := by
  simp [items]

/-- A hole that moves takes along what it leaves. -/
theorem items_move (hi : i < n) (hj : j < n) (hij : i ≠ j) :
    items (Function.update (Function.update p i (p j)) j x) n = items (Function.update p i x) n := by
  have hswap : Function.update (Function.update p i (p j)) j x = Function.update p i x ∘ Equiv.swap i j := by
    funext k
    by_cases hki : k = i
    · subst hki
      simp [hij,hij.symm]
    · by_cases hkj : k = j
      · subst hkj
        simp
      · simp [hki,hkj,Equiv.swap_apply_of_ne_of_ne hki hkj]
  have hlt : ∀ k, Equiv.swap i j k < n ↔ k < n := by
    intro k
    rw [Equiv.swap_apply_def]
    split_ifs with hki hkj
    · exact iff_of_true hj (hki ▸ hi)
    · exact iff_of_true hi (hkj ▸ hj)
    · rfl
  have hperm : (Multiset.range n).map (Equiv.swap i j) = Multiset.range n := by
    refine (Multiset.Nodup.ext ((Multiset.nodup_range n).map (Equiv.injective _))
      (Multiset.nodup_range n)).mpr fun k => ?_
    simp only [Multiset.mem_map,Multiset.mem_range]
    constructor
    · rintro ⟨l,hl,rfl⟩
      exact (hlt l).mpr hl
    · exact fun hk => ⟨Equiv.swap i j k,(hlt k).mpr hk,Equiv.swap_apply_self i j k⟩
  rw [items,hswap,← Multiset.map_map,hperm,items]

end Items

/-! ### The two movements of the hole -/

section Sift
variable {α β : Type*} [LinearOrder β] (key : α → β)

/-- The hole at `pos` goes up while the entry above it comes after `x`, and `x` fills it. -/
def rise (start : ℕ) (x : α) (p : ℕ → α) (pos : ℕ) : ℕ → α :=
  if start < pos ∧ key x < key (p (parent pos)) then
    rise start x (Function.update p pos (p (parent pos))) (parent pos)
  else Function.update p pos x
termination_by pos
decreasing_by
  rename_i h
  exact parent_lt (Nat.zero_lt_of_lt h.1)

/-- The smaller of the entries below `pos`. -/
def smallerChild (n : ℕ) (p : ℕ → α) (pos : ℕ) : ℕ :=
  if 2 * pos + 2 < n ∧ key (p (2 * pos + 2)) < key (p (2 * pos + 1)) then 2 * pos + 2 else 2 * pos + 1

theorem smallerChild_cases (n : ℕ) (p : ℕ → α) (pos : ℕ) :
    smallerChild key n p pos = 2 * pos + 1 ∨
      smallerChild key n p pos = 2 * pos + 2 ∧ 2 * pos + 2 < n := by
  unfold smallerChild
  split
  next h => exact .inr ⟨rfl,h.1⟩
  next => exact .inl rfl

/-- The hole at `pos` goes down to a leaf. -/
def sink (n : ℕ) (p : ℕ → α) (pos : ℕ) : (ℕ → α) × ℕ :=
  if 2 * pos + 1 < n then
    sink n (Function.update p pos (p (smallerChild key n p pos))) (smallerChild key n p pos)
  else (p,pos)
termination_by n - pos
decreasing_by
  rcases smallerChild_cases key n p pos with h | h <;> omega

/-- The entry at `start` is put in its place below. -/
def sift (n : ℕ) (p : ℕ → α) (start : ℕ) : ℕ → α :=
  let r := sink key n p start
  rise key start (p start) r.1 r.2

variable {key} {p : ℕ → α} {n pos : ℕ} {x : α}

theorem items_rise (start : ℕ) (hpos : pos < n) :
    items (rise key start x p pos) n = items (Function.update p pos x) n := by
  fun_induction rise key start x p pos with
  | case1 p pos h ih =>
    have hlt := parent_lt (Nat.zero_lt_of_lt h.1)
    rw [ih (hlt.trans hpos),items_move hpos (hlt.trans hpos) hlt.ne']
  | case2 p pos h => rfl

variable (key) in
theorem sink_items (p : ℕ → α) (x : α) (hpos : pos < n) : (sink key n p pos).2 < n ∧ n ≤ 2 * (sink key n p pos).2 + 1 ∧
    items (Function.update (sink key n p pos).1 (sink key n p pos).2 x) n =
      items (Function.update p pos x) n := by
  fun_induction sink key n p pos with
  | case1 p pos h ih =>
    have hc : smallerChild key n p pos < n ∧ pos ≠ smallerChild key n p pos := by
      rcases smallerChild_cases key n p pos with hc | hc <;> omega
    obtain ⟨h1,h2,h3⟩ := ih hc.1
    exact ⟨h1,h2,h3.trans (items_move hpos hc.1 hc.2)⟩
  | case2 p pos h => exact ⟨hpos,by omega,rfl⟩

theorem items_sift (hpos : pos < n) : items (sift key n p pos) n = items p n := by
  obtain ⟨hlt,-,hitems⟩ := sink_items key p (p pos) hpos
  rw [sift,items_rise _ hlt,hitems,Function.update_eq_self]

/-! ### The order -/

variable (key) in
/-- No entry comes before the one above it. -/
def IsHeap (p : ℕ → α) (n : ℕ) : Prop := ∀ i, 0 < i → i < n → key (p (parent i)) ≤ key (p i)

variable (key) in
/-- The entries are in order but for those next to the hole. -/
structure Sinking (p : ℕ → α) (n hole : ℕ) : Prop where
  edges : ∀ i, 0 < i → i < n → i ≠ hole → parent i ≠ hole → key (p (parent i)) ≤ key (p i)
  grand : 0 < hole → ∀ c, 0 < c → c < n → parent c = hole → key (p (parent hole)) ≤ key (p c)

variable (key) in
/-- Besides, `x` comes before what is below the hole. -/
structure Rising (p : ℕ → α) (n hole : ℕ) (x : α) : Prop extends Sinking key p n hole where
  below : ∀ c, 0 < c → c < n → parent c = hole → key x ≤ key (p c)

theorem IsHeap.root_le (h : IsHeap key p n) {i : ℕ} (hi : i < n) : key (p 0) ≤ key (p i) := by
  induction i using Nat.strong_induction_on with
  | _ i ih =>
    rcases Nat.eq_zero_or_pos i with rfl | hpos
    · exact le_rfl
    · exact (ih (parent i) (parent_lt hpos) ((parent_lt hpos).trans hi)).trans (h i hpos hi)

theorem IsHeap.mono {m : ℕ} (h : IsHeap key p n) (hm : m ≤ n) : IsHeap key p m := fun i h0 hi =>
  h i h0 (hi.trans_le hm)

theorem Rising.move (h : Rising key p n pos x) (h0 : 0 < pos) (hpos : pos < n)
    (hx : key x < key (p (parent pos))) :
    Rising key (Function.update p pos (p (parent pos))) n (parent pos) x := by
  have hlt := parent_lt h0
  refine ⟨⟨fun i hi0 hi hne hpne => ?_,fun hpar c hc0 hc hcp => ?_⟩,fun c hc0 hc hcp => ?_⟩
  · have hipos : i ≠ pos := fun heq => hpne (heq ▸ rfl)
    rw [Function.update_of_ne hipos]
    by_cases hp : parent i = pos
    · rw [hp,Function.update_self]
      exact h.grand h0 i hi0 hi hp
    · rw [Function.update_of_ne hp]
      exact h.edges i hi0 hi hipos hp
  · have hpp := parent_lt hpar
    have hedge := h.edges (parent pos) hpar (hlt.trans hpos) hlt.ne (by omega)
    rw [Function.update_of_ne (show parent (parent pos) ≠ pos by omega)]
    by_cases hcpos : c = pos
    · rw [hcpos,Function.update_self]
      exact hedge
    · rw [Function.update_of_ne hcpos]
      have hc' := h.edges c hc0 hc hcpos (by omega)
      rw [hcp] at hc'
      exact hedge.trans hc'
  · by_cases hcpos : c = pos
    · rw [hcpos,Function.update_self]
      exact hx.le
    · rw [Function.update_of_ne hcpos]
      have hc' := h.edges c hc0 hc hcpos (by omega)
      rw [hcp] at hc'
      exact hx.le.trans hc'

theorem Rising.isHeap_update (h : Rising key p n pos x)
    (hx : 0 < pos → key (p (parent pos)) ≤ key x) : IsHeap key (Function.update p pos x) n := by
  intro i hi0 hi
  by_cases hipos : i = pos
  · subst hipos
    rw [Function.update_self,Function.update_of_ne (parent_lt hi0).ne]
    exact hx hi0
  rw [Function.update_of_ne hipos]
  by_cases hp : parent i = pos
  · rw [hp,Function.update_self]
    exact h.below i hi0 hi hp
  · rw [Function.update_of_ne hp]
    exact h.edges i hi0 hi hipos hp

theorem Rising.isHeap (h : Rising key p n pos x) (hpos : pos < n) : IsHeap key (rise key 0 x p pos) n := by
  fun_induction rise key 0 x p pos with
  | case1 p pos hc ih => exact ih (h.move hc.1 hpos hc.2) ((parent_lt hc.1).trans hpos)
  | case2 p pos hc =>
    refine h.isHeap_update fun h0 => ?_
    exact not_lt.mp fun hlt => hc ⟨h0,hlt⟩

variable (key) in
theorem parent_smallerChild (n : ℕ) (p : ℕ → α) (pos : ℕ) : parent (smallerChild key n p pos) = pos := by
  unfold parent
  rcases smallerChild_cases key n p pos with h | h <;> omega

theorem smallerChild_le {c : ℕ} (h0 : 0 < c) (hc : c < n) (hp : parent c = pos) :
    key (p (smallerChild key n p pos)) ≤ key (p c) := by
  have hcases : c = 2 * pos + 1 ∨ c = 2 * pos + 2 := by
    unfold parent at hp
    omega
  unfold smallerChild
  split
  next h =>
    rcases hcases with rfl | rfl
    · exact h.2.le
    · exact le_rfl
  next h =>
    rcases hcases with rfl | rfl
    · exact le_rfl
    · exact not_lt.mp fun hlt => h ⟨hc,hlt⟩

theorem Sinking.move (h : Sinking key p n pos) (hpos : 2 * pos + 1 < n) :
    Sinking key (Function.update p pos (p (smallerChild key n p pos))) n (smallerChild key n p pos) := by
  have hpar := parent_smallerChild key n p pos
  have hlt : pos < smallerChild key n p pos ∧ smallerChild key n p pos < n := by
    rcases smallerChild_cases key n p pos with hc | hc <;> omega
  refine ⟨fun i hi0 hi hne hpne => ?_,fun _ c hc0 hc hcp => ?_⟩
  · by_cases hipos : i = pos
    · subst hipos
      rw [Function.update_self,Function.update_of_ne (parent_lt hi0).ne]
      exact h.grand hi0 _ (hi0.trans hlt.1) hlt.2 hpar
    rw [Function.update_of_ne hipos]
    by_cases hp : parent i = pos
    · rw [hp,Function.update_self]
      exact smallerChild_le hi0 hi hp
    · rw [Function.update_of_ne hp]
      exact h.edges i hi0 hi hipos hp
  · have hcpos : c ≠ pos := by
      have hplt := parent_lt hc0
      omega
    rw [hpar,Function.update_self,Function.update_of_ne hcpos]
    have hedge := h.edges c hc0 hc hcpos (by omega)
    rwa [hcp] at hedge

theorem Sinking.sink (h : Sinking key p n pos) :
    Sinking key (sink key n p pos).1 n (sink key n p pos).2 := by
  fun_induction BinaryHeap.sink key n p pos with
  | case1 p pos hc ih => exact ih (h.move hc)
  | case2 p pos hc => exact h

theorem isHeap_sift (h : Sinking key p n 0) (hn : 0 < n) : IsHeap key (sift key n p 0) n := by
  obtain ⟨hlt,hleaf,-⟩ := sink_items key p (p 0) hn
  refine Rising.isHeap ⟨h.sink,fun c hc0 hc hcp => ?_⟩ hlt
  unfold parent at hcp
  omega

end Sift

/-! ### A queue -/

section Queue
variable {α β : Type*} [LinearOrder β] (key : α → β)

/-- `x` comes after `n` entries. -/
def push (p : ℕ → α) (n : ℕ) (x : α) : ℕ → α := rise key 0 x (Function.update p n x) n

/-- The root of `n + 1` entries, and the other entries. -/
def pop (p : ℕ → α) (n : ℕ) : α × (ℕ → α) :=
  if 0 < n then (p 0,sift key n (Function.update p 0 (p n)) 0) else (p n,p)

variable {key} {p : ℕ → α} {n : ℕ} {x : α}

theorem push_zero (p : ℕ → α) (x : α) : push key p 0 x = Function.update p 0 x := by
  rw [push,rise]
  simp

theorem items_push : items (push key p n x) (n + 1) = x ::ₘ items p n := by
  rw [push,items_rise 0 (Nat.lt_succ_self n),Function.update_idem,items_succ,Function.update_self]
  exact congrArg _ (items_congr fun i hi => Function.update_of_ne hi.ne _ _)

theorem isHeap_push (h : IsHeap key p n) : IsHeap key (push key p n x) (n + 1) := by
  have hchild : ∀ c, 0 < c → c < n + 1 → parent c ≠ n := by
    intro c h0 hc hp
    have hlt := parent_lt h0
    omega
  refine Rising.isHeap ⟨⟨fun i h0 hi hne hp => ?_,fun _ c h0 hc hp => absurd hp (hchild c h0 hc)⟩,
    fun c h0 hc hp => absurd hp (hchild c h0 hc)⟩ (Nat.lt_succ_self n)
  rw [Function.update_of_ne hne,Function.update_of_ne hp]
  exact h i h0 (by omega)

theorem pop_fst (p : ℕ → α) (n : ℕ) : (pop key p n).1 = p 0 := by
  unfold pop
  split
  · rfl
  next h => rw [Nat.eq_zero_of_not_pos h]

theorem items_pop : items p (n + 1) = (pop key p n).1 ::ₘ items (pop key p n).2 n := by
  unfold pop
  split
  next h =>
    have hmove : items (Function.update (Function.update p 0 (p n)) n (p 0)) (n + 1) =
        items (Function.update p 0 (p 0)) (n + 1) :=
      items_move (Nat.succ_pos n) (Nat.lt_succ_self n) h.ne
    rw [Function.update_eq_self,items_succ,Function.update_self] at hmove
    rw [items_sift h,← hmove]
    exact congrArg _ (items_congr fun i hi => Function.update_of_ne hi.ne _ _)
  · exact items_succ

theorem isHeap_pop (h : IsHeap key p (n + 1)) : IsHeap key (pop key p n).2 n := by
  unfold pop
  split
  next hn =>
    refine isHeap_sift ⟨fun i h0 hi hne hp => ?_,fun h0 => absurd h0 (lt_irrefl 0)⟩ hn
    rw [Function.update_of_ne hne,Function.update_of_ne hp]
    exact h i h0 (hi.trans (Nat.lt_succ_self n))
  · exact h.mono (Nat.le_succ n)

/-- The entry at the root of a heap comes before all others. -/
theorem IsHeap.root_le_of_mem (h : IsHeap key p n) {a : α} (ha : a ∈ items p n) : key (p 0) ≤ key a := by
  obtain ⟨i,hi,rfl⟩ := mem_items.mp ha
  exact h.root_le hi

end Queue

end BinaryHeap
