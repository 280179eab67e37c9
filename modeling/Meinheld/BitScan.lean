import Mathlib.Tactic

/-! Words of bits, read from the most significant one. -/
namespace BitScan

variable {w : ℕ}

/-- The word with the one bit `n`, counted from the most significant one. -/
def oneBit (w n : ℕ) : BitVec w := BitVec.intMin w >>> n

theorem getMsbD_oneBit {n i : ℕ} (hn : n < w) : (oneBit w n).getMsbD i = decide (i = n) := by
  rw [oneBit,BitVec.getMsbD_ushiftRight,BitVec.getMsbD_intMin]
  by_cases hi : i < w
  · simp only [hi,decide_true,Bool.true_and]
    by_cases h : i < n
    · simp [h,Nat.ne_of_lt h]
    · simp only [h,decide_false,Bool.not_false,Bool.true_and]
      rw [show decide (0 < w) = true by simp; omega,Bool.true_and,decide_eq_decide]
      omega
  · simp only [hi,decide_false,Bool.false_and,Bool.false_eq,decide_eq_false_iff_not]
    omega

theorem getMsbD_set {v : BitVec w} {n i : ℕ} (hn : n < w) :
    (v ||| oneBit w n).getMsbD i = (v.getMsbD i || decide (i = n)) := by
  rw [BitVec.getMsbD_or,getMsbD_oneBit hn]

theorem getMsbD_clear {v : BitVec w} {n i : ℕ} (hn : n < w) :
    (v &&& ~~~oneBit w n).getMsbD i = (v.getMsbD i && !decide (i = n)) := by
  rw [BitVec.getMsbD_and,BitVec.getMsbD_not,getMsbD_oneBit hn]
  by_cases hi : i < w
  · simp [hi]
  · rw [BitVec.getMsbD_of_ge _ _ (Nat.not_lt.mp hi)]
    rfl

theorem eq_zero_iff {v : BitVec w} : v = 0 ↔ ∀ i < w, v.getMsbD i = false := by
  constructor
  · rintro rfl i -
    exact BitVec.getMsbD_zero
  · intro h
    refine BitVec.eq_of_getMsbD_eq fun i hi => ?_
    rw [h i hi]
    exact BitVec.getMsbD_zero.symm

theorem reverse_shiftLeft_one {v : BitVec w} : (v <<< 1).reverse = v.reverse >>> 1 := by
  refine BitVec.eq_of_getLsbD_eq fun i hi => ?_
  rw [BitVec.getLsbD_reverse,BitVec.getMsbD_shiftLeft,BitVec.getLsbD_ushiftRight,BitVec.getLsbD_reverse,
    Nat.add_comm]

theorem reverse_shiftLeft_lt {v : BitVec w} (h : v ≠ 0) : (v <<< 1).reverse.toNat < v.reverse.toNat := by
  have hpos : v.reverse.toNat ≠ 0 := by
    intro h0
    exact h (BitVec.reverse_eq_zero_iff.mp (BitVec.eq_of_toNat_eq (by simpa using h0)))
  rw [reverse_shiftLeft_one,BitVec.toNat_ushiftRight,Nat.shiftRight_one]
  omega

/-- `for (; v != 0; k++, v <<= 1) if (v < 0)`: the indices at which the body runs. -/
def scan (v : BitVec w) (k : ℕ) : List ℕ :=
  if v = 0 then []
  else if v.slt 0 then k :: scan (v <<< 1) (k + 1)
  else scan (v <<< 1) (k + 1)
termination_by v.reverse.toNat
decreasing_by all_goals exact reverse_shiftLeft_lt ‹_›

theorem filter_shiftLeft_one (v : BitVec w) (k : ℕ) (hw : 0 < w) :
    ((List.range w).filter v.getMsbD).map (k + ·) =
      (if v.msb then [k] else []) ++ ((List.range w).filter (v <<< 1).getMsbD).map (k + 1 + ·) := by
  obtain ⟨n,rfl⟩ : ∃ n, w = n + 1 := ⟨w - 1,by omega⟩
  have hrest : (List.range (n + 1)).filter (v <<< 1).getMsbD =
      (List.range n).filter fun i => v.getMsbD (i + 1) := by
    have hlast : (v <<< 1).getMsbD n = false := by
      rw [BitVec.getMsbD_shiftLeft,BitVec.getMsbD_of_ge _ _ (Nat.le_refl _)]
    rw [List.range_succ,List.filter_append,List.filter_singleton,hlast,Bool.cond_false,List.append_nil]
    exact List.filter_congr fun i _ => BitVec.getMsbD_shiftLeft ..
  have hmap : ((List.range n).filter fun i => v.getMsbD (i + 1)).map (k + 1 + ·) =
      (((List.range n).map Nat.succ).filter v.getMsbD).map (k + ·) := by
    rw [List.filter_map,List.map_map]
    refine List.map_congr_left fun i _ => ?_
    simp only [Function.comp_apply,Nat.succ_eq_add_one]
    omega
  rw [hrest,hmap,List.range_succ_eq_map,List.filter_cons,← BitVec.msb_eq_getMsbD_zero]
  split <;> rfl

/-- The loop finds the bits that are set, in order. -/
theorem scan_eq (v : BitVec w) (k : ℕ) :
    scan v k = ((List.range w).filter v.getMsbD).map (k + ·) := by
  fun_induction scan v k with
  | case1 k => simp
  | case2 v k h hneg ih =>
    have hw : 0 < w := Nat.pos_of_ne_zero fun h0 => h (by subst h0; exact BitVec.eq_nil v)
    rw [filter_shiftLeft_one v k hw,if_pos (BitVec.slt_zero_iff_msb_cond.mp hneg),ih]
    rfl
  | case3 v k h hneg ih =>
    have hw : 0 < w := Nat.pos_of_ne_zero fun h0 => h (by subst h0; exact BitVec.eq_nil v)
    rw [filter_shiftLeft_one v k hw,if_neg fun hmsb => hneg (BitVec.slt_zero_iff_msb_cond.mpr hmsb),ih]
    rfl

end BitScan
