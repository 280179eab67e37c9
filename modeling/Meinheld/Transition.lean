import Mathlib.Tactic

/-! Partial step functions on a labelled system: runs, conditions on the steps of a run, and the
invariant rule. -/
namespace Transition

variable {σ α : Type*} (step : σ → α → Option σ)

/-- The state a list of labels leads to, when each of its steps is possible. -/
def run : σ → List α → Option σ
  | s, [] => some s
  | s, a :: as => (step s a).bind fun s' => run s' as

/-- Every step a run takes meets `C`, read in the state before it. -/
def Meets (C : σ → α → Prop) : σ → List α → Prop
  | _, [] => True
  | s, a :: as => ∀ s', step s a = some s' → C s a ∧ Meets C s' as

/-- `P` holds in every state a run passes through. -/
def Always (P : σ → Prop) : σ → List α → Prop
  | s, [] => P s
  | s, a :: as => P s ∧ ∀ s', step s a = some s' → Always P s' as

variable {step}

theorem run_cons_eq_some {s s' : σ} {a : α} {as : List α} :
    run step s (a :: as) = some s' ↔ ∃ t, step s a = some t ∧ run step t as = some s' := by
  simp [run,Option.bind_eq_some_iff]

theorem run_append (s : σ) (as bs : List α) :
    run step s (as ++ bs) = (run step s as).bind fun t => run step t bs := by
  induction as generalizing s with
  | nil => rfl
  | cons a as ih => simp [run,ih,Option.bind_assoc]

theorem run_append_eq_some {s s' : σ} {as bs : List α} :
    run step s (as ++ bs) = some s' ↔ ∃ t, run step s as = some t ∧ run step t bs = some s' := by
  rw [run_append,Option.bind_eq_some_iff]

theorem Meets.cons {C : σ → α → Prop} {s t : σ} {a : α} {as : List α} (hC : C s a)
    (ht : step s a = some t) (h : Meets step C t as) : Meets step C s (a :: as) := by
  intro s' hs'
  rw [ht] at hs'
  exact ⟨hC,Option.some.inj hs' ▸ h⟩

theorem Meets.of_forall {C : σ → α → Prop} {s : σ} {as : List α} (h : ∀ a ∈ as, ∀ s, C s a) :
    Meets step C s as := by
  induction as generalizing s with
  | nil => trivial
  | cons a as ih =>
    exact fun s' _ => ⟨h a (by simp) s,ih fun b hb => h b (List.mem_cons_of_mem _ hb)⟩

theorem Meets.append {C : σ → α → Prop} {s s' : σ} {as bs : List α}
    (h : Meets step C s (as ++ bs)) (hrun : run step s as = some s') : Meets step C s' bs := by
  induction as generalizing s with
  | nil =>
    simp only [run,Option.some.injEq] at hrun
    simpa [hrun] using h
  | cons a as ih =>
    obtain ⟨t,ht,hrun⟩ := run_cons_eq_some.mp hrun
    exact ih (h t ht).2 hrun

theorem Meets.left {C : σ → α → Prop} {s : σ} {as bs : List α} (h : Meets step C s (as ++ bs)) :
    Meets step C s as := by
  induction as generalizing s with
  | nil => trivial
  | cons a as ih => exact fun t ht => ⟨(h t ht).1,ih (h t ht).2⟩

/-- What each step that meets `C` keeps, a run all of whose steps meet `C` keeps. -/
theorem invariant_run {C : σ → α → Prop} {Inv : σ → Prop}
    (hstep : ∀ s a s', Inv s → C s a → step s a = some s' → Inv s')
    {s s' : σ} {as : List α} (h : Inv s) (hC : Meets step C s as)
    (hrun : run step s as = some s') : Inv s' := by
  induction as generalizing s with
  | nil =>
    simp only [run,Option.some.injEq] at hrun
    exact hrun ▸ h
  | cons a as ih =>
    obtain ⟨t,ht,hrun⟩ := run_cons_eq_some.mp hrun
    exact ih (hstep s a t h (hC t ht).1 ht) (hC t ht).2 hrun

/-- A property of single steps holds at the last step of a run once it follows from an invariant
and the condition. -/
theorem last_step {C : σ → α → Prop} {Inv : σ → Prop} {P : σ → α → σ → Prop}
    (hstep : ∀ s a s', Inv s → C s a → step s a = some s' → Inv s')
    (hP : ∀ s a s', Inv s → C s a → step s a = some s' → P s a s')
    {s t t' : σ} {as : List α} {a : α} (h : Inv s) (hC : Meets step C s (as ++ [a]))
    (hrun : run step s as = some t) (ht : step t a = some t') : P t a t' :=
  hP t a t' (invariant_run hstep h hC.left hrun) ((hC.append hrun) t' ht).1 ht

/-- A run keeps `P` throughout exactly when all its steps meet `C`, if the invariant that makes this
true of a single step is kept as long as `C` is met. -/
theorem always_iff_meets_of {C : σ → α → Prop} {Inv P : σ → Prop}
    (hinv : ∀ s a s', Inv s → C s a → step s a = some s' → Inv s')
    (hstep : ∀ s a s', Inv s → step s a = some s' → (P s' ↔ C s a)) {s : σ} (hs : Inv s) (h : P s)
    (as : List α) : Always step P s as ↔ Meets step C s as := by
  induction as generalizing s with
  | nil => exact ⟨fun _ => trivial,fun _ => h⟩
  | cons a as ih =>
    constructor
    · rintro ⟨-,hall⟩ t ht
      have hP : P t := by
        cases as with
        | nil => exact hall t ht
        | cons b bs => exact (hall t ht).1
      have hC := (hstep s a t hs ht).mp hP
      exact ⟨hC,(ih (hinv s a t hs hC ht) hP).mp (hall t ht)⟩
    · intro hall
      refine ⟨h,fun t ht => ?_⟩
      have hC := (hall t ht).1
      exact (ih (hinv s a t hs hC ht) ((hstep s a t hs ht).mpr hC)).mpr (hall t ht).2

/-- When every step from a state with the invariant keeps `P` exactly under the condition `C`, a
run keeps `P` throughout exactly when all its steps meet `C`. -/
theorem always_iff_meets {C : σ → α → Prop} {Inv P : σ → Prop}
    (hinv : ∀ s a s', Inv s → step s a = some s' → Inv s')
    (hstep : ∀ s a s', Inv s → P s → step s a = some s' → (P s' ↔ C s a)) {s : σ} (hs : Inv s)
    (h : P s) (as : List α) : Always step P s as ↔ Meets step C s as :=
  @always_iff_meets_of _ _ step C (fun s => Inv s ∧ P s) P
    (fun s a s' hs hC ht => ⟨hinv s a s' hs.1 ht,(hstep s a s' hs.1 hs.2 ht).mpr hC⟩)
    (fun s a s' hs ht => hstep s a s' hs.1 hs.2 ht) _ ⟨hs,h⟩ h as

end Transition
