import Meinheld.Response

/-! Actions that keep a ledger beside the world: what they do is what they do without it, and what
the ledger says is proved on the way. -/
namespace Meinheld

/-- What a run returns. -/
def Run.result {α : Type} : Run α → Option α
  | .ret a _ => some a
  | .stop _ _ => none

theorem Run.result_eq_some {α : Type} {r : Run α} {a : α} :
    r.result = some a ↔ ∃ w, r = .ret a w := by
  cases r <;> simp [Run.result]

/-- An action with a ledger. -/
abbrev Audited (σ α : Type) := StateT σ Action α

section Audited
variable {σ α β : Type}

/-- Enters in the ledger how many bytes an action gets accepted. -/
def audit (x : Action α) (f : ℕ → α → σ → σ) : Audited σ α := fun l w =>
  match x w with
  | .ret a w' => .ret (a,f (w'.sent.length - w.sent.length) a l) w'
  | .stop s w' => .stop s w'

/-- An action that sends no body. -/
def unaudited (x : Action α) : Audited σ α := audit x fun _ _ l => l

/-- `x` runs as `y` does and keeps the ledger from `P` to `Q`. -/
structure Audits (P : σ → Prop) (x : Audited σ α) (y : Action α) (Q : α → σ → Prop) :
    Prop where
  ret : ∀ l w a w', P l → y w = .ret a w' → ∃ l', x l w = .ret (a,l') w' ∧ Q a l'
  stop : ∀ l w s w', P l → y w = .stop s w' → x l w = .stop s w'

variable {P : σ → Prop} {Q Q' : α → σ → Prop} {R : β → σ → Prop}

theorem Audits.pure {a : α} (h : ∀ l, P l → Q a l) : Audits P (pure a) (pure a) Q where
  ret := by
    intro l w a' w' hl hy
    obtain ⟨rfl,rfl⟩ := Run.ret.inj hy
    exact ⟨l,rfl,h l hl⟩
  stop := by
    intro l w s w' _ hy
    cases hy

theorem Audits.bind {x : Audited σ α} {y : Action α} {f : α → Audited σ β} {g : α → Action β}
    (hx : Audits P x y Q) (hf : ∀ a, Audits (Q a) (f a) (g a) R) :
    Audits P (x >>= f) (y >>= g) R where
  ret := by
    intro l w b w' hl hy
    obtain ⟨a,v,hv,hg⟩ := Action.bind_eq_ret.mp hy
    obtain ⟨l1,h1,hq⟩ := hx.ret l w a v hl hv
    obtain ⟨l2,h2,hr⟩ := (hf a).ret l1 v b w' hq hg
    refine ⟨l2,?_,hr⟩
    change (x l >>= fun p => f p.1 p.2) w = _
    rw [Action.bind_apply,h1]
    exact h2
  stop := by
    intro l w s w' hl hy
    change (x l >>= fun p => f p.1 p.2) w = _
    rw [Action.bind_apply] at hy ⊢
    cases hv : y w with
    | stop s1 v =>
      rw [hv] at hy
      obtain ⟨rfl,rfl⟩ := Run.stop.inj hy
      rw [hx.stop l w s1 v hl hv]
    | ret a v =>
      rw [hv] at hy
      obtain ⟨l1,h1,hq⟩ := hx.ret l w a v hl hv
      rw [h1]
      exact (hf a).stop l1 v s w' hq hy

theorem Audits.audit {y : Action α} {f : ℕ → α → σ → σ}
    (h : ∀ l w a w', P l → y w = .ret a w' → Q a (f (w'.sent.length - w.sent.length) a l)) :
    Audits P (audit y f) y Q where
  ret := by
    intro l w a w' hl hy
    exact ⟨_,by simp only [Meinheld.audit,hy],h l w a w' hl hy⟩
  stop := by
    intro l w s w' _ hy
    simp only [Meinheld.audit,hy]

theorem Audits.unaudited {y : Action α} (h : ∀ l w a w', P l → y w = .ret a w' → Q a l) :
    Audits P (unaudited y) y Q := .audit h

theorem Audits.mono {x : Audited σ α} {y : Action α} (hx : Audits P x y Q)
    (hq : ∀ a l, Q a l → Q' a l) : Audits P x y Q' where
  ret := by
    intro l w a w' hl hy
    obtain ⟨l',h1,h2⟩ := hx.ret l w a w' hl hy
    exact ⟨l',h1,hq a l' h2⟩
  stop := hx.stop

theorem Audits.pre {P' : σ → Prop} {x : Audited σ α} {y : Action α} (hx : Audits P x y Q)
    (hp : ∀ l, P' l → P l) : Audits P' x y Q :=
  ⟨fun l w a w' hl => hx.ret l w a w' (hp l hl),fun l w s w' hl => hx.stop l w s w' (hp l hl)⟩

/-- Actions that look at the world first. -/
theorem Audits.of_world {x : Audited σ α} {y : Action α}
    (h : ∀ w, ∃ x' y' v, Audits P x' y' Q ∧ (∀ l, x l w = x' l v) ∧ y w = y' v) :
    Audits P x y Q where
  ret := by
    intro l w a w' hl hy
    obtain ⟨x',y',v,haud,hx,hyv⟩ := h w
    rw [hx l]
    exact haud.ret l v a w' hl (hyv.symm.trans hy)
  stop := by
    intro l w s w' hl hy
    obtain ⟨x',y',v,haud,hx,hyv⟩ := h w
    rw [hx l]
    exact haud.stop l v s w' hl (hyv.symm.trans hy)

end Audited

end Meinheld
