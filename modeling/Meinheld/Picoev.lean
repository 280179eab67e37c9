import Mathlib.Tactic

/-! `picoev.h`: the descriptors an event loop watches, and their timeouts. The assertions are
compiled out: the server registers descriptors anew that are registered. -/
namespace Meinheld

def PICOEV_SIMD_BITS : ℕ := 128
def PICOEV_TIMEOUT_VEC_SIZE : ℕ := 128
def PICOEV_SHORT_BITS : ℕ := 16

/-- `PICOEV_RND_UP`. -/
def rndUp (v d : ℕ) : ℕ := (v + d - 1) / d * d

/-- `PICOEV_READ` and `PICOEV_WRITE`; `PICOEV_TIMEOUT` alone is neither. -/
structure Events where
  read : Bool := false
  write : Bool := false
  deriving DecidableEq, Repr

/-- `picoev_fd`, the default being what `memset` leaves. `active` says that `loop_id` is that of
the loop, and `timeoutIdx` is `none` for `PICOEV_TIMEOUT_IDX_UNUSED`. -/
structure PicoevFd (κ : Type) where
  callback : Option κ := none
  active : Bool := false
  events : Events := {}
  timeoutIdx : Option ℕ := some 0

/-- The globals of picoev with its one loop. `vec i fd` is the bit of a descriptor in a slot of the
timeouts; a bit of `vec_of_vec` is set when its word of `vec` is not 0. Times are in seconds. -/
structure Picoev (κ : Type) where
  maxFd : ℕ
  fds : ℕ → PicoevFd κ := fun _ => {}
  vec : ℕ → ℕ → Bool := fun _ _ => false
  baseIdx : ℕ := 0
  baseTime : ℕ
  now : ℕ

/-- `loop->timeout.resolution` after `picoev_create_loop(60)`. -/
def resolution : ℕ := rndUp 60 PICOEV_TIMEOUT_VEC_SIZE / PICOEV_TIMEOUT_VEC_SIZE

@[simp] theorem resolution_eq : resolution = 1 := by decide

namespace Picoev

variable {κ : Type}

/-- `picoev_init` and `picoev_create_loop` at the time `now`. -/
def init (maxFd now : ℕ) : Picoev κ := { maxFd := maxFd, baseTime := now, now := now }

def setFd (l : Picoev κ) (fd : ℕ) (t : PicoevFd κ) : Picoev κ :=
  { l with fds := Function.update l.fds fd t }

def setVec (l : Picoev κ) (idx fd : ℕ) (b : Bool) : Picoev κ :=
  { l with vec := fun i k => if i = idx ∧ k = fd then b else l.vec i k }

/-- The slot `picoev_set_timeout` chooses, counted from `base_idx`. -/
def delta (l : Picoev κ) (secs : ℕ) : ℕ :=
  let d := (l.now + secs - l.baseTime) / resolution
  if d ≥ PICOEV_TIMEOUT_VEC_SIZE then PICOEV_TIMEOUT_VEC_SIZE - 1 else d

/-- The first half of `picoev_set_timeout`. -/
def clearTimeout (l : Picoev κ) (fd : ℕ) : Picoev κ :=
  match (l.fds fd).timeoutIdx with
  | none => l
  | some idx => (l.setVec idx fd false).setFd fd { l.fds fd with timeoutIdx := none }

/-- `picoev_set_timeout`. -/
def setTimeout (l : Picoev κ) (fd secs : ℕ) : Picoev κ :=
  let l := l.clearTimeout fd
  if secs = 0 then l
  else
    let idx := (l.baseIdx + l.delta secs) % PICOEV_TIMEOUT_VEC_SIZE
    (l.setVec idx fd true).setFd fd { l.fds fd with timeoutIdx := some idx }

/-- `picoev_add`; `none` is -1. -/
def add (l : Picoev κ) (fd : ℕ) (events : Events) (secs : ℕ) (callback : κ) : Option (Picoev κ) :=
  if fd < l.maxFd then
    some ((l.setFd fd ⟨some callback,true,events,none⟩).setTimeout fd secs)
  else none

/-- `picoev_del`, which returns 0. -/
def del (l : Picoev κ) (fd : ℕ) : Picoev κ :=
  let l := (l.setFd fd { l.fds fd with events := {} }).setTimeout fd 0
  l.setFd fd { l.fds fd with active := false }

/-- `picoev_is_active`. -/
def isActive (l : Picoev κ) (fd : ℕ) : Bool := (l.fds fd).active

/-- The callback of the registration in force. -/
def watches (l : Picoev κ) (fd : ℕ) : Option κ :=
  if (l.fds fd).active then (l.fds fd).callback else none

/-! `picoev_handle_timeout_internal`. -/

/-- The number of words of a slot. -/
def words (l : Picoev κ) : ℕ := rndUp l.maxFd PICOEV_SIMD_BITS / PICOEV_SHORT_BITS

/-- A word of the slot at `base_idx`, as it is copied before its callbacks run. -/
def word (l : Picoev κ) (j : ℕ) : List ℕ :=
  ((List.range PICOEV_SHORT_BITS).map (j * PICOEV_SHORT_BITS + ·)).filter (l.vec l.baseIdx)

/-- The condition of the loop over the slots. -/
def slotDue (l : Picoev κ) : Bool := l.baseTime + resolution ≤ l.now

/-- `vec[j] = 0`. -/
def clearWord (l : Picoev κ) (j : ℕ) : Picoev κ :=
  { l with vec := fun i k => if i = l.baseIdx ∧ k / PICOEV_SHORT_BITS = j then false else l.vec i k }

/-- The step of the loop over the slots. -/
def nextSlot (l : Picoev κ) : Picoev κ :=
  { l with
    baseIdx := (l.baseIdx + 1) % PICOEV_TIMEOUT_VEC_SIZE
    baseTime := l.baseTime + resolution }

/-- A callback is about to be called with `PICOEV_TIMEOUT`. -/
def unsetTimeout (l : Picoev κ) (fd : ℕ) : Picoev κ :=
  l.setFd fd { l.fds fd with timeoutIdx := none }

/-! Who is watched. -/

@[simp] theorem setFd_fds (l : Picoev κ) (fd : ℕ) (t : PicoevFd κ) :
    (l.setFd fd t).fds = Function.update l.fds fd t := rfl

@[simp] theorem setFd_vec (l : Picoev κ) (fd : ℕ) (t : PicoevFd κ) : (l.setFd fd t).vec = l.vec := rfl

@[simp] theorem setFd_baseIdx (l : Picoev κ) (fd : ℕ) (t : PicoevFd κ) :
    (l.setFd fd t).baseIdx = l.baseIdx := rfl

@[simp] theorem setVec_fds (l : Picoev κ) (idx fd : ℕ) (b : Bool) : (l.setVec idx fd b).fds = l.fds := rfl

@[simp] theorem setVec_baseIdx (l : Picoev κ) (idx fd : ℕ) (b : Bool) :
    (l.setVec idx fd b).baseIdx = l.baseIdx := rfl

theorem setVec_vec (l : Picoev κ) (idx fd : ℕ) (b : Bool) (i k : ℕ) :
    (l.setVec idx fd b).vec i k = if i = idx ∧ k = fd then b else l.vec i k := rfl

theorem setVec_vec_of_ne (l : Picoev κ) {idx fd i k : ℕ} (b : Bool) (h : ¬(i = idx ∧ k = fd)) :
    (l.setVec idx fd b).vec i k = l.vec i k := if_neg h

/-- Setting a timeout leaves everything of a descriptor but the timeout. -/
theorem setTimeout_fds (l : Picoev κ) (fd secs : ℕ) : ∃ idx,
    (l.setTimeout fd secs).fds = Function.update l.fds fd { l.fds fd with timeoutIdx := idx } := by
  have hclear : ∃ idx, (l.clearTimeout fd).fds =
      Function.update l.fds fd { l.fds fd with timeoutIdx := idx } := by
    cases h : (l.fds fd).timeoutIdx with
    | none =>
      have hsame : { l.fds fd with timeoutIdx := none } = l.fds fd := by rw [← h]
      exact ⟨none,by simp [clearTimeout,h,hsame]⟩
    | some idx => exact ⟨none,by simp [clearTimeout,h]⟩
  obtain ⟨idx,hidx⟩ := hclear
  by_cases hs : secs = 0
  · exact ⟨idx,by simp [setTimeout,hs,hidx]⟩
  · exact ⟨_,by simp [setTimeout,hs,hidx]; rfl⟩

theorem setTimeout_frame (l : Picoev κ) (fd secs : ℕ) : (l.setTimeout fd secs).maxFd = l.maxFd ∧
    (l.setTimeout fd secs).baseIdx = l.baseIdx ∧ (l.setTimeout fd secs).baseTime = l.baseTime ∧
    (l.setTimeout fd secs).now = l.now := by
  have hclear : (l.clearTimeout fd).maxFd = l.maxFd ∧ (l.clearTimeout fd).baseIdx = l.baseIdx ∧
      (l.clearTimeout fd).baseTime = l.baseTime ∧ (l.clearTimeout fd).now = l.now := by
    unfold clearTimeout
    split <;> exact ⟨rfl,rfl,rfl,rfl⟩
  unfold setTimeout
  split
  · exact hclear
  · exact hclear

@[simp] theorem setTimeout_watches (l : Picoev κ) (fd secs : ℕ) :
    (l.setTimeout fd secs).watches = l.watches := by
  obtain ⟨idx,h⟩ := setTimeout_fds l fd secs
  funext k
  by_cases hk : k = fd
  · simp [watches,h,hk]
  · simp [watches,h,Function.update_of_ne hk]

theorem setFd_watches (l : Picoev κ) (fd : ℕ) (t : PicoevFd κ) : (l.setFd fd t).watches =
    Function.update l.watches fd (if t.active then t.callback else none) := by
  funext k
  by_cases hk : k = fd
  · simp [watches,hk]
  · simp [watches,Function.update_of_ne hk]

/-- What `picoev_add` does when it succeeds. -/
theorem add_eq_some {l l' : Picoev κ} {fd secs : ℕ} {events : Events} {callback : κ}
    (h : l.add fd events secs callback = some l') : fd < l.maxFd ∧
      l' = (l.setFd fd ⟨some callback,true,events,none⟩).setTimeout fd secs := by
  simp only [add,Option.ite_none_right_eq_some,Option.some.injEq] at h
  exact ⟨h.1,h.2.symm⟩

theorem add_watches {l l' : Picoev κ} {fd secs : ℕ} {events : Events} {callback : κ}
    (h : l.add fd events secs callback = some l') :
    l'.watches = Function.update l.watches fd (some callback) := by
  obtain ⟨-,rfl⟩ := add_eq_some h
  rw [setTimeout_watches,setFd_watches]
  rfl

theorem add_maxFd {l l' : Picoev κ} {fd secs : ℕ} {events : Events} {callback : κ}
    (h : l.add fd events secs callback = some l') : l'.maxFd = l.maxFd := by
  obtain ⟨-,rfl⟩ := add_eq_some h
  exact (setTimeout_frame _ fd secs).1

/-- A `picoev_add` whose result is not looked at. -/
theorem add_getD_watches {l : Picoev κ} {fd secs k : ℕ} {events : Events} {callback w : κ}
    (h : ((l.add fd events secs callback).getD l).watches k = some w) :
    k = fd ∧ w = callback ∨ l.watches k = some w := by
  cases hadd : l.add fd events secs callback with
  | none => exact .inr (by simpa [hadd] using h)
  | some l' =>
    simp only [hadd,Option.getD_some,add_watches hadd] at h
    by_cases hk : k = fd
    · exact .inl ⟨hk,by simpa [hk,eq_comm] using h⟩
    · exact .inr (by rwa [Function.update_of_ne hk] at h)

@[simp] theorem del_watches (l : Picoev κ) (fd : ℕ) :
    (l.del fd).watches = Function.update l.watches fd none := by
  simp only [del,setFd_watches,setTimeout_watches]
  simp

@[simp] theorem del_maxFd (l : Picoev κ) (fd : ℕ) : (l.del fd).maxFd = l.maxFd :=
  (setTimeout_frame _ fd 0).1

end Picoev

end Meinheld
