import Meinheld.BitScan
import Meinheld.Picoev

/-! The timeouts of `picoev.h` as they are stored: a short for 16 descriptors of a slot in `vec`, and
a bit of `vec_of_vec` for each short that is not 0. -/
namespace Meinheld

open BitScan

/-- A call of `picoev_set_timeout`, `picoev_add` or `picoev_del`. -/
inductive PicoevOp (κ : Type)
  | setTimeout (fd secs : ℕ)
  | add (fd : ℕ) (events : Events) (secs : ℕ) (callback : κ)
  | del (fd : ℕ)

/-- `picoev_add` checks the descriptor; the assertions of the others are compiled out. -/
def PicoevOp.InRange {κ : Type} (maxFd : ℕ) : PicoevOp κ → Prop
  | .setTimeout fd _ => fd < maxFd
  | .add _ _ _ _ => True
  | .del fd => fd < maxFd

/-- What the callback of a timeout does: the calls it makes, from what it keeps, the descriptors and
the one that has timed out. -/
abbrev TimeoutHandler (σ κ : Type) := σ → (ℕ → PicoevFd κ) → ℕ → σ × List (PicoevOp κ)

/-- The globals of picoev with its one loop. The first of the `shorts` that `picoev_memalign` gives
are those of `vec_of_vec`, the others are those of `vec`. -/
structure PicoevLoop (κ : Type) where
  maxFd : ℕ
  fds : ℕ → PicoevFd κ := fun _ => {}
  shorts : ℕ → BitVec 16 := fun _ => 0
  baseIdx : ℕ := 0
  baseTime : ℕ
  now : ℕ

namespace PicoevLoop

variable {κ σ : Type}

/-- `picoev_init` and `picoev_create_loop` at the time `now`. -/
def init (maxFd now : ℕ) : PicoevLoop κ := { maxFd := maxFd, baseTime := now, now := now }

def timeoutVecSize (l : PicoevLoop κ) : ℕ := rndUp l.maxFd PICOEV_SIMD_BITS / PICOEV_SHORT_BITS

def timeoutVecOfVecSize (l : PicoevLoop κ) : ℕ :=
  rndUp l.timeoutVecSize PICOEV_SIMD_BITS / PICOEV_SHORT_BITS

/-- The number of `shorts`. -/
def size (l : PicoevLoop κ) : ℕ :=
  (l.timeoutVecOfVecSize + l.timeoutVecSize) * PICOEV_TIMEOUT_VEC_SIZE

/-- `PICOEV_TIMEOUT_VEC_OF`. -/
def vecOf (l : PicoevLoop κ) (idx : ℕ) : ℕ :=
  l.timeoutVecOfVecSize * PICOEV_TIMEOUT_VEC_SIZE + idx * l.timeoutVecSize

/-- `PICOEV_TIMEOUT_VEC_OF_VEC_OF`. -/
def vecOfVecOf (l : PicoevLoop κ) (idx : ℕ) : ℕ := idx * l.timeoutVecOfVecSize

def vec (l : PicoevLoop κ) (idx j : ℕ) : BitVec 16 := l.shorts (l.vecOf idx + j)

def vecOfVec (l : PicoevLoop κ) (idx i : ℕ) : BitVec 16 := l.shorts (l.vecOfVecOf idx + i)

def setVec (l : PicoevLoop κ) (idx j : ℕ) (v : BitVec 16) : PicoevLoop κ :=
  { l with shorts := Function.update l.shorts (l.vecOf idx + j) v }

def setVecOfVec (l : PicoevLoop κ) (idx i : ℕ) (v : BitVec 16) : PicoevLoop κ :=
  { l with shorts := Function.update l.shorts (l.vecOfVecOf idx + i) v }

def setFd (l : PicoevLoop κ) (fd : ℕ) (t : PicoevFd κ) : PicoevLoop κ :=
  { l with fds := Function.update l.fds fd t }

/-- The slot `picoev_set_timeout` chooses, counted from `base_idx`: a `size_t`. -/
def delta (l : PicoevLoop κ) (secs : ℕ) : ℕ :=
  let d : ℤ := ((l.now : ℤ) + secs - l.baseTime) / resolution
  if d < 0 ∨ d ≥ PICOEV_TIMEOUT_VEC_SIZE then PICOEV_TIMEOUT_VEC_SIZE - 1 else d.toNat

/-- The first half of `picoev_set_timeout`. -/
def clearTimeout (l : PicoevLoop κ) (fd : ℕ) : PicoevLoop κ :=
  match (l.fds fd).timeoutIdx with
  | none => l
  | some idx =>
    let vi := fd / PICOEV_SHORT_BITS
    let v := l.vec idx vi &&& ~~~oneBit 16 (fd % PICOEV_SHORT_BITS)
    let l := l.setVec idx vi v
    let l := if v = 0 then l.setVecOfVec idx (vi / PICOEV_SHORT_BITS)
        (l.vecOfVec idx (vi / PICOEV_SHORT_BITS) &&& ~~~oneBit 16 (vi % PICOEV_SHORT_BITS))
      else l
    l.setFd fd { l.fds fd with timeoutIdx := none }

/-- The second half of `picoev_set_timeout`, for the slot `idx`. -/
def arm (l : PicoevLoop κ) (fd idx : ℕ) : PicoevLoop κ :=
  let vi := fd / PICOEV_SHORT_BITS
  let l := l.setFd fd { l.fds fd with timeoutIdx := some idx }
  let l := l.setVec idx vi (l.vec idx vi ||| oneBit 16 (fd % PICOEV_SHORT_BITS))
  l.setVecOfVec idx (vi / PICOEV_SHORT_BITS)
    (l.vecOfVec idx (vi / PICOEV_SHORT_BITS) ||| oneBit 16 (vi % PICOEV_SHORT_BITS))

/-- `picoev_set_timeout`. -/
def setTimeout (l : PicoevLoop κ) (fd secs : ℕ) : PicoevLoop κ :=
  let l := l.clearTimeout fd
  if secs = 0 then l else l.arm fd ((l.baseIdx + l.delta secs) % PICOEV_TIMEOUT_VEC_SIZE)

/-- `picoev_add`; `none` is -1. -/
def add (l : PicoevLoop κ) (fd : ℕ) (events : Events) (secs : ℕ) (callback : κ) :
    Option (PicoevLoop κ) :=
  if fd < l.maxFd then
    some ((l.setFd fd ⟨some callback,true,events,none⟩).setTimeout fd secs)
  else none

/-- `picoev_del`. -/
def del (l : PicoevLoop κ) (fd : ℕ) : PicoevLoop κ :=
  let l := (l.setFd fd { l.fds fd with events := {} }).setTimeout fd 0
  l.setFd fd { l.fds fd with active := false }

def call (l : PicoevLoop κ) : PicoevOp κ → PicoevLoop κ
  | .setTimeout fd secs => l.setTimeout fd secs
  | .add fd events secs callback => (l.add fd events secs callback).getD l
  | .del fd => l.del fd

/-! `picoev_handle_timeout_internal`. -/

/-- The body of the loop over the bits of a short. -/
def fire (h : TimeoutHandler σ κ) (x : σ × PicoevLoop κ) (k : ℕ) : σ × PicoevLoop κ :=
  let l := x.2.setFd k { x.2.fds k with timeoutIdx := none }
  let r := h x.1 l.fds k
  (r.1,r.2.foldl call l)

/-- The body of the loop over the shorts of a slot. -/
def scanShort (h : TimeoutHandler σ κ) (idx : ℕ) (x : σ × PicoevLoop κ) (j : ℕ) : σ × PicoevLoop κ :=
  let x := (scan (x.2.vec idx j) (j * PICOEV_SHORT_BITS)).foldl (fire h) x
  (x.1,x.2.setVec idx j 0)

/-- The body of the loop over `vec_of_vec`. -/
def scanShorts (h : TimeoutHandler σ κ) (idx : ℕ) (x : σ × PicoevLoop κ) (i : ℕ) : σ × PicoevLoop κ :=
  let vv := x.2.vecOfVec idx i
  if vv = 0 then x
  else
    let x := (scan vv (i * PICOEV_SHORT_BITS)).foldl (scanShort h idx) x
    (x.1,x.2.setVecOfVec idx i 0)

/-- The body of the loop over the slots. -/
def scanSlot (h : TimeoutHandler σ κ) (x : σ × PicoevLoop κ) : σ × PicoevLoop κ :=
  (List.range x.2.timeoutVecOfVecSize).foldl (scanShorts h x.2.baseIdx) x

def slotDue (l : PicoevLoop κ) : Bool := l.baseTime + resolution ≤ l.now

def nextSlot (l : PicoevLoop κ) : PicoevLoop κ :=
  { l with
    baseIdx := (l.baseIdx + 1) % PICOEV_TIMEOUT_VEC_SIZE
    baseTime := l.baseTime + resolution }

/-- The loop over the slots, for `n` of them. -/
def scanSlots (h : TimeoutHandler σ κ) : ℕ → σ × PicoevLoop κ → σ × PicoevLoop κ
  | 0,x => x
  | n + 1,x =>
    if x.2.slotDue then
      let x := scanSlot h x
      scanSlots h n (x.1,x.2.nextSlot)
    else x

/-- `picoev_handle_timeout_internal`: no more slots are due than there are seconds. -/
def handleTimeout (h : TimeoutHandler σ κ) (x : σ × PicoevLoop κ) : σ × PicoevLoop κ :=
  scanSlots h (x.2.now - x.2.baseTime) x

end PicoevLoop

/-! ### The table of the slots -/

namespace Picoev

variable {κ σ : Type}

def call (l : Picoev κ) : PicoevOp κ → Picoev κ
  | .setTimeout fd secs => l.setTimeout fd secs
  | .add fd events secs callback => (l.add fd events secs callback).getD l
  | .del fd => l.del fd

def fire (h : TimeoutHandler σ κ) (x : σ × Picoev κ) (k : ℕ) : σ × Picoev κ :=
  let l := x.2.unsetTimeout k
  let r := h x.1 l.fds k
  (r.1,r.2.foldl call l)

/-- The descriptors of a word of the slot at `base_idx`. -/
def scanWord (h : TimeoutHandler σ κ) (x : σ × Picoev κ) (j : ℕ) : σ × Picoev κ :=
  let x := (x.2.word j).foldl (fire h) x
  (x.1,x.2.clearWord j)

/-- All the words of the slot at `base_idx`. -/
def scanSlot (h : TimeoutHandler σ κ) (x : σ × Picoev κ) : σ × Picoev κ :=
  (List.range x.2.words).foldl (scanWord h) x

def scanSlots (h : TimeoutHandler σ κ) : ℕ → σ × Picoev κ → σ × Picoev κ
  | 0,x => x
  | n + 1,x =>
    if x.2.slotDue then
      let x := scanSlot h x
      scanSlots h n (x.1,x.2.nextSlot)
    else x

def handleTimeout (h : TimeoutHandler σ κ) (x : σ × Picoev κ) : σ × Picoev κ :=
  scanSlots h (x.2.now - x.2.baseTime) x

end Picoev

namespace PicoevLoop

variable {κ σ : Type} {l : PicoevLoop κ}

/-- The timeouts, as a table. -/
def view (l : PicoevLoop κ) : Picoev κ where
  maxFd := l.maxFd
  fds := l.fds
  vec idx fd := decide (idx < PICOEV_TIMEOUT_VEC_SIZE ∧ fd / PICOEV_SHORT_BITS < l.timeoutVecSize) &&
    (l.vec idx (fd / PICOEV_SHORT_BITS)).getMsbD (fd % PICOEV_SHORT_BITS)
  baseIdx := l.baseIdx
  baseTime := l.baseTime
  now := l.now

/-! ### The shorts -/

theorem index_inj {n i j i' j' : ℕ} (hj : j < n) (hj' : j' < n) :
    i * n + j = i' * n + j' ↔ i = i' ∧ j = j' := by
  refine ⟨fun h => ?_,by rintro ⟨rfl,rfl⟩; rfl⟩
  have hdiv : ∀ {i j}, j < n → (i * n + j) / n = i := fun {i j} hj => by
    rw [Nat.add_comm,Nat.add_mul_div_right _ _ (by omega),Nat.div_eq_of_lt hj,Nat.zero_add]
  obtain rfl : i = i' := by rw [← hdiv hj (i := i),h,hdiv hj']
  exact ⟨rfl,by omega⟩

theorem index_lt {n i j m : ℕ} (hj : j < n) (hi : i < m) : i * n + j < m * n := by
  calc i * n + j < (i + 1) * n := by rw [Nat.succ_mul]; omega
    _ ≤ m * n := Nat.mul_le_mul_right n hi

theorem vec_setVec {i j i' j' : ℕ} (v : BitVec 16) (hj : j < l.timeoutVecSize)
    (hj' : j' < l.timeoutVecSize) :
    (l.setVec i j v).vec i' j' = if i' = i ∧ j' = j then v else l.vec i' j' := by
  have h : (l.setVec i j v).vec i' j' =
      Function.update l.shorts (l.vecOf i + j) v (l.vecOf i' + j') := rfl
  have hinj : l.vecOf i' + j' = l.vecOf i + j ↔ i' = i ∧ j' = j := by
    rw [← index_inj hj' hj]
    unfold vecOf
    omega
  rw [h,Function.update_apply]
  simp only [hinj]
  rfl

theorem vecOfVec_setVecOfVec {i j i' j' : ℕ} (v : BitVec 16) (hj : j < l.timeoutVecOfVecSize)
    (hj' : j' < l.timeoutVecOfVecSize) : (l.setVecOfVec i j v).vecOfVec i' j' =
      if i' = i ∧ j' = j then v else l.vecOfVec i' j' := by
  have h : (l.setVecOfVec i j v).vecOfVec i' j' =
      Function.update l.shorts (l.vecOfVecOf i + j) v (l.vecOfVecOf i' + j') := rfl
  rw [h,Function.update_apply]
  simp only [vecOfVecOf,index_inj hj' hj]
  rfl

theorem vec_setVecOfVec {i j i' j' : ℕ} (v : BitVec 16) (hi : i < PICOEV_TIMEOUT_VEC_SIZE)
    (hj : j < l.timeoutVecOfVecSize) : (l.setVecOfVec i j v).vec i' j' = l.vec i' j' := by
  refine Function.update_of_ne ?_ _ _
  have := index_lt hj hi
  show l.vecOf i' + j' ≠ l.vecOfVecOf i + j
  unfold vecOf vecOfVecOf
  rw [Nat.mul_comm PICOEV_TIMEOUT_VEC_SIZE] at this
  omega

theorem vecOfVec_setVec {i j i' j' : ℕ} (v : BitVec 16) (hi' : i' < PICOEV_TIMEOUT_VEC_SIZE)
    (hj' : j' < l.timeoutVecOfVecSize) : (l.setVec i j v).vecOfVec i' j' = l.vecOfVec i' j' := by
  refine Function.update_of_ne ?_ _ _
  have := index_lt hj' hi'
  show l.vecOfVecOf i' + j' ≠ l.vecOf i + j
  unfold vecOf vecOfVecOf
  rw [Nat.mul_comm PICOEV_TIMEOUT_VEC_SIZE] at this
  omega

/-! ### The view -/

theorem view_setFd (fd : ℕ) (t : PicoevFd κ) : (l.setFd fd t).view = l.view.setFd fd t := rfl

theorem view_setVecOfVec {i j : ℕ} (v : BitVec 16) (hi : i < PICOEV_TIMEOUT_VEC_SIZE)
    (hj : j < l.timeoutVecOfVecSize) : (l.setVecOfVec i j v).view = l.view := by
  have h : (l.setVecOfVec i j v).vec = l.vec := by
    funext i' j'
    exact vec_setVecOfVec v hi hj
  unfold view
  rw [h]
  rfl

/-- A short with another bit for one descriptor. -/
theorem view_setVec {idx fd : ℕ} {v : BitVec 16} {b : Bool} (hidx : idx < PICOEV_TIMEOUT_VEC_SIZE)
    (hfd : fd / PICOEV_SHORT_BITS < l.timeoutVecSize)
    (hv : ∀ n, v.getMsbD n = if n = fd % PICOEV_SHORT_BITS then b
      else (l.vec idx (fd / PICOEV_SHORT_BITS)).getMsbD n) :
    (l.setVec idx (fd / PICOEV_SHORT_BITS) v).view = l.view.setVec idx fd b := by
  have h : (l.setVec idx (fd / PICOEV_SHORT_BITS) v).view.vec = (l.view.setVec idx fd b).vec := by
    funext i k
    rw [Picoev.setVec_vec]
    have hsize : (l.setVec idx (fd / PICOEV_SHORT_BITS) v).timeoutVecSize = l.timeoutVecSize := rfl
    simp only [view,hsize]
    by_cases hk : k / PICOEV_SHORT_BITS < l.timeoutVecSize
    · rw [vec_setVec v hfd hk]
      by_cases hsame : i = idx ∧ k / PICOEV_SHORT_BITS = fd / PICOEV_SHORT_BITS
      · obtain ⟨rfl,hdiv⟩ := hsame
        have hk' : k = fd ↔ k % PICOEV_SHORT_BITS = fd % PICOEV_SHORT_BITS := by
          unfold PICOEV_SHORT_BITS at *
          omega
        rw [if_pos ⟨rfl,hdiv⟩,hv]
        simp only [hidx,hfd,hdiv,hk',true_and]
        simp
      · have hne : ¬(i = idx ∧ k = fd) := fun h => hsame ⟨h.1,by rw [h.2]⟩
        rw [if_neg hsame,if_neg hne]
    · have hne : ¬(i = idx ∧ k = fd) := fun h => hk (by rw [h.2]; exact hfd)
      rw [if_neg hne]
      simp [hk]
  unfold Picoev.setVec
  rw [Picoev.mk.injEq]
  exact ⟨rfl,rfl,h,rfl,rfl,rfl⟩

theorem div_lt_timeoutVecSize {fd : ℕ} (h : fd < l.maxFd) :
    fd / PICOEV_SHORT_BITS < l.timeoutVecSize := by
  unfold timeoutVecSize rndUp PICOEV_SIMD_BITS PICOEV_SHORT_BITS
  omega

theorem div_lt_timeoutVecOfVecSize {j : ℕ} (h : j < l.timeoutVecSize) :
    j / PICOEV_SHORT_BITS < l.timeoutVecOfVecSize := by
  unfold timeoutVecOfVecSize rndUp PICOEV_SIMD_BITS PICOEV_SHORT_BITS
  omega

theorem view_set {idx fd : ℕ} {v u : BitVec 16} {b : Bool} (hidx : idx < PICOEV_TIMEOUT_VEC_SIZE)
    (hfd : fd / PICOEV_SHORT_BITS < l.timeoutVecSize)
    (hv : ∀ n, v.getMsbD n = if n = fd % PICOEV_SHORT_BITS then b
      else (l.vec idx (fd / PICOEV_SHORT_BITS)).getMsbD n) :
    ((l.setVec idx (fd / PICOEV_SHORT_BITS) v).setVecOfVec idx
      (fd / PICOEV_SHORT_BITS / PICOEV_SHORT_BITS) u).view = l.view.setVec idx fd b := by
  rw [← view_setVec hidx hfd hv]
  exact view_setVecOfVec u hidx (div_lt_timeoutVecOfVecSize hfd)

theorem mod_lt_bits (n : ℕ) : n % PICOEV_SHORT_BITS < 16 := Nat.mod_lt _ (by decide)

/-! ### What `vec_of_vec` says -/

/-- A bit of `vec_of_vec` says that its short is not 0, but for one word of the slot at `base_idx`
whose shorts are being scanned. -/
structure Coherent (l : PicoevLoop κ) (scanned : Option ℕ) : Prop where
  baseIdx : l.baseIdx < PICOEV_TIMEOUT_VEC_SIZE
  baseTime : l.baseTime ≤ l.now
  timeoutIdx : ∀ fd idx, (l.fds fd).timeoutIdx = some idx → idx < PICOEV_TIMEOUT_VEC_SIZE
  bits : ∀ idx < PICOEV_TIMEOUT_VEC_SIZE, ∀ i < l.timeoutVecOfVecSize, ∀ n < PICOEV_SHORT_BITS,
    ¬(idx = l.baseIdx ∧ scanned = some i) →
      ((l.vecOfVec idx i).getMsbD n ↔ i * PICOEV_SHORT_BITS + n < l.timeoutVecSize ∧
        l.vec idx (i * PICOEV_SHORT_BITS + n) ≠ 0)
  outside : ∀ a, l.size ≤ a → l.shorts a = 0

variable {scanned : Option ℕ}

/-- Another short, and the bit for it. -/
theorem Coherent.set (h : Coherent l scanned) {idx j : ℕ} {v u : BitVec 16}
    (hidx : idx < PICOEV_TIMEOUT_VEC_SIZE) (hj : j < l.timeoutVecSize)
    (hu : ¬(idx = l.baseIdx ∧ scanned = some (j / PICOEV_SHORT_BITS)) → ∀ n < PICOEV_SHORT_BITS,
      (u.getMsbD n ↔ if n = j % PICOEV_SHORT_BITS then v ≠ 0
        else (l.vecOfVec idx (j / PICOEV_SHORT_BITS)).getMsbD n)) :
    Coherent ((l.setVec idx j v).setVecOfVec idx (j / PICOEV_SHORT_BITS) u) scanned := by
  have hi := div_lt_timeoutVecOfVecSize hj
  refine ⟨h.baseIdx,h.baseTime,h.timeoutIdx,?_,?_⟩
  · intro idx' hidx' i' hi' n hn hex
    replace hi' : i' < l.timeoutVecOfVecSize := hi'
    have hvec : ((l.setVec idx j v).setVecOfVec idx (j / PICOEV_SHORT_BITS) u).vec idx'
        (i' * PICOEV_SHORT_BITS + n) = (l.setVec idx j v).vec idx' (i' * PICOEV_SHORT_BITS + n) :=
      vec_setVecOfVec u hidx hi
    have hvov : ((l.setVec idx j v).setVecOfVec idx (j / PICOEV_SHORT_BITS) u).vecOfVec idx' i' =
        if idx' = idx ∧ i' = j / PICOEV_SHORT_BITS then u else l.vecOfVec idx' i' := by
      refine (@vecOfVec_setVecOfVec κ (l.setVec idx j v) idx _ idx' i' u hi hi').trans ?_
      rw [@vecOfVec_setVec κ l idx j idx' i' v hidx' hi']
    have hsize : ((l.setVec idx j v).setVecOfVec idx (j / PICOEV_SHORT_BITS) u).timeoutVecSize =
        l.timeoutVecSize := rfl
    rw [hvec,hvov,hsize]
    have hold := h.bits idx' hidx' i' hi' n hn hex
    by_cases hlt : i' * PICOEV_SHORT_BITS + n < l.timeoutVecSize
    · rw [vec_setVec v hj hlt]
      have hpos : i' * PICOEV_SHORT_BITS + n = j ↔ i' = j / PICOEV_SHORT_BITS ∧ n = j % PICOEV_SHORT_BITS := by
        unfold PICOEV_SHORT_BITS at *
        omega
      by_cases hsame : idx' = idx ∧ i' = j / PICOEV_SHORT_BITS
      · obtain ⟨rfl,rfl⟩ := hsame
        rw [if_pos ⟨rfl,rfl⟩,hu hex n hn]
        simp only [hpos,true_and]
        by_cases hn' : n = j % PICOEV_SHORT_BITS
        · simp only [hn',if_true]
          rw [← hn']
          simp [hlt]
        · simp only [hn',if_false]
          exact hold
      · rw [if_neg hsame,if_neg fun h => hsame ⟨h.1,(hpos.mp h.2).1⟩]
        exact hold
    · simp only [hlt,false_and,iff_false] at hold ⊢
      by_cases hsame : idx' = idx ∧ i' = j / PICOEV_SHORT_BITS
      · obtain ⟨rfl,rfl⟩ := hsame
        have hn' : n ≠ j % PICOEV_SHORT_BITS := by
          rintro rfl
          unfold PICOEV_SHORT_BITS at *
          omega
        rw [if_pos ⟨rfl,rfl⟩,hu hex n hn,if_neg hn']
        exact hold
      · rwa [if_neg hsame]
  · intro a ha
    have hsize : l.size ≤ a := ha
    have h1 : a ≠ l.vecOfVecOf idx + j / PICOEV_SHORT_BITS := by
      have := index_lt hi hidx
      unfold vecOfVecOf
      unfold size at hsize
      rw [Nat.add_mul,Nat.mul_comm l.timeoutVecOfVecSize] at hsize
      omega
    have h2 : a ≠ l.vecOf idx + j := by
      have := index_lt hj hidx
      unfold vecOf
      unfold size at hsize
      rw [Nat.add_mul,Nat.mul_comm l.timeoutVecSize] at hsize
      omega
    exact (Function.update_of_ne h1 _ _).trans ((Function.update_of_ne h2 _ _).trans (h.outside a hsize))

theorem Coherent.setFd (h : Coherent l scanned) (fd : ℕ) {t : PicoevFd κ}
    (ht : ∀ idx, t.timeoutIdx = some idx → idx < PICOEV_TIMEOUT_VEC_SIZE) :
    Coherent (l.setFd fd t) scanned := by
  refine ⟨h.baseIdx,h.baseTime,fun k idx hk => ?_,h.bits,h.outside⟩
  by_cases hfd : k = fd
  · subst hfd
    exact ht idx (by simpa [PicoevLoop.setFd] using hk)
  · exact h.timeoutIdx k idx (by simpa [PicoevLoop.setFd,Function.update_of_ne hfd] using hk)

theorem setVecOfVec_self (i j : ℕ) : l.setVecOfVec i j (l.vecOfVec i j) = l := by
  unfold setVecOfVec vecOfVec
  rw [Function.update_eq_self]

/-! ### `picoev_set_timeout` -/

theorem clearTimeout_some {fd idx : ℕ} (h : (l.fds fd).timeoutIdx = some idx)
    (hidx : idx < PICOEV_TIMEOUT_VEC_SIZE) (hfd : fd / PICOEV_SHORT_BITS < l.timeoutVecSize)
    {v : BitVec 16} (hv : v = l.vec idx (fd / PICOEV_SHORT_BITS) &&& ~~~oneBit 16 (fd % PICOEV_SHORT_BITS)) :
    l.clearTimeout fd = ((l.setVec idx (fd / PICOEV_SHORT_BITS) v).setVecOfVec idx
      (fd / PICOEV_SHORT_BITS / PICOEV_SHORT_BITS)
      (if v = 0 then l.vecOfVec idx (fd / PICOEV_SHORT_BITS / PICOEV_SHORT_BITS) &&&
          ~~~oneBit 16 (fd / PICOEV_SHORT_BITS % PICOEV_SHORT_BITS)
        else l.vecOfVec idx (fd / PICOEV_SHORT_BITS / PICOEV_SHORT_BITS))).setFd fd
      { l.fds fd with timeoutIdx := none } := by
  have hold : (l.setVec idx (fd / PICOEV_SHORT_BITS) v).vecOfVec idx
      (fd / PICOEV_SHORT_BITS / PICOEV_SHORT_BITS) =
      l.vecOfVec idx (fd / PICOEV_SHORT_BITS / PICOEV_SHORT_BITS) :=
    vecOfVec_setVec v hidx (div_lt_timeoutVecOfVecSize hfd)
  unfold clearTimeout
  rw [h]
  simp only
  rw [← hv]
  by_cases hz : v = 0
  · rw [if_pos hz,if_pos hz,hold]
    rfl
  · rw [if_neg hz,if_neg hz,← hold,setVecOfVec_self]
    rfl

theorem Coherent.clearTimeout (h : Coherent l scanned) {fd : ℕ} (hfd : fd < l.maxFd) :
    Coherent (l.clearTimeout fd) scanned ∧ (l.clearTimeout fd).view = l.view.clearTimeout fd := by
  cases hidx : (l.fds fd).timeoutIdx with
  | none =>
    have h1 : l.clearTimeout fd = l := by rw [PicoevLoop.clearTimeout,hidx]
    have h2 : l.view.clearTimeout fd = l.view := by
      rw [Picoev.clearTimeout,show (l.view.fds fd).timeoutIdx = none from hidx]
    rw [h1,h2]
    exact ⟨h,rfl⟩
  | some idx =>
    have hlt := h.timeoutIdx fd idx hidx
    have hvi := div_lt_timeoutVecSize hfd
    have hi := div_lt_timeoutVecOfVecSize hvi
    rw [clearTimeout_some hidx hlt hvi rfl]
    constructor
    · refine (h.set hlt hvi fun hex n hn => ?_).setFd fd (by simp)
      have hbit := h.bits idx hlt _ hi _ (mod_lt_bits (fd / PICOEV_SHORT_BITS)) hex
      rw [Nat.div_add_mod'] at hbit
      split
      next hz =>
        rw [getMsbD_clear (mod_lt_bits _)]
        split
        next hn' => simp [hn',hz]
        next hn' => simp [hn']
      next hz =>
        split
        next hn' =>
          rw [hn',hbit]
          refine iff_of_true ⟨hvi,fun h0 => hz ?_⟩ hz
          simp [h0]
        · rfl
    · have hv : ∀ n, (l.vec idx (fd / PICOEV_SHORT_BITS) &&&
          ~~~oneBit 16 (fd % PICOEV_SHORT_BITS)).getMsbD n = if n = fd % PICOEV_SHORT_BITS then false
            else (l.vec idx (fd / PICOEV_SHORT_BITS)).getMsbD n := by
        intro n
        rw [getMsbD_clear (mod_lt_bits _)]
        split
        next hn => simp [hn]
        next hn => simp [hn]
      rw [view_setFd,view_set hlt hvi hv,Picoev.clearTimeout,
        show (l.view.fds fd).timeoutIdx = some idx from hidx]
      rfl

theorem arm_eq {fd idx : ℕ} (hidx : idx < PICOEV_TIMEOUT_VEC_SIZE)
    (hfd : fd / PICOEV_SHORT_BITS < l.timeoutVecSize) :
    l.arm fd idx = ((l.setVec idx (fd / PICOEV_SHORT_BITS)
        (l.vec idx (fd / PICOEV_SHORT_BITS) ||| oneBit 16 (fd % PICOEV_SHORT_BITS))).setVecOfVec idx
      (fd / PICOEV_SHORT_BITS / PICOEV_SHORT_BITS)
      (l.vecOfVec idx (fd / PICOEV_SHORT_BITS / PICOEV_SHORT_BITS) |||
        oneBit 16 (fd / PICOEV_SHORT_BITS % PICOEV_SHORT_BITS))).setFd fd
      { l.fds fd with timeoutIdx := some idx } := by
  rw [← @vecOfVec_setVec κ l idx (fd / PICOEV_SHORT_BITS) idx (fd / PICOEV_SHORT_BITS / PICOEV_SHORT_BITS)
    (l.vec idx (fd / PICOEV_SHORT_BITS) ||| oneBit 16 (fd % PICOEV_SHORT_BITS)) hidx
    (div_lt_timeoutVecOfVecSize hfd)]
  rfl

theorem Coherent.arm (h : Coherent l scanned) {fd idx : ℕ} (hfd : fd < l.maxFd)
    (hidx : idx < PICOEV_TIMEOUT_VEC_SIZE) : Coherent (l.arm fd idx) scanned ∧
      (l.arm fd idx).view = (l.view.setVec idx fd true).setFd fd { l.fds fd with timeoutIdx := some idx } := by
  have hvi := div_lt_timeoutVecSize hfd
  rw [arm_eq hidx hvi]
  constructor
  · refine (h.set hidx hvi fun hex n hn => ?_).setFd fd fun i hi => ?_
    · have hne : l.vec idx (fd / PICOEV_SHORT_BITS) ||| oneBit 16 (fd % PICOEV_SHORT_BITS) ≠ 0 := by
        intro h0
        have hbit := eq_zero_iff.mp h0 _ (mod_lt_bits fd)
        rw [getMsbD_set (mod_lt_bits _)] at hbit
        simp at hbit
      rw [getMsbD_set (mod_lt_bits _)]
      split
      next hn' => exact iff_of_true (by simp [hn']) hne
      next hn' => simp [hn']
    · obtain rfl := Option.some.inj hi
      exact hidx
  · have hv : ∀ n, (l.vec idx (fd / PICOEV_SHORT_BITS) |||
        oneBit 16 (fd % PICOEV_SHORT_BITS)).getMsbD n = if n = fd % PICOEV_SHORT_BITS then true
          else (l.vec idx (fd / PICOEV_SHORT_BITS)).getMsbD n := by
      intro n
      rw [getMsbD_set (mod_lt_bits _)]
      split
      next hn => simp [hn]
      next hn => simp [hn]
    rw [view_setFd,view_set hidx hvi hv]

/-- What no operation changes. -/
structure Frame (l l' : PicoevLoop κ) : Prop where
  maxFd : l'.maxFd = l.maxFd
  baseIdx : l'.baseIdx = l.baseIdx
  baseTime : l'.baseTime = l.baseTime
  now : l'.now = l.now

theorem Frame.refl (l : PicoevLoop κ) : Frame l l := ⟨rfl,rfl,rfl,rfl⟩

theorem Frame.trans {l l' l'' : PicoevLoop κ} (h : Frame l l') (h' : Frame l' l'') : Frame l l'' :=
  ⟨h'.maxFd.trans h.maxFd,h'.baseIdx.trans h.baseIdx,h'.baseTime.trans h.baseTime,h'.now.trans h.now⟩

theorem setFd_frame (l : PicoevLoop κ) (fd : ℕ) (t : PicoevFd κ) : Frame l (l.setFd fd t) :=
  ⟨rfl,rfl,rfl,rfl⟩

theorem clearTimeout_frame (l : PicoevLoop κ) (fd : ℕ) : Frame l (l.clearTimeout fd) := by
  unfold clearTimeout
  split
  · exact .refl l
  · simp only
    split <;> exact ⟨rfl,rfl,rfl,rfl⟩

theorem setTimeout_frame (l : PicoevLoop κ) (fd secs : ℕ) : Frame l (l.setTimeout fd secs) := by
  unfold setTimeout
  simp only
  split
  · exact clearTimeout_frame l fd
  · exact (clearTimeout_frame l fd).trans ⟨rfl,rfl,rfl,rfl⟩

theorem delta_view (h : l.baseTime ≤ l.now) (secs : ℕ) : l.delta secs = l.view.delta secs := by
  unfold delta Picoev.delta
  simp only [resolution_eq,view]
  have hd : ((l.now : ℤ) + secs - l.baseTime) / ((1 : ℕ) : ℤ) = ((l.now + secs - l.baseTime : ℕ) : ℤ) := by
    rw [Nat.cast_one,Int.ediv_one]
    omega
  rw [hd,Nat.div_one]
  by_cases hbig : l.now + secs - l.baseTime ≥ PICOEV_TIMEOUT_VEC_SIZE
  · rw [if_pos (.inr (by exact_mod_cast hbig)),if_pos hbig]
  · rw [if_neg hbig,if_neg (by omega),Int.toNat_natCast]

theorem Coherent.setTimeout (h : Coherent l scanned) {fd : ℕ} (hfd : fd < l.maxFd) (secs : ℕ) :
    Coherent (l.setTimeout fd secs) scanned ∧ (l.setTimeout fd secs).view = l.view.setTimeout fd secs := by
  obtain ⟨hc,hv⟩ := h.clearTimeout hfd
  have hframe := clearTimeout_frame l fd
  unfold PicoevLoop.setTimeout Picoev.setTimeout
  simp only
  rw [← hv]
  split
  · exact ⟨hc,rfl⟩
  · obtain ⟨ha,hva⟩ := hc.arm (hframe.maxFd ▸ hfd) (Nat.mod_lt _ (by decide))
    refine ⟨ha,?_⟩
    rw [hva,delta_view hc.baseTime]
    rfl

theorem Coherent.call (h : Coherent l scanned) {o : PicoevOp κ} (ho : o.InRange l.maxFd) :
    Coherent (l.call o) scanned ∧ (l.call o).view = l.view.call o ∧ Frame l (l.call o) := by
  cases o with
  | setTimeout fd secs =>
    obtain ⟨hc,hv⟩ := h.setTimeout ho secs
    exact ⟨hc,hv,setTimeout_frame l fd secs⟩
  | add fd events secs callback =>
    by_cases hfd : fd < l.maxFd
    · have hc : l.call (.add fd events secs callback) =
          (l.setFd fd ⟨some callback,true,events,none⟩).setTimeout fd secs := by
        simp [PicoevLoop.call,PicoevLoop.add,hfd]
      have hv : l.view.call (.add fd events secs callback) =
          (l.view.setFd fd ⟨some callback,true,events,none⟩).setTimeout fd secs := by
        simp [Picoev.call,Picoev.add,view,hfd]
      obtain ⟨h1,h2⟩ := (h.setFd fd (t := ⟨some callback,true,events,none⟩) (by simp)).setTimeout hfd secs
      rw [hc,hv]
      exact ⟨h1,h2,(setFd_frame l fd _).trans (setTimeout_frame _ fd secs)⟩
    · have hc : l.call (.add fd events secs callback) = l := by
        simp [PicoevLoop.call,PicoevLoop.add,hfd]
      have hv : l.view.call (.add fd events secs callback) = l.view := by
        simp [Picoev.call,Picoev.add,view,hfd]
      rw [hc,hv]
      exact ⟨h,rfl,.refl l⟩
  | del fd =>
    obtain ⟨h1,h2⟩ := (h.setFd fd (t := { l.fds fd with events := {} }) (h.timeoutIdx fd)).setTimeout ho 0
    refine ⟨h1.setFd fd (h1.timeoutIdx fd),?_,((setFd_frame l fd _).trans (setTimeout_frame _ fd 0)).trans
      (setFd_frame _ fd _)⟩
    show Picoev.setFd (PicoevLoop.view _) fd { (PicoevLoop.view _).fds fd with active := false } = _
    rw [h2]
    rfl

end PicoevLoop

/-! ### The slot that is scanned -/

namespace Picoev

variable {κ : Type} {l : Picoev κ}

theorem clearTimeout_vec {fd i k : ℕ} (h : (l.clearTimeout fd).vec i k) : l.vec i k := by
  unfold clearTimeout at h
  split at h
  · exact h
  · rw [setFd_vec,setVec_vec] at h
    split at h
    · cases h
    · exact h

theorem clearTimeout_baseIdx (fd : ℕ) : (l.clearTimeout fd).baseIdx = l.baseIdx := by
  unfold clearTimeout
  split <;> rfl

theorem setTimeout_vec_baseIdx (hdue : l.slotDue) {fd secs k : ℕ}
    (h : (l.setTimeout fd secs).vec l.baseIdx k) : l.vec l.baseIdx k := by
  have hdue' : l.baseTime + 1 ≤ l.now := by simpa [slotDue] using hdue
  unfold setTimeout at h
  simp only at h
  split at h
  · exact clearTimeout_vec h
  next hs =>
    rw [setFd_vec,setVec_vec,clearTimeout_baseIdx] at h
    split at h
    next hidx =>
      have hpos : 1 ≤ (l.clearTimeout fd).delta secs ∧ (l.clearTimeout fd).delta secs ≤ 127 := by
        have hsame : (l.clearTimeout fd).now = l.now ∧ (l.clearTimeout fd).baseTime = l.baseTime := by
          unfold clearTimeout
          split <;> exact ⟨rfl,rfl⟩
        unfold delta PICOEV_TIMEOUT_VEC_SIZE
        simp only [hsame,resolution_eq,Nat.div_one]
        split <;> omega
      have hidx' := hidx.1
      unfold PICOEV_TIMEOUT_VEC_SIZE at hidx'
      omega
    · exact clearTimeout_vec h

theorem call_vec_baseIdx (hdue : l.slotDue) {o : PicoevOp κ} {k : ℕ}
    (h : (l.call o).vec l.baseIdx k) : l.vec l.baseIdx k := by
  cases o with
  | setTimeout fd secs => exact setTimeout_vec_baseIdx hdue h
  | add fd events secs callback =>
    by_cases hfd : fd < l.maxFd
    · simp only [call,add,hfd,if_true,Option.getD_some] at h
      exact @setTimeout_vec_baseIdx κ (l.setFd fd ⟨some callback,true,events,none⟩) hdue fd secs k h
    · simpa [call,add,hfd] using h
  | del fd =>
    exact @setTimeout_vec_baseIdx κ (l.setFd fd { l.fds fd with events := {} }) hdue fd 0 k h

end Picoev

namespace PicoevLoop

variable {κ σ : Type} {l : PicoevLoop κ} {scanned : Option ℕ}

theorem view_vec_short {idx j n : ℕ} (hidx : idx < PICOEV_TIMEOUT_VEC_SIZE) (hj : j < l.timeoutVecSize)
    (hn : n < PICOEV_SHORT_BITS) :
    l.view.vec idx (j * PICOEV_SHORT_BITS + n) = (l.vec idx j).getMsbD n := by
  have hdiv : (j * PICOEV_SHORT_BITS + n) / PICOEV_SHORT_BITS = j := by
    unfold PICOEV_SHORT_BITS at *
    omega
  have hmod : (j * PICOEV_SHORT_BITS + n) % PICOEV_SHORT_BITS = n := by
    unfold PICOEV_SHORT_BITS at *
    omega
  simp only [view,hdiv,hmod,hidx,hj]
  simp

/-- What a handler leaves: no short of the slot at `base_idx` gets a bit. -/
structure Kept (l l' : PicoevLoop κ) : Prop where
  frame : Frame l l'
  vec : ∀ j < l.timeoutVecSize, l'.vec l.baseIdx j ≠ 0 → l.vec l.baseIdx j ≠ 0

theorem Kept.refl (l : PicoevLoop κ) : Kept l l := ⟨.refl l,fun _ _ h => h⟩

theorem Frame.timeoutVecSize {l l' : PicoevLoop κ} (h : Frame l l') :
    l'.timeoutVecSize = l.timeoutVecSize := by
  rw [PicoevLoop.timeoutVecSize,h.maxFd]
  rfl

theorem Frame.timeoutVecOfVecSize {l l' : PicoevLoop κ} (h : Frame l l') :
    l'.timeoutVecOfVecSize = l.timeoutVecOfVecSize := by
  rw [PicoevLoop.timeoutVecOfVecSize,h.timeoutVecSize]
  rfl

theorem Kept.trans {l l' l'' : PicoevLoop κ} (h : Kept l l') (h' : Kept l' l'') : Kept l l'' := by
  refine ⟨h.frame.trans h'.frame,fun j hj hne => h.vec j hj ?_⟩
  rw [← h.frame.baseIdx] at hne ⊢
  exact h'.vec j (h.frame.timeoutVecSize ▸ hj) hne

theorem Coherent.kept (h : Coherent l scanned) (hdue : l.slotDue) {o : PicoevOp κ}
    (ho : o.InRange l.maxFd) : Kept l (l.call o) := by
  obtain ⟨-,hv,hf⟩ := h.call ho
  refine ⟨hf,fun j hj hne h0 => hne (eq_zero_iff.mpr fun n hn => ?_)⟩
  rw [← view_vec_short h.baseIdx (hf.timeoutVecSize ▸ hj) hn,hv,Bool.eq_false_iff]
  intro hbit
  have hold := @Picoev.call_vec_baseIdx κ l.view hdue o _ hbit
  rw [show l.view.baseIdx = l.baseIdx from rfl,view_vec_short h.baseIdx hj hn,
    eq_zero_iff.mp h0 n hn] at hold
  cases hold

theorem Frame.slotDue {l l' : PicoevLoop κ} (h : Frame l l') : l'.slotDue = l.slotDue := by
  rw [PicoevLoop.slotDue,PicoevLoop.slotDue,h.baseTime,h.now]

theorem Coherent.calls {ops : List (PicoevOp κ)} (h : Coherent l scanned) (hdue : l.slotDue)
    (hops : ∀ o ∈ ops, o.InRange l.maxFd) : Coherent (ops.foldl PicoevLoop.call l) scanned ∧
      (ops.foldl PicoevLoop.call l).view = ops.foldl Picoev.call l.view ∧
      Kept l (ops.foldl PicoevLoop.call l) := by
  induction ops generalizing l with
  | nil => exact ⟨h,rfl,.refl l⟩
  | cons o ops ih =>
    obtain ⟨ho,hops⟩ := List.forall_mem_cons.mp hops
    obtain ⟨hc,hv,hf⟩ := h.call ho
    obtain ⟨h1,h2,h3⟩ := ih hc (hf.slotDue.trans hdue) (by rwa [hf.maxFd])
    refine ⟨h1,?_,(h.kept hdue ho).trans h3⟩
    rw [List.foldl_cons,h2,hv]
    rfl

/-- The handler makes no call that an assertion forbids. -/
def InRange (h : TimeoutHandler σ κ) (maxFd : ℕ) : Prop :=
  ∀ s fds k, ∀ o ∈ (h s fds k).2, o.InRange maxFd

/-- The loop over the shorts and the loop over the table at the same point. -/
structure Alike (scanned : Option ℕ) (x : σ × PicoevLoop κ) (y : σ × Picoev κ) : Prop where
  state : y.1 = x.1
  view : y.2 = x.2.view
  coherent : Coherent x.2 scanned
  due : x.2.slotDue

variable {hd : TimeoutHandler σ κ} {x : σ × PicoevLoop κ} {y : σ × Picoev κ}

theorem Alike.fire (hh : InRange hd x.2.maxFd) (h : Alike scanned x y) (k : ℕ) :
    Alike scanned (PicoevLoop.fire hd x k) (Picoev.fire hd y k) ∧ Kept x.2 (PicoevLoop.fire hd x k).2 := by
  obtain ⟨s,l⟩ := x
  obtain ⟨hst,hview,hc,hdue⟩ := h
  obtain ⟨s',l'⟩ := y
  obtain rfl : s' = s := hst
  obtain rfl : l' = l.view := hview
  have hfd : Coherent (l.setFd k { l.fds k with timeoutIdx := none }) scanned := hc.setFd k (by simp)
  obtain ⟨h1,h2,h3⟩ := hfd.calls hdue (hh s' (l.setFd k { l.fds k with timeoutIdx := none }).fds k)
  exact ⟨⟨rfl,h2.symm,h1,h3.frame.slotDue.trans hdue⟩,Kept.trans ⟨setFd_frame l k _,fun _ _ h => h⟩ h3⟩

theorem Alike.fires (hh : InRange hd x.2.maxFd) (h : Alike scanned x y) (ks : List ℕ) :
    Alike scanned (ks.foldl (PicoevLoop.fire hd) x) (ks.foldl (Picoev.fire hd) y) ∧
      Kept x.2 (ks.foldl (PicoevLoop.fire hd) x).2 := by
  induction ks generalizing x y with
  | nil => exact ⟨h,.refl x.2⟩
  | cons k ks ih =>
    obtain ⟨h1,h2⟩ := h.fire hh k
    obtain ⟨h3,h4⟩ := ih (by rwa [h2.frame.maxFd]) h1
    exact ⟨h3,h2.trans h4⟩

theorem scan_vec {j : ℕ} (hb : l.baseIdx < PICOEV_TIMEOUT_VEC_SIZE) (hj : j < l.timeoutVecSize) :
    scan (l.vec l.baseIdx j) (j * PICOEV_SHORT_BITS) = l.view.word j := by
  rw [scan_eq,Picoev.word,List.filter_map]
  congr 1
  refine List.filter_congr fun n hn => ?_
  rw [Function.comp_apply]
  exact (view_vec_short hb hj (List.mem_range.mp hn)).symm

theorem view_clear {j : ℕ} (hj : j < l.timeoutVecSize) :
    (l.setVec l.baseIdx j 0).view = l.view.clearWord j := by
  have h : (l.setVec l.baseIdx j 0).view.vec = (l.view.clearWord j).vec := by
    funext i k
    have hsize : (l.setVec l.baseIdx j 0).timeoutVecSize = l.timeoutVecSize := rfl
    have hclear : (l.view.clearWord j).vec i k =
        if i = l.baseIdx ∧ k / PICOEV_SHORT_BITS = j then false else l.view.vec i k := rfl
    rw [hclear]
    simp only [view,hsize]
    by_cases hk : k / PICOEV_SHORT_BITS < l.timeoutVecSize
    · rw [vec_setVec 0 hj hk]
      by_cases hsame : i = l.baseIdx ∧ k / PICOEV_SHORT_BITS = j
      · rw [if_pos hsame,if_pos hsame]
        simp
      · rw [if_neg hsame,if_neg hsame]
    · simp [hk]
  unfold Picoev.clearWord
  rw [Picoev.mk.injEq] at *
  exact ⟨rfl,rfl,h,rfl,rfl,rfl⟩

theorem scanWord_zero {j : ℕ} (hb : l.baseIdx < PICOEV_TIMEOUT_VEC_SIZE) (hj : j < l.timeoutVecSize)
    (h0 : l.vec l.baseIdx j = 0) (hd : TimeoutHandler σ κ) (s : σ) :
    Picoev.scanWord hd (s,l.view) j = (s,l.view) := by
  have hword : l.view.word j = [] := by
    rw [← scan_vec hb hj,h0,scan_eq]
    simp
  have hclear : l.view.clearWord j = l.view := by
    rw [← view_clear hj,← h0]
    unfold setVec vec
    rw [Function.update_eq_self]
  rw [Picoev.scanWord]
  simp only [hword,List.foldl_nil,hclear]

/-- A short of the word that is scanned. -/
theorem Alike.scanShort {i j : ℕ} (hh : InRange hd x.2.maxFd) (h : Alike (some i) x y)
    (hi : j / PICOEV_SHORT_BITS = i) (hj : j < x.2.timeoutVecSize) :
    Alike (some i) (PicoevLoop.scanShort hd x.2.baseIdx x j) (Picoev.scanWord hd y j) ∧
      Kept x.2 (PicoevLoop.scanShort hd x.2.baseIdx x j).2 ∧
      (PicoevLoop.scanShort hd x.2.baseIdx x j).2.vec x.2.baseIdx j = 0 := by
  obtain ⟨h1,h2⟩ := h.fires hh (y.2.word j)
  rw [PicoevLoop.scanShort,Picoev.scanWord]
  simp only
  rw [scan_vec h.coherent.baseIdx hj,← h.view]
  generalize (y.2.word j).foldl (PicoevLoop.fire hd) x = x' at h1 h2
  generalize (y.2.word j).foldl (Picoev.fire hd) y = y' at h1
  have hbase := h2.frame.baseIdx
  have hj' : j < x'.2.timeoutVecSize := h2.frame.timeoutVecSize ▸ hj
  rw [← hbase]
  have hself : x'.2.setVec x'.2.baseIdx j 0 = (x'.2.setVec x'.2.baseIdx j 0).setVecOfVec x'.2.baseIdx
      (j / PICOEV_SHORT_BITS) (x'.2.vecOfVec x'.2.baseIdx (j / PICOEV_SHORT_BITS)) := by
    rw [← @vecOfVec_setVec κ x'.2 x'.2.baseIdx j x'.2.baseIdx (j / PICOEV_SHORT_BITS) 0
      h1.coherent.baseIdx (div_lt_timeoutVecOfVecSize hj'),setVecOfVec_self]
  refine ⟨⟨h1.state,?_,?_,h1.due⟩,⟨?_,?_⟩,?_⟩
  · simp only
    rw [view_clear hj',h1.view]
  · simp only
    rw [hself]
    exact h1.coherent.set h1.coherent.baseIdx hj' fun hex => absurd ⟨rfl,by rw [hi]⟩ hex
  · exact h2.frame.trans ⟨rfl,rfl,rfl,rfl⟩
  · intro k hk hne
    rw [← hbase] at hne ⊢
    rw [vec_setVec 0 hj' (h2.frame.timeoutVecSize ▸ hk)] at hne
    split at hne
    · exact absurd rfl hne
    · rw [hbase] at hne ⊢
      exact h2.vec k hk hne
  · rw [vec_setVec 0 hj' hj']
    simp

/-- The shorts of a word of `vec_of_vec`, those that are skipped and those that are not. -/
theorem Alike.scanShorts {i : ℕ} {vv : BitVec 16} (hh : InRange hd x.2.maxFd) {js : List ℕ}
    (h : Alike (some i) x y) (hi : ∀ j ∈ js, j / PICOEV_SHORT_BITS = i ∧ j < x.2.timeoutVecSize)
    (hleft : ∀ j < x.2.timeoutVecSize, j / PICOEV_SHORT_BITS = i → x.2.vec x.2.baseIdx j ≠ 0 →
      j ∈ js ∧ vv.getMsbD (j % PICOEV_SHORT_BITS))
    {x' : σ × PicoevLoop κ} {y' : σ × Picoev κ}
    (hx : (js.filter fun j => vv.getMsbD (j % PICOEV_SHORT_BITS)).foldl
      (PicoevLoop.scanShort hd x.2.baseIdx) x = x') (hy : js.foldl (Picoev.scanWord hd) y = y') :
    Alike (some i) x' y' ∧ Kept x.2 x'.2 ∧
      ∀ j < x.2.timeoutVecSize, j / PICOEV_SHORT_BITS = i → x'.2.vec x.2.baseIdx j = 0 := by
  induction js generalizing x y with
  | nil =>
    subst hx hy
    refine ⟨h,.refl x.2,fun j hj hji => ?_⟩
    by_contra hne
    exact absurd (hleft j hj hji hne).1 (by simp)
  | cons j js ih =>
    obtain ⟨⟨hji,hj⟩,hi'⟩ := List.forall_mem_cons.mp hi
    rw [List.filter_cons] at hx
    split at hx
    next hbit =>
      obtain ⟨h1,h2,h3⟩ := h.scanShort hh hji hj
      rw [List.foldl_cons] at hx hy
      generalize PicoevLoop.scanShort hd x.2.baseIdx x j = x1 at h1 h2 h3 hx
      have hsize := h2.frame.timeoutVecSize
      have hbase := h2.frame.baseIdx
      rw [← hbase] at hx
      obtain ⟨h4,h5,h6⟩ := ih (by rwa [h2.frame.maxFd]) h1 (by rwa [hsize]) (fun k hk hki hne => by
        rw [hbase] at hne
        rw [hsize] at hk
        obtain ⟨hmem,hb⟩ := hleft k hk hki (h2.vec k hk hne)
        refine ⟨(List.mem_cons.mp hmem).resolve_left ?_,hb⟩
        rintro rfl
        exact hne h3) hx hy
      rw [hsize,hbase] at h6
      exact ⟨h4,h2.trans h5,h6⟩
    next hbit =>
      have h0 : x.2.vec x.2.baseIdx j = 0 := by
        by_contra hne
        exact hbit (hleft j hj hji hne).2
      have hskip : Picoev.scanWord hd y j = y := by
        obtain ⟨s,l'⟩ := y
        obtain rfl : s = x.1 := h.state
        obtain rfl : l' = x.2.view := h.view
        exact scanWord_zero h.coherent.baseIdx hj h0 hd x.1
      rw [List.foldl_cons,hskip] at hy
      refine ih hh h hi' (fun k hk hki hne => ?_) hx hy
      obtain ⟨hmem,hb⟩ := hleft k hk hki hne
      refine ⟨(List.mem_cons.mp hmem).resolve_left ?_,hb⟩
      rintro rfl
      exact hne h0

/-- The shorts of a word of `vec_of_vec`. -/
def wordShorts (n i : ℕ) : List ℕ :=
  ((List.range PICOEV_SHORT_BITS).map (i * PICOEV_SHORT_BITS + ·)).filter (· < n)

theorem mem_wordShorts {n i j : ℕ} : j ∈ wordShorts n i ↔ j / PICOEV_SHORT_BITS = i ∧ j < n := by
  unfold wordShorts
  rw [List.mem_filter,List.mem_map,decide_eq_true_eq]
  refine and_congr_left fun _ => ?_
  simp only [List.mem_range]
  unfold PICOEV_SHORT_BITS
  constructor
  · rintro ⟨n,hn,rfl⟩
    omega
  · rintro rfl
    exact ⟨j % 16,by omega,by omega⟩

theorem Coherent.scan_vecOfVec (h : Coherent l none) {i : ℕ} (hi : i < l.timeoutVecOfVecSize) :
    scan (l.vecOfVec l.baseIdx i) (i * PICOEV_SHORT_BITS) = (wordShorts l.timeoutVecSize i).filter
      fun j => (l.vecOfVec l.baseIdx i).getMsbD (j % PICOEV_SHORT_BITS) := by
  rw [scan_eq,wordShorts,List.filter_filter,List.filter_map]
  congr 1
  refine List.filter_congr fun n hn => ?_
  have hn' : n < PICOEV_SHORT_BITS := List.mem_range.mp hn
  have hmod : (i * PICOEV_SHORT_BITS + n) % PICOEV_SHORT_BITS = n := by
    unfold PICOEV_SHORT_BITS at *
    omega
  have hbit := h.bits l.baseIdx h.baseIdx i hi n hn' (by simp)
  rw [Function.comp_apply,hmod,Bool.eq_iff_iff,Bool.and_eq_true,decide_eq_true_eq,iff_self_and]
  exact fun hb => (hbit.mp hb).1

/-- The word is scanned to its end. -/
theorem Coherent.closeWord {i : ℕ} (h : Coherent l (some i)) (hi : i < l.timeoutVecOfVecSize)
    (h0 : ∀ j < l.timeoutVecSize, j / PICOEV_SHORT_BITS = i → l.vec l.baseIdx j = 0) :
    Coherent (l.setVecOfVec l.baseIdx i 0) none := by
  have hvec : (l.setVecOfVec l.baseIdx i 0).vec = l.vec := by
    funext i' j'
    exact vec_setVecOfVec 0 h.baseIdx hi
  refine ⟨h.baseIdx,h.baseTime,h.timeoutIdx,fun idx hidx i' hi' n hn _ => ?_,fun a ha => ?_⟩
  · rw [vecOfVec_setVecOfVec 0 hi hi',hvec]
    have hsize : (l.setVecOfVec l.baseIdx i 0).timeoutVecSize = l.timeoutVecSize := rfl
    rw [hsize]
    split
    next hsame =>
      obtain ⟨rfl,rfl⟩ := hsame
      refine iff_of_false (by simp) ?_
      rintro ⟨hlt,hne⟩
      refine hne (h0 _ hlt ?_)
      unfold PICOEV_SHORT_BITS at *
      omega
    next hsame =>
      refine h.bits idx hidx i' hi' n hn ?_
      rintro ⟨rfl,hsc⟩
      exact hsame ⟨rfl,(Option.some.inj hsc).symm⟩
  · have hsize : l.size ≤ a := ha
    have hne : a ≠ l.vecOfVecOf l.baseIdx + i := by
      have := index_lt hi h.baseIdx
      unfold vecOfVecOf
      unfold size at hsize
      rw [Nat.add_mul,Nat.mul_comm l.timeoutVecOfVecSize] at hsize
      omega
    exact (Function.update_of_ne hne _ _).trans (h.outside a hsize)

/-- A word of `vec_of_vec`. -/
theorem Alike.scanWord {i : ℕ} (hh : InRange hd x.2.maxFd) (h : Alike none x y)
    (hi : i < x.2.timeoutVecOfVecSize) :
    Alike none (PicoevLoop.scanShorts hd x.2.baseIdx x i)
        ((wordShorts x.2.timeoutVecSize i).foldl (Picoev.scanWord hd) y) ∧
      Kept x.2 (PicoevLoop.scanShorts hd x.2.baseIdx x i).2 := by
  have hopen : Coherent x.2 (some i) :=
    ⟨h.coherent.baseIdx,h.coherent.baseTime,h.coherent.timeoutIdx,fun idx hidx i' hi' n hn _ =>
      h.coherent.bits idx hidx i' hi' n hn (by simp),h.coherent.outside⟩
  obtain ⟨h1,h2,h3⟩ := @Alike.scanShorts κ σ hd x y i (x.2.vecOfVec x.2.baseIdx i) hh
    (wordShorts x.2.timeoutVecSize i) ⟨h.state,h.view,hopen,h.due⟩ (fun j hj => mem_wordShorts.mp hj)
    (fun j hj hji hne => by
      refine ⟨mem_wordShorts.mpr ⟨hji,hj⟩,?_⟩
      have hbit := h.coherent.bits x.2.baseIdx h.coherent.baseIdx i hi (j % PICOEV_SHORT_BITS)
        (mod_lt_bits j) (by simp)
      rw [← hji,Nat.div_add_mod'] at hbit
      exact hji ▸ hbit.mpr ⟨hj,hne⟩) _ _ rfl rfl
  rw [← h.coherent.scan_vecOfVec hi] at h1 h2 h3
  unfold PicoevLoop.scanShorts
  simp only
  split
  next hz =>
    have hnil : scan (0 : BitVec 16) (i * PICOEV_SHORT_BITS) = [] := by
      rw [scan_eq]
      simp
    rw [hz,hnil,List.foldl_nil] at h1
    exact ⟨⟨h1.state,h1.view,h.coherent,h.due⟩,.refl x.2⟩
  next hz =>
    generalize (scan (x.2.vecOfVec x.2.baseIdx i) (i * PICOEV_SHORT_BITS)).foldl
      (PicoevLoop.scanShort hd x.2.baseIdx) x = x' at h1 h2 h3
    have hi' : i < x'.2.timeoutVecOfVecSize := h2.frame.timeoutVecOfVecSize ▸ hi
    have hbase := h2.frame.baseIdx
    rw [← hbase,← h2.frame.timeoutVecSize] at h3
    rw [← hbase]
    refine ⟨⟨h1.state,?_,h1.coherent.closeWord hi' h3,h1.due⟩,h2.frame.trans ⟨rfl,rfl,rfl,rfl⟩,
      fun j hj hne => h2.vec j hj ?_⟩
    · rw [h1.view]
      exact (view_setVecOfVec 0 h1.coherent.baseIdx hi').symm
    · rwa [show (x'.2.setVecOfVec x'.2.baseIdx i 0).vec x.2.baseIdx j = x'.2.vec x.2.baseIdx j from
        vec_setVecOfVec 0 h1.coherent.baseIdx hi'] at hne

theorem Alike.scanWords (hh : InRange hd x.2.maxFd) (h : Alike none x y) {n : ℕ}
    (hn : n ≤ x.2.timeoutVecOfVecSize) :
    Alike none ((List.range n).foldl (PicoevLoop.scanShorts hd x.2.baseIdx) x)
        (((List.range (n * PICOEV_SHORT_BITS)).filter (· < x.2.timeoutVecSize)).foldl
          (Picoev.scanWord hd) y) ∧
      Kept x.2 ((List.range n).foldl (PicoevLoop.scanShorts hd x.2.baseIdx) x).2 := by
  induction n with
  | zero =>
    rw [Nat.zero_mul]
    exact ⟨h,.refl x.2⟩
  | succ n ih =>
    obtain ⟨h1,h2⟩ := ih (by omega)
    rw [List.range_succ,List.foldl_append,Nat.succ_mul,List.range_add,List.filter_append,
      List.foldl_append]
    generalize (List.range n).foldl (PicoevLoop.scanShorts hd x.2.baseIdx) x = x' at h1 h2
    generalize ((List.range (n * PICOEV_SHORT_BITS)).filter (· < x.2.timeoutVecSize)).foldl
      (Picoev.scanWord hd) y = y' at h1
    obtain ⟨h3,h4⟩ := h1.scanWord (by rwa [h2.frame.maxFd])
      (show n < _ by rw [h2.frame.timeoutVecOfVecSize]; omega)
    rw [h2.frame.baseIdx,h2.frame.timeoutVecSize] at h3
    rw [h2.frame.baseIdx] at h4
    exact ⟨h3,h2.trans h4⟩

theorem filter_range_lt {m n : ℕ} (h : n ≤ m) : (List.range m).filter (· < n) = List.range n := by
  obtain ⟨k,rfl⟩ := Nat.exists_eq_add_of_le h
  rw [List.range_add,List.filter_append,List.filter_eq_self.mpr (by simp),
    List.filter_eq_nil_iff.mpr (by simp),List.append_nil]

theorem Alike.scanSlot (hh : InRange hd x.2.maxFd) (h : Alike none x y) :
    Alike none (PicoevLoop.scanSlot hd x) (Picoev.scanSlot hd y) ∧
      Kept x.2 (PicoevLoop.scanSlot hd x).2 := by
  obtain ⟨h1,h2⟩ := h.scanWords hh (n := x.2.timeoutVecOfVecSize) le_rfl
  have hsize : x.2.timeoutVecSize ≤ x.2.timeoutVecOfVecSize * PICOEV_SHORT_BITS := by
    unfold timeoutVecOfVecSize rndUp PICOEV_SIMD_BITS PICOEV_SHORT_BITS
    omega
  rw [filter_range_lt hsize] at h1
  have hwords : y.2.words = x.2.timeoutVecSize := by
    rw [h.view]
    rfl
  rw [Picoev.scanSlot,hwords]
  exact ⟨h1,h2⟩

theorem Coherent.nextSlot (h : Coherent l none) (hdue : l.slotDue) : Coherent l.nextSlot none := by
  refine ⟨Nat.mod_lt _ (by decide),?_,h.timeoutIdx,fun idx hidx i hi n hn _ =>
    h.bits idx hidx i hi n hn (by simp),h.outside⟩
  simpa [PicoevLoop.slotDue,PicoevLoop.nextSlot] using hdue

/-- What the loop over the slots leaves. -/
structure Scanned (l : PicoevLoop κ) (x : σ × PicoevLoop κ) (y : σ × Picoev κ) : Prop where
  same : y = (x.1,x.2.view)
  coherent : Coherent x.2 none
  maxFd : x.2.maxFd = l.maxFd
  now : x.2.now = l.now

theorem scanSlots_scanned (hh : InRange hd l.maxFd) (h : Coherent l none) (s : σ) (n : ℕ) :
    Scanned l (scanSlots hd n (s,l)) (Picoev.scanSlots hd n (s,l.view)) ∧
      (l.now - l.baseTime ≤ n → (scanSlots hd n (s,l)).2.slotDue = false) := by
  induction n generalizing s l with
  | zero =>
    refine ⟨⟨rfl,h,rfl,rfl⟩,fun hn => ?_⟩
    simp only [scanSlots,PicoevLoop.slotDue,resolution_eq,decide_eq_false_iff_not]
    omega
  | succ n ih =>
    have hsame : l.view.slotDue = l.slotDue := rfl
    rw [scanSlots,Picoev.scanSlots,hsame]
    by_cases hdue : l.slotDue
    · rw [if_pos hdue,if_pos hdue]
      obtain ⟨h1,h2⟩ := Alike.scanSlot (x := (s,l)) (y := (s,l.view)) hh ⟨rfl,rfl,h,hdue⟩
      simp only
      generalize PicoevLoop.scanSlot hd (s,l) = x at h1 h2
      generalize Picoev.scanSlot hd (s,l.view) = y at h1
      obtain ⟨s',l'⟩ := x
      obtain ⟨t,m⟩ := y
      obtain rfl : t = s' := h1.state
      obtain rfl : m = l'.view := h1.view
      have hf := h2.frame
      have hmax : l'.nextSlot.maxFd = l.maxFd := hf.maxFd
      have hnow : l'.nextSlot.now = l.now := hf.now
      have htime : l'.nextSlot.baseTime = l.baseTime + 1 := congrArg (· + resolution) hf.baseTime
      obtain ⟨h3,h4⟩ := ih (hmax ▸ hh) (h1.coherent.nextSlot h1.due) t
      refine ⟨⟨h3.same,h3.coherent,h3.maxFd.trans hmax,h3.now.trans hnow⟩,fun hn => h4 ?_⟩
      rw [hnow,htime]
      omega
    · rw [if_neg hdue,if_neg hdue]
      exact ⟨⟨rfl,h,rfl,rfl⟩,fun _ => by simpa using hdue⟩

end PicoevLoop

/-! ### Runs -/

/-- What happens to a loop: a call, or `picoev_loop_once` behind its poll, at the time `now`. -/
inductive PicoevEvent (κ : Type)
  | call (o : PicoevOp κ)
  | once (now : ℕ)

/-- The clock does not go back, and no call is one that an assertion forbids. -/
def Orderly {κ : Type} (maxFd : ℕ) : ℕ → List (PicoevEvent κ) → Prop
  | _,[] => True
  | now,.call o :: es => o.InRange maxFd ∧ Orderly maxFd now es
  | now,.once t :: es => now ≤ t ∧ Orderly maxFd t es

section Runs
variable {κ σ : Type} {hd : TimeoutHandler σ κ}

def Picoev.step (hd : TimeoutHandler σ κ) (y : σ × Picoev κ) : PicoevEvent κ → σ × Picoev κ
  | .call o => (y.1,y.2.call o)
  | .once now => Picoev.handleTimeout hd (y.1,{ y.2 with now := now })

namespace PicoevLoop

def step (hd : TimeoutHandler σ κ) (x : σ × PicoevLoop κ) : PicoevEvent κ → σ × PicoevLoop κ
  | .call o => (x.1,x.2.call o)
  | .once now => handleTimeout hd (x.1,{ x.2 with now := now })

theorem init_coherent (maxFd now : ℕ) : Coherent (init maxFd now : PicoevLoop κ) none := by
  refine ⟨(by decide : 0 < PICOEV_TIMEOUT_VEC_SIZE),Nat.le_refl now,fun fd idx h => ?_,fun idx _ i _ n _ _ => ?_,fun a _ => rfl⟩
  · cases h
    decide
  · simp [init,vec,vecOfVec]

theorem init_view (maxFd now : ℕ) : (init maxFd now : PicoevLoop κ).view = Picoev.init maxFd now := by
  have h : (init maxFd now : PicoevLoop κ).view.vec = fun _ _ => false := by
    funext i k
    simp [view,vec,init]
  unfold Picoev.init
  rw [Picoev.mk.injEq]
  exact ⟨rfl,rfl,h,rfl,rfl,rfl⟩

theorem step_view {l : PicoevLoop κ} (hh : InRange hd l.maxFd) (h : Coherent l none) (s : σ)
    {e : PicoevEvent κ} (he : Orderly l.maxFd l.now [e]) :
    Picoev.step hd (s,l.view) e = ((step hd (s,l) e).1,(step hd (s,l) e).2.view) ∧
      Coherent (step hd (s,l) e).2 none ∧ (step hd (s,l) e).2.maxFd = l.maxFd ∧
      ∀ es, Orderly l.maxFd l.now (e :: es) → Orderly l.maxFd (step hd (s,l) e).2.now es := by
  cases e with
  | call o =>
    obtain ⟨h1,h2,h3⟩ := h.call he.1
    refine ⟨?_,h1,h3.maxFd,fun es hes => ?_⟩
    · rw [Picoev.step,step,h2]
    · rw [step,h3.now]
      exact hes.2
  | once now =>
    have hc : Coherent { l with now := now } none :=
      ⟨h.baseIdx,h.baseTime.trans he.1,h.timeoutIdx,h.bits,h.outside⟩
    obtain ⟨h1,-⟩ := scanSlots_scanned (l := { l with now := now }) hh hc s (now - l.baseTime)
    refine ⟨h1.same,h1.coherent,h1.maxFd,fun es hes => ?_⟩
    rw [show (step hd (s,l) (.once now)).2.now = now from h1.now]
    exact hes.2

/-- Over any run the shorts are the table of the slots: the same descriptors time out in the same
order. Nothing is written outside of them, and no slot is left that is due. -/
theorem run_view {maxFd : ℕ} (hh : InRange hd maxFd) (s : σ) (now : ℕ) {es : List (PicoevEvent κ)}
    (hes : Orderly maxFd now es) {x : σ × PicoevLoop κ}
    (hx : es.foldl (step hd) (s,init maxFd now) = x) :
    es.foldl (Picoev.step hd) (s,Picoev.init maxFd now) = (x.1,x.2.view) ∧ Coherent x.2 none ∧
      ∀ t ≥ x.2.now, (step hd x (.once t)).2.slotDue = false := by
  suffices hrun : ∀ (es : List (PicoevEvent κ)) (l : PicoevLoop κ) (s : σ), Coherent l none →
      l.maxFd = maxFd → Orderly maxFd l.now es →
      es.foldl (Picoev.step hd) (s,l.view) =
          ((es.foldl (step hd) (s,l)).1,(es.foldl (step hd) (s,l)).2.view) ∧
        Coherent (es.foldl (step hd) (s,l)).2 none ∧ (es.foldl (step hd) (s,l)).2.maxFd = maxFd by
    obtain ⟨h1,h2,h3⟩ := hrun es (init maxFd now) s (init_coherent maxFd now) rfl hes
    rw [init_view,hx] at h1
    rw [hx] at h2 h3
    refine ⟨h1,h2,fun t ht => ?_⟩
    exact (scanSlots_scanned (l := { x.2 with now := t }) (h3 ▸ hh)
      ⟨h2.baseIdx,h2.baseTime.trans ht,h2.timeoutIdx,h2.bits,h2.outside⟩ x.1 (t - x.2.baseTime)).2 le_rfl
  intro es
  induction es with
  | nil => exact fun l s hc hmax _ => ⟨rfl,hc,hmax⟩
  | cons e es ih =>
    intro l s hc hmax hp
    subst hmax
    have he : Orderly l.maxFd l.now [e] := by
      cases e with
      | call o => exact ⟨hp.1,trivial⟩
      | once t => exact ⟨hp.1,trivial⟩
    obtain ⟨h1,h2,h3,h4⟩ := step_view hh hc s he
    obtain ⟨h5,h6,h7⟩ := ih (step hd (s,l) e).2 (step hd (s,l) e).1 h2 h3 (h4 es hp)
    rw [List.foldl_cons,h1,List.foldl_cons]
    exact ⟨h5,h6,h7⟩

end PicoevLoop

end Runs

/-- A handler that notes the descriptor, and sets the timeout of one of them again. -/
def rearming : TimeoutHandler (List ℕ) ℕ :=
  fun log _ k => (log ++ [k],if k = 5 then [.setTimeout 5 2] else [])

def rearmingRun : List (PicoevEvent ℕ) :=
  [.call (.add 5 {} 2 0),.call (.add 17 {} 1 0),.once 102,.call (.del 17),.once 106,.once 109]

theorem run_view_rearming :
    (rearmingRun.foldl (PicoevLoop.step rearming) ([],.init 20 100)).1 = [17,5,5] := by
  have hh : PicoevLoop.InRange rearming 20 := by
    intro s fds k o ho
    by_cases hk : k = 5
    · obtain rfl : o = .setTimeout 5 2 := by simpa [rearming,hk] using ho
      exact (by decide : 5 < 20)
    · simp [rearming,hk] at ho
  have hes : Orderly 20 100 rearmingRun :=
    ⟨trivial,trivial,by decide,(by decide : 17 < 20),by decide,by decide,trivial⟩
  obtain ⟨h,-⟩ := PicoevLoop.run_view hh [] 100 hes rfl
  rw [← congrArg Prod.fst h]
  decide +kernel

end Meinheld
