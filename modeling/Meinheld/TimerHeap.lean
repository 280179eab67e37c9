import Meinheld.ScheduledCalls
import Mathlib.Data.List.ReduceOption

/-! The heap of `heapq.c` over sequences of `heappush` and `heappop`. -/
namespace Meinheld

/-! ### The calls -/

def initQueue : TimerQueue := { max := 1024 * 4 }

/-- `heappush`: whether the timer has been put in, and the heap. `alloc` is whether there is memory. -/
def TimerQueue.pushCall (q : TimerQueue) (val : TimerObject) (alloc : Bool) : Bool × TimerQueue :=
  if (q.room alloc).2 then (true,(q.room alloc).1.heappush val) else (false,(q.room alloc).1)

/-- `heappop`, which gives NULL for an empty heap. -/
def TimerQueue.popCall (q : TimerQueue) : Option TimerObject × TimerQueue :=
  if q.size = 0 then (none,q) else (some q.heappop.1,q.heappop.2)

inductive HeapCall
  | push (val : TimerObject) (alloc : Bool)
  | pop
  deriving DecidableEq, Repr

/-- A heap, the timers `heappush` has taken and what `heappop` has returned. -/
structure HeapCalls where
  queue : TimerQueue := initQueue
  pushed : List TimerObject := []
  answers : List (Option TimerObject) := []

/-- One call. There is none on an array that `realloc` has released. -/
def HeapCalls.step (s : HeapCalls) : HeapCall → Option HeapCalls
  | .push val alloc =>
    if s.queue.freed then none
    else some { s with
      queue := (s.queue.pushCall val alloc).2
      pushed := if (s.queue.pushCall val alloc).1 then val :: s.pushed else s.pushed }
  | .pop =>
    if s.queue.freed then none
    else some { s with queue := s.queue.popCall.2,answers := s.answers ++ [s.queue.popCall.1] }

/-- The heap is ordered and holds the timers pushed and not yet popped, and `heappop` would return
NULL exactly if it is empty, else a timer that no other is due before. -/
structure HeapCalls.Ordered (s : HeapCalls) : Prop where
  parents : ∀ i, 0 < i → i < s.queue.size →
    (s.queue.slots ((i - 1) / 2)).seconds ≤ (s.queue.slots i).seconds
  entries : (s.pushed : Multiset TimerObject) = s.queue.items + s.answers.reduceOption
  null : s.queue.popCall.1 = none ↔ s.queue.items = 0
  least : ∀ t, s.queue.popCall.1 = some t →
    t ∈ s.queue.items ∧ ∀ u ∈ s.queue.items, t.seconds ≤ u.seconds

/-- A timer is pushed only while the heap holds fewer than `2^31`. -/
def HeapCalls.HasRoom (s : HeapCalls) : HeapCall → Prop
  | .push _ _ => s.queue.size < 2 ^ 31
  | .pop => True

/-! ### What each call does -/

section Calls
variable {q : TimerQueue} {t : TimerObject} {alloc : Bool}

theorem TimerQueue.card_items (h : q.freed = false) : Multiset.card q.items = q.size := by
  simp [TimerQueue.items,h,BinaryHeap.items]

theorem TimerQueue.Grows.room_full (h : q.Grows) (hfull : ¬q.size < 2 ^ 31) :
    q.room alloc = ({ q with freed := true },false) := by
  obtain ⟨-,⟨k,hk,hmax⟩,hle⟩ := h
  have hpow : 2 ^ k ≤ 2 ^ 31 := Nat.pow_le_pow_right (by decide) hk
  unfold TimerQueue.room
  rw [if_neg (by omega)]
  have hwrap : q.max * 2 % 2 ^ 32 = 0 := by
    rw [show q.max = 2 ^ 31 by omega]
    rfl
  simp only [hwrap,if_true]

theorem TimerQueue.Grows.pushCall (h : q.Grows) (hlt : q.size < 2 ^ 31) :
    (q.pushCall t alloc).2.Grows := by
  obtain ⟨hgrows,-,hsize,hmax,-⟩ := h.room hlt alloc
  unfold TimerQueue.pushCall
  split
  next hr => exact hgrows.heappush (hsize ▸ hmax hr) t
  · exact hgrows

theorem TimerQueue.Grows.popCall (h : q.Grows) : q.popCall.2.Grows := by
  unfold TimerQueue.popCall
  split
  · exact h
  · exact h.heappop

theorem TimerQueue.Grows.items_pushCall (h : q.Grows) (hlt : q.size < 2 ^ 31) :
    (q.pushCall t alloc).2.items = if (q.pushCall t alloc).1 then t ::ₘ q.items else q.items := by
  obtain ⟨hgrows,hslots,hsize,-,-⟩ := h.room hlt alloc
  have hitems := TimerQueue.items_congr (hgrows.alive.trans h.alive.symm) hslots hsize
  cases hr : (q.room alloc).2 with
  | true => simp [TimerQueue.pushCall,hr,TimerQueue.items_heappush hgrows.alive,hitems]
  | false => simp [TimerQueue.pushCall,hr,hitems]

theorem TimerQueue.Grows.isHeap_pushCall (h : q.Grows) (hlt : q.size < 2 ^ 31)
    (hheap : BinaryHeap.IsHeap TimerObject.seconds q.slots q.size) :
    BinaryHeap.IsHeap TimerObject.seconds (q.pushCall t alloc).2.slots (q.pushCall t alloc).2.size := by
  obtain ⟨-,hslots,hsize,-,-⟩ := h.room hlt alloc
  unfold TimerQueue.pushCall
  split
  · rw [TimerQueue.heappush_eq,hslots,hsize]
    exact BinaryHeap.isHeap_push hheap
  · rwa [hslots,hsize]

theorem TimerQueue.items_popCall (h : q.freed = false) :
    q.items = q.popCall.1.elim 0 (fun t => {t}) + q.popCall.2.items := by
  unfold TimerQueue.popCall
  split
  · simp
  next h0 => simpa using TimerQueue.items_heappop h (Nat.pos_of_ne_zero h0)

theorem TimerQueue.isHeap_popCall (hheap : BinaryHeap.IsHeap TimerObject.seconds q.slots q.size) :
    BinaryHeap.IsHeap TimerObject.seconds q.popCall.2.slots q.popCall.2.size := by
  unfold TimerQueue.popCall
  split
  · exact hheap
  next h0 =>
    obtain ⟨n,hn⟩ := Nat.exists_eq_succ_of_ne_zero h0
    rw [TimerQueue.heappop_eq]
    simp only [hn,Nat.succ_sub_one] at hheap ⊢
    exact BinaryHeap.isHeap_pop hheap

/-- What `heappop` returns, on a heap. -/
theorem TimerQueue.popCall_fst (h : q.freed = false)
    (hheap : BinaryHeap.IsHeap TimerObject.seconds q.slots q.size) :
    (q.popCall.1 = none ↔ q.items = 0) ∧
      ∀ t, q.popCall.1 = some t → t ∈ q.items ∧ ∀ u ∈ q.items, t.seconds ≤ u.seconds := by
  have hitems := TimerQueue.items_popCall h
  have hempty : q.items = 0 ↔ q.size = 0 := by
    rw [← Multiset.card_eq_zero,TimerQueue.card_items h]
  constructor
  · rw [hempty]
    unfold TimerQueue.popCall
    split <;> simpa
  · intro t ht
    rw [ht] at hitems
    refine ⟨by simp [hitems],fun u hu => ?_⟩
    unfold TimerQueue.popCall at ht
    split at ht
    · simp at ht
    next h0 =>
      obtain rfl := Option.some.inj ht
      simp only [TimerQueue.items,h,Bool.false_eq_true,if_false] at hu
      rw [TimerQueue.heappop_eq,BinaryHeap.pop_fst]
      exact hheap.root_le_of_mem hu

end Calls

/-! ### Runs -/

/-- The array has a length that `heappush` gave it, as long as there is one. -/
def HeapCalls.Sized (s : HeapCalls) : Prop := s.queue.freed = false → s.queue.Grows

section Runs
variable {s s' : HeapCalls}

theorem HeapCalls.ordered_iff (h : s.queue.freed = false) : s.Ordered ↔
    BinaryHeap.IsHeap TimerObject.seconds s.queue.slots s.queue.size ∧
      (s.pushed : Multiset TimerObject) = s.queue.items + s.answers.reduceOption := by
  constructor
  · intro hs
    exact ⟨hs.parents,hs.entries⟩
  · rintro ⟨hheap,hentries⟩
    obtain ⟨hnull,hleast⟩ := TimerQueue.popCall_fst h hheap
    exact ⟨hheap,hentries,hnull,hleast⟩

theorem HeapCalls.step_push {t : TimerObject} {alloc : Bool} (hs : s.step (.push t alloc) = some s') :
    s.queue.freed = false ∧ s' = { s with
      queue := (s.queue.pushCall t alloc).2
      pushed := if (s.queue.pushCall t alloc).1 then t :: s.pushed else s.pushed } := by
  simp only [HeapCalls.step] at hs
  split at hs
  · simp at hs
  next h => exact ⟨Bool.eq_false_iff.mpr h,(Option.some.inj hs).symm⟩

theorem HeapCalls.step_push_alive (h : s.queue.freed = false) (t : TimerObject) (alloc : Bool) :
    s.step (.push t alloc) = some { s with
      queue := (s.queue.pushCall t alloc).2
      pushed := if (s.queue.pushCall t alloc).1 then t :: s.pushed else s.pushed } := by
  simp [HeapCalls.step,h]

theorem HeapCalls.step_pop (hs : s.step .pop = some s') : s.queue.freed = false ∧
    s' = { s with queue := s.queue.popCall.2,answers := s.answers ++ [s.queue.popCall.1] } := by
  simp only [HeapCalls.step] at hs
  split at hs
  · simp at hs
  next h => exact ⟨Bool.eq_false_iff.mpr h,(Option.some.inj hs).symm⟩

theorem HeapCalls.Sized.pushCall_full {t : TimerObject} {alloc : Bool} (h : s.queue.Grows)
    (hfull : ¬s.queue.size < 2 ^ 31) :
    s.queue.pushCall t alloc = (false,{ s.queue with freed := true }) := by
  simp [TimerQueue.pushCall,h.room_full hfull]

theorem HeapCalls.Sized.step {a : HeapCall} (h : s.Sized) (hs : s.step a = some s') : s'.Sized := by
  cases a with
  | push t alloc =>
    obtain ⟨halive,rfl⟩ := HeapCalls.step_push hs
    intro hfreed
    by_cases hlt : s.queue.size < 2 ^ 31
    · exact (h halive).pushCall hlt
    · simp [HeapCalls.Sized.pushCall_full (h halive) hlt] at hfreed
  | pop =>
    obtain ⟨halive,rfl⟩ := HeapCalls.step_pop hs
    exact fun _ => (h halive).popCall

/-- A call keeps the heap ordered exactly when it has room. -/
theorem HeapCalls.Ordered.step_iff {a : HeapCall} (hsized : s.Sized) (h : s.Ordered)
    (hs : s.step a = some s') : s'.Ordered ↔ s.HasRoom a := by
  cases a with
  | push t alloc =>
    obtain ⟨halive,rfl⟩ := HeapCalls.step_push hs
    have hgrows := hsized halive
    constructor
    · intro hs'
      show s.queue.size < 2 ^ 31
      by_contra hfull
      have hentries := hs'.entries
      rw [HeapCalls.Sized.pushCall_full hgrows hfull] at hentries
      simp only [Bool.false_eq_true,if_false,TimerQueue.items,if_true,zero_add] at hentries
      have hcard := congrArg Multiset.card (hentries.symm.trans h.entries)
      rw [Multiset.card_add,TimerQueue.card_items halive] at hcard
      exact hfull (by omega)
    · intro hlt
      obtain ⟨hheap,hentries⟩ := (HeapCalls.ordered_iff halive).mp h
      refine (HeapCalls.ordered_iff (hgrows.pushCall hlt).alive).mpr
        ⟨hgrows.isHeap_pushCall hlt hheap,?_⟩
      rw [hgrows.items_pushCall hlt]
      split
      · rw [Multiset.cons_add,← hentries,Multiset.cons_coe]
      · exact hentries
  | pop =>
    obtain ⟨halive,rfl⟩ := HeapCalls.step_pop hs
    obtain ⟨hheap,hentries⟩ := (HeapCalls.ordered_iff halive).mp h
    refine iff_of_true ((HeapCalls.ordered_iff (hsized halive).popCall.alive).mpr
      ⟨TimerQueue.isHeap_popCall hheap,?_⟩) trivial
    rw [hentries,TimerQueue.items_popCall halive,List.reduceOption_append,← Multiset.coe_add]
    cases s.queue.popCall.1 with
    | none => simp
    | some t =>
      simp only [Option.elim_some,List.reduceOption_singleton,Option.toList_some,
        Multiset.coe_singleton]
      rw [add_assoc,add_comm,add_assoc]

theorem HeapCalls.sized_init : HeapCalls.Sized {} :=
  fun _ => ⟨rfl,⟨12,by decide,rfl⟩,Nat.zero_le _⟩

theorem HeapCalls.ordered_init : HeapCalls.Ordered {} :=
  (HeapCalls.ordered_iff rfl).mpr ⟨fun i _ hi => absurd hi (Nat.not_lt_zero i),rfl⟩

/-- In every run from `init_queue`, the heap is ordered and complete throughout exactly when each
`heappush` of the run finds fewer than `2^31` timers. -/
theorem heap_ordered_iff (calls : List HeapCall) :
    Transition.Always HeapCalls.step HeapCalls.Ordered {} calls ↔
      Transition.Meets HeapCalls.step HeapCalls.HasRoom {} calls :=
  Transition.always_iff_meets (fun _ _ _ => HeapCalls.Sized.step)
    (fun _ _ _ => HeapCalls.Ordered.step_iff) HeapCalls.sized_init HeapCalls.ordered_init calls

theorem HeapCalls.run_push (t : TimerObject) (n : ℕ) (h : s.queue.Grows)
    (hn : s.queue.size + n ≤ 2 ^ 31) :
    ∃ s', Transition.run HeapCalls.step s (List.replicate n (.push t true)) = some s' ∧
      s'.queue.Grows ∧ s'.queue.size = s.queue.size + n := by
  induction n generalizing s with
  | zero => exact ⟨s,rfl,h,rfl⟩
  | succ n ih =>
    have hlt : s.queue.size < 2 ^ 31 := by omega
    obtain ⟨-,-,hsize,-,hroom⟩ := h.room hlt true
    have hpush : (s.queue.pushCall t true).2.size = s.queue.size + 1 := by
      simp [TimerQueue.pushCall,hroom rfl,TimerQueue.heappush_eq,hsize]
    obtain ⟨s',hrun,hgrows,hsize'⟩ := ih (s := { s with
      queue := (s.queue.pushCall t true).2
      pushed := if (s.queue.pushCall t true).1 then t :: s.pushed else s.pushed })
      (h.pushCall hlt) (by simp only [hpush]; omega)
    refine ⟨s',?_,hgrows,by rw [hsize',hpush]; omega⟩
    rw [List.replicate_succ,Transition.run_cons_eq_some]
    exact ⟨_,HeapCalls.step_push_alive h.alive t true,hrun⟩

/-- With `2^31` timers in the heap, `heappush` gives their array away. -/
theorem heap_not_ordered : ¬Transition.Always HeapCalls.step HeapCalls.Ordered {}
    (List.replicate (2 ^ 31) (.push ⟨0,0,0,0⟩ true) ++ [.push ⟨0,0,0,0⟩ true]) := by
  intro h
  obtain ⟨s,hrun,hgrows,hsize⟩ := HeapCalls.run_push (s := {}) ⟨0,0,0,0⟩ (2 ^ 31)
    (HeapCalls.sized_init rfl) le_rfl
  have hmeets := (Transition.always_iff_meets (fun _ _ _ => HeapCalls.Sized.step)
    (fun _ _ _ => HeapCalls.Ordered.step_iff) HeapCalls.sized_init HeapCalls.ordered_init _).mp h
  have hlast := ((hmeets.append hrun) _ (HeapCalls.step_push_alive hgrows.alive _ _)).1
  have hfull : s.queue.size = 2 ^ 31 := hsize.trans (Nat.zero_add _)
  exact absurd hlast (by simp [HeapCalls.HasRoom,hfull])

end Runs

end Meinheld
