import Mathlib.Data.List.ReduceOption
import Mathlib.Tactic
import Meinheld.Transition

/-! The queue of the requests read on a connection: `push_request` and `shift_request` over the
linked requests themselves. -/
namespace Meinheld

variable {ρ : Type*}

/-! ### Linked lists -/

/-- Following `next` from `a` gives the nodes `l` and then null. -/
def Linked (next : ρ → Option ρ) : Option ρ → List ρ → Prop
  | a, [] => a = none
  | a, r :: l => a = some r ∧ Linked next (next r) l

@[simp] theorem linked_nil (next : ρ → Option ρ) (a : Option ρ) : Linked next a [] ↔ a = none :=
  Iff.rfl

@[simp] theorem linked_cons (next : ρ → Option ρ) (a : Option ρ) (r : ρ) (l : List ρ) :
    Linked next a (r :: l) ↔ a = some r ∧ Linked next (next r) l := Iff.rfl

/-- Only what the nodes of a list point at matters. -/
theorem Linked.congr {next next' : ρ → Option ρ} {a : Option ρ} {l : List ρ}
    (h : Linked next a l) (heq : ∀ r ∈ l, next' r = next r) : Linked next' a l := by
  induction l generalizing a with
  | nil => exact h
  | cons r l ih =>
    refine ⟨h.1,?_⟩
    rw [heq r (by simp)]
    exact ih h.2 fun s hs => heq s (by simp [hs])

/-- The last node is made to point at a new one. -/
theorem Linked.snoc [DecidableEq ρ] {next : ρ → Option ρ} {a : Option ρ} {l : List ρ} {t r : ρ}
    (h : Linked next a l) (ht : l.getLast? = some t) (hl : l.Nodup) (hr : r ∉ l)
    (hnull : next r = none) : Linked (Function.update next t (some r)) a (l ++ [r]) := by
  induction l generalizing a with
  | nil => simp at ht
  | cons s l ih =>
    obtain ⟨hs,hl⟩ := List.nodup_cons.mp hl
    have hrs : r ≠ s := fun he => hr (by simp [he])
    refine ⟨h.1,?_⟩
    cases l with
    | nil =>
      have hst : s = t := by simpa using ht
      subst hst
      simp [hrs,hnull]
    | cons u l =>
      have ht : (u :: l).getLast? = some t := by simpa using ht
      have hst : s ≠ t := fun he => hs (he ▸ List.mem_of_getLast? ht)
      rw [Function.update_of_ne hst]
      exact ih h.2 ht hl fun hm => hr (List.mem_cons_of_mem _ hm)

/-! ### The queue -/

/-- `request_queue`, and where the `next` pointers of the requests lead. -/
structure RequestQueue (ρ : Type*) where
  size : ℤ := 0
  head : Option ρ := none
  tail : Option ρ := none
  next : ρ → Option ρ

namespace RequestQueue

def newRequestQueue (next : ρ → Option ρ) : RequestQueue ρ := { next := next }

/-- `new_request` gives out a request that is all zero. -/
def newRequest [DecidableEq ρ] (q : RequestQueue ρ) (r : ρ) : RequestQueue ρ :=
  { q with next := Function.update q.next r none }

def pushRequest [DecidableEq ρ] (q : RequestQueue ρ) (req : ρ) : RequestQueue ρ :=
  let q := match q.tail with
    | some t => { q with next := Function.update q.next t (some req) }
    | none => { q with head := some req }
  { q with tail := some req,size := Int.bmod (q.size + 1) (2 ^ 32) }

def shiftRequest (q : RequestQueue ρ) : Option ρ × RequestQueue ρ :=
  match q.head with
  | none => (none,q)
  | some req => (some req,{ q with head := q.next req,size := Int.bmod (q.size - 1) (2 ^ 32) })

/-- The queue holds the requests `l`: they are the ones reachable from `head`, `size` counts them
and `tail` is the last of them. -/
structure Holds (q : RequestQueue ρ) (l : List ρ) : Prop where
  linked : Linked q.next q.head l
  nodup : l.Nodup
  size : q.size = l.length
  tail : q.tail = l.getLast?

variable {q : RequestQueue ρ} {l : List ρ} {r : ρ}

theorem holds_newRequestQueue (next : ρ → Option ρ) : (newRequestQueue next).Holds [] :=
  ⟨rfl,List.nodup_nil,rfl,rfl⟩

theorem shiftRequest_nil (h : q.Holds []) : q.shiftRequest = (none,q) := by
  have hhead : q.head = none := h.linked
  simp [shiftRequest,hhead]

theorem Holds.shiftRequest_fst (h : q.Holds l) : q.shiftRequest.1 = l.head? := by
  cases l with
  | nil => simp [shiftRequest_nil h]
  | cons r l => simp [shiftRequest,h.linked.1]

/-- Taking the first request leaves the others, unless there are none: `tail` still leads to the
request that has been taken. -/
theorem Holds.shiftRequest_iff (h : q.Holds (r :: l)) (hsize : q.size < 2 ^ 31) :
    q.shiftRequest.2.Holds l ↔ l ≠ [] := by
  have hhead : q.head = some r := h.linked.1
  have htail : q.shiftRequest.2.tail = (r :: l).getLast? := by
    simp [shiftRequest,hhead,h.tail]
  constructor
  · intro hs hl
    have := hs.tail
    simp [htail,hl] at this
  · intro hl
    have hcount : q.size = l.length + 1 := by simpa using h.size
    have hbmod : Int.bmod (q.size - 1) (2 ^ 32) = q.size - 1 :=
      Int.bmod_eq_of_le (by omega) (by omega)
    refine ⟨?_,(List.nodup_cons.mp h.nodup).2,?_,?_⟩
    · simpa [shiftRequest,hhead] using h.linked.2
    · rw [hcount,add_sub_cancel_right] at hbmod
      simpa [shiftRequest,hhead,hcount] using hbmod
    · rw [htail]
      obtain ⟨s,l,rfl⟩ := List.exists_cons_of_ne_nil hl
      exact List.getLast?_cons_cons

section Push
variable [DecidableEq ρ]

theorem Holds.newRequest (h : q.Holds l) (hr : r ∉ l) : (q.newRequest r).Holds l := by
  refine ⟨h.linked.congr fun s hs => ?_,h.nodup,h.size,h.tail⟩
  have hne : s ≠ r := fun he => hr (he ▸ hs)
  exact Function.update_of_ne hne _ _

@[simp] theorem pushRequest_size (q : RequestQueue ρ) (r : ρ) :
    (q.pushRequest r).size = Int.bmod (q.size + 1) (2 ^ 32) := by
  unfold pushRequest
  split <;> rfl

@[simp] theorem pushRequest_tail (q : RequestQueue ρ) (r : ρ) : (q.pushRequest r).tail = some r := rfl

/-- A request put at the end, as long as the count fits an `int`. -/
theorem Holds.pushRequest_iff (h : q.Holds l) (hsize : q.size < 2 ^ 31) (hr : r ∉ l)
    (hnull : q.next r = none) : (q.pushRequest r).Holds (l ++ [r]) ↔ l.length ≠ 2 ^ 31 - 1 := by
  have hcount : q.size = l.length := h.size
  constructor
  · intro hpush hlen
    have hlt : Int.bmod (q.size + 1) (2 ^ 32) < (2 ^ 32 + 1) / 2 := Int.bmod_lt (by decide)
    have hs := hpush.size
    rw [pushRequest_size,List.length_append,List.length_singleton] at hs
    omega
  · intro hlen
    have hnodup : (l ++ [r]).Nodup := by
      simpa [List.nodup_append] using ⟨h.nodup,fun s hs he => hr (he ▸ hs)⟩
    have hs : (q.pushRequest r).size = (l ++ [r]).length := by
      have hbmod : Int.bmod (q.size + 1) (2 ^ 32) = q.size + 1 :=
        Int.bmod_eq_of_le (by omega) (by omega)
      rw [pushRequest_size,hbmod,hcount]
      simp
    refine ⟨?_,hnodup,hs,by simp⟩
    cases ht : q.tail with
    | none =>
      have hl : l = [] := by simpa [ht] using h.tail.symm
      simp [RequestQueue.pushRequest,ht,hl,hnull]
    | some t =>
      simpa [RequestQueue.pushRequest,ht] using
        h.linked.snoc (by rw [← h.tail,ht]) h.nodup hr hnull

end Push

/-! ### Runs -/

/-- A call of one of the two functions. -/
inductive Op (ρ : Type*) where
  | push (req : ρ)
  | shift

/-- The queue, the requests pushed so far and what the calls of `shift_request` have returned. -/
structure Calls (ρ : Type*) where
  queue : RequestQueue ρ
  pushed : List ρ := []
  answers : List (Option ρ) := []

/-- The requests that have come out. -/
def Calls.returned (s : Calls ρ) : List ρ := s.answers.reduceOption

/-- The requests that have been pushed and have not come out. -/
def Calls.waiting (s : Calls ρ) : List ρ := s.pushed.drop s.returned.length

/-- One call. A request is pushed as `new_request` gave it out, and not while it is queued. -/
def step [DecidableEq ρ] (s : Calls ρ) : Op ρ → Option (Calls ρ)
  | .push req =>
    if req ∈ s.waiting then none
    else some { s with queue := (s.queue.newRequest req).pushRequest req,pushed := s.pushed ++ [req] }
  | .shift => some { s with
      queue := s.queue.shiftRequest.2,answers := s.answers ++ [s.queue.shiftRequest.1] }

def start (next : ρ → Option ρ) : Calls ρ := { queue := newRequestQueue next }

/-- The queue is first in, first out: what has come out is what was pushed first, the queue holds
the rest, and the next `shift_request` returns null exactly when nothing is left. -/
structure Fifo (s : Calls ρ) : Prop where
  order : s.pushed = s.returned ++ s.waiting
  holds : s.queue.Holds s.waiting
  null : s.queue.shiftRequest.1 = none ↔ s.returned = s.pushed

/-- The call neither takes the only request of the queue nor counts beyond an `int`. -/
def Counted (s : Calls ρ) : Op ρ → Prop
  | .push _ => s.waiting.length ≠ 2 ^ 31 - 1
  | .shift => s.waiting.length ≠ 1

theorem fifo_iff {s : Calls ρ} (horder : s.pushed = s.returned ++ l) : Fifo s ↔ s.queue.Holds l := by
  have hwaiting : s.waiting = l := by simp [Calls.waiting,horder]
  constructor
  · intro h
    exact hwaiting ▸ h.holds
  · intro h
    refine ⟨by rw [hwaiting,horder],hwaiting ▸ h,?_⟩
    rw [h.shiftRequest_fst,horder]
    cases l <;> simp

variable [DecidableEq ρ] {s s' : Calls ρ}

theorem step_size {op : Op ρ} (h : s.queue.size < 2 ^ 31) (hstep : step s op = some s') :
    s'.queue.size < 2 ^ 31 := by
  cases op with
  | push r =>
    simp only [step] at hstep
    split at hstep
    · simp at hstep
    · obtain rfl := Option.some.inj hstep
      exact Int.bmod_lt (by decide)
  | shift =>
    obtain rfl := Option.some.inj hstep
    cases hhead : s.queue.head with
    | none => simpa [shiftRequest,hhead] using h
    | some r =>
      simp only [shiftRequest,hhead]
      exact Int.bmod_lt (by decide)

theorem step_fifo_iff {op : Op ρ} (hsize : s.queue.size < 2 ^ 31) (h : Fifo s)
    (hstep : step s op = some s') : Fifo s' ↔ Counted s op := by
  cases op with
  | push r =>
    simp only [step] at hstep
    split at hstep
    · simp at hstep
    next hr =>
      obtain rfl := Option.some.inj hstep
      have horder : s.pushed ++ [r] = s.returned ++ (s.waiting ++ [r]) := by
        rw [← List.append_assoc,← h.order]
      rw [fifo_iff horder]
      exact (h.holds.newRequest hr).pushRequest_iff hsize hr (by simp [newRequest])
  | shift =>
    obtain rfl := Option.some.inj hstep
    have hfst := h.holds.shiftRequest_fst
    cases hw : s.waiting with
    | nil =>
      have hq : s.queue.shiftRequest = (none,s.queue) := shiftRequest_nil (hw ▸ h.holds)
      have horder : s.pushed = (s.answers ++ [none]).reduceOption ++ [] := by
        simpa [hw,List.reduceOption_append,Calls.returned] using h.order
      rw [hq,fifo_iff (l := []) horder]
      simpa [Counted,hw] using hw ▸ h.holds
    | cons r l =>
      rw [hw] at hfst
      have horder : s.pushed = (s.answers ++ [s.queue.shiftRequest.1]).reduceOption ++ l := by
        simpa [hw,hfst,List.reduceOption_append,Calls.returned] using h.order
      rw [fifo_iff horder]
      simpa [Counted,hw] using Holds.shiftRequest_iff (hw ▸ h.holds) hsize

/-- The queue is first in, first out throughout a run exactly when no call of the run takes the
only request of the queue or counts beyond an `int`. -/
theorem request_queue_fifo (next : ρ → Option ρ) (ops : List (Op ρ)) :
    Transition.Always step Fifo (start next) ops ↔ Transition.Meets step Counted (start next) ops :=
  Transition.always_iff_meets (fun _ _ _ => step_size) (fun _ _ _ => step_fifo_iff)
    (by simp [start,newRequestQueue]) ((fifo_iff rfl).mpr (holds_newRequestQueue next)) ops

/-- Once the queue has been emptied, the next request is appended to the one that has gone: it
never comes out, and the queue counts one request while none is reachable. -/
theorem request_queue_not_fifo :
    ¬Transition.Always step Fifo (start fun _ : ℕ => none) [.push 0,.shift,.push 1,.shift] ∧
    ∃ s, Transition.run step (start fun _ : ℕ => none) [.push 0,.shift,.push 1,.shift] = some s ∧
      s.answers = [some 0,none] ∧ s.waiting = [1] ∧ s.queue.size = 1 ∧ s.queue.head = none := by
  refine ⟨fun h => ?_,_,rfl,rfl,rfl,rfl,rfl⟩
  have hfifo := ((h.2 _ rfl).2 _ rfl).1
  exact absurd hfifo.holds.tail (by decide)

end RequestQueue

end Meinheld
