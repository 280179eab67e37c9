import Meinheld.BinaryHeap
import Meinheld.Transition

/-! Calls that are scheduled: `timer.c`, `heapq.c`, and the two queues of `server.c` from which
`fire_pendings` and `fire_timers` fire. What a callback and the rest of the server do meanwhile is
left open. -/
namespace Meinheld

/-- A `TimerObject`: which object it is and its `seconds`; `asked` and `since` say what
`schedule_call` was given for it, and when. `called` changes and is kept apart. -/
structure TimerObject where
  id : ℕ
  seconds : ℕ
  asked : ℕ
  since : ℕ
  deriving DecidableEq, Repr, Inhabited

/-- When the call of a timer is due, in milliseconds. -/
def TimerObject.due (t : TimerObject) : ℕ := t.since + 1000 * t.asked

/-- A `heapq_t` or a `pending_queue_t`: an array, how many of its places are in use, and how many
there are. `freed` is the state of an array that `realloc` has released. -/
structure TimerQueue where
  slots : ℕ → TimerObject := fun _ => default
  size : ℕ := 0
  max : ℕ
  freed : Bool := false

/-- The timers in a queue. -/
def TimerQueue.items (q : TimerQueue) : Multiset TimerObject :=
  if q.freed then 0 else BinaryHeap.items q.slots q.size

/-- Room for one more, as `realloc_pendings` and `heappush` make it: the queue, and whether there is
room. `max` is an `uint32_t`; `realloc` to no bytes frees the array and returns NULL. `alloc` is
whether there is memory. -/
def TimerQueue.room (q : TimerQueue) (alloc : Bool) : TimerQueue × Bool :=
  if q.size < q.max then (q,true)
  else
    let max := q.max * 2 % 2 ^ 32
    if max = 0 then ({ q with freed := true },false)
    else if alloc then ({ q with max },true)
    else (q,false)

def TimerQueue.siftdown (q : TimerQueue) (startpos pos : ℕ) : TimerQueue :=
  { q with slots := BinaryHeap.rise TimerObject.seconds startpos (q.slots pos) q.slots pos }

def TimerQueue.siftup (q : TimerQueue) (pos : ℕ) : TimerQueue :=
  { q with slots := BinaryHeap.sift TimerObject.seconds q.size q.slots pos }

/-- `heappush` once there is room. -/
def TimerQueue.heappush (q : TimerQueue) (val : TimerObject) : TimerQueue :=
  TimerQueue.siftdown { q with slots := Function.update q.slots q.size val, size := q.size + 1 } 0 q.size

/-- `heappop` on a queue that is not empty. -/
def TimerQueue.heappop (q : TimerQueue) : TimerObject × TimerQueue :=
  let size := q.size - 1
  let last := q.slots size
  if 0 < size then
    (q.slots 0,TimerQueue.siftup { q with slots := Function.update q.slots 0 last, size := size } 0)
  else (last,{ q with size := size })

/-- A timer is put at the end of `g_pendings`. -/
def TimerQueue.append (q : TimerQueue) (timer : TimerObject) : TimerQueue :=
  { q with slots := Function.update q.slots q.size timer, size := q.size + 1 }

/-- `*(pendings->q + --pendings->size)`, on a queue that is not empty. -/
def TimerQueue.last (q : TimerQueue) : TimerObject × TimerQueue :=
  (q.slots (q.size - 1),{ q with size := q.size - 1 })

/-- Where the run loop is: elsewhere; in `fire_pendings` or `fire_timers`, which has read `now`, with
a callback going on or not; between the two. -/
inductive FirePhase
  | idle
  | pendings (calling : Bool)
  | between
  | timers (now : ℕ) (calling : Bool)
  deriving DecidableEq, Repr

/-- Python code can run: between the two loops, the error logger. -/
def FirePhase.open : FirePhase → Bool
  | .idle | .between | .pendings true | .timers _ true => true
  | _ => false

/-- The scheduler: the clock and what is cached of it in `current_msec`, both in milliseconds, the
two queues, and the `called` of each timer. The last four fields keep what has happened: the timers
that were scheduled and those that were popped, the callbacks that ran, and the timers that were
cancelled before they were popped. -/
structure Scheduler where
  msec : ℕ
  currentMsec : ℕ := 0
  pendings : TimerQueue := { max := 1024 }
  timers : TimerQueue := { max := 1024 * 4 }
  called : ℕ → Bool := fun _ => false
  activecnt : ℤ := 0
  loopDone : Bool := false
  phase : FirePhase := .idle
  scheduled : List TimerObject := []
  popped : List TimerObject := []
  ran : List ℕ := []
  cancelled : List ℕ := []

/-- A process that has scheduled nothing yet. -/
def Scheduler.start (msec : ℕ) : Scheduler := { msec }

/-- `TimerObject_new`. -/
def Scheduler.newTimer (s : Scheduler) (asked : ℕ) (seconds : ℤ) : TimerObject where
  id := s.scheduled.length
  seconds := if 0 < seconds then s.currentMsec / 1000 + seconds.toNat else 0
  asked := asked
  since := s.msec

/-- `internal_schedule_call` for `schedule_call`, whose `long` becomes an `int`. `none` is the use of
an array that was freed. -/
def Scheduler.internalScheduleCall (s : Scheduler) (asked : ℕ) (alloc : Bool) : Option Scheduler :=
  let seconds := Int.bmod asked (2 ^ 32)
  let timer := s.newTimer asked seconds
  let q := if seconds = 0 then s.pendings else s.timers
  if q.freed then none
  else
    let r := q.room alloc
    if r.2 then
      let s := { s with activecnt := s.activecnt + 1, scheduled := timer :: s.scheduled }
      some (if seconds = 0 then { s with pendings := r.1.append timer }
        else { s with timers := r.1.heappush timer })
    else some (if seconds = 0 then { s with pendings := r.1 } else { s with timers := r.1 })

/-- `schedule_call`, for an integer and a callable: what no `long` holds and what is negative raises
an exception. -/
def Scheduler.scheduleCall (s : Scheduler) (seconds : ℤ) (alloc : Bool) : Option Scheduler :=
  if 0 ≤ seconds ∧ seconds < 2 ^ 63 then s.internalScheduleCall seconds.toNat alloc else some s

/-- `TimerObject_cancel`. -/
def Scheduler.cancel (s : Scheduler) (id : ℕ) : Scheduler := { s with
  called := Function.update s.called id true
  cancelled := if id ∈ s.popped.map TimerObject.id then s.cancelled else id :: s.cancelled }

/-- A timer has been popped and goes to `fire_timer`; the loop goes on in `calling` when its callback is
called and in `looping` when it was cancelled. -/
def Scheduler.fireTimer (s : Scheduler) (timer : TimerObject) (calling looping : FirePhase) : Scheduler :=
  if s.called timer.id then
    { s with popped := timer :: s.popped, activecnt := s.activecnt - 1, phase := looping }
  else { s with
    popped := timer :: s.popped
    called := Function.update s.called timer.id true
    ran := timer.id :: s.ran
    phase := calling }

/-- The condition the two loops share. -/
def Scheduler.goesOn (s : Scheduler) : Bool := s.loopDone && 0 < s.activecnt

inductive TimerEvent
  /-- The time goes on. -/
  | tick (msec : ℕ)
  | cacheTimeUpdate
  /-- The rest of the server, or a callback. -/
  | serve (activecnt : ℤ) (loopDone : Bool)
  | scheduleCall (seconds : ℤ) (alloc : Bool)
  | cancel (id : ℕ)
  | firePendings
  | fireTimers
  /-- One turn of the loop of `fire_pendings` or `fire_timers`, up to its callback, or its end. -/
  | next
  /-- The callback returns, or raises. -/
  | returned (raised : Bool)
  deriving DecidableEq, Repr

/-- One turn of a loop. -/
def Scheduler.next (s : Scheduler) : Option Scheduler :=
  match s.phase with
  | .pendings false =>
    if 0 < s.pendings.size ∧ s.goesOn then
      if s.pendings.freed then none
      else
        let r := s.pendings.last
        some (Scheduler.fireTimer { s with pendings := r.2 } r.1 (.pendings true) (.pendings false))
    else some { s with phase := .between }
  | .timers now false =>
    if 0 < s.timers.size ∧ s.goesOn then
      if s.timers.freed then none
      else if (s.timers.slots 0).seconds ≤ now then
        let r := s.timers.heappop
        some (Scheduler.fireTimer { s with timers := r.2 } r.1 (.timers now true) (.timers now false))
      else some { s with phase := .idle }
    else some { s with phase := .idle }
  | _ => none

/-- One event; `none` is a step the process cannot take, or the use of memory that was freed. -/
def Scheduler.step (s : Scheduler) : TimerEvent → Option Scheduler
  | .tick msec => some { s with msec := s.msec + msec }
  | .cacheTimeUpdate => some { s with currentMsec := s.msec }
  | .serve activecnt loopDone => if s.phase.open then some { s with activecnt, loopDone } else none
  | .scheduleCall seconds alloc => if s.phase.open then s.scheduleCall seconds alloc else none
  | .cancel id => if s.phase.open ∧ id < s.scheduled.length then some (s.cancel id) else none
  | .firePendings => if s.phase = .idle then some { s with phase := .pendings false } else none
  | .fireTimers =>
    if s.phase = .idle ∨ s.phase = .between then
      some { s with phase := .timers (s.currentMsec / 1000) false }
    else none
  | .next => s.next
  | .returned raised =>
    match s.phase with
    | .pendings true => some { s with
        activecnt := s.activecnt - 1
        phase := if raised then .between else .pendings false }
    | .timers now true => some { s with
        activecnt := s.activecnt - 1
        phase := if raised then .idle else .timers now false }
    | _ => none

/-! ### The queues -/

section Queue
variable {q : TimerQueue} {t : TimerObject}

theorem TimerQueue.heappush_eq (q : TimerQueue) (t : TimerObject) : q.heappush t =
    { q with slots := BinaryHeap.push TimerObject.seconds q.slots q.size t, size := q.size + 1 } := by
  simp [TimerQueue.heappush,TimerQueue.siftdown,BinaryHeap.push]

theorem TimerQueue.heappop_eq (q : TimerQueue) : q.heappop =
    ((BinaryHeap.pop TimerObject.seconds q.slots (q.size - 1)).1,
      { q with
        slots := (BinaryHeap.pop TimerObject.seconds q.slots (q.size - 1)).2
        size := q.size - 1 }) := by
  unfold TimerQueue.heappop BinaryHeap.pop
  simp only
  split <;> rfl

theorem TimerQueue.items_heappush (h : q.freed = false) : (q.heappush t).items = t ::ₘ q.items := by
  rw [TimerQueue.heappush_eq]
  simp only [TimerQueue.items,h,Bool.false_eq_true,if_false]
  exact BinaryHeap.items_push

theorem TimerQueue.items_append (h : q.freed = false) : (q.append t).items = t ::ₘ q.items := by
  simp only [TimerQueue.items,TimerQueue.append,h,Bool.false_eq_true,if_false]
  rw [BinaryHeap.items_succ,Function.update_self]
  exact congrArg _ (BinaryHeap.items_congr fun i hi => Function.update_of_ne hi.ne _ _)

theorem TimerQueue.items_heappop (h : q.freed = false) (h0 : 0 < q.size) :
    q.items = q.heappop.1 ::ₘ q.heappop.2.items := by
  obtain ⟨n,hn⟩ : ∃ n, q.size = n + 1 := ⟨q.size - 1,by omega⟩
  rw [TimerQueue.heappop_eq]
  simp only [TimerQueue.items,h,Bool.false_eq_true,if_false,hn,Nat.add_sub_cancel]
  exact BinaryHeap.items_pop

theorem TimerQueue.items_last (h : q.freed = false) (h0 : 0 < q.size) :
    q.items = q.last.1 ::ₘ q.last.2.items := by
  obtain ⟨n,hn⟩ : ∃ n, q.size = n + 1 := ⟨q.size - 1,by omega⟩
  simp only [TimerQueue.items,TimerQueue.last,h,Bool.false_eq_true,if_false,hn,Nat.add_sub_cancel]
  exact BinaryHeap.items_succ

end Queue

end Meinheld
