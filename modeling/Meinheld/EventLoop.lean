import Meinheld.Picoev
import Meinheld.Transition

/-! The run loop of `server.c`: what it does with descriptors, timers and `activecnt`. What a
callback or an application does to the loop is one operation; which operation comes next is left
open. -/
namespace Meinheld

/-- The callbacks the server registers. Their arguments are left out. -/
inductive Callback
  | accept | read | trampoline | timeoutError | timeout | kill
  deriving DecidableEq, Repr

def ACCEPT_TIMEOUT_SECS : ℕ := 1
def READ_TIMEOUT_SECS : ℕ := 30

/-- Where the process is: outside `server.run`, at the top of its loop, in `fire_pendings` and
`fire_timers` (with a call going on or not), in `picoev_poll_once_internal`, in
`picoev_handle_timeout_internal` (in word `j` of a slot, with `v` left of it), or after these. -/
inductive Phase
  | stopped
  | top
  | calls (firing : Bool)
  | events
  | timeouts (j : ℕ) (v : List ℕ)
  | after
  deriving DecidableEq, Repr

/-- The globals the run loop works on. `clock` is the time, `currentSec` what is cached of it in
`current_msec`; `timers` holds when each timer is due. Outside `server.run` there is no loop. -/
structure EventLoop where
  picoev : Picoev Callback
  clock : ℕ
  currentSec : ℕ
  phase : Phase := .stopped
  activecnt : ℤ := 0
  loopDone : Bool := false
  listenSocks : List ℕ := []
  pendings : ℕ := 0
  timers : List ℕ := []

/-- Whether a call of picoev counts in `activecnt`: always, or when the descriptor was not active
before, or never. -/
inductive Counting
  | always | ifInactive | never
  deriving DecidableEq, Repr

/-- A call of picoev as `server.c` makes it. -/
inductive Call
  | add (fd : ℕ) (events : Events) (secs : ℕ) (callback : Callback) (counting : Counting)
  | del (fd : ℕ) (counted : Bool)
  | delIfActive (fd : ℕ)
  | setTimeout (fd secs : ℕ)
  deriving DecidableEq, Repr

def Call.fd : Call → ℕ
  | .add fd .. | .del fd _ | .delIfActive fd | .setTimeout fd _ => fd

/-- What a registration adds to `activecnt`. -/
def Counting.increment (counting : Counting) (active : Bool) : ℤ :=
  match counting with
  | .always => 1
  | .ifInactive => if active then 0 else 1
  | .never => 0

/-- One call; `none` reads or writes behind the end of `picoev.fds`. -/
def EventLoop.call (e : EventLoop) : Call → Option EventLoop
  | .add fd events secs callback counting =>
    match e.picoev.add fd events secs callback with
    | some l => some { e with
        picoev := l
        activecnt := e.activecnt + counting.increment (e.picoev.isActive fd) }
    -- `picoev_is_active` is asked before
    | none => if counting = .ifInactive then none else some e
  | .del fd counted =>
    if fd < e.picoev.maxFd then
      some { e with
        picoev := e.picoev.del fd
        activecnt := if counted then e.activecnt - 1 else e.activecnt }
    else none
  | .delIfActive fd =>
    if fd < e.picoev.maxFd then
      some (if e.picoev.isActive fd then
        { e with picoev := e.picoev.del fd, activecnt := e.activecnt - 1 } else e)
    else none
  | .setTimeout fd secs =>
    if fd < e.picoev.maxFd then some { e with picoev := e.picoev.setTimeout fd secs } else none

/-- The operations of the server on its loop. -/
inductive Operation
  /-- `read_request` in `accept_callback`: the timeout goes to the listening socket. -/
  | acceptRead (listen : ℕ)
  /-- `accept_callback` waits for the rest of a request. -/
  | accepted (fd keepAliveTimeout : ℕ)
  /-- `read_request` in `read_callback`. -/
  | readRequest (fd : ℕ) (keepAlive : Bool)
  /-- `read_callback` has a request. -/
  | readFinished (fd : ℕ)
  /-- `close_client` up to the next request, and its registration of a connection kept alive. -/
  | closeClient (fd : ℕ)
  | keepClient (fd keepAliveTimeout : ℕ)
  | suspendClient (fd timeout : ℕ)
  | resumeClient (fd : ℕ)
  | trampoline (fd : ℕ) (read write : Bool) (timeout : ℕ)
  /-- `app_handler` waits for room to write. -/
  | waitWrite (fd : ℕ)
  | trampolineCallback (fd : ℕ)
  | timeoutErrorCallback (fd : ℕ)
  | timeoutCallback (fd : ℕ) (closed : Bool)
  | cancelWait (fd : ℕ)
  | killServer (timeout : ℕ)
  | killCallback (fd : ℕ) (timeout : Bool)
  /-- `accept_callback` cannot set up a socket. -/
  | setupFailed
  deriving DecidableEq, Repr

/-- The calls `kill_server` makes. -/
def killCalls (timeout : ℕ) : List ℕ → List Call
  | [] => []
  | sock :: socks =>
    .del sock true :: .add sock {} (if timeout > 0 then timeout else 1) .kill .never ::
      socks.map fun s => .del s true

/-- The calls of picoev an operation makes. -/
def Operation.calls (socks : List ℕ) : Operation → List Call
  | .acceptRead listen => [.setTimeout listen READ_TIMEOUT_SECS]
  | .accepted fd keepAliveTimeout => [.add fd ⟨true,false⟩ keepAliveTimeout .read .always]
  | .readRequest fd keepAlive => if keepAlive then [] else [.setTimeout fd READ_TIMEOUT_SECS]
  | .readFinished fd => [.del fd true]
  | .closeClient fd => [.delIfActive fd]
  | .keepClient fd keepAliveTimeout => [.add fd ⟨true,false⟩ keepAliveTimeout .read .always]
  | .suspendClient fd timeout =>
    if timeout > 0 then [.add fd {} timeout .timeoutError .ifInactive]
    else [.add fd {} 3 .timeout .ifInactive]
  | .resumeClient fd => [.add fd ⟨false,true⟩ 0 .trampoline .ifInactive]
  | .trampoline fd read write timeout =>
    -- a wait for nothing but a timeout needs one
    if !read ∧ !write ∧ timeout = 0 then []
    else [.add fd ⟨read,write⟩ timeout .trampoline .ifInactive]
  | .waitWrite fd => [.add fd ⟨false,true⟩ 300 .trampoline .ifInactive]
  | .trampolineCallback fd | .timeoutErrorCallback fd => [.del fd true]
  | .timeoutCallback fd closed =>
    .setTimeout fd 30 :: if closed then [.del fd true] else []
  | .cancelWait fd => [.delIfActive fd]
  | .killServer timeout => killCalls timeout socks
  | .killCallback fd _ => [.del fd false]
  | .setupFailed => []

/-- Whether an operation ends the loop. -/
def Operation.stops : Operation → Bool
  | .killCallback _ timeout => timeout
  | .setupFailed => true
  | _ => false

/-- What an operation does apart from its calls. -/
def EventLoop.finish (e : EventLoop) (o : Operation) : EventLoop :=
  { e with loopDone := e.loopDone && !o.stops }

def EventLoop.operate (e : EventLoop) (o : Operation) : Option EventLoop :=
  (Transition.run EventLoop.call e (o.calls e.listenSocks)).map (·.finish o)

/-- `internal_schedule_call`, also for `sleep` and `spawn`. -/
def EventLoop.schedule (e : EventLoop) (seconds : ℤ) : EventLoop :=
  if seconds = 0 then { e with pendings := e.pendings + 1, activecnt := e.activecnt + 1 }
  else
    let due := if seconds > 0 then e.currentSec + seconds.toNat else 0
    { e with timers := due :: e.timers, activecnt := e.activecnt + 1 }

/-- `server.run` up to `listen_all_sockets`. -/
def EventLoop.started (e : EventLoop) (maxFd : ℕ) (socks : List ℕ) : EventLoop := { e with
  picoev := .init maxFd e.clock
  currentSec := e.clock
  phase := .top
  loopDone := true
  listenSocks := socks }

/-- `listen_all_sockets`. -/
def listenCalls (socks : List ℕ) : List Call :=
  socks.map fun sock => .add sock ⟨true,false⟩ ACCEPT_TIMEOUT_SECS .accept .always

/-- The loop over the slots goes on with the slot at `base_idx`, or ends. -/
def EventLoop.beginSlot (e : EventLoop) : EventLoop :=
  if e.picoev.slotDue then { e with phase := .timeouts 0 (e.picoev.word 0) }
  else { e with phase := .after }

/-- The scan of a slot after its word `j`. -/
def EventLoop.nextWord (e : EventLoop) (j : ℕ) : EventLoop :=
  let l := e.picoev.clearWord j
  if j + 1 < l.words then { e with picoev := l, phase := .timeouts (j + 1) (l.word (j + 1)) }
  else EventLoop.beginSlot { e with picoev := l.nextSlot }

inductive LoopEvent
  | tick
  /-- `server.run` on the sockets that listen, with `max_fd`. -/
  | run (maxFd : ℕ) (socks : List ℕ)
  | iterate
  | firePending
  | fireTimer (due : ℕ)
  /-- `fire_timer` returns. -/
  | fired
  /-- `epoll_wait` returns. -/
  | poll
  /-- The events are handled. -/
  | polled
  /-- A callback is called with `PICOEV_TIMEOUT`. -/
  | timedOut (fd : ℕ)
  | nextWord
  | next
  | exit
  | operate (o : Operation)
  | schedule (seconds : ℤ)
  deriving DecidableEq, Repr

/-- Python code or a callback runs. -/
def Phase.busy : Phase → Bool
  | .stopped | .top => false
  | _ => true

/-- One event; `none` is a step the process cannot take, or one behind the end of an array. -/
def loopStep (e : EventLoop) : LoopEvent → Option EventLoop
  | .tick => some { e with clock := e.clock + 1 }
  | .run maxFd socks =>
    if e.phase = .stopped then
      Transition.run EventLoop.call (e.started maxFd socks) (listenCalls socks)
    else none
  | .iterate =>
    if e.phase = .top ∧ e.loopDone ∧ 0 < e.activecnt then some { e with phase := .calls false } else none
  | .firePending =>
    if e.phase = .calls false ∧ 0 < e.pendings ∧ e.loopDone ∧ 0 < e.activecnt then
      some { e with phase := .calls true, pendings := e.pendings - 1 }
    else none
  | .fireTimer due =>
    if e.phase = .calls false ∧ due ∈ e.timers ∧ (∀ d ∈ e.timers, due ≤ d) ∧ e.loopDone ∧
        0 < e.activecnt ∧ due ≤ e.currentSec then
      some { e with phase := .calls true, timers := e.timers.erase due }
    else none
  | .fired =>
    if e.phase = .calls true then some { e with phase := .calls false, activecnt := e.activecnt - 1 }
    else none
  | .poll =>
    if e.phase = .calls false then some { e with phase := .events, currentSec := e.clock } else none
  | .polled =>
    if e.phase = .events then
      some (EventLoop.beginSlot { e with picoev := { e.picoev with now := e.currentSec } })
    else none
  | .timedOut fd =>
    match e.phase with
    | .timeouts j (k :: v) =>
      if fd = k then some { e with phase := .timeouts j v, picoev := e.picoev.unsetTimeout k } else none
    | _ => none
  | .nextWord =>
    match e.phase with
    | .timeouts j [] => some (e.nextWord j)
    | _ => none
  | .next => if e.phase = .after then some { e with phase := .top } else none
  | .exit =>
    if e.phase = .top ∧ ¬(e.loopDone ∧ 0 < e.activecnt) then
      some { e with phase := .stopped, picoev := .init 0 e.clock, listenSocks := [] }
    else none
  | .operate o => if e.phase.busy then e.operate o else none
  | .schedule seconds => if e.phase = .top then none else some (e.schedule seconds)

/-- A process that has not run the server yet. -/
def EventLoop.start (clock : ℕ) : EventLoop where
  picoev := .init 0 clock
  clock := clock
  currentSec := 0

/-- What a call leaves as it is. -/
structure Framed (e e' : EventLoop) : Prop where
  maxFd : e'.picoev.maxFd = e.picoev.maxFd
  phase : e'.phase = e.phase
  pendings : e'.pendings = e.pendings
  timers : e'.timers = e.timers
  listenSocks : e'.listenSocks = e.listenSocks

theorem call_framed {e e' : EventLoop} {c : Call} (h : e.call c = some e') : Framed e e' := by
  cases c with
  | add fd events secs callback counting =>
    simp only [EventLoop.call] at h
    split at h
    next l hadd =>
      obtain rfl := Option.some.inj h
      exact ⟨Picoev.add_maxFd hadd,rfl,rfl,rfl,rfl⟩
    next =>
      split at h
      · simp at h
      · obtain rfl := Option.some.inj h
        exact ⟨rfl,rfl,rfl,rfl,rfl⟩
  | del fd counted =>
    simp only [EventLoop.call,Option.ite_none_right_eq_some,Option.some.injEq] at h
    obtain ⟨-,rfl⟩ := h
    exact ⟨Picoev.del_maxFd _ _,rfl,rfl,rfl,rfl⟩
  | delIfActive fd =>
    simp only [EventLoop.call,Option.ite_none_right_eq_some,Option.some.injEq] at h
    obtain ⟨-,rfl⟩ := h
    split
    · exact ⟨Picoev.del_maxFd _ _,rfl,rfl,rfl,rfl⟩
    · exact ⟨rfl,rfl,rfl,rfl,rfl⟩
  | setTimeout fd secs =>
    simp only [EventLoop.call,Option.ite_none_right_eq_some,Option.some.injEq] at h
    obtain ⟨-,rfl⟩ := h
    exact ⟨(Picoev.setTimeout_frame _ _ _).1,rfl,rfl,rfl,rfl⟩

theorem Framed.refl (e : EventLoop) : Framed e e := ⟨rfl,rfl,rfl,rfl,rfl⟩

theorem Framed.trans {e e1 e2 : EventLoop} (h : Framed e e1) (h' : Framed e1 e2) : Framed e e2 :=
  ⟨h'.maxFd.trans h.maxFd,h'.phase.trans h.phase,h'.pendings.trans h.pendings,
    h'.timers.trans h.timers,h'.listenSocks.trans h.listenSocks⟩

theorem calls_framed {cs : List Call} {e e' : EventLoop}
    (h : Transition.run EventLoop.call e cs = some e') : Framed e e' := by
  induction cs generalizing e with
  | nil =>
    simp only [Transition.run,Option.some.injEq] at h
    exact h ▸ .refl e
  | cons c cs ih =>
    obtain ⟨e1,hc,hrun⟩ := Transition.run_cons_eq_some.mp h
    exact (call_framed hc).trans (ih hrun)

end Meinheld
