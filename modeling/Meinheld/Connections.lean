import Meinheld.Bytes
import Meinheld.Picoev
import Meinheld.Transition

/-! The connections of the greenlet build, from `accept_callback` to `close`: who serves a connection,
what its requests and responses are, and what wakes a greenlet that waits. What a read brings and
what an application does is left open. -/
namespace Meinheld

/-- What a registration calls: `read_callback` for a connection, or one of the callbacks that go on
with a greenlet. -/
inductive Watch
  | read (c : ℕ)
  | wake (g : ℕ)
  deriving DecidableEq, Repr

/-- Who runs: the run loop with what it calls, `check_status_code` and `prepare_call_wsgi` for the
head of a queue, `close_client` after the response, or Python code in a greenlet. -/
inductive Activity
  | hub
  | dispatch (c : ℕ)
  | closing (c : ℕ) (keepAlive : Bool)
  | greenlet (g : ℕ)
  deriving DecidableEq, Repr

inductive Liveness
  | running | waiting | dead
  deriving DecidableEq, Repr

/-- A greenlet of `call_wsgi_handler`, with its connection and request, or one of `spawn`. A new
greenlet of `call_wsgi_handler` outlives the greenlet it was made in, which has nothing left to do:
it counts as one of the run loop. `suspended` is that of the `ClientObject`. -/
structure Worker where
  serves : Option (ℕ × ℕ) := none
  state : Liveness := .dead
  suspended : Bool := false
  parent : Option ℕ := none
  deriving Repr

/-- What the peer and the applications see of the requests, which are numbered as they come in. -/
inductive LogEntry
  | started (i : ℕ)
  | wrote (i : ℕ) (data : Bytes)
  | ended (i : ℕ)
  deriving DecidableEq, Repr

/-- An accepted socket with the `client_t` that serves it. `received` counts the requests. -/
structure Connection where
  fd : ℕ := 0
  isOpen : Bool := false
  queue : List ℕ := []
  received : ℕ := 0
  log : List LogEntry := []
  deriving Repr

structure Connections where
  picoev : Picoev Watch
  keepAliveTimeout : ℕ
  accepted : ℕ := 0
  conn : ℕ → Connection := fun _ => {}
  created : ℕ := 0
  worker : ℕ → Worker := fun _ => {}
  timers : List ℕ := []
  activity : Activity := .hub

namespace Connections

def setConn (s : Connections) (c : ℕ) (t : Connection) : Connections :=
  { s with conn := Function.update s.conn c t }

def setWorker (s : Connections) (g : ℕ) (t : Worker) : Connections :=
  { s with worker := Function.update s.worker g t }

/-- A `picoev_add` after `picoev_is_active`; `none` reads behind the end of `picoev.fds`. -/
def watch (s : Connections) (fd : ℕ) (events : Events) (secs : ℕ) (w : Watch) : Option Connections :=
  (s.picoev.add fd events secs w).map fun l => { s with picoev := l }

/-- `picoev_del` after `picoev_is_active`. -/
def unwatch (s : Connections) (fd : ℕ) : Option Connections :=
  if fd < s.picoev.maxFd then
    some (if s.picoev.isActive fd then { s with picoev := s.picoev.del fd } else s)
  else none

/-- What `read_request` comes to, after `n` more messages have begun: 0, 1, or -1 with an error page
or without. -/
inductive Reading
  | pending (n : ℕ)
  | finished (n : ℕ)
  | failed (page : Option Bytes)
  deriving DecidableEq, Repr

/-- `message_begin_cb` for `n` messages. -/
def receive (s : Connections) (c n : ℕ) : Connections :=
  let t := s.conn c
  s.setConn c { t with queue := t.queue ++ List.range' t.received n, received := t.received + n }

/-- `send_error_page` and the end of the response to the next request. -/
def sendPage (s : Connections) (c : ℕ) (page : Bytes) : Connections :=
  let t := s.conn c
  s.setConn c { t with
    received := t.received + 1
    log := t.log ++ [.wrote t.received page,.ended t.received] }

/-- `read_request`, and where the callback goes on. -/
def readRequest (s : Connections) (c : ℕ) : Reading → Option Connections
  | .pending n => some (s.receive c n)
  | .finished n =>
    if ((s.receive c n).conn c).queue = [] then none
    else some { s.receive c n with activity := .dispatch c }
  | .failed page =>
    if (s.conn c).queue = [] then
      some { (match page with
        | some page => s.sendPage c page
        | none => s) with activity := .closing c false }
    else none

/-- `accept_callback` and `read_callback` after `read_request`. -/
def accepting (s : Connections) (c : ℕ) : Reading → Connections
  | .pending _ => { s with
    picoev := (s.picoev.add (s.conn c).fd ⟨true,false⟩ s.keepAliveTimeout (.read c)).getD s.picoev }
  | _ => s

def reading (s : Connections) (c : ℕ) : Reading → Connections
  | .finished _ => { s with picoev := s.picoev.del (s.conn c).fd }
  | _ => s

/-- The greenlet gives control back. -/
def wait (s : Connections) (k : ℕ) : Connections :=
  { s.setWorker k { s.worker k with state := .waiting } with activity := .hub }

/-- A switch to a greenlet from the run loop. -/
def resume (s : Connections) (g : ℕ) : Connections :=
  if (s.worker g).state = .waiting then
    { s.setWorker g { s.worker g with state := .running } with activity := .greenlet g }
  else s

def setSuspended (s : Connections) (g : ℕ) (b : Bool) : Connections :=
  s.setWorker g { s.worker g with suspended := b }

/-- The greenlet that calls a function of the module, if that is not called in the run loop's. -/
def caller (s : Connections) : Option (Option ℕ) :=
  match s.activity with
  | .hub => some none
  | .greenlet k => some (some k)
  | _ => none

/-- The connection and the request the running greenlet serves. -/
def serving (s : Connections) : Option (ℕ × ℕ × ℕ) :=
  match s.activity with
  | .greenlet k => (s.worker k).serves.map fun (c,i) => (k,c,i)
  | _ => none

/-- The descriptor of a `ClientObject`. The `client_t` of a response that has ended may have come to
be anyone's. -/
def handleFd (s : Connections) (g fd : ℕ) : Bool :=
  match (s.worker g).serves with
  | some (c,_) => (s.worker g).state = .dead || fd = (s.conn c).fd
  | none => false

end Connections

open Connections (Reading)

inductive ConnectionEvent
  /-- `none`: `setup_sock` fails. -/
  | accept (fd : ℕ) (reading : Option Reading)
  | read (fd : ℕ) (reading : Reading)
  /-- The head of the queue gets an error page: a bad request, or `check_http_expect` fails. -/
  | refuse (page : Bytes) (keepAlive : Bool)
  /-- `set_input_file` or `set_input_object` fails. -/
  | inputFailed
  /-- `call_wsgi_handler`, after a `100 Continue` or nothing. -/
  | start (interim : Bytes)
  | closeClient
  | write (data : Bytes)
  /-- The response of the running greenlet has ended, or a greenlet of `spawn` has. -/
  | finish (keepAlive : Bool)
  | suspendClient (g fd timeout : ℕ)
  | resumeClient (g fd : ℕ)
  | cancelWait (fd : ℕ)
  | trampoline (fd : ℕ) (events : Events) (timeout : ℕ)
  /-- `app_handler` waits for room to write. -/
  | waitWrite
  | sleep
  | spawn
  /-- A callback that goes on with a greenlet. Those of `suspendClient` clear `suspended`. -/
  | wakeFd (fd : ℕ) (clear : Bool)
  | wakeTimer (g : ℕ)
  /-- A greenlet of `spawn` has ended or waits, and its parent goes on. -/
  | toParent (k : ℕ)
  deriving DecidableEq, Repr

namespace Connections

/-- `new_client_t` for a socket that was accepted. -/
def opened (s : Connections) (fd : ℕ) : Connections :=
  { s.setConn s.accepted { fd := fd, isOpen := true } with accepted := s.accepted + 1 }

/-- `close_client` from `picoev_is_active` on. -/
def closeClient (s : Connections) (c : ℕ) (keepAlive : Bool) : Option Connections :=
  (s.unwatch (s.conn c).fd).bind fun s =>
    if (s.conn c).queue ≠ [] then some { s with activity := .dispatch c }
    else if keepAlive then
      (s.watch (s.conn c).fd ⟨true,false⟩ s.keepAliveTimeout (.read c)).map fun s =>
        { s with activity := .hub }
    else some { s.setConn c { s.conn c with isOpen := false } with activity := .hub }

/-- The next request is taken from the queue. -/
def shiftRequest (s : Connections) (c : ℕ) (entries : ℕ → List LogEntry) : Option Connections :=
  match (s.conn c).queue with
  | i :: q => some (s.setConn c { s.conn c with queue := q, log := (s.conn c).log ++ entries i })
  | [] => none

/-- `call_wsgi_handler` for request `i`. -/
def callHandler (s : Connections) (c i : ℕ) : Connections :=
  { s.setWorker s.created { serves := some (c,i), state := .running } with
    created := s.created + 1
    activity := .greenlet s.created }

def startHandler (s : Connections) (c : ℕ) (interim : Bytes) : Option Connections :=
  match (s.conn c).queue with
  | i :: _ =>
    (s.shiftRequest c fun i => [.wrote i interim,.started i]).map fun s => s.callHandler c i
  | [] => none

/-- `internal_schedule_call` for a new greenlet. -/
def spawn (s : Connections) (parent : Option ℕ) : Connections :=
  { s.setWorker s.created { state := .waiting, parent := parent } with
    created := s.created + 1
    timers := s.created :: s.timers }

def writeLog (s : Connections) (c : ℕ) (entry : LogEntry) : Connections :=
  s.setConn c { s.conn c with log := (s.conn c).log ++ [entry] }

end Connections

open Connections in
/-- One event; `none` is a step the process cannot take, or one behind the end of `picoev.fds`. A
new socket has a descriptor that no open one has. -/
def connectionStep (s : Connections) : ConnectionEvent → Option Connections
  | .accept fd reading =>
    if s.activity = .hub ∧ ∀ c < s.accepted, (s.conn c).isOpen = true → (s.conn c).fd ≠ fd then
      match reading with
      | none => some (s.opened fd)
      | some r => ((s.opened fd).readRequest s.accepted r).map fun t => t.accepting s.accepted r
    else none
  | .read fd r =>
    match s.activity,s.picoev.watches fd with
    | .hub,some (.read c) => (s.readRequest c r).map fun t => t.reading c r
    | _,_ => none
  | .refuse page keepAlive =>
    match s.activity with
    | .dispatch c => (s.shiftRequest c fun i => [.wrote i page,.ended i]).map fun s =>
        { s with activity := .closing c keepAlive }
    | _ => none
  | .inputFailed =>
    match s.activity with
    | .dispatch c => (s.shiftRequest c fun _ => []).map fun s => { s with activity := .hub }
    | _ => none
  | .start interim =>
    match s.activity with
    | .dispatch c => s.startHandler c interim
    | _ => none
  | .closeClient =>
    match s.activity with
    | .closing c keepAlive => s.closeClient c keepAlive
    | _ => none
  | .write data => s.serving.map fun (_,c,i) => s.writeLog c (.wrote i data)
  | .finish keepAlive =>
    match s.activity with
    | .greenlet k =>
      let t := s.setWorker k { s.worker k with state := .dead }
      match (s.worker k).serves with
      | some (c,i) => some { t.writeLog c (.ended i) with activity := .closing c keepAlive }
      | none => some { t with activity := .hub }
    | _ => none
  | .suspendClient g fd timeout =>
    if s.handleFd g fd = true ∧ (s.worker g).suspended = false then
      s.caller.bind fun k =>
        ((s.setSuspended g true).watch fd {} (if timeout > 0 then timeout else 3) (.wake g)).map
          fun s => k.elim s s.wait
    else none
  | .resumeClient g fd =>
    if s.handleFd g fd = true ∧ (s.worker g).suspended = true then
      s.caller.bind fun _ => (s.setSuspended g false).watch fd ⟨false,true⟩ 0 (.wake g)
    else none
  | .cancelWait fd => s.caller.bind fun _ => s.unwatch fd
  | .trampoline fd events timeout =>
    if events = {} ∧ timeout = 0 then none
    else s.caller.join.bind fun k => (s.watch fd events timeout (.wake k)).map fun s => s.wait k
  | .waitWrite => s.serving.bind fun (k,c,_) =>
      (s.watch (s.conn c).fd ⟨false,true⟩ 300 (.wake k)).map fun s => s.wait k
  | .sleep => s.caller.join.map fun k => { s.wait k with timers := k :: s.timers }
  | .spawn => s.caller.map fun k => s.spawn k
  | .wakeFd fd clear =>
    match s.activity,s.picoev.watches fd with
    | .hub,some (.wake g) =>
      let t := { s with picoev := s.picoev.del fd }
      some ((if clear then t.setSuspended g false else t).resume g)
    | _,_ => none
  | .wakeTimer g =>
    if s.activity = .hub ∧ g ∈ s.timers then some ({ s with timers := s.timers.erase g }.resume g)
    else none
  | .toParent k =>
    if s.activity = .hub ∧ k < s.created ∧ (s.worker k).state ≠ .running then
      (s.worker k).parent.map fun g => s.resume g
    else none

/-- The server after `init_main_loop`. -/
def Connections.start (maxFd keepAliveTimeout now : ℕ) : Connections where
  picoev := .init maxFd now
  keepAliveTimeout := keepAliveTimeout

/-! What the operations leave. -/

namespace Connections

/-- The connection `check_status_code` or `close_client` is at. -/
def attended (s : Connections) : Option ℕ :=
  match s.activity with
  | .dispatch c | .closing c _ => some c
  | _ => none

/-- A greenlet that is alive serves a request of a connection. -/
structure Serves (s : Connections) (g c i : ℕ) : Prop where
  alive : (s.worker g).state ≠ .dead
  serves : (s.worker g).serves = some (c,i)

/-- Only what picoev watches differs, and that at one descriptor. -/
structure Rewatched (s s' : Connections) (fd : ℕ) (w : Option Watch) : Prop where
  lt : fd < s.picoev.maxFd
  maxFd : s'.picoev.maxFd = s.picoev.maxFd
  watches : s'.picoev.watches = Function.update s.picoev.watches fd w
  rest : s' = { s with picoev := s'.picoev }

theorem watch_eq_some {s s' : Connections} {fd secs : ℕ} {events : Events} {w : Watch}
    (h : s.watch fd events secs w = some s') : Rewatched s s' fd (some w) := by
  obtain ⟨l,hadd,rfl⟩ := Option.map_eq_some_iff.mp h
  exact ⟨(Picoev.add_eq_some hadd).1,Picoev.add_maxFd hadd,Picoev.add_watches hadd,rfl⟩

theorem unwatch_eq_some {s s' : Connections} {fd : ℕ} (h : s.unwatch fd = some s') :
    Rewatched s s' fd none := by
  simp only [unwatch,Option.ite_none_right_eq_some,Option.some.injEq] at h
  obtain ⟨hlt,rfl⟩ := h
  split
  next => exact ⟨hlt,Picoev.del_maxFd _ _,Picoev.del_watches _ _,rfl⟩
  next hactive =>
    have hnone : s.picoev.watches fd = none := by
      simp only [Picoev.isActive] at hactive
      simp [Picoev.watches,hactive]
    exact ⟨hlt,rfl,by rw [← hnone,Function.update_eq_self],rfl⟩

/-- Where `read_request` leads to. -/
def Reading.next (c : ℕ) (a : Activity) : Reading → Activity
  | .pending _ => a
  | .finished _ => .dispatch c
  | .failed _ => .closing c false

/-- `read_request` changes the connection and what runs. -/
theorem readRequest_eq_some {s t : Connections} {c : ℕ} {r : Reading}
    (h : s.readRequest c r = some t) : ∃ u : Connection,
      t = { s.setConn c u with activity := r.next c s.activity } ∧
      u.fd = (s.conn c).fd ∧ u.isOpen = (s.conn c).isOpen := by
  cases r with
  | pending n =>
    obtain rfl := Option.some.inj h
    exact ⟨_,rfl,rfl,rfl⟩
  | finished n =>
    simp only [readRequest,Option.ite_none_left_eq_some,Option.some.injEq] at h
    obtain ⟨-,rfl⟩ := h
    exact ⟨_,rfl,rfl,rfl⟩
  | failed page =>
    simp only [readRequest,Option.ite_none_right_eq_some,Option.some.injEq] at h
    obtain ⟨-,rfl⟩ := h
    cases page with
    | none => exact ⟨s.conn c,by simp [setConn,Reading.next],rfl,rfl⟩
    | some page => exact ⟨_,rfl,rfl,rfl⟩

theorem shiftRequest_eq_some {s t : Connections} {c : ℕ} {entries : ℕ → List LogEntry}
    (h : s.shiftRequest c entries = some t) : ∃ i q, (s.conn c).queue = i :: q ∧
      t = s.setConn c { s.conn c with queue := q, log := (s.conn c).log ++ entries i } := by
  unfold shiftRequest at h
  split at h
  next i q hq => exact ⟨i,q,hq,(Option.some.inj h).symm⟩
  next => simp at h

theorem startHandler_eq_some {s t : Connections} {c : ℕ} {interim : Bytes}
    (h : s.startHandler c interim = some t) : ∃ i q, (s.conn c).queue = i :: q ∧
      t = (s.setConn c { s.conn c with
        queue := q
        log := (s.conn c).log ++ [.wrote i interim,.started i] }).callHandler c i := by
  unfold startHandler at h
  split at h
  next i q hq =>
    obtain ⟨t',ht',rfl⟩ := Option.map_eq_some_iff.mp h
    obtain ⟨i',q',hq',rfl⟩ := shiftRequest_eq_some ht'
    rw [hq] at hq'
    obtain ⟨rfl,rfl⟩ := List.cons.inj hq'
    exact ⟨i,q,hq,rfl⟩
  next => simp at h

theorem caller_eq_some {s : Connections} {k : Option ℕ} (h : s.caller = some k) :
    s.activity = k.elim .hub .greenlet := by
  unfold caller at h
  split at h
  next hact =>
    obtain rfl := Option.some.inj h
    exact hact
  next hact =>
    obtain rfl := Option.some.inj h
    exact hact
  next => simp at h

theorem caller_join_eq_some {s : Connections} {k : ℕ} (h : s.caller.join = some k) :
    s.activity = .greenlet k :=
  caller_eq_some (Option.join_eq_some_iff.mp h)

theorem serving_eq_some {s : Connections} {k c i : ℕ} (h : s.serving = some (k,c,i)) :
    s.activity = .greenlet k ∧ (s.worker k).serves = some (c,i) := by
  unfold serving at h
  split at h
  next hact =>
    obtain ⟨⟨c',i'⟩,hs,heq⟩ := Option.map_eq_some_iff.mp h
    obtain ⟨rfl,rfl,rfl⟩ := heq
    exact ⟨hact,hs⟩
  next => simp at h

end Connections

end Meinheld
