import Meinheld.Server
import Meinheld.Transition

/-! The hub and the application greenlets: which `client_t` the one global `start_response` object
points to while applications run, wait and are woken. -/
namespace Meinheld

/-- The address of a `client_t`. -/
abbrev ClientPtr := ℕ
/-- An application greenlet, numbered in the order of creation; its `ClientObject` goes by the
same number. -/
abbrev GreenletId := ℕ

/-- What a waiting greenlet waits for: `_resume_client`, an event registered by `trampoline` with
the `ClientObject` or with the greenlet itself, a timer, or room to write its response. -/
inductive Wait
  | suspend | trampoline | trampolineGreenlet | sleep | write
  deriving DecidableEq, Repr

inductive GreenletState
  | running
  | waiting (w : Wait)
  | dead
  deriving DecidableEq, Repr

/-- `ClientObject`: `pyclient->client` with the state of `pyclient->greenlet`. -/
structure Pyclient where
  client : ClientPtr
  state : GreenletState
  deriving DecidableEq, Repr

/-- The process between two events, or with one application greenlet running. `cli` is
`start_response->cli`; `restore` is the `old_client` of the `resume_wsgi_handler` call under which
the greenlet runs. -/
structure Hub where
  cli : Option ClientPtr := none
  currentClient : Option GreenletId := none
  clients : ClientPtr → Option Client := fun _ => none
  greenlets : List Pyclient := []
  running : Option GreenletId := none
  restore : Option (Option ClientPtr) := none

def Hub.setClient (h : Hub) (p : ClientPtr) (c : Option Client) : Hub :=
  { h with clients := Function.update h.clients p c }
def Hub.setGreenlet (h : Hub) (g : GreenletId) (py : Pyclient) : Hub :=
  { h with greenlets := h.greenlets.set g py }

/-- The running greenlet, with its `ClientObject`. -/
def Hub.current (h : Hub) : Option (GreenletId × Pyclient) :=
  h.running.bind fun g => (h.greenlets[g]?).map (g,·)

/-- No greenlet that is alive works for the client. -/
def Hub.idle (h : Hub) (p : ClientPtr) : Bool :=
  h.greenlets.all fun py => py.client ≠ p || py.state = .dead

def createStartResponse (h : Hub) (p : ClientPtr) : Hub := { h with cli := some p }

/-- `call_wsgi_handler`, with the start of `app_handler` in the new greenlet. -/
def callWsgiHandler (h : Hub) (p : ClientPtr) : Hub :=
  let g := h.greenlets.length
  createStartResponse { h with
    currentClient := some g
    running := some g
    greenlets := h.greenlets ++ [⟨p,.running⟩] } p

/-- `set_current_request`, after `refused` requests at the head of the queue were answered with an
error page; `none` when no request is left. -/
def nextRequest (c : Client) (refused : ℕ) : Option Client :=
  match c.queue.drop refused with
  | [] => none
  | req :: queue => some { c with currentReq := some req, requestQueue := queue }

/-- Control is back in the hub: `resume_wsgi_handler` swaps the client back. -/
def backToHub (h : Hub) : Hub :=
  { h with running := none, restore := none, cli := h.restore.getD h.cli }

/-- The running greenlet switches to its parent. -/
def switchToParent (h : Hub) (w : Wait) : Option Hub :=
  h.current.map fun r => backToHub (h.setGreenlet r.1 { r.2 with state := .waiting w })

/-- `meinheld_trampoline`: the event is registered with the `ClientObject` when the caller is the
greenlet of `current_client`, else with the greenlet. -/
def meinheldTrampoline (h : Hub) : Option Hub :=
  switchToParent h (if h.currentClient = h.running then .trampoline else .trampolineGreenlet)

/-- `resume_wsgi_handler`, up to the switch. -/
def resumeWsgiHandler (h : Hub) (g : GreenletId) (py : Pyclient) : Hub :=
  { h with
    cli := some py.client
    restore := some h.cli
    currentClient := some g
    running := some g }.setGreenlet g { py with state := .running }

/-- `resume_greenlet`, and `fire_timer` on a timer that has a greenlet. -/
def greenletSwitch (h : Hub) (g : GreenletId) (py : Pyclient) : Hub :=
  { h with running := some g }.setGreenlet g { py with state := .running }

/-- Whether a wake-up goes through `resume_wsgi_handler`: `trampoline_callback` with a
`ClientObject` does, `trampoline_callback` with a greenlet and `fire_timer` do not. -/
def Wait.rebinds : Wait → Bool
  | .suspend | .trampoline | .write => true
  | .trampolineGreenlet | .sleep => false

/-- The end of `app_handler` in `close_client`: the queue goes on, or the client is freed. -/
def finishClient (h : Hub) (refused : ℕ) : Option Hub := do
  let r ← h.current
  let c ← h.clients r.2.client
  let h := h.setGreenlet r.1 { r.2 with state := .dead }
  match nextRequest (cleanClient c) refused with
  | some c => some (callWsgiHandler (h.setClient r.2.client (some c)) r.2.client)
  | none => some (backToHub (h.setClient r.2.client none))

inductive HubEvent
  /-- A connection has a `client_t` with the requests it has sent. -/
  | connect (p : ClientPtr) (c : Client)
  /-- The hub dispatches the first request of a client that is not refused. -/
  | dispatch (p : ClientPtr) (refused : ℕ)
  /-- The running application calls `start_response`. -/
  | startResponse (a : StartResponseArgs)
  /-- The running `app_handler` works on its own client. -/
  | advance (c : Client)
  /-- The running greenlet waits. -/
  | suspend | trampoline | sleep | write
  /-- The running `app_handler` ends. -/
  | finish (refused : ℕ)
  /-- What a waiting greenlet waits for has come. -/
  | wake (g : GreenletId)

/-- One event; `none` is a step the process cannot take or does not survive. -/
def hubStep (h : Hub) : HubEvent → Option Hub
  | .connect p c =>
    if h.running.isNone ∧ (h.clients p).isNone then some (h.setClient p (some c)) else none
  | .dispatch p refused =>
    if h.running.isNone ∧ h.idle p then
      ((h.clients p).bind fun c => nextRequest c refused).map fun c =>
        callWsgiHandler (h.setClient p (some c)) p
    else none
  | .startResponse a => do
    let _ ← h.current
    let p ← h.cli
    let c ← h.clients p
    match responseObjectCall c a with
    | .raised _ => some h
    | .returned c => some (h.setClient p (some c))
    | .crash => none
  | .advance c => h.current.map fun r => h.setClient r.2.client (some c)
  | .suspend => switchToParent h .suspend
  | .trampoline => meinheldTrampoline h
  | .sleep => switchToParent h .sleep
  | .write => switchToParent h .write
  | .finish refused => finishClient h refused
  | .wake g => do
    let py ← h.greenlets[g]?
    match h.running,py.state with
    | none,.waiting w =>
      some (if w.rebinds then resumeWsgiHandler h g py else greenletSwitch h g py)
    | _,_ => none

/-- While an application greenlet runs, `start_response` points to its client. -/
def Hub.Bound (h : Hub) : Prop := ∀ r, h.current = some r → h.cli = some r.2.client

/-- A greenlet that is woken without `resume_wsgi_handler` finds its own client bound. -/
def WakesBound (h : Hub) : HubEvent → Prop
  | .wake g => ∀ py w, h.greenlets[g]? = some py → py.state = .waiting w → w.rebinds = false →
      h.cli = some py.client
  | _ => True

/-- What a `start_response` call does to the client it is meant for. -/
def startResponseEffect (c : Client) (a : StartResponseArgs) : Client :=
  match responseObjectCall c a with
  | .returned c => c
  | _ => c

/-- A `start_response` call before the head is sent stores into the client of the calling greenlet
and into no other. -/
def StoresInOwnClient (h : Hub) (e : HubEvent) (h' : Hub) : Prop :=
  ∀ a r c, e = .startResponse a → h.current = some r → h.clients r.2.client = some c →
    c.headerDone = false →
    h'.clients = Function.update h.clients r.2.client (some (startResponseEffect c a))

@[simp] theorem backToHub_current (h : Hub) : (backToHub h).current = none := by
  simp [backToHub,Hub.current]

theorem backToHub_bound (h : Hub) : (backToHub h).Bound := by
  simp [Hub.Bound]

@[simp] theorem setClient_current (h : Hub) (p : ClientPtr) (c : Option Client) :
    (h.setClient p c).current = h.current := rfl

theorem setClient_bound {h : Hub} (p : ClientPtr) (c : Option Client) (hb : h.Bound) :
    (h.setClient p c).Bound := hb

theorem callWsgiHandler_bound (h : Hub) (p : ClientPtr) : (callWsgiHandler h p).Bound := by
  rintro ⟨g,py⟩ hr
  simp only [callWsgiHandler,createStartResponse,Hub.current,Option.bind_some,
    List.getElem?_concat_length,Option.map_some,Option.some.injEq,Prod.mk.injEq] at hr ⊢
  simp [← hr.2]

theorem switchToParent_bound {h h' : Hub} {w : Wait} (hs : switchToParent h w = some h') :
    h'.Bound := by
  obtain ⟨r,-,rfl⟩ := Option.map_eq_some_iff.mp hs
  exact backToHub_bound _

theorem wake_bound {h h' : Hub} {g : GreenletId} (hc : WakesBound h (.wake g))
    (hs : hubStep h (.wake g) = some h') : h'.Bound := by
  simp only [hubStep,Option.bind_eq_bind,Option.bind_eq_some_iff] at hs
  obtain ⟨py,hg,hs⟩ := hs
  have hlt : g < h.greenlets.length := (List.getElem?_eq_some_iff.mp hg).1
  split at hs
  next w _ hw =>
    have hcur : ∀ k : Hub, k.running = some g →
        k.greenlets = h.greenlets.set g { py with state := .running } →
        k.cli = some py.client → k.Bound := by
      rintro k hrun hgr hcli ⟨g',py'⟩ hr
      simp only [Hub.current,hrun,hgr,Option.bind_some,List.getElem?_set_self hlt,
        Option.map_some,Option.some.injEq,Prod.mk.injEq] at hr
      simpa [← hr.2] using hcli
    cases hb : w.rebinds with
    | true =>
      simp only [hb,if_true,Option.some.injEq] at hs
      exact hcur h' (hs ▸ rfl) (hs ▸ rfl) (hs ▸ rfl)
    | false =>
      simp only [hb,Bool.false_eq_true,if_false,Option.some.injEq] at hs
      exact hcur h' (hs ▸ rfl) (hs ▸ rfl) (by rw [← hs]; exact hc py w hg hw hb)
  next => simp at hs

theorem finishClient_bound {h h' : Hub} {refused : ℕ} (hs : finishClient h refused = some h') :
    h'.Bound := by
  simp only [finishClient,Option.bind_eq_bind,Option.bind_eq_some_iff] at hs
  obtain ⟨r,-,c,-,hs⟩ := hs
  split at hs
  · simp only [Option.some.injEq] at hs
    exact hs ▸ callWsgiHandler_bound _ _
  · simp only [Option.some.injEq] at hs
    exact hs ▸ backToHub_bound _

/-- Every event keeps the running greenlet bound, given that no wake-up breaks it. -/
theorem hubStep_bound {h h' : Hub} {e : HubEvent} (hb : h.Bound) (hc : WakesBound h e)
    (hs : hubStep h e = some h') : h'.Bound := by
  cases e with
  | connect p c =>
    simp only [hubStep,Option.ite_none_right_eq_some,Option.some.injEq] at hs
    exact hs.2 ▸ setClient_bound p _ hb
  | dispatch p refused =>
    simp only [hubStep,Option.ite_none_right_eq_some,Option.map_eq_some_iff] at hs
    obtain ⟨-,c,-,rfl⟩ := hs
    exact callWsgiHandler_bound _ _
  | startResponse a =>
    simp only [hubStep,Option.bind_eq_bind,Option.bind_eq_some_iff] at hs
    obtain ⟨r,-,p,-,c,-,hs⟩ := hs
    split at hs
    · simp only [Option.some.injEq] at hs
      exact hs ▸ hb
    · simp only [Option.some.injEq] at hs
      exact hs ▸ setClient_bound p _ hb
    · simp at hs
  | advance c =>
    simp only [hubStep,Option.map_eq_some_iff] at hs
    obtain ⟨r,-,rfl⟩ := hs
    exact setClient_bound _ _ hb
  | suspend => exact switchToParent_bound hs
  | trampoline => exact switchToParent_bound hs
  | sleep => exact switchToParent_bound hs
  | write => exact switchToParent_bound hs
  | finish refused => exact finishClient_bound hs
  | wake g => exact wake_bound hc hs

theorem storesInOwnClient_of_bound {h h' : Hub} {e : HubEvent} (hb : h.Bound)
    (hs : hubStep h e = some h') : StoresInOwnClient h e h' := by
  rintro a r c rfl hr hc -
  have hcli := hb r hr
  simp only [hubStep,hr,hcli,hc,Option.bind_eq_bind,Option.bind_some] at hs
  split at hs
  next hcall =>
    simp only [Option.some.injEq] at hs
    simp [← hs,startResponseEffect,hcall,← hc]
  next c' hcall =>
    simp only [Option.some.injEq] at hs
    simp [← hs,startResponseEffect,hcall,Hub.setClient]
  next => simp at hs

/-- Isolation of `start_response` in every run in which timers and greenlet events only wake a
greenlet whose client is bound. -/
theorem startResponse_isolated {es : List HubEvent} {e : HubEvent} {h h' : Hub}
    (hC : Transition.Meets hubStep WakesBound {} (es ++ [e]))
    (hrun : Transition.run hubStep {} es = some h) (hs : hubStep h e = some h') :
    StoresInOwnClient h e h' := by
  have h0 : Hub.Bound {} := fun r hr => by simp [Hub.current] at hr
  exact Transition.last_step (P := StoresInOwnClient)
    (fun _ _ _ hb hc hs => hubStep_bound hb hc hs) (fun _ _ _ hb _ hs => storesInOwnClient_of_bound hb hs) h0 hC hrun hs

/-- A client that has sent one request. -/
def waitingClient : Client := { requestQueue := [{ pyclient := true }] }

def okArgs : StartResponseArgs where
  status := .str ("200 OK".toList.map Char.toNat)
  headers := some []

/-- Two requests: the first is suspended, the second is dispatched and sleeps; the first is resumed,
calls `start_response` and is suspended again. -/
def twoRequests : List HubEvent :=
  [.connect 1 waitingClient,.connect 2 waitingClient,.dispatch 1 0,.suspend,.dispatch 2 0,.sleep,.wake 0,
    .startResponse okArgs,.suspend,.wake 1]

/-- The `start_response` of the second request, woken by its timer, is its own. -/
theorem startResponse_isolated_two : ∃ h h', Transition.run hubStep {} twoRequests = some h ∧
    hubStep h (.startResponse okArgs) = some h' ∧ StoresInOwnClient h (.startResponse okArgs) h' := by
  refine ⟨_,_,rfl,rfl,@startResponse_isolated twoRequests _ _ _ ?_ rfl rfl⟩
  refine .cons trivial rfl (.cons trivial rfl (.cons trivial rfl (.cons trivial rfl (.cons trivial rfl
    (.cons trivial rfl (.cons ?_ rfl (.cons trivial rfl (.cons trivial rfl (.cons ?_ rfl
      (.cons trivial rfl trivial))))))))))
  · rintro py w hg hw hrebinds
    obtain rfl := Option.some.inj hg
    cases hw
    cases hrebinds
  · rintro py w hg - -
    obtain rfl := Option.some.inj hg
    rfl

/-- The first request sleeps, the second is dispatched and waits as well; when its timer wakes the
first, its `start_response` goes to the client of the second. -/
theorem startResponse_not_isolated : ¬ ∀ es e h h', Transition.run hubStep {} es = some h →
    hubStep h e = some h' → StoresInOwnClient h e h' := by
  intro hall
  have hbad := hall [.connect 1 waitingClient,.dispatch 1 0,.sleep,.connect 2 waitingClient,
    .dispatch 2 0,.sleep,.wake 0] (.startResponse okArgs) _ _ rfl rfl okArgs (0,⟨1,.running⟩) _ rfl
    rfl rfl rfl
  have h2 := congrArg (Option.map Client.statusCode) (congrFun hbad 2)
  revert h2
  decide

end Meinheld
