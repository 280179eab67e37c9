import Meinheld.FreeList
import Meinheld.Greenlets
import Meinheld.Picoev

/-! `ClientObject`s that outlive their request, while `client_t`s are recycled: what a call on one
does to the connections. -/
namespace Meinheld

def CLIENT_MAXFREELIST : ℕ := 1024

/-- A `client_t`, with the descriptor that `Client` leaves out. -/
structure ClientT where
  fd : ℕ
  state : Client := {}

/-- The callbacks with their arguments: a `client_t`, or a `ClientObject` by its number. -/
inductive ClientCallback
  | read (p : ClientPtr)
  | trampoline (h : ℕ)
  | timeoutError (h : ℕ)
  | timeout (h : ℕ)
  deriving DecidableEq, Repr

/-- `ClientObject`. The connection it was made for, and whether its request has ended, are not part
of it. -/
structure ClientObject where
  client : ClientPtr := 0
  greenlet : Bool := false
  suspended : Bool := false
  conn : ℕ := 0
  ended : Bool := false
  deriving DecidableEq, Repr

/-- An accepted socket, and the `client_t` that serves it while it is open. -/
structure Sock where
  client : ClientPtr := 0
  isOpen : Bool := false
  deriving DecidableEq, Repr

structure Clients where
  pool : FreeList ClientT
  picoev : Picoev ClientCallback
  accepted : ℕ := 0
  sock : ℕ → Sock := fun _ => {}
  made : ℕ := 0
  handle : ℕ → ClientObject := fun _ => {}

/-- What Python code calls on a `ClientObject`. -/
inductive ClientCall
  | suspend (timeout : ℤ)
  | resume
  | getFd
  | setClosed (closed : ℤ)
  deriving DecidableEq, Repr

inductive CallReply
  | raised | done | fd (n : ℕ)
  deriving DecidableEq, Repr

namespace Clients

def setSock (s : Clients) (d : ℕ) (t : Sock) : Clients := { s with sock := Function.update s.sock d t }

def setHandle (s : Clients) (h : ℕ) (o : ClientObject) : Clients :=
  { s with handle := Function.update s.handle h o }

/-- A `picoev_add` after `picoev_is_active`; `none` reads behind the end of `picoev.fds`. -/
def watch (s : Clients) (fd : ℕ) (events : Events) (secs : ℕ) (callback : ClientCallback) :
    Option Clients :=
  (s.picoev.add fd events secs callback).map fun l => { s with picoev := l }

/-- `meinheld_suspend_client`. -/
def suspendClient (s : Clients) (h : ℕ) (timeout : ℤ) : Option (CallReply × Clients) :=
  let o := s.handle h
  if timeout < 0 ∨ o.greenlet = false ∨ o.suspended = true then some (.raised,s)
  else
    (s.pool.cell o.client).bind fun c =>
      ((s.setHandle h { o with suspended := true }).watch c.fd {}
        (if timeout > 0 then timeout.toNat else 3)
        (if timeout > 0 then .timeoutError h else .timeout h)).map (.done,·)

/-- `meinheld_resume_client`. -/
def resumeClient (s : Clients) (h : ℕ) : Option (CallReply × Clients) :=
  let o := s.handle h
  if o.greenlet = false ∨ o.suspended = false then some (.raised,s)
  else
    (s.pool.cell o.client).bind fun c =>
      ((s.setHandle h { o with suspended := false }).watch c.fd ⟨false,true⟩ 0 (.trampoline h)).map
        (.done,·)

/-- `ClientObject_get_fd`. -/
def getFd (s : Clients) (h : ℕ) : Option (CallReply × Clients) :=
  (s.pool.cell (s.handle h).client).map fun c => (.fd c.fd,s)

/-- `ClientObject_set_closed`; `response_closed` is a byte. -/
def setClosed (s : Clients) (h : ℕ) (closed : ℤ) : Option (CallReply × Clients) :=
  (s.pool.cell (s.handle h).client).map fun c => (.done,{ s with
    pool := s.pool.set (s.handle h).client
      { c with state := { c.state with responseClosed := closed % 256 ≠ 0 } } })

/-- A call; `none` uses memory that was given back to the system. -/
def call (s : Clients) (h : ℕ) : ClientCall → Option (CallReply × Clients)
  | .suspend timeout => s.suspendClient h timeout
  | .resume => s.resumeClient h
  | .getFd => s.getFd h
  | .setClosed closed => s.setClosed h closed

/-- `new_client_t` for a socket. -/
def newClient (s : Clients) (fd fresh remotePort : ℕ) : Option (ClientPtr × Clients) :=
  (s.pool.alloc fresh ⟨fd,newClientT remotePort⟩).map fun (p,l) => (p,{ s with pool := l })

/-- `close_client` with the socket: it goes to a new `client_t`, or is closed. -/
def leaveSock (s : Clients) (d : ℕ) : Option ℕ → Option Clients
  | some fresh => (s.pool.cell (s.sock d).client).bind fun c =>
    (s.newClient c.fd fresh c.state.remotePort).map fun (q,s) => s.setSock d ⟨q,true⟩
  | none => some (s.setSock d ⟨(s.sock d).client,false⟩)

/-- The end of `close_client`: then the old `client_t` is given back. -/
def closeClient (s : Clients) (d : ℕ) (keepAlive : Option ℕ) : Option Clients :=
  (s.leaveSock d keepAlive).map fun (t : Clients) =>
    { t with pool := t.pool.dealloc CLIENT_MAXFREELIST (s.sock d).client }

end Clients

inductive ClientsEvent
  /-- `malloc` returns `fresh` if there is no free `client_t`. -/
  | accept (fd fresh remotePort : ℕ)
  /-- `message_begin_cb`. -/
  | begin (d : ℕ)
  /-- `call_wsgi_handler`. -/
  | start (h : ℕ)
  /-- The response has ended. -/
  | finish (h : ℕ)
  /-- The server works on a `client_t` of its own. -/
  | work (d : ℕ) (state : Client)
  | closeClient (d : ℕ) (keepAlive : Option ℕ)
  | watch (fd : ℕ) (events : Events) (secs : ℕ) (callback : ClientCallback)
  | unwatch (fd : ℕ)
  /-- A callback of `suspendClient` clears `suspended`. -/
  | wake (h : ℕ)
  | call (h : ℕ) (c : ClientCall)

open Clients in
def clientsStep (s : Clients) : ClientsEvent → Option Clients
  | .accept fd fresh remotePort => (s.newClient fd fresh remotePort).map fun (p,s) =>
      { s.setSock s.accepted ⟨p,true⟩ with accepted := s.accepted + 1 }
  | .begin d =>
    if (s.sock d).isOpen then
      some { s.setHandle s.made { client := (s.sock d).client, conn := d } with made := s.made + 1 }
    else none
  | .start h =>
    if h < s.made ∧ (s.handle h).ended = false then
      some (s.setHandle h { s.handle h with greenlet := true })
    else none
  | .finish h => if h < s.made then some (s.setHandle h { s.handle h with ended := true }) else none
  | .work d state =>
    if (s.sock d).isOpen then
      (s.pool.cell (s.sock d).client).map fun c =>
        { s with pool := s.pool.set (s.sock d).client { c with state := state } }
    else none
  | .closeClient d keepAlive =>
    if (s.sock d).isOpen ∧ ∀ h < s.made, (s.handle h).conn = d → (s.handle h).ended = true then
      s.closeClient d keepAlive
    else none
  | .watch fd events secs callback => s.watch fd events secs callback
  | .unwatch fd => if fd < s.picoev.maxFd then some { s with picoev := s.picoev.del fd } else none
  | .wake h => if h < s.made then some (s.setHandle h { s.handle h with suspended := false }) else none
  | .call h c => if h < s.made then (s.call h c).map Prod.snd else none

/-- The server after `setup_server_env`, where `client_t_list_fill` has filled the free list. -/
def Clients.start (maxFd now : ℕ) : Clients where
  pool := .filled CLIENT_MAXFREELIST ⟨0,{}⟩
  picoev := .init maxFd now

/-! The pool in every run. -/

namespace Clients

/-- The `client_t`s in use. -/
def InUse (s : Clients) (p : ClientPtr) : Prop := ∃ d, (s.sock d).isOpen = true ∧ (s.sock d).client = p

structure Pooled (s : Clients) : Prop where
  valid : s.pool.Valid s.InUse
  distinct : ∀ d d', (s.sock d).isOpen = true → (s.sock d').isOpen = true →
    (s.sock d).client = (s.sock d').client → d = d'
  new : ∀ d, (s.sock d).isOpen = true → d < s.accepted

theorem Pooled.congr {s s' : Clients} (h : s.Pooled) (hsock : s'.sock = s.sock)
    (haccepted : s'.accepted = s.accepted) (hpool : s'.pool.Valid s.InUse) : s'.Pooled where
  valid := hpool.congr fun p => by simp only [InUse,hsock]
  distinct := hsock ▸ h.distinct
  new := by rw [hsock,haccepted]; exact h.new

theorem Pooled.set {s : Clients} {p : ClientPtr} {v : ClientT} (h : s.Pooled)
    (hp : s.pool.cell p ≠ none) : Pooled { s with pool := s.pool.set p v } :=
  h.congr rfl rfl (h.valid.set hp)

theorem Pooled.watch {s s' : Clients} {fd secs : ℕ} {events : Events} {callback : ClientCallback}
    (h : s.Pooled) (hs : s.watch fd events secs callback = some s') : s'.Pooled := by
  obtain ⟨l,-,rfl⟩ := Option.map_eq_some_iff.mp hs
  exact h.congr rfl rfl h.valid

theorem Pooled.setHandle {s : Clients} {k : ℕ} {o : ClientObject} (h : s.Pooled) :
    (s.setHandle k o).Pooled :=
  h.congr rfl rfl h.valid

theorem Pooled.call {s s' : Clients} {k : ℕ} {c : ClientCall} {r : CallReply} (h : s.Pooled)
    (hs : s.call k c = some (r,s')) : s'.Pooled := by
  cases c with
  | suspend timeout =>
    simp only [Clients.call,suspendClient] at hs
    split at hs
    · obtain ⟨-,rfl⟩ := Prod.mk.inj (Option.some.inj hs)
      exact h
    · obtain ⟨c,-,hs⟩ := Option.bind_eq_some_iff.mp hs
      obtain ⟨t,ht,heq⟩ := Option.map_eq_some_iff.mp hs
      obtain ⟨-,rfl⟩ := Prod.mk.inj heq
      exact h.setHandle.watch ht
  | resume =>
    simp only [Clients.call,resumeClient] at hs
    split at hs
    · obtain ⟨-,rfl⟩ := Prod.mk.inj (Option.some.inj hs)
      exact h
    · obtain ⟨c,-,hs⟩ := Option.bind_eq_some_iff.mp hs
      obtain ⟨t,ht,heq⟩ := Option.map_eq_some_iff.mp hs
      obtain ⟨-,rfl⟩ := Prod.mk.inj heq
      exact h.setHandle.watch ht
  | getFd =>
    obtain ⟨c,-,heq⟩ := Option.map_eq_some_iff.mp hs
    obtain ⟨-,rfl⟩ := Prod.mk.inj heq
    exact h
  | setClosed closed =>
    obtain ⟨c,hc,heq⟩ := Option.map_eq_some_iff.mp hs
    obtain ⟨-,rfl⟩ := Prod.mk.inj heq
    exact h.set (by simp [hc])

theorem Pooled.newClient {s t : Clients} {fd fresh remotePort : ℕ} {p : ClientPtr} (h : s.Pooled)
    (hs : s.newClient fd fresh remotePort = some (p,t)) :
    ¬s.InUse p ∧ t.pool.Valid (fun q => s.InUse q ∨ q = p) ∧ t.sock = s.sock ∧
      t.accepted = s.accepted := by
  obtain ⟨⟨q,l⟩,ha,heq⟩ := Option.map_eq_some_iff.mp hs
  obtain ⟨rfl,rfl⟩ := Prod.mk.inj heq
  obtain ⟨hnot,hvalid,-⟩ := h.valid.alloc ha
  exact ⟨hnot,hvalid,rfl,rfl⟩

theorem Pooled.accept {s s' : Clients} {fd fresh remotePort : ℕ} (h : s.Pooled)
    (hs : clientsStep s (.accept fd fresh remotePort) = some s') : s'.Pooled := by
  obtain ⟨⟨p,t⟩,ht,rfl⟩ := Option.map_eq_some_iff.mp hs
  obtain ⟨hnot,hvalid,hsock,haccepted⟩ := h.newClient ht
  have hself : (t.setSock t.accepted ⟨p,true⟩).sock s.accepted = ⟨p,true⟩ := by
    simp [setSock,haccepted]
  have hother : ∀ d, d ≠ s.accepted → (t.setSock t.accepted ⟨p,true⟩).sock d = s.sock d :=
    fun d hd => by simp [setSock,haccepted,hsock,hd]
  have hclosed : (s.sock s.accepted).isOpen ≠ true := fun ho => absurd (h.new _ ho) (lt_irrefl _)
  refine ⟨hvalid.congr fun q => ⟨?_,?_⟩,fun d d' hd hd' heq => ?_,fun d hd => ?_⟩
  · rintro ⟨d,hd,rfl⟩
    by_cases hda : d = s.accepted
    · exact .inr (by simp only [hda,hself])
    · simp only [hother d hda] at hd ⊢
      exact .inl ⟨d,hd,rfl⟩
  · rintro (⟨d,hd,rfl⟩ | rfl)
    · have hda : d ≠ s.accepted := fun heq => hclosed (heq ▸ hd)
      exact ⟨d,by simpa only [hother d hda] using hd,by simp only [hother d hda]⟩
    · exact ⟨s.accepted,by simp only [hself],by simp only [hself]⟩
  · by_cases hda : d = s.accepted
    · by_cases hda' : d' = s.accepted
      · exact hda.trans hda'.symm
      · simp only [hda,hself,hother d' hda'] at heq hd'
        exact absurd ⟨d',hd',heq.symm⟩ hnot
    · by_cases hda' : d' = s.accepted
      · simp only [hda',hself,hother d hda] at heq hd
        exact absurd ⟨d,hd,heq⟩ hnot
      · simp only [hother d hda,hother d' hda'] at hd hd' heq
        exact h.distinct d d' hd hd' heq
  · show d < t.accepted + 1
    rw [haccepted]
    by_cases hda : d = s.accepted
    · omega
    · have hd' : (s.sock d).isOpen = true := by simpa only [hother d hda] using hd
      have := h.new d hd'
      omega

theorem Pooled.closeClient {s s' : Clients} {d : ℕ} {keepAlive : Option ℕ} (h : s.Pooled)
    (hd : (s.sock d).isOpen = true) (hs : s.closeClient d keepAlive = some s') : s'.Pooled := by
  have hlive : s.InUse (s.sock d).client := ⟨d,hd,rfl⟩
  obtain ⟨t,ht,rfl⟩ := Option.map_eq_some_iff.mp hs
  cases keepAlive with
  | none =>
    obtain rfl := Option.some.inj ht
    have hother : ∀ k, k ≠ d → (s.setSock d ⟨(s.sock d).client,false⟩).sock k = s.sock k :=
      fun k hk => by simp [setSock,hk]
    have hne : ∀ k, ((s.setSock d ⟨(s.sock d).client,false⟩).sock k).isOpen = true → k ≠ d :=
      fun k hk heq => by simp [setSock,heq] at hk
    refine ⟨(h.valid.dealloc CLIENT_MAXFREELIST hlive).congr fun q => ⟨?_,?_⟩,
      fun k k' hk hk' heq => ?_,fun k hk => ?_⟩
    · rintro ⟨k,hk,rfl⟩
      have hkd := hne k hk
      simp only [hother k hkd] at hk ⊢
      exact ⟨⟨k,hk,rfl⟩,fun heq => hkd (h.distinct k d hk hd heq)⟩
    · rintro ⟨⟨k,hk,rfl⟩,hq⟩
      have hkd : k ≠ d := fun heq => hq (by rw [heq])
      exact ⟨k,by simpa only [hother k hkd] using hk,by simp only [hother k hkd]⟩
    · have hkd := hne k hk
      have hkd' := hne k' hk'
      simp only [hother k hkd,hother k' hkd'] at hk hk' heq
      exact h.distinct k k' hk hk' heq
    · have hkd := hne k hk
      simp only [hother k hkd] at hk
      exact h.new k hk
  | some fresh =>
    obtain ⟨c,-,ht⟩ := Option.bind_eq_some_iff.mp ht
    obtain ⟨⟨q,u⟩,hu,rfl⟩ := Option.map_eq_some_iff.mp ht
    obtain ⟨hnot,hvalid,hsock,haccepted⟩ := h.newClient hu
    have hqp : q ≠ (s.sock d).client := fun heq => hnot (heq ▸ hlive)
    have hself : (u.setSock d ⟨q,true⟩).sock d = ⟨q,true⟩ := by simp [setSock]
    have hother : ∀ k, k ≠ d → (u.setSock d ⟨q,true⟩).sock k = s.sock k :=
      fun k hk => by simp [setSock,hsock,hk]
    refine ⟨(hvalid.dealloc CLIENT_MAXFREELIST (.inl hlive)).congr fun r => ⟨?_,?_⟩,
      fun k k' hk hk' heq => ?_,fun k hk => ?_⟩
    · rintro ⟨k,hk,rfl⟩
      by_cases hkd : k = d
      · simp only [hkd,hself]
        exact ⟨.inr trivial,hqp⟩
      · simp only [hother k hkd] at hk ⊢
        exact ⟨.inl ⟨k,hk,rfl⟩,fun heq => hkd (h.distinct k d hk hd heq)⟩
    · rintro ⟨⟨k,hk,rfl⟩ | rfl,hr⟩
      · have hkd : k ≠ d := fun heq => hr (by rw [heq])
        exact ⟨k,by simpa only [hother k hkd] using hk,by simp only [hother k hkd]⟩
      · exact ⟨d,by simp only [hself],by simp only [hself]⟩
    · by_cases hkd : k = d
      · by_cases hkd' : k' = d
        · exact hkd.trans hkd'.symm
        · simp only [hkd,hself,hother k' hkd'] at heq hk'
          exact absurd ⟨k',hk',heq.symm⟩ hnot
      · by_cases hkd' : k' = d
        · simp only [hkd',hself,hother k hkd] at heq hk
          exact absurd ⟨k,hk,heq⟩ hnot
        · simp only [hother k hkd,hother k' hkd'] at hk hk' heq
          exact h.distinct k k' hk hk' heq
    · show k < u.accepted
      rw [haccepted]
      by_cases hkd : k = d
      · exact hkd ▸ h.new d hd
      · simp only [hother k hkd] at hk
        exact h.new k hk

theorem clientsStep_pooled {s s' : Clients} {e : ClientsEvent} (h : s.Pooled)
    (hs : clientsStep s e = some s') : s'.Pooled := by
  cases e with
  | accept fd fresh remotePort => exact h.accept hs
  | begin d =>
    simp only [clientsStep,Option.ite_none_right_eq_some,Option.some.injEq] at hs
    obtain ⟨-,rfl⟩ := hs
    exact h.congr rfl rfl h.valid
  | start k =>
    simp only [clientsStep,Option.ite_none_right_eq_some,Option.some.injEq] at hs
    obtain ⟨-,rfl⟩ := hs
    exact h.setHandle
  | finish k =>
    simp only [clientsStep,Option.ite_none_right_eq_some,Option.some.injEq] at hs
    obtain ⟨-,rfl⟩ := hs
    exact h.setHandle
  | work d state =>
    simp only [clientsStep,Option.ite_none_right_eq_some] at hs
    obtain ⟨c,hc,rfl⟩ := Option.map_eq_some_iff.mp hs.2
    exact h.set (by simp [hc])
  | closeClient d keepAlive =>
    simp only [clientsStep,Option.ite_none_right_eq_some] at hs
    exact h.closeClient hs.1.1 hs.2
  | watch fd events secs callback => exact h.watch hs
  | unwatch fd =>
    simp only [clientsStep,Option.ite_none_right_eq_some,Option.some.injEq] at hs
    obtain ⟨-,rfl⟩ := hs
    exact h.congr rfl rfl h.valid
  | wake k =>
    simp only [clientsStep,Option.ite_none_right_eq_some,Option.some.injEq] at hs
    obtain ⟨-,rfl⟩ := hs
    exact h.setHandle
  | call k c =>
    simp only [clientsStep,Option.ite_none_right_eq_some] at hs
    obtain ⟨⟨r,t⟩,ht,rfl⟩ := Option.map_eq_some_iff.mp hs.2
    exact h.call ht

theorem pooled_start (maxFd now : ℕ) : (Clients.start maxFd now).Pooled where
  valid := FreeList.valid_filled _ _ fun p ⟨d,hd,_⟩ => by simp [Clients.start] at hd
  distinct d d' hd := by simp [Clients.start] at hd
  new d hd := by simp [Clients.start] at hd

/-! Calls on a handle whose request has ended. -/

/-- Nothing but a `client_t` that is not in use has changed. -/
structure Unchanged (s s' : Clients) : Prop where
  sock : s'.sock = s.sock
  handle : s'.handle = s.handle
  picoev : s'.picoev = s.picoev
  cells : ∀ p, s.InUse p → s'.pool.cell p = s.pool.cell p

/-- The `client_t` of a handle is not that of another connection. -/
def OwnMemory (s : Clients) (h : ℕ) : Prop :=
  ∀ d, (s.sock d).isOpen = true → (s.sock d).client = (s.handle h).client → d = (s.handle h).conn

/-- A call raises and changes nothing, or it has no effect, and no descriptor it returns is read
from another connection. -/
def Harmless (s : Clients) (h : ℕ) (r : CallReply) (s' : Clients) : Prop :=
  r = .raised ∧ s' = s ∨ Unchanged s s' ∧ ∀ n, r = .fd n → s.OwnMemory h

/-- The calls that keep off other connections: `_suspend_client` and `_resume_client` where they
raise, `get_fd` and `set_closed` as long as the `client_t` waits in the free list; and `get_fd` of
the connection's own, and a `set_closed` that sets what is set. -/
def KeepsOff (s : Clients) (h : ℕ) : ClientCall → Prop
  | .suspend timeout => timeout < 0 ∨ (s.handle h).greenlet = false ∨ (s.handle h).suspended = true
  | .resume => (s.handle h).greenlet = false ∨ (s.handle h).suspended = false
  | .getFd => (s.handle h).client ∈ s.pool.free ∨
    (s.sock (s.handle h).conn).isOpen = true ∧
      (s.sock (s.handle h).conn).client = (s.handle h).client
  | .setClosed closed => (s.handle h).client ∈ s.pool.free ∨ ∀ c,
    s.pool.cell (s.handle h).client = some c → c.state.responseClosed = decide (closed % 256 ≠ 0)

theorem setHandle_ne {s : Clients} {h : ℕ} {o : ClientObject}
    (ho : o.suspended ≠ (s.handle h).suspended) : (s.setHandle h o).handle ≠ s.handle :=
  fun heq => ho (by rw [← heq]; simp [setHandle])

theorem suspend_harmless_iff {s s' : Clients} {h : ℕ} {timeout : ℤ} {r : CallReply}
    (hs : s.call h (.suspend timeout) = some (r,s')) :
    s.Harmless h r s' ↔ s.KeepsOff h (.suspend timeout) := by
  simp only [call,suspendClient] at hs
  split at hs
  next hraise =>
    obtain ⟨rfl,rfl⟩ := Prod.mk.inj (Option.some.inj hs)
    exact ⟨fun _ => hraise,fun _ => .inl ⟨rfl,rfl⟩⟩
  next hgo =>
    obtain ⟨c,-,hs⟩ := Option.bind_eq_some_iff.mp hs
    obtain ⟨t,ht,heq⟩ := Option.map_eq_some_iff.mp hs
    obtain ⟨rfl,rfl⟩ := Prod.mk.inj heq
    obtain ⟨l,-,rfl⟩ := Option.map_eq_some_iff.mp ht
    refine ⟨?_,fun hk => absurd hk hgo⟩
    rintro (⟨hr,-⟩ | ⟨hun,-⟩)
    · simp at hr
    · refine absurd hun.handle (setHandle_ne ?_)
      simp only [not_or,Bool.not_eq_true] at hgo
      simp [hgo.2.2]

theorem resume_harmless_iff {s s' : Clients} {h : ℕ} {r : CallReply}
    (hs : s.call h .resume = some (r,s')) : s.Harmless h r s' ↔ s.KeepsOff h .resume := by
  simp only [call,resumeClient] at hs
  split at hs
  next hraise =>
    obtain ⟨rfl,rfl⟩ := Prod.mk.inj (Option.some.inj hs)
    exact ⟨fun _ => hraise,fun _ => .inl ⟨rfl,rfl⟩⟩
  next hgo =>
    obtain ⟨c,-,hs⟩ := Option.bind_eq_some_iff.mp hs
    obtain ⟨t,ht,heq⟩ := Option.map_eq_some_iff.mp hs
    obtain ⟨rfl,rfl⟩ := Prod.mk.inj heq
    obtain ⟨l,-,rfl⟩ := Option.map_eq_some_iff.mp ht
    refine ⟨?_,fun hk => absurd hk hgo⟩
    rintro (⟨hr,-⟩ | ⟨hun,-⟩)
    · simp at hr
    · refine absurd hun.handle (setHandle_ne ?_)
      simp only [not_or,Bool.not_eq_false] at hgo
      simp [hgo.2]

theorem Pooled.free_or_inUse {s : Clients} {p : ClientPtr} {c : ClientT} (h : s.Pooled)
    (hc : s.pool.cell p = some c) : p ∈ s.pool.free ∨ s.InUse p :=
  (h.valid.cells p).mp (by simp [hc])

theorem getFd_harmless_iff {s s' : Clients} {h : ℕ} {r : CallReply} (hpool : s.Pooled)
    (hs : s.call h .getFd = some (r,s')) : s.Harmless h r s' ↔ s.KeepsOff h .getFd := by
  obtain ⟨c,hc,heq⟩ := Option.map_eq_some_iff.mp hs
  obtain ⟨rfl,rfl⟩ := Prod.mk.inj heq
  constructor
  · rintro (⟨hr,-⟩ | ⟨-,hown⟩)
    · simp at hr
    · refine (hpool.free_or_inUse hc).imp_right fun ⟨d,hd,hp⟩ => ?_
      obtain rfl := hown c.fd rfl d hd hp
      exact ⟨hd,hp⟩
  · intro hk
    refine .inr ⟨⟨rfl,rfl,rfl,fun _ _ => rfl⟩,fun n _ d hd hp => ?_⟩
    obtain hfree | ⟨ho,hp'⟩ := hk
    · exact absurd ⟨d,hd,hp⟩ (hpool.valid.unused _ hfree)
    · exact hpool.distinct d _ hd ho (hp.trans hp'.symm)

theorem setClosed_harmless_iff {s s' : Clients} {h : ℕ} {closed : ℤ} {r : CallReply}
    (hpool : s.Pooled) (hs : s.call h (.setClosed closed) = some (r,s')) :
    s.Harmless h r s' ↔ s.KeepsOff h (.setClosed closed) := by
  obtain ⟨c,hc,heq⟩ := Option.map_eq_some_iff.mp hs
  obtain ⟨rfl,rfl⟩ := Prod.mk.inj heq
  constructor
  · rintro (⟨hr,-⟩ | ⟨hun,-⟩)
    · simp at hr
    · refine (hpool.free_or_inUse hc).imp_right fun huse c' hc' => ?_
      obtain rfl := Option.some.inj (hc.symm.trans hc')
      have hsame := hun.cells _ huse
      simp only [FreeList.set,Function.update_self,hc,Option.some.injEq] at hsame
      exact (congrArg (fun c : ClientT => c.state.responseClosed) hsame).symm
  · intro hk
    refine .inr ⟨⟨rfl,rfl,rfl,fun p hp => ?_⟩,fun n hn => by simp at hn⟩
    by_cases hph : p = (s.handle h).client
    · subst hph
      obtain hfree | hsame := hk
      · exact absurd hp (hpool.valid.unused _ hfree)
      · simp only [FreeList.set,Function.update_self,hc,← hsame c hc]
    · simp [FreeList.set,hph]

end Clients

end Meinheld
