import Meinheld.CloseCalls
import Meinheld.KeepAlive
import Meinheld.SplitReads
import Meinheld.Transition

/-! What becomes of a connection that an application has taken over: `close_client` closes it, or
hands it to a new HTTP client. -/
namespace Meinheld

theorem appCalls_keepAlive {as : List StartResponseArgs} {c c' : Client} {w w' : World}
    (h : appCalls as c w = .ret c' w') : c'.keepAlive = c.keepAlive := by
  induction as generalizing c with
  | nil =>
    simp only [appCalls,Action.pure_apply,Run.ret.injEq] at h
    exact h.1 ▸ rfl
  | cons a as ih =>
    rw [appCalls] at h
    cases hcall : responseObjectCall c a with
    | raised e =>
      simp only [hcall] at h
      exact ih h
    | returned c1 =>
      simp only [hcall] at h
      obtain ⟨code,hs,line,rfl⟩ := responseObjectCall_returned hcall
      have hrest := ih h
      exact hrest
    | crash => simp [hcall,die] at h

/-- A client no response has been started for, as those of a new connection and of the next
request in the queue. -/
structure Client.Unanswered (c : Client) : Prop where
  fresh : c.Fresh
  idle : c.Idle

theorem Client.Unanswered.reads {c : Client} (h : c.Unanswered) {keepAlive upgrade complete : Bool}
    {req : Option Request} {queue : List Request} {p : HttpParser} {aborted : Bool} :
    Client.Unanswered { c with
      keepAlive := keepAlive, upgrade := upgrade, complete := complete, currentReq := req
      requestQueue := queue, httpParser := p, aborted := aborted } :=
  ⟨⟨h.fresh.1,h.fresh.2,h.fresh.3,h.fresh.4,h.fresh.5,h.fresh.6⟩,⟨h.idle.1,h.idle.2⟩⟩

/-- The application returns a response that breaks off on the schedule, before `keep_alive` is
looked at. -/
def AppRun.Breaks (g : Globals) (app : AppRun) (c : Client) (os : List Outcome) : Prop :=
  ∃ c' r, (∀ w, appCalls app.calls c w = .ret c' w) ∧ app.result = .ret r ∧
    ∃ a : Answer, a.client = { c' with responseClosed := app.setClosed.getD c'.responseClosed } ∧
      a.response = r ∧ a.Breaks g os

/-- An application does not bring keep-alive back. -/
theorem appHandler_keeps_off {g : Globals} {app : AppRun} {c c' : Client} {w w' : World}
    (hc : c.keepAlive = false) (h : appHandler g app c w = .ret c' w') : c'.keepAlive = false := by
  rw [appHandler_eq] at h
  obtain ⟨⟨s,c1⟩,v,hv,h⟩ := Action.bind_eq_ret.mp h
  obtain ⟨c2,v2,hcalls,hv⟩ := Action.bind_eq_ret.mp hv
  have hc2 : c2.keepAlive = false := (appCalls_keepAlive hcalls).trans hc
  have hc1 : c1.keepAlive = false := by
    cases hr : app.result with
    | raise =>
      simp only [hr,Action.pure_apply,Run.ret.injEq,Prod.mk.injEq] at hv
      obtain ⟨⟨-,rfl⟩,-⟩ := hv
      exact hc2
    | none =>
      simp only [hr,Action.pure_apply,Run.ret.injEq,Prod.mk.injEq] at hv
      obtain ⟨⟨-,rfl⟩,-⟩ := hv
      exact hc2
    | ret r =>
      simp only [hr] at hv
      split at hv
      · simp only [Action.pure_apply,Run.ret.injEq,Prod.mk.injEq] at hv
        obtain ⟨⟨-,rfl⟩,-⟩ := hv
        exact hc2
      · cases hk : c1.keepAlive with
        | false => rfl
        | true =>
          have hback := (writeResponse_carries hv).keepAlive hk
          exact absurd hback (by simp [hc2])
  rw [endResponse_keepAlive h]
  simp [hc1]

/-- When the application has taken the connection over and returned, `keep_alive` is as it was
unless the response breaks off. -/
theorem appHandler_keepAlive {g : Globals} {app : AppRun} {c c' : Client} {w w' : World}
    (hc : c.Unanswered) (hret : app.setClosed = some true ∨ ∃ r, app.result = .ret r)
    (h : appHandler g app c w = .ret c' w') :
    c'.keepAlive = false ↔ c.keepAlive = false ∨ app.Breaks g c w.outcomes := by
  obtain ⟨c1,v,hv,hrest⟩ := Action.bind_eq_ret.mp h
  obtain ⟨rfl,hresp,hclosed⟩ := appCalls_closing hv
  have hkeep := appCalls_keepAlive hv
  have hfresh := appCalls_fresh hc.fresh hv
  have hcalls : ∀ u, appCalls app.calls c u = .ret c1 u := by
    rcases appCalls_cases app.calls c with ⟨c2,hc2⟩ | hcrash
    · obtain rfl := (Run.ret.inj ((hc2 v).symm.trans hv)).1
      exact hc2
    · simp [hcrash] at hv
  have huniq : ∀ {c2}, (∀ u, appCalls app.calls c u = .ret c2 u) → c2 = c1 := fun h2 =>
    (Run.ret.inj ((h2 v).symm.trans hv)).1
  cases hset : app.setClosed.getD c1.responseClosed with
  | true =>
    have hno : ¬app.Breaks g c v.outcomes := by
      rintro ⟨c2,r,hc2,-,a,ha,-⟩
      obtain rfl := huniq hc2
      have hopen := a.notClosed
      simp [ha,hset] at hopen
    have hsame : c'.keepAlive = c1.keepAlive := by
      cases hr : app.result with
      | raise =>
        simp only [hr,hset] at hrest
        simpa using endResponse_keepAlive (r := (.ERROR,{ c1 with responseClosed := true })) hrest
      | none =>
        simp only [hr,hset] at hrest
        simpa using endResponse_keepAlive (r := (.ERROR,{ c1 with responseClosed := true })) hrest
      | ret r =>
        simp only [hr,hset,if_true,Action.pure_apply,Run.ret.injEq] at hrest
        obtain ⟨rfl,-⟩ := hrest
        rfl
    simp [hno,hsame,hkeep]
  | false =>
    obtain ⟨r,hr⟩ : ∃ r, app.result = .ret r :=
      hret.resolve_left fun hsome => by simp [hsome] at hset
    let a : Answer := ⟨{ c1 with responseClosed := false },r,
      ⟨hfresh.1,hfresh.2,hfresh.3,hfresh.4,hfresh.5,hfresh.6⟩,rfl⟩
    have hbreaks : app.Breaks g c v.outcomes ↔ a.Breaks g v.outcomes := by
      constructor
      · rintro ⟨c2,r2,hc2,hr2,b,hb,hbr,hbreaks⟩
        obtain rfl := huniq hc2
        obtain rfl := AppResult.ret.inj (hr.symm.trans hr2)
        obtain rfl : b = a := by
          cases b
          simp only [hset] at hb
          simp only at hbr
          subst hb hbr
          rfl
        exact hbreaks
      · intro hbreaks
        exact ⟨c1,r,hcalls,hr,a,by rw [hset],rfl,hbreaks⟩
    simp only [hr,hset,Bool.false_eq_true,if_false,respond_eq] at hrest
    obtain ⟨r1,v1,hwrite,hend⟩ := Action.bind_eq_ret.mp hrest
    obtain ⟨hne,hkeeps⟩ := writeResponse_keeps (a := a) hwrite
    have hkept := endResponse_keeps hne hend v1.outcomes
    rw [hbreaks,← Bool.not_eq_true,hkept,hkeeps,← hkeep,← Bool.not_eq_true]
    exact Decidable.not_and_iff_not_or_not.trans (by rw [Classical.not_not])

/-! ### The connection -/

/-- A socket: a client of it waits for data, its requests are answered, or it has been closed. -/
inductive SocketState
  | reading (c : Client)
  | serving (c : Client)
  | shut
  deriving DecidableEq, Repr

/-- `taken` notes that an application has taken the connection over. -/
structure Socket where
  line : SocketState
  taken : Bool := false
  deriving DecidableEq, Repr

/-- What comes next, with the results that writing will have: `read_callback`, or the answer to the
request at the head of the queue. -/
inductive SocketEvent
  | read (r : ReadResult) (os : List Outcome)
  | timeout (os : List Outcome)
  | serve (app : AppRun) (os : List Outcome)
  deriving DecidableEq, Repr

/-- What `read_request` leaves. After an error without requests the socket has been closed. -/
def SocketState.afterRead : Run (ReadEnd × Client) → Option SocketState
  | .ret (.pending,c) _ => some (.reading c)
  | .ret (.finish,c) _ => some (.serving c)
  | .ret (.closed,_) _ => some .shut
  | .stop _ _ => none

/-- `close_client` after `clean_client`, with the requests that are left. -/
def SocketState.afterClose (c : Client) (rest : List Request) : SocketState :=
  if rest ≠ [] then .serving c
  else if c.keepAlive then .reading (idleClient c.remotePort true) else .shut

def AppRun.switches (app : AppRun) (c : Client) : Bool :=
  match appCalls app.calls { c with statusCode := 0 } ⟨[],[],0⟩,app.result with
  | .ret c' _,.ret _ => c'.statusCode = 101
  | _,_ => false

/-- The application takes the connection over. -/
def AppRun.takesOver (app : AppRun) (c : Client) : Bool := app.setClosed = some true || app.switches c

/-- The application takes over the connection of a request that asked for an upgrade, which is the
last one its client has read. -/
def Served.takesOver (s : Served) (app : AppRun) (c : Client) (rest : List Request) : Bool :=
  c.upgrade && rest.isEmpty && s.dispatched && app.takesOver c

/-- One event; a closed socket has none. -/
def socketStep (g : Globals) (s : Socket) (e : SocketEvent) : Option Socket :=
  match s.line,e with
  | .reading c,.read r os => (SocketState.afterRead (readRequest g c r ⟨os,[],0⟩)).map fun l =>
      { s with line := l }
  | .reading c,.timeout os => (SocketState.afterRead (readTimeout c ⟨os,[],0⟩)).map fun l =>
      { s with line := l }
  | .serving c,.serve app os =>
    match c.queue with
    | [] => none
    | req :: rest =>
      match serveOne g req app { c with requestQueue := rest } ⟨os,[],0⟩ with
      | .ret (served,c') _ => some ⟨.afterClose c' rest,s.taken || served.takesOver app c rest⟩
      | .stop _ _ => none
  | _,_ => none

/-- A connection that was taken over is closed, and so no byte of it is read any more. -/
def Released (s : Socket) : Prop := s.taken = true → s.line = .shut

/-- What `check_http_expect` leaves of the schedule when it lets the request of the client through. -/
def Client.letThrough (c : Client) (os : List Outcome) : Option (List Outcome) :=
  if c.httpParser.httpMinor = 1 then
    match c.currentReq.bind (·.environ.get? (ascii "HTTP_EXPECT")),os with
    | none,_ => some os
    | some val,.count _ :: os => if expectsContinue val then some os else none
    | _,_ => none
  else some os

/-- When the application is called for the last request and takes the connection over, keep-alive is
off for the client or for the server, or the response breaks off. -/
def Lapses (g : Globals) (s : Socket) (e : SocketEvent) : Prop :=
  match s.line,e with
  | .serving c,.serve app os => ∀ req os', c.queue = [req] → c.upgrade = true →
      app.takesOver c = true → req.badRequestCode ≤ 200 →
      Client.letThrough { c with currentReq := some req } os = some os' →
      c.keepAlive = false ∨ g.isKeepAlive = false ∨
        app.Breaks g { c with requestQueue := [], currentReq := some req } os'
  | _,_ => True

/-- `check_http_expect` leaves the client of a request that it lets through. -/
theorem checkHttpExpect_true {c c' : Client} {w w' : World}
    (h : checkHttpExpect c w = .ret (true,c') w') :
    c' = c ∧ c.letThrough w.outcomes = some w'.outcomes := by
  have hpage : ∀ code w0, (do let c ← sendErrorPage { c with keepAlive := false, statusCode := code }
                              pure (false,c) : Action (Bool × Client)) w0 ≠ .ret (true,c') w' := by
    intro code w0 h0
    obtain ⟨c1,v,-,h0⟩ := Action.bind_eq_ret.mp h0
    simp at h0
  have hpass : ∀ {v}, Run.ret (true,c) v = .ret (true,c') w' → c' = c ∧ v = w' := by
    intro v h0
    exact ⟨(Prod.mk.inj (Run.ret.inj h0).1).2.symm,(Run.ret.inj h0).2⟩
  unfold checkHttpExpect at h
  split at h
  next hminor =>
    split at h
    next hnone =>
      obtain ⟨rfl,rfl⟩ := hpass h
      exact ⟨rfl,by simp only [Client.letThrough,if_pos hminor,hnone]⟩
    next val hval =>
      split at h
      next hexp =>
        split at h
        · cases h
        next n os hos =>
          obtain ⟨rfl,rfl⟩ := hpass h
          exact ⟨rfl,by simp only [Client.letThrough,if_pos hminor,hval,hos,if_pos hexp]; rfl⟩
        · exact absurd h (hpage _ _)
      · exact absurd h (hpage _ _)
  next hminor =>
    obtain ⟨rfl,rfl⟩ := hpass h
    exact ⟨rfl,if_neg hminor⟩

/-- `check_http_expect` keeps no connection whose request it does not let through. -/
theorem checkHttpExpect_false {c c' : Client} {w w' : World}
    (h : checkHttpExpect c w = .ret (false,c') w') :
    c'.keepAlive = false ∧ c.letThrough w.outcomes = none := by
  have hpage : ∀ {code w0}, (do let c ← sendErrorPage { c with keepAlive := false, statusCode := code }
                                pure (false,c) : Action (Bool × Client)) w0 = .ret (false,c') w' →
      c'.keepAlive = false := by
    intro code w0 h0
    obtain ⟨c1,v,hv,h0⟩ := Action.bind_eq_ret.mp h0
    simp only [Action.pure_apply,Run.ret.injEq,Prod.mk.injEq,true_and] at h0
    obtain ⟨rfl,-⟩ := h0
    rw [sendErrorPage_keepAlive hv]
    rfl
  unfold checkHttpExpect at h
  split at h
  next hminor =>
    split at h
    · cases h
    next val hval =>
      split at h
      next hexp =>
        split at h
        · cases h
        · cases h
        next o os hcount hos =>
          refine ⟨hpage h,?_⟩
          cases o with
          | count n => exact absurd rfl (hcount n)
          | eagain => simp only [Client.letThrough,if_pos hminor,hval,hos]
          | error epipe => simp only [Client.letThrough,if_pos hminor,hval,hos]
      next hexp =>
        refine ⟨hpage h,?_⟩
        simp only [Client.letThrough,if_pos hminor,hval]
        split
        next heq => cases heq
        · exact if_neg (by simp_all)
        · rfl
  · cases h

theorem prepareCallWsgi_false {g : Globals} {c c0 : Client} {w w0 : World}
    (h : prepareCallWsgi g c w = .ret (false,c0) w0) :
    c0.keepAlive = false ∧ c.letThrough w.outcomes = none := by
  obtain ⟨⟨b,c1⟩,v,hv,hrest⟩ := Action.bind_eq_ret.mp h
  cases b with
  | true => simp at hrest
  | false =>
    simp only [Bool.false_eq_true,if_false,Action.pure_apply,Run.ret.injEq,Prod.mk.injEq,
      true_and] at hrest
    obtain ⟨rfl,-⟩ := hrest
    exact checkHttpExpect_false hv

theorem prepareCallWsgi_true {g : Globals} {c c0 : Client} {w w0 : World}
    (h : prepareCallWsgi g c w = .ret (true,c0) w0) :
    c0 = { c with keepAlive := c.keepAlive && g.isKeepAlive } ∧
      c.letThrough w.outcomes = some w0.outcomes := by
  obtain ⟨⟨b,c1⟩,v,hv,hrest⟩ := Action.bind_eq_ret.mp h
  cases b with
  | true =>
    obtain ⟨rfl,hthrough⟩ := checkHttpExpect_true hv
    simp only [if_true,Action.pure_apply,Run.ret.injEq,Prod.mk.injEq,true_and] at hrest
    obtain ⟨rfl,rfl⟩ := hrest
    exact ⟨rfl,hthrough⟩
  | false => simp at hrest

theorem closeClient_keepAlive {c c' : Client} {w w' : World} (h : closeClient c w = .ret c' w') :
    c'.keepAlive = c.keepAlive := by
  unfold closeClient at h
  cases hcl : c.responseClosed with
  | true =>
    simp only [hcl,if_true,Action.pure_bind,Action.pure_apply,Run.ret.injEq] at h
    obtain ⟨rfl,-⟩ := h
    rfl
  | false =>
    simp only [hcl,Bool.false_eq_true,if_false] at h
    obtain ⟨⟨s,c1⟩,v,hv,h⟩ := Action.bind_eq_ret.mp h
    simp only [Action.pure_apply,Run.ret.injEq] at h
    obtain ⟨rfl,-⟩ := h
    have hkeep := closeResponse_keepAlive hv
    exact hkeep

theorem AppRun.takesOver_returns {app : AppRun} {c : Client} (h : app.takesOver c = true) :
    app.setClosed = some true ∨ ∃ r, app.result = .ret r := by
  simp only [AppRun.takesOver,Bool.or_eq_true,decide_eq_true_eq] at h
  refine h.imp_right fun hs => ?_
  unfold AppRun.switches at hs
  split at hs
  next r _ hr => exact ⟨_,hr⟩
  · cases hs

/-- A request for which the application is not called, or what becomes of `keep_alive` over one for
which it is. -/
theorem serveOne_cases {g : Globals} {req : Request} {app : AppRun} {c c' : Client}
    {w w' : World} {s : Served} (h : serveOne g req app c w = .ret (s,c') w') :
    (s.dispatched = false ∧ (c.keepAlive = false → c'.keepAlive = false) ∧
        (req.badRequestCode ≤ 200 →
          Client.letThrough { c with currentReq := some req } w.outcomes = none)) ∨
      (s.dispatched = true ∧ req.badRequestCode ≤ 200 ∧
        (c.keepAlive = false → c'.keepAlive = false) ∧ (g.isKeepAlive = false → c'.keepAlive = false) ∧
        ∃ os, Client.letThrough { c with currentReq := some req } w.outcomes = some os ∧
          (c.Unanswered → app.setClosed = some true ∨ (∃ r, app.result = .ret r) →
            c.keepAlive = true → g.isKeepAlive = true → (c'.keepAlive = false ↔
              app.Breaks g { c with currentReq := some req } os))) := by
  obtain ⟨⟨bs,called,c1⟩,v,hv,h⟩ := Action.bind_eq_ret.mp h
  simp only [Action.pure_apply,Run.ret.injEq,Prod.mk.injEq] at h
  obtain ⟨⟨rfl,rfl⟩,-⟩ := h
  unfold tracked at hv
  split at hv
  next x v1 hx =>
    simp only [Run.ret.injEq,Prod.mk.injEq] at hv
    obtain ⟨⟨-,rfl⟩,-⟩ := hv
    obtain ⟨⟨called,c2⟩,v2,hreq,hx⟩ := Action.bind_eq_ret.mp hx
    obtain ⟨c3,v3,hcl,hx⟩ := Action.bind_eq_ret.mp hx
    simp only [Action.pure_apply,Run.ret.injEq,Prod.mk.injEq] at hx
    obtain ⟨⟨rfl,rfl⟩,-⟩ := hx
    rw [closeClient_keepAlive hcl]
    unfold handleRequest at hreq
    split at hreq
    next hcode =>
      obtain ⟨c4,v4,hpage,hreq⟩ := Action.bind_eq_ret.mp hreq
      simp only [Action.pure_apply,Run.ret.injEq,Prod.mk.injEq] at hreq
      obtain ⟨⟨hcalled,rfl⟩,-⟩ := hreq
      refine .inl ⟨hcalled.symm,fun hc => ?_,fun hle => absurd hcode (not_lt.mpr hle)⟩
      rw [sendErrorPage_keepAlive hpage,hc]
      rfl
    next hcode =>
      obtain ⟨⟨b,c4⟩,v4,hprep,hreq⟩ := Action.bind_eq_ret.mp hreq
      cases b with
      | false =>
        simp only [Bool.false_eq_true,if_false,Action.pure_apply,Run.ret.injEq,Prod.mk.injEq] at hreq
        obtain ⟨⟨hcalled,rfl⟩,-⟩ := hreq
        obtain ⟨hoff,hnone⟩ := prepareCallWsgi_false hprep
        exact .inl ⟨hcalled.symm,fun _ => hoff,fun _ => hnone⟩
      | true =>
        obtain ⟨c5,v5,happ,hreq⟩ := Action.bind_eq_ret.mp hreq
        simp only [Action.pure_apply,Run.ret.injEq,Prod.mk.injEq] at hreq
        obtain ⟨⟨hcalled,rfl⟩,-⟩ := hreq
        obtain ⟨rfl,hthrough⟩ := prepareCallWsgi_true hprep
        refine .inr ⟨hcalled.symm,not_lt.mp hcode,fun hc => ?_,fun hg => ?_,v4.outcomes,hthrough,?_⟩
        · exact appHandler_keeps_off (by simp [hc]) happ
        · exact appHandler_keeps_off (by simp [hg]) happ
        · intro hfree hret hc hg
          have hfree' : Client.Unanswered { c with
              currentReq := some req, keepAlive := c.keepAlive && g.isKeepAlive } := hfree.reads
          have hsame : ({ c with currentReq := some req, keepAlive := c.keepAlive && g.isKeepAlive } :
              Client) = { c with currentReq := some req } := by rw [hg,Bool.and_true]
          rw [appHandler_keepAlive hfree' hret happ]
          simp only
          rw [hc,hg]
          simp only [Bool.and_self,Bool.true_eq_false,false_or]
  next => cases hv

theorem SocketState.afterClose_eq_shut {c : Client} {rest : List Request} :
    SocketState.afterClose c rest = .shut ↔ rest = [] ∧ c.keepAlive = false := by
  unfold SocketState.afterClose
  split
  next h => simp [h]
  next h =>
    have hrest : rest = [] := not_not.mp h
    cases c.keepAlive <;> simp [hrest]

/-! ### The clients of a connection -/

theorem onCurrentReq_unanswered {c : Client} (hc : c.Unanswered)
    (f : Request → Option (Bool × Request)) : (onCurrentReq c f).2.Unanswered := by
  unfold onCurrentReq
  cases c.currentReq.bind f with
  | some r => exact hc.reads
  | none => exact hc.reads

theorem executeParse_unanswered (g : Globals) {c : Client} (hc : c.Unanswered) (data : Bytes) :
    (executeParse g c data).1.Unanswered := by
  have h : Client.Unanswered (httpParserExecute (settings g) c.httpParser
      { c with complete := false } data).2.1 := by
    refine httpParserExecute_invariant (fun n p d hd => ?_) (fun k p buf d hd => ?_) _ _ _ hc.reads
    · cases n with
      | messageBegin => exact hd.reads
      | headersComplete => exact onCurrentReq_unanswered hd.reads _
      | messageComplete => exact hd.reads
    · cases k <;> exact onCurrentReq_unanswered hd _
  exact h.reads

def SocketState.Clean : SocketState → Prop
  | .reading c => c.Unanswered
  | .serving c => c.keepAlive = true → c.Unanswered
  | .shut => True

theorem setReadError_clean {c : Client} {code : ℕ} {w : World} {l : SocketState}
    (h : SocketState.afterRead (setReadError c code w) = some l) : l.Clean := by
  unfold SocketState.afterRead at h
  split at h
  next hr => exact absurd rfl (setReadError_refuses hr).1
  next hr =>
    obtain rfl := Option.some.inj h
    intro hkeep
    simp [(setReadError_refuses hr).2 rfl] at hkeep
  next =>
    obtain rfl := Option.some.inj h
    trivial
  next => cases h

theorem parserFinish_clean {c : Client} (hc : c.Unanswered) {w : World} {l : SocketState}
    (h : SocketState.afterRead (parserFinish c w) = some l) : l.Clean := by
  cases hd : c.complete with
  | true =>
    simp only [parserFinish,hd,if_true,Action.pure_apply,SocketState.afterRead] at h
    obtain rfl := Option.some.inj h
    exact fun _ => hc
  | false =>
    simp only [parserFinish,hd,Bool.false_eq_true,if_false,Action.pure_apply,
      SocketState.afterRead] at h
    obtain rfl := Option.some.inj h
    exact hc

theorem parsedRequest_clean {n : ℕ} {nread : ℤ} {c : Client} (hc : c.Unanswered) {w : World}
    {l : SocketState} (h : SocketState.afterRead (parsedRequest n c nread w) = some l) : l.Clean := by
  cases hcur : c.currentReq with
  | none =>
    simp only [parsedRequest,hcur] at h
    split at h
    · cases h
    · exact setReadError_clean h
  | some req =>
    simp only [parsedRequest,hcur] at h
    split at h
    · split at h
      · exact parserFinish_clean hc h
      · exact setReadError_clean h
    · split at h
      · exact setReadError_clean h
      · exact parserFinish_clean hc h

theorem readRequest_clean {g : Globals} {c : Client} (hc : c.Unanswered) {r : ReadResult} {w : World}
    {l : SocketState} (h : SocketState.afterRead (readRequest g c r w) = some l) : l.Clean := by
  cases r with
  | eof => exact setReadError_clean h
  | error econnreset => exact setReadError_clean h
  | eagain =>
    obtain rfl := Option.some.inj h
    exact hc
  | data buf =>
    simp only [readRequest,parseHttpRequest] at h
    split at h
    · cases h
    · exact parsedRequest_clean (executeParse_unanswered g hc buf) h

theorem closeClient_cleans {c c' : Client} {w w' : World} (h : closeClient c w = .ret c' w') :
    ∃ d, c' = cleanClient d := by
  unfold closeClient at h
  split at h
  all_goals
    obtain ⟨r,v,-,h⟩ := Action.bind_eq_ret.mp h
    exact ⟨r.2,(Run.ret.inj h).1.symm⟩

theorem serveOne_unanswered {g : Globals} {req : Request} {app : AppRun} {c c' : Client}
    {w w' : World} {s : Served} (h : serveOne g req app c w = .ret (s,c') w') : c'.Unanswered := by
  obtain ⟨⟨bs,called,c1⟩,v,hv,h⟩ := Action.bind_eq_ret.mp h
  simp only [Action.pure_apply,Run.ret.injEq,Prod.mk.injEq] at h
  obtain ⟨⟨-,rfl⟩,-⟩ := h
  unfold tracked at hv
  split at hv
  next x v1 hx =>
    simp only [Run.ret.injEq,Prod.mk.injEq] at hv
    obtain ⟨⟨-,rfl⟩,-⟩ := hv
    obtain ⟨r,v2,-,hx⟩ := Action.bind_eq_ret.mp hx
    obtain ⟨c3,v3,hcl,hx⟩ := Action.bind_eq_ret.mp hx
    simp only [Action.pure_apply,Run.ret.injEq,Prod.mk.injEq] at hx
    obtain ⟨⟨-,rfl⟩,-⟩ := hx
    obtain ⟨d,rfl⟩ := closeClient_cleans hcl
    exact ⟨cleanClient_fresh d,cleanClient_idle d⟩
  next => cases hv

theorem idleClient_unanswered (port : ℕ) (keepAlive : Bool) : (idleClient port keepAlive).Unanswered :=
  Client.Unanswered.reads ⟨newClientT_fresh port,newClientT_idle port⟩

theorem afterClose_clean {c : Client} (hc : c.Unanswered) (rest : List Request) :
    (SocketState.afterClose c rest).Clean := by
  unfold SocketState.afterClose
  split
  · exact fun _ => hc
  · split
    · exact idleClient_unanswered _ _
    · trivial

theorem socketStep_clean {g : Globals} {s s' : Socket} {e : SocketEvent} (hs : s.line.Clean)
    (h : socketStep g s e = some s') : s'.line.Clean := by
  obtain ⟨line,taken⟩ := s
  cases line with
  | shut => cases e <;> simp [socketStep] at h
  | reading c =>
    cases e with
    | serve app os => simp [socketStep] at h
    | read r os =>
      obtain ⟨l,hl,rfl⟩ := Option.map_eq_some_iff.mp h
      exact readRequest_clean hs hl
    | timeout os =>
      obtain ⟨l,hl,rfl⟩ := Option.map_eq_some_iff.mp h
      exact setReadError_clean hl
  | serving c =>
    cases e with
    | read r os => simp [socketStep] at h
    | timeout os => simp [socketStep] at h
    | serve app os =>
      simp only [socketStep] at h
      split at h
      · cases h
      · split at h
        next hone =>
          obtain rfl := Option.some.inj h
          exact afterClose_clean (serveOne_unanswered hone) _
        next => cases h

/-- A step from a connection that was not taken over. -/
theorem released_step {g : Globals} {s s' : Socket} {e : SocketEvent} (hclean : s.line.Clean)
    (hs : Released s) (h : socketStep g s e = some s') : Released s' ↔ Lapses g s e := by
  obtain ⟨line,taken⟩ := s
  cases line with
  | shut => cases e <;> simp [socketStep] at h
  | reading c =>
    obtain rfl : taken = false := by
      cases taken with
      | false => rfl
      | true => cases hs rfl
    have hfree : ∀ {r : Run (ReadEnd × Client)}, (SocketState.afterRead r).map (fun l =>
        ({ line := l } : Socket)) = some s' → Released s' := by
      intro r hr htaken
      obtain ⟨l,-,rfl⟩ := Option.map_eq_some_iff.mp hr
      cases htaken
    cases e with
    | read r os => exact ⟨fun _ => trivial,fun _ => hfree h⟩
    | timeout os => exact ⟨fun _ => trivial,fun _ => hfree h⟩
    | serve app os => simp [socketStep] at h
  | serving c =>
    obtain rfl : taken = false := by
      cases taken with
      | false => rfl
      | true => cases hs rfl
    cases e with
    | read r os => simp [socketStep] at h
    | timeout os => simp [socketStep] at h
    | serve app os =>
      simp only [socketStep] at h
      simp only [Lapses]
      cases hq : c.queue with
      | nil => simp [hq] at h
      | cons req rest =>
        simp only [hq] at h
        split at h
        next served c' w' hone =>
          obtain rfl := Option.some.inj h
          simp only [Released,Bool.false_or,SocketState.afterClose_eq_shut,Served.takesOver,
            Bool.and_eq_true,List.isEmpty_iff]
          rcases serveOne_cases hone with ⟨hno,-,hthrough⟩ | ⟨hyes,hcode,hoff,hoffg,os',hos',hkeep⟩
          · constructor
            · intro _ req' os' hreq _ _ hcode hos'
              obtain ⟨rfl,rfl⟩ := List.cons.inj hreq
              exact absurd ((hthrough hcode).symm.trans hos') (by simp)
            · intro _ htaken
              simp [hno] at htaken
          · have hbreaks : app.takesOver c = true → c.keepAlive = true → g.isKeepAlive = true →
                (c'.keepAlive = false ↔
                  app.Breaks g { c with requestQueue := rest, currentReq := some req } os') :=
              fun htake hc hg => hkeep (hclean hc).reads (AppRun.takesOver_returns htake) hc hg
            constructor
            · intro hrel req' os2 hreq hup htake _ hos2
              obtain ⟨rfl,rfl⟩ := List.cons.inj hreq
              obtain rfl := Option.some.inj (hos'.symm.trans hos2)
              have hclosed := (hrel ⟨⟨⟨hup,rfl⟩,hyes⟩,htake⟩).2
              by_cases hc : c.keepAlive = true
              · by_cases hg : g.isKeepAlive = true
                · exact .inr (.inr ((hbreaks htake hc hg).mp hclosed))
                · exact .inr (.inl (Bool.not_eq_true _ ▸ hg))
              · exact .inl (Bool.not_eq_true _ ▸ hc)
            · rintro hlapse ⟨⟨⟨hup,rfl⟩,-⟩,htake⟩
              refine ⟨rfl,?_⟩
              by_cases hc : c.keepAlive = true
              · by_cases hg : g.isKeepAlive = true
                · rcases hlapse req os' rfl hup htake hcode hos' with hc' | hg' | hbr
                  · exact hoff hc'
                  · exact hoffg hg'
                  · exact (hbreaks htake hc hg).mpr hbr
                · exact hoffg (Bool.not_eq_true _ ▸ hg)
              · exact hoff (Bool.not_eq_true _ ▸ hc)
        next => simp at h

def webSocketRequest : Bytes := ascii
  "GET / HTTP/1.1\nUpgrade:websocket\nSec-WebSocket-Key:\nSec-WebSocket-Version:13\n\n"

def webSocketApp : AppRun where
  setClosed := some true
  result := .ret { kind := .iter [] }

def keepAliveOn : Globals := { Globals.initial with isKeepAlive := true }

set_option maxRecDepth 100000 in
theorem webSocket_kept : ∃ c s, socketStep keepAliveOn ⟨.reading (idleClient 80 false),false⟩
    (.read (.data webSocketRequest) []) = some ⟨.serving c,false⟩ ∧
    socketStep keepAliveOn ⟨.serving c,false⟩ (.serve webSocketApp []) = some s ∧ s.taken = true ∧
      s.line = .reading (idleClient 80 true) :=
  ⟨_,_,rfl,rfl,rfl,rfl⟩

end Meinheld
