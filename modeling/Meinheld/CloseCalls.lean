import Meinheld.Endings

/-! The `close` method of what an application returned: when it is called, and how often. -/
namespace Meinheld

/-- The application returned something with a `close` method, and has not taken the connection
over. -/
def AppRun.owed (app : AppRun) : Bool :=
  (match app.result with
    | .ret r => r.hasClose
    | _ => false) && app.setClosed != some true

/-- A client between two requests. -/
structure Client.Idle (c : Client) : Prop where
  response : c.response = none
  responseClosed : c.responseClosed = false

theorem newClientT_idle (port : ℕ) : (newClientT port).Idle := ⟨rfl,rfl⟩

theorem cleanClient_idle (c : Client) : (cleanClient c).Idle := ⟨rfl,rfl⟩

/-- `app_handler` owes a call when the application's response has a `close` method. -/
theorem appHandler_owes {g : Globals} {app : AppRun} {c c' : Client} {w w' : World} (hc : c.Idle)
    (h : appHandler g app c w = .ret c' w') :
    Owes (w.closeCalls + if app.owed then 1 else 0) c' w' := by
  rw [appHandler_eq] at h
  obtain ⟨r,v,hstatus,h⟩ := Action.bind_eq_ret.mp h
  refine endResponse_owes ?_ h
  obtain ⟨c1,v1,hcalls,hrun⟩ := Action.bind_eq_ret.mp hstatus
  obtain ⟨rfl,hresp,hclosed⟩ := appCalls_closing hcalls
  rw [hc.response] at hresp
  rw [hc.responseClosed] at hclosed
  have hnone : app.owed = false → r = (.ERROR,{ c1 with
      responseClosed := app.setClosed.getD c1.responseClosed }) → v = v1 →
      Owes (v1.closeCalls + if app.owed then 1 else 0) r.2 v := by
    rintro ho rfl rfl
    simp [Owes,ho,Client.closes,hresp]
  cases hres : app.result with
  | raise =>
    simp only [hres,Action.pure_apply,Run.ret.injEq] at hrun
    exact hnone (by simp [AppRun.owed,hres]) hrun.1.symm hrun.2.symm
  | none =>
    simp only [hres,Action.pure_apply,Run.ret.injEq] at hrun
    exact hnone (by simp [AppRun.owed,hres]) hrun.1.symm hrun.2.symm
  | ret resp =>
    have howes : Owes (v1.closeCalls + if app.owed then 1 else 0) { c1 with
        responseClosed := app.setClosed.getD c1.responseClosed
        response := some resp } v1 := by
      simp only [Owes,AppRun.owed,hres,Client.closes,hclosed,Option.any_some]
      rcases app.setClosed with _ | _ | _ <;> simp
    simp only [hres] at hrun
    split at hrun
    · simp only [Action.pure_apply,Run.ret.injEq] at hrun
      obtain ⟨rfl,rfl⟩ := hrun
      exact howes
    · obtain ⟨s,c2⟩ := r
      have hw := writeResponse_carries hrun
      exact hw.owes howes

theorem sendErrorPage_owes {c c' : Client} {w w' : World} (h : sendErrorPage c w = .ret c' w')
    (hc : c.response = none) : Owes w.closeCalls c' w' := by
  obtain ⟨hcalls,hresp,_⟩ := sendErrorPage_closeCalls h
  simp [Owes,Client.closes,hresp,hc,hcalls]

/-- `check_http_expect` lets the request through, or ends it with a page. -/
theorem checkHttpExpect_owes {c : Client} {r : Bool × Client} {w w' : World} (hc : c.Idle)
    (h : checkHttpExpect c w = .ret r w') :
    w'.closeCalls = w.closeCalls ∧ (r.1 = true → r.2 = c) ∧ (r.1 = false → Owes w.closeCalls r.2 w') := by
  have hpage : ∀ code w0, (do let c ← sendErrorPage { c with keepAlive := false, statusCode := code }
                              pure (false,c) : Action (Bool × Client)) w0 = .ret r w' →
      w0.closeCalls = w.closeCalls →
      w'.closeCalls = w.closeCalls ∧ (r.1 = true → r.2 = c) ∧
        (r.1 = false → Owes w.closeCalls r.2 w') := by
    intro code w0 h0 hw
    obtain ⟨c1,v,hv,h0⟩ := Action.bind_eq_ret.mp h0
    simp only [Action.pure_apply,Run.ret.injEq] at h0
    obtain ⟨rfl,rfl⟩ := h0
    refine ⟨(sendErrorPage_closeCalls hv).1.trans hw,by simp,fun _ => ?_⟩
    rw [← hw]
    exact sendErrorPage_owes hv hc.response
  have hpass : .ret (true,c) w = Run.ret r w' → w'.closeCalls = w.closeCalls ∧
      (r.1 = true → r.2 = c) ∧ (r.1 = false → Owes w.closeCalls r.2 w') := by
    intro h0
    obtain ⟨rfl,rfl⟩ := Run.ret.inj h0
    exact ⟨rfl,fun _ => rfl,by simp⟩
  unfold checkHttpExpect at h
  split at h
  · split at h
    · exact hpass h
    · split at h
      · split at h
        · simp at h
        · obtain ⟨rfl,rfl⟩ := Run.ret.inj h
          exact ⟨rfl,fun _ => rfl,by simp⟩
        · exact hpage _ _ h rfl
      · exact hpage _ _ h rfl
  · exact hpass h

/-- Whether the application was called for a request that is served, and owed a call of `close`. -/
def Served.owed (app : AppRun) (s : Served) : Bool := s.dispatched && app.owed

/-- One request, up to the cleaning of its client. -/
theorem serveOne_closeCalls {g : Globals} {req : Request} {app : AppRun} {c c' : Client}
    {w w' : World} {s : Served} (hc : c.Idle) (h : serveOne g req app c w = .ret (s,c') w') :
    w'.closeCalls = w.closeCalls + (if s.owed app then 1 else 0) ∧ c'.Idle := by
  have hend : ∀ {r : Bool × Client} {v v' : World} {n : ℕ} {c1 : Client}, Owes n r.2 v →
      closeClient r.2 v = .ret c1 v' → v'.closeCalls = n ∧ c1.Idle := by
    intro r v v' n c1 ho hcl
    obtain ⟨h1,h2,h3⟩ := closeClient_closeCalls hcl
    exact ⟨h1.trans ho,h2,h3⟩
  obtain ⟨⟨bs,called,c1⟩,v,hv,h⟩ := Action.bind_eq_ret.mp h
  simp only [Action.pure_apply,Run.ret.injEq,Prod.mk.injEq] at h
  obtain ⟨⟨rfl,rfl⟩,rfl⟩ := h
  simp only [tracked] at hv
  split at hv
  swap
  · simp at hv
  next a v1 hx =>
    simp only [Run.ret.injEq,Prod.mk.injEq] at hv
    obtain ⟨⟨-,rfl⟩,rfl⟩ := hv
    obtain ⟨r,v2,hreq,hx⟩ := Action.bind_eq_ret.mp hx
    obtain ⟨c2,v3,hcl,hx⟩ := Action.bind_eq_ret.mp hx
    simp only [Action.pure_apply,Run.ret.injEq,Prod.mk.injEq] at hx
    obtain ⟨⟨rfl,rfl⟩,rfl⟩ := hx
    have hidle : Client.Idle { c with currentReq := some req } := ⟨hc.response,hc.responseClosed⟩
    unfold handleRequest at hreq
    split at hreq
    · obtain ⟨c3,v4,hpage,hreq⟩ := Action.bind_eq_ret.mp hreq
      simp only [Action.pure_apply,Run.ret.injEq] at hreq
      obtain ⟨rfl,rfl⟩ := hreq
      have ho := sendErrorPage_owes hpage
      simpa [Served.owed] using hend (ho hc.response) hcl
    · obtain ⟨r1,v4,hprep,hreq⟩ := Action.bind_eq_ret.mp hreq
      obtain ⟨r2,v5,hexp,hprep⟩ := Action.bind_eq_ret.mp hprep
      obtain ⟨hcalls,hpass,hfail⟩ := checkHttpExpect_owes hidle hexp
      cases hr : r2.1 with
      | false =>
        simp only [hr,Bool.false_eq_true,if_false,Action.pure_apply,Run.ret.injEq] at hprep
        obtain ⟨rfl,rfl⟩ := hprep
        simp only [hr,Bool.false_eq_true,if_false,Action.pure_apply,Run.ret.injEq] at hreq
        obtain ⟨rfl,rfl⟩ := hreq
        simpa [Served.owed,hr] using hend (hfail hr) hcl
      | true =>
        simp only [hr,if_true,Action.pure_apply,Run.ret.injEq] at hprep
        obtain ⟨rfl,rfl⟩ := hprep
        simp only [if_true] at hreq
        obtain ⟨c3,v6,happ,hreq⟩ := Action.bind_eq_ret.mp hreq
        simp only [Action.pure_apply,Run.ret.injEq] at hreq
        obtain ⟨rfl,rfl⟩ := hreq
        rw [hpass hr] at happ
        have hidle' : Client.Idle { c with
            currentReq := some req, keepAlive := c.keepAlive && g.isKeepAlive } :=
          ⟨hc.response,hc.responseClosed⟩
        simpa [Served.owed,hcalls] using hend (appHandler_owes hidle' happ) hcl

/-- On every run through a queue of requests, `close` is called once for each request whose
application was called and returned something that has it, and has not taken the connection over,
and for no other. -/
theorem close_called_once {g : Globals} {queue : List (Request × AppRun)} {c c' : Client}
    {w w' : World} {served : List Served} (hc : c.Idle)
    (h : serve g queue c w = .ret (served,c') w') :
    w'.closeCalls = w.closeCalls +
      (queue.zip served).countP (fun x => x.2.owed x.1.2) := by
  induction queue generalizing c w served with
  | nil =>
    simp only [serve,Action.pure_apply,Run.ret.injEq,Prod.mk.injEq] at h
    obtain ⟨⟨rfl,_⟩,rfl⟩ := h
    simp
  | cons x queue ih =>
    obtain ⟨req,app⟩ := x
    obtain ⟨⟨s,c1⟩,v,hone,h⟩ := Action.bind_eq_ret.mp h
    obtain ⟨⟨ss,c2⟩,v',hrest,h⟩ := Action.bind_eq_ret.mp h
    simp only [Action.pure_apply,Run.ret.injEq,Prod.mk.injEq] at h
    obtain ⟨⟨rfl,rfl⟩,rfl⟩ := h
    have hidle : Client.Idle { c with requestQueue := queue.map (·.1) } :=
      ⟨hc.response,hc.responseClosed⟩
    obtain ⟨h1,h2⟩ := serveOne_closeCalls hidle hone
    rw [ih h2 hrest,h1,List.zip_cons_cons,List.countP_cons]
    simp only
    omega

/-- An application that returns an iterable with a `close` method, which raises when iterated. -/
def closingApp (setClosed : Option Bool) : AppRun where
  setClosed := setClosed
  result := .ret { kind := .iter [.raise], hasClose := true }

theorem close_called_once_alone : ∃ s c w,
    serve {} [({},closingApp none)] (newClientT 80) ⟨[],[],0⟩ = .ret ([s],c) w ∧
      w.closeCalls = 1 := by
  obtain ⟨s,c,w,h,hd⟩ : ∃ s c w, serve {} [({},closingApp none)] (newClientT 80)
      ⟨[],[],0⟩ = .ret ([s],c) w ∧ s.dispatched = true := ⟨_,_,_,rfl,rfl⟩
  refine ⟨s,c,w,h,(close_called_once (newClientT_idle 80) h).trans ?_⟩
  simp [Served.owed,hd,AppRun.owed,closingApp]

/-- An application that takes the connection over is not closed. -/
theorem close_not_called_taken_over : ∃ s c w,
    serve {} [({},closingApp (some true))] (newClientT 80) ⟨[],[],0⟩ = .ret ([s],c) w ∧
      s.dispatched = true ∧ w.closeCalls = 0 := ⟨_,_,_,rfl,rfl,rfl⟩

end Meinheld
