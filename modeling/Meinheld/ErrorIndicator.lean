import Meinheld.Connections

/-! The error indicator of the interpreter, which is one for all connections: what sets it, and what
clears it before a callback returns to the run loop. Python code handles its own errors; out of
memory is left out. -/
namespace Meinheld

/-- What `close_response` does: nothing, since there is no response or it is closed; it finds no
method `close`; or it calls `close`. -/
inductive CloseResult
  | skipped | absent | returned | raised
  deriving DecidableEq, Repr

/-- The indicator after `close_response`; `PyObject_HasAttrString` clears it when there is no such
attribute. -/
def closeIndicator (err : Bool) : CloseResult → Bool
  | .skipped | .returned => err
  | .absent => false
  | .raised => true

/-- What happens in a step besides. -/
structure Incident where
  /-- `parse_new_protocol` raises. -/
  protocol : Bool := false
  /-- `set_read_error` marks the tail of the queue. -/
  bad : Bool := false
  /-- A system call fails, which is raised and logged at once. -/
  logged : Bool := false
  /-- The status is 408. -/
  requestTimeout : Bool := false
  /-- `app_handler` goes to its label `error`. -/
  failed : Bool := false
  close : CloseResult := .skipped
  /-- The callback raises before it resumes the greenlet. -/
  timedOut : Bool := false
  /-- A greenlet of `spawn` raises. -/
  raised : Bool := false
  deriving DecidableEq, Repr

/-- The server with its error indicator. `request` says whether `close_client` has a request,
`firing` whether `fire_timers` goes on when control comes back, `writing` which greenlets wait in
`app_handler`, and `bad` which requests have a `bad_request_code`. -/
structure Indicated where
  conns : Connections
  accessLog : Bool
  err : Bool := false
  request : Bool := false
  firing : Bool := false
  writing : ℕ → Bool := fun _ => false
  bad : ℕ → ℕ → Bool := fun _ _ => false

namespace Indicated

/-- Whether the request at the head of the queue may be dispatched. -/
def headGood (s : Indicated) : Bool :=
  match s.conns.activity with
  | .dispatch c => ((s.conns.conn c).queue.head?.map fun i => !s.bad c i).getD true
  | _ => true

/-- `parse_new_protocol` raises where the callback goes on with the queue, and a request with a
`bad_request_code` is not dispatched. -/
def fits (s : Indicated) (i : Incident) : ConnectionEvent → Bool
  | .accept _ (some (.finished _)) | .read _ (.finished _) => true
  | .start _ => !i.protocol && s.headGood
  | _ => !i.protocol

/-- The indicator after a step that leads to `t`. -/
def errAfter (s : Indicated) (i : Incident) (t : Connections) : ConnectionEvent → Bool
  | .accept _ none => false
  | .accept _ (some _) | .read _ _ => i.protocol || s.err && !i.logged
  | .refuse _ _ => s.err && !i.logged
  -- `PyFile_FromFd` has raised
  | .inputFailed => true
  -- `close_response`, then `call_access_logger` in `clean_client`
  | .closeClient =>
    closeIndicator s.err i.close && !(s.accessLog && (s.request || !i.requestTimeout))
  | .finish _ =>
    match s.conns.serving with
    | some _ => !i.failed && closeIndicator s.err i.close
    | none => false
  -- what is thrown into Python code is handled there
  | .wakeFd _ _ =>
    match t.activity with
    | .greenlet g => (s.err || i.timedOut) && s.writing g
    | _ => s.err || i.timedOut
  | .toParent _ =>
    match t.activity with
    | .greenlet g => if i.raised then s.writing g else s.err
    | _ => s.err
  | _ => s.err

/-- `set_bad_request_code`. -/
def badAfter (s : Indicated) (i : Incident) (t : Connections) : ConnectionEvent → ℕ → ℕ → Bool
  | .accept _ _ | .read _ _ => fun c k =>
    s.bad c k || (i.bad || i.protocol) && t.activity = .dispatch c && (t.conn c).queue.getLast? = some k
  | _ => s.bad

def requestAfter (s : Indicated) : ConnectionEvent → Bool
  | .accept _ _ | .read _ _ => false
  | .refuse _ _ | .finish _ => true
  | _ => s.request

def writingAfter (s : Indicated) : ConnectionEvent → ℕ → Bool
  | .waitWrite => fun g => s.writing g || s.conns.activity = .greenlet g
  | .suspendClient _ _ _ | .trampoline _ _ _ | .sleep => fun g =>
    s.writing g && s.conns.activity ≠ .greenlet g
  | _ => s.writing

/-- `fire_timers` and `fire_pendings` log an error that is set when control comes back. -/
def settle (s : Indicated) : Indicated :=
  if s.firing ∧ s.conns.activity = .hub then { s with err := false, firing := false } else s

def after (s : Indicated) (i : Incident) (e : ConnectionEvent) (t : Connections) : Indicated := { s with
  conns := t
  err := s.errAfter i t e
  request := s.requestAfter e
  firing := s.firing || e matches .wakeTimer _
  writing := s.writingAfter e
  bad := s.badAfter i t e }

end Indicated

inductive IndicatorEvent
  | server (e : ConnectionEvent) (i : Incident)
  /-- Python code sets the access logger, or unsets it. -/
  | accessLogger (installed : Bool)
  deriving DecidableEq, Repr

def indicatorStep (s : Indicated) : IndicatorEvent → Option Indicated
  | .server e i =>
    if s.fits i e then (connectionStep s.conns e).map fun t => (s.after i e t).settle else none
  | .accessLogger installed => s.conns.caller.map fun _ => { s with accessLog := installed }

def Indicated.start (maxFd keepAliveTimeout now : ℕ) (accessLog : Bool) : Indicated where
  conns := .start maxFd keepAliveTimeout now
  accessLog := accessLog

/-- No error gets from one connection to another: the indicator is clear whenever the run loop goes
on, so a callback throws into a greenlet only what it has raised itself; and no request is dispatched
with an error set. -/
structure Contains (s : Indicated) : Prop where
  clear : s.conns.activity = .hub → s.err = false
  thrown : s.conns.activity = .hub → ∀ timedOut, (s.err || timedOut) = timedOut
  called : ∀ c, s.conns.activity = .dispatch c → s.headGood = true → s.err = false

/-- What raises is cleared later: an unknown protocol is asked for by the only request there is and
an access logger is installed; so it is where `close` raises, unless an error is logged after it;
what raises before it resumes a greenlet finds it waiting; no greenlet of a connection waits with
an error set; and the body of a request can be opened. -/
def StepClears (s : Indicated) : IndicatorEvent → Prop
  | .server e i =>
    match e with
    | .accept _ (some (.finished n)) => i.protocol = true → s.accessLog = true ∧ n = 1
    | .read fd (.finished n) => i.protocol = true → s.accessLog = true ∧ ∀ c,
        s.conns.picoev.watches fd = some (.read c) → (s.conns.conn c).queue.length + n = 1
    | .inputFailed => False
    | .closeClient => i.close = .raised → s.accessLog = true ∧ s.request = true
    | .finish _ => i.failed = false → closeIndicator s.err i.close = true → s.accessLog = true
    | .wakeFd fd _ => i.timedOut = true → ∀ g, s.conns.picoev.watches fd = some (.wake g) →
        (s.conns.worker g).state = .waiting
    | .suspendClient _ _ _ | .trampoline _ _ _ | .waitWrite | .sleep => s.err = false
    | _ => True
  | .accessLogger _ => True

/-! An error that is set will be logged. -/

namespace Indicated

structure Logged (s : Indicated) : Prop where
  hub : s.conns.activity = .hub → s.err = false
  dispatch : ∀ c, s.conns.activity = .dispatch c → s.err = true →
    s.accessLog = true ∧ ∃ i q, (s.conns.conn c).queue = i :: q ∧ s.bad c i = true
  closing : ∀ c k, s.conns.activity = .closing c k → s.err = true →
    s.accessLog = true ∧ s.request = true

theorem Logged.of_clear {s : Indicated} (h : s.err = false) : s.Logged :=
  ⟨fun _ => h,fun _ _ he => by simp [h] at he,fun _ _ _ he => by simp [h] at he⟩

theorem Logged.of_greenlet {s : Indicated} {g : ℕ} (h : s.conns.activity = .greenlet g) : s.Logged :=
  ⟨fun ha => by simp [h] at ha,fun _ ha => by simp [h] at ha,fun _ _ ha => by simp [h] at ha⟩

theorem Logged.settle {s : Indicated} (h : s.Logged) : s.settle.Logged := by
  unfold Indicated.settle
  split
  · exact .of_clear rfl
  · exact h

theorem Logged.contains {s : Indicated} (h : s.Logged) : Contains s where
  clear := h.hub
  thrown hact timedOut := by simp [h.hub hact]
  called c hact hgood := by
    by_contra hne
    obtain ⟨-,i,q,hq,hbad⟩ := h.dispatch c hact (by simpa using hne)
    simp [Indicated.headGood,hact,hq,hbad] at hgood

/-- Steps that keep the indicator and whatever runs. -/
theorem Logged.same {s : Indicated} {i : Incident} {e : ConnectionEvent} {t : Connections}
    (h : s.Logged) (herr : s.errAfter i t e = s.err) (hact : t.activity = s.conns.activity)
    (hcaller : s.conns.caller ≠ none) : (s.after i e t).Logged := by
  obtain ⟨k,hk⟩ := Option.ne_none_iff_exists'.mp hcaller
  have hs := Connections.caller_eq_some hk
  cases k with
  | none => exact .of_clear (herr.trans (h.hub hs))
  | some g => exact .of_greenlet (g := g) (hact.trans hs)

theorem Logged.marked {s : Indicated} {i : Incident} {e : ConnectionEvent} {t : Connections} {c k : ℕ}
    (hact : t.activity = .dispatch c) (hqueue : (t.conn c).queue = [k])
    (hlog : s.accessLog = true) (hbad : s.badAfter i t e c k = true) : (s.after i e t).Logged where
  hub ha := by simp [Indicated.after,hact] at ha
  dispatch c' ha _ := by
    have hc : c = c' := Activity.dispatch.inj (hact.symm.trans ha)
    exact ⟨hlog,k,[],hc ▸ hqueue,hc ▸ hbad⟩
  closing c' keepAlive ha := by simp [Indicated.after,hact] at ha

theorem queue_of_finished {s t : Connections} {c n : ℕ}
    (h : s.readRequest c (.finished n) = some t) : t.activity = .dispatch c ∧
      (t.conn c).queue.length = (s.conn c).queue.length + n := by
  simp only [Connections.readRequest,Option.ite_none_left_eq_some,Option.some.injEq] at h
  obtain ⟨-,rfl⟩ := h
  simp [Connections.receive,Connections.setConn]

theorem Logged.accept {s : Indicated} {i : Incident} {fd : ℕ} {r : Option Connections.Reading}
    {t : Connections} (h : s.Logged) (hfits : s.fits i (.accept fd r) = true)
    (hC : StepClears s (.server (.accept fd r) i))
    (hs : connectionStep s.conns (.accept fd r) = some t) : (s.after i (.accept fd r) t).Logged := by
  simp only [connectionStep,Option.ite_none_right_eq_some] at hs
  obtain ⟨⟨hact,-⟩,hs⟩ := hs
  have herr := h.hub hact
  cases r with
  | none => exact .of_clear rfl
  | some r =>
    by_cases hp : i.protocol = true
    · cases r with
      | finished n =>
        obtain ⟨u,hu,rfl⟩ := Option.map_eq_some_iff.mp hs
        obtain ⟨hdisp,hlen⟩ := queue_of_finished hu
        obtain ⟨hlog,rfl⟩ := hC hp
        have hone : (u.conn s.conns.accepted).queue.length = 1 := by
          simpa [Connections.opened,Connections.setConn] using hlen
        obtain ⟨k,hk⟩ := List.length_eq_one_iff.mp hone
        refine Logged.marked (c := s.conns.accepted) (k := k) hdisp hk hlog ?_
        simp [badAfter,Connections.accepting,hp,hdisp,hk]
      | pending n => simp [fits,hp] at hfits
      | failed page => simp [fits,hp] at hfits
    · exact .of_clear (by simp [after,errAfter,herr,hp])

theorem Logged.read {s : Indicated} {i : Incident} {fd : ℕ} {r : Connections.Reading}
    {t : Connections} (h : s.Logged) (hfits : s.fits i (.read fd r) = true)
    (hC : StepClears s (.server (.read fd r) i))
    (hs : connectionStep s.conns (.read fd r) = some t) : (s.after i (.read fd r) t).Logged := by
  simp only [connectionStep] at hs
  split at hs
  next c hact hw =>
    have herr := h.hub hact
    by_cases hp : i.protocol = true
    · cases r with
      | finished n =>
        obtain ⟨u,hu,rfl⟩ := Option.map_eq_some_iff.mp hs
        obtain ⟨hdisp,hlen⟩ := queue_of_finished hu
        obtain ⟨hlog,hone⟩ := hC hp
        obtain ⟨k,hk⟩ := List.length_eq_one_iff.mp (hlen.trans (hone c hw))
        refine Logged.marked (c := c) (k := k) hdisp hk hlog ?_
        simp [badAfter,Connections.reading,hp,hdisp,hk]
      | pending n => simp [fits,hp] at hfits
      | failed page => simp [fits,hp] at hfits
    · exact .of_clear (by simp [after,errAfter,herr,hp])
  next => simp at hs

theorem errAfter_closeClient {s : Indicated} {i : Incident} {t : Connections}
    (h : s.err = true → s.accessLog = true ∧ s.request = true)
    (hC : i.close = .raised → s.accessLog = true ∧ s.request = true) :
    s.errAfter i t .closeClient = false := by
  by_cases hlog : s.accessLog = true ∧ s.request = true
  · simp [errAfter,hlog]
  · have herr : s.err = false := by simpa using fun he => hlog (h he)
    cases hclose : i.close with
    | raised => exact absurd (hC hclose) hlog
    | skipped => simp [errAfter,closeIndicator,hclose,herr]
    | absent => simp [errAfter,closeIndicator,hclose]
    | returned => simp [errAfter,closeIndicator,hclose,herr]

theorem Logged.finish {s : Indicated} {i : Incident} {keepAlive : Bool} {t : Connections}
    (hC : StepClears s (.server (.finish keepAlive) i))
    (hs : connectionStep s.conns (.finish keepAlive) = some t) :
    (s.after i (.finish keepAlive) t).Logged := by
  simp only [connectionStep] at hs
  split at hs
  next k hact =>
    split at hs
    next c j hk =>
      obtain rfl := Option.some.inj hs
      have hserving : s.conns.serving = some (k,c,j) := by simp [Connections.serving,hact,hk]
      refine ⟨fun ha => by simp [after] at ha,fun _ ha => by simp [after] at ha,fun _ _ _ he => ?_⟩
      simp only [after,errAfter,hserving,Bool.and_eq_true,Bool.not_eq_true'] at he
      exact ⟨hC he.1 he.2,rfl⟩
    next hk =>
      refine .of_clear ?_
      simp [after,errAfter,Connections.serving,hact,hk]
  next => simp at hs

theorem resume_activity {s : Connections} {g : ℕ} (hact : s.activity = .hub) :
    (s.worker g).state = .waiting ∧ (s.resume g).activity = .greenlet g ∨
      (s.worker g).state ≠ .waiting ∧ (s.resume g).activity = .hub := by
  unfold Connections.resume
  split
  next h => exact .inl ⟨h,rfl⟩
  next h => exact .inr ⟨h,hact⟩

theorem Logged.wakeFd {s : Indicated} {i : Incident} {fd : ℕ} {clear : Bool} {t : Connections}
    (h : s.Logged) (hC : StepClears s (.server (.wakeFd fd clear) i))
    (hs : connectionStep s.conns (.wakeFd fd clear) = some t) :
    (s.after i (.wakeFd fd clear) t).Logged := by
  simp only [connectionStep] at hs
  split at hs
  next g hact hw =>
    obtain rfl := Option.some.inj hs
    have herr := h.hub hact
    have hstate : ∀ b : Bool, ((if b then (Connections.setSuspended { s.conns with
        picoev := s.conns.picoev.del fd } g false) else { s.conns with
        picoev := s.conns.picoev.del fd }).worker g).state = (s.conns.worker g).state ∧
        (if b then (Connections.setSuspended { s.conns with picoev := s.conns.picoev.del fd } g false)
          else { s.conns with picoev := s.conns.picoev.del fd }).activity = .hub := by
      intro b
      cases b <;> simp [Connections.setSuspended,Connections.setWorker,hact]
    obtain ⟨-,hgo⟩ | ⟨hnot,hstay⟩ := resume_activity (g := g) (hstate clear).2
    · exact .of_greenlet hgo
    · refine .of_clear ?_
      have hquiet : i.timedOut = false := by
        by_contra hne
        exact hnot ((hstate clear).1.trans (hC (by simpa using hne) g hw))
      simp only [after,errAfter,hstay,herr,hquiet,Bool.or_self]
  next => simp at hs

/-- Every step that meets the condition leaves the indicator clear, or set where it will be logged. -/
theorem logged_step {s s' : Indicated} {e : IndicatorEvent} (h : s.Logged) (hC : StepClears s e)
    (hs : indicatorStep s e = some s') : s'.Logged := by
  cases e with
  | accessLogger installed =>
    obtain ⟨k,hk,rfl⟩ := Option.map_eq_some_iff.mp hs
    have hact := Connections.caller_eq_some hk
    cases k with
    | none => exact .of_clear (h.hub hact)
    | some g => exact .of_greenlet (g := g) hact
  | server e i =>
    simp only [indicatorStep,Option.ite_none_right_eq_some] at hs
    obtain ⟨hfits,hs⟩ := hs
    obtain ⟨t,ht,rfl⟩ := Option.map_eq_some_iff.mp hs
    refine Logged.settle ?_
    cases e with
    | accept fd r => exact h.accept hfits hC ht
    | read fd r => exact h.read hfits hC ht
    | refuse page keepAlive =>
      simp only [connectionStep] at ht
      split at ht
      next c hact =>
        obtain ⟨u,hu,rfl⟩ := Option.map_eq_some_iff.mp ht
        refine ⟨fun ha => by simp [after] at ha,fun _ ha => by simp [after] at ha,fun _ _ _ he => ?_⟩
        have herr : s.err = true := by simp [after,errAfter] at he; exact he.1
        exact ⟨(h.dispatch c hact herr).1,rfl⟩
      next => simp at ht
    | inputFailed => exact absurd hC id
    | start interim =>
      simp only [connectionStep] at ht
      split at ht
      next c hact =>
        obtain ⟨j,q,-,rfl⟩ := Connections.startHandler_eq_some ht
        exact .of_greenlet rfl
      next => simp at ht
    | closeClient =>
      refine .of_clear (errAfter_closeClient (t := t) (fun he => ?_) hC)
      simp only [connectionStep] at ht
      split at ht
      next c keepAlive hact => exact h.closing c keepAlive hact he
      next => simp at ht
    | write data =>
      obtain ⟨⟨k,c,j⟩,hk,rfl⟩ := Option.map_eq_some_iff.mp ht
      exact .of_greenlet (Connections.serving_eq_some hk).1
    | finish keepAlive => exact .finish hC ht
    | suspendClient g fd timeout => exact .of_clear hC
    | resumeClient g fd =>
      simp only [connectionStep,Option.ite_none_right_eq_some] at ht
      obtain ⟨k,hk,hu⟩ := Option.bind_eq_some_iff.mp ht.2
      have hre := Connections.watch_eq_some hu
      exact h.same rfl (by rw [hre.rest]; rfl) (by simp [hk])
    | cancelWait fd =>
      obtain ⟨k,hk,hu⟩ := Option.bind_eq_some_iff.mp ht
      have hre := Connections.unwatch_eq_some hu
      exact h.same rfl (by rw [hre.rest]) (by simp [hk])
    | trampoline fd events timeout => exact .of_clear hC
    | waitWrite => exact .of_clear hC
    | sleep => exact .of_clear hC
    | spawn =>
      obtain ⟨k,hk,rfl⟩ := Option.map_eq_some_iff.mp ht
      exact h.same rfl rfl (by simp [hk])
    | wakeFd fd clear => exact h.wakeFd hC ht
    | wakeTimer g =>
      simp only [connectionStep,Option.ite_none_right_eq_some] at ht
      exact .of_clear (h.hub ht.1.1)
    | toParent k =>
      simp only [connectionStep,Option.ite_none_right_eq_some] at ht
      obtain ⟨⟨hact,-,-⟩,ht⟩ := ht
      obtain ⟨g,-,rfl⟩ := Option.map_eq_some_iff.mp ht
      obtain ⟨-,hgo⟩ | ⟨-,hstay⟩ := resume_activity (g := g) hact
      · exact .of_greenlet hgo
      · exact .of_clear (by simp [after,errAfter,hstay,h.hub hact])

end Indicated

/-- In a run whose steps all meet the condition no error gets from one connection to another. -/
theorem no_error_leaks {es : List IndicatorEvent} {s : Indicated}
    (maxFd keepAliveTimeout now : ℕ) (accessLog : Bool)
    (hC : Transition.Meets indicatorStep StepClears
      (.start maxFd keepAliveTimeout now accessLog) es)
    (hrun : Transition.run indicatorStep (.start maxFd keepAliveTimeout now accessLog) es = some s) :
    Contains s :=
  (Transition.invariant_run (fun _ _ _ => Indicated.logged_step)
    (Indicated.Logged.of_clear rfl) hC hrun).contains

/-- An unknown protocol is asked for, and the access logger logs the error. -/
theorem no_error_leaks_logged : ∃ s, Transition.run indicatorStep (.start 8 2 100 true)
    [.server (.accept 5 (some (.finished 1))) { protocol := true },.server (.refuse [52] false) {},
      .server .closeClient {}] = some s ∧ Contains s := by
  refine ⟨_,rfl,no_error_leaks 8 2 100 true ?_ (rfl : Transition.run indicatorStep
    (.start 8 2 100 true) [.server (.accept 5 (some (.finished 1))) { protocol := true },
      .server (.refuse [52] false) {},.server .closeClient {}] = some _)⟩
  exact .cons (fun _ => ⟨rfl,rfl⟩) rfl (.cons trivial rfl (.cons (by simp [StepClears]) rfl trivial))

/-- An unknown protocol is asked for, and there is no access logger. -/
theorem error_leaks : ¬∀ es s, Transition.run indicatorStep (.start 8 2 100 false) es = some s →
    Contains s := by
  intro hall
  have hbad := hall [.server (.accept 5 (some (.finished 1))) { protocol := true },
    .server (.refuse [52] false) {},.server .closeClient {}] _ rfl
  exact nomatch (hbad.clear rfl : true = false)

end Meinheld
