import Meinheld.EpollSets
import Meinheld.MissedTimeouts

/-! `kill_server`: no connection is accepted after it, and its callback is called in time. -/
namespace Meinheld

/-! ### Accepting -/

def Call.accepts : Call → Bool
  | .add _ _ _ .accept _ => true
  | _ => false

/-- `accept_callback` is in force only for the sockets of the list. -/
def EventLoop.AcceptsListed (e : EventLoop) : Prop :=
  ∀ fd, e.picoev.watches fd = some .accept → fd ∈ e.listenSocks

/-- `accept_callback` is in force for no descriptor. -/
def EventLoop.AcceptsNone (e : EventLoop) : Prop := ∀ fd, e.picoev.watches fd ≠ some .accept

variable {e e' : EventLoop}

/-- Where `accept_callback` is in force after a call, it was before or is registered, and is not
removed. -/
theorem call_accept {c : Call} (h : e.call c = some e') {fd : ℕ}
    (hw : e'.picoev.watches fd = some .accept) : c.fd = fd ∧ c.accepts = true ∨
      e.picoev.watches fd = some .accept ∧ ∀ counted, c ≠ .del fd counted := by
  cases c with
  | add k events secs callback counting =>
    simp only [EventLoop.call] at h
    split at h
    next l hadd =>
      obtain rfl := Option.some.inj h
      rw [Picoev.add_watches hadd] at hw
      by_cases hk : fd = k
      · subst hk
        rw [Function.update_self] at hw
        obtain rfl := Option.some.inj hw
        exact .inl ⟨rfl,rfl⟩
      · rw [Function.update_of_ne hk] at hw
        exact .inr ⟨hw,fun _ => by simp⟩
    next =>
      split at h
      · cases h
      · obtain rfl := Option.some.inj h
        exact .inr ⟨hw,fun _ => by simp⟩
  | del k counted =>
    simp only [EventLoop.call,Option.ite_none_right_eq_some,Option.some.injEq] at h
    obtain ⟨-,rfl⟩ := h
    rw [Picoev.del_watches] at hw
    by_cases hk : fd = k
    · simp [hk] at hw
    · rw [Function.update_of_ne hk] at hw
      refine .inr ⟨hw,fun _ heq => hk ?_⟩
      exact (congrArg Call.fd heq).symm
  | delIfActive k =>
    simp only [EventLoop.call,Option.ite_none_right_eq_some,Option.some.injEq] at h
    obtain ⟨-,rfl⟩ := h
    refine .inr ⟨?_,fun _ => by simp⟩
    split at hw
    · rw [Picoev.del_watches] at hw
      by_cases hk : fd = k
      · simp [hk] at hw
      · rwa [Function.update_of_ne hk] at hw
    · exact hw
  | setTimeout k secs =>
    simp only [EventLoop.call,Option.ite_none_right_eq_some,Option.some.injEq] at h
    obtain ⟨-,rfl⟩ := h
    exact .inr ⟨by rwa [Picoev.setTimeout_watches] at hw,fun _ => by simp⟩

theorem calls_accept {cs : List Call} (h : Transition.run EventLoop.call e cs = some e')
    (hcs : ∀ c ∈ cs, c.accepts = false) {fd : ℕ} (hw : e'.picoev.watches fd = some .accept) :
    e.picoev.watches fd = some .accept ∧ ∀ counted, .del fd counted ∉ cs := by
  induction cs generalizing e with
  | nil =>
    simp only [Transition.run,Option.some.injEq] at h
    exact ⟨h ▸ hw,fun _ => List.not_mem_nil⟩
  | cons c cs ih =>
    obtain ⟨e1,hc,hrun⟩ := Transition.run_cons_eq_some.mp h
    obtain ⟨hw1,hdel⟩ := ih hrun fun c hc => hcs c (List.mem_cons_of_mem _ hc)
    have hno : c.accepts = false := hcs c (by simp)
    obtain ⟨-,hyes⟩ | ⟨hw0,hne⟩ := call_accept hc hw1
    · rw [hno] at hyes
      cases hyes
    · refine ⟨hw0,fun counted hmem => ?_⟩
      rcases List.mem_cons.mp hmem with heq | hmem
      · exact hne counted heq.symm
      · exact hdel counted hmem

theorem killCalls_accepts (timeout : ℕ) (socks : List ℕ) :
    ∀ c ∈ killCalls timeout socks, c.accepts = false := by
  cases socks with
  | nil => simp [killCalls]
  | cons sock socks =>
    intro c hc
    simp only [killCalls,List.mem_cons,List.mem_map] at hc
    rcases hc with rfl | rfl | ⟨s,-,rfl⟩ <;> rfl

theorem Operation.calls_accepts (o : Operation) (socks : List ℕ) :
    ∀ c ∈ o.calls socks, c.accepts = false := by
  cases o with
  | readRequest fd keepAlive => cases keepAlive <;> simp [Operation.calls,Call.accepts]
  | suspendClient fd timeout =>
    simp only [Operation.calls]
    split <;> simp [Call.accepts]
  | trampoline fd read write timeout =>
    simp only [Operation.calls]
    split <;> simp [Call.accepts]
  | timeoutCallback fd closed => cases closed <;> simp [Operation.calls,Call.accepts]
  | killServer timeout => exact killCalls_accepts timeout socks
  | _ => simp [Operation.calls,Call.accepts]

theorem killCalls_del (timeout : ℕ) {socks : List ℕ} {fd : ℕ} (h : fd ∈ socks) :
    .del fd true ∈ killCalls timeout socks := by
  cases socks with
  | nil => cases h
  | cons sock socks =>
    simp only [killCalls,List.mem_cons,List.mem_map]
    rcases List.mem_cons.mp h with rfl | h
    · exact .inl rfl
    · exact .inr (.inr ⟨fd,h,rfl⟩)

theorem operate_frame {o : Operation} (h : e.operate o = some e') : e'.listenSocks = e.listenSocks := by
  obtain ⟨e1,hrun,rfl⟩ := Option.map_eq_some_iff.mp h
  exact (calls_framed hrun).listenSocks

theorem operate_accept {o : Operation} (h : e.operate o = some e') {fd : ℕ}
    (hw : e'.picoev.watches fd = some .accept) :
    e.picoev.watches fd = some .accept ∧ ∀ counted, .del fd counted ∉ o.calls e.listenSocks := by
  obtain ⟨e1,hrun,rfl⟩ := Option.map_eq_some_iff.mp h
  exact calls_accept hrun (o.calls_accepts e.listenSocks) hw

theorem listen_accept {socks ss : List ℕ} (h : Transition.run EventLoop.call e (listenCalls ss) = some e')
    (hall : ∀ fd, e.picoev.watches fd = some .accept → fd ∈ socks) (hss : ∀ s ∈ ss, s ∈ socks) {fd : ℕ}
    (hw : e'.picoev.watches fd = some .accept) : fd ∈ socks := by
  induction ss generalizing e with
  | nil =>
    simp only [listenCalls,List.map_nil,Transition.run,Option.some.injEq] at h
    exact hall fd (h ▸ hw)
  | cons s ss ih =>
    obtain ⟨e1,hc,hrun⟩ := Transition.run_cons_eq_some.mp h
    refine ih hrun (fun k hk => ?_) fun k hk => hss k (List.mem_cons_of_mem _ hk)
    obtain ⟨rfl,-⟩ | ⟨hk,-⟩ := call_accept hc hk
    · exact hss s (by simp)
    · exact hall k hk

theorem watches_init (maxFd now fd : ℕ) : (Picoev.init maxFd now : Picoev Callback).watches fd = none := rfl

/-- A step of any run. -/
theorem loopStep_acceptsListed {l : LoopEvent} (ha : e.AcceptsListed) (h : loopStep e l = some e') :
    e'.AcceptsListed := by
  by_cases hl : (∀ m k, l ≠ .run m k) ∧ (∀ o, l ≠ .operate o) ∧ l ≠ .exit
  · obtain ⟨hsame,hsocks⟩ := loopStep_sameFds h hl.1 hl.2.1 hl.2.2
    intro fd hw
    rw [hsocks]
    exact ha fd (hsame.watches ▸ hw)
  cases l with
  | run maxFd socks =>
    simp only [loopStep,Option.ite_none_right_eq_some] at h
    have hnone : ∀ fd, (e.started maxFd socks).picoev.watches fd = some .accept → fd ∈ socks :=
      fun fd hw => by simp [EventLoop.started,watches_init] at hw
    intro fd hw
    rw [(calls_framed h.2).listenSocks]
    exact listen_accept h.2 hnone (fun s hs => hs) hw
  | operate o =>
    simp only [loopStep,Option.ite_none_right_eq_some] at h
    intro fd hw
    rw [operate_frame h.2]
    exact ha fd (operate_accept h.2 hw).1
  | exit =>
    simp only [loopStep,Option.ite_none_right_eq_some,Option.some.injEq] at h
    obtain ⟨-,rfl⟩ := h
    intro fd hw
    simp [watches_init] at hw
  | _ => simp at hl

theorem loopStep_acceptsNone {l : LoopEvent} (ha : e.AcceptsNone) (hl : ∀ m k, l ≠ .run m k)
    (h : loopStep e l = some e') : e'.AcceptsNone := by
  by_cases hop : (∀ o, l ≠ .operate o) ∧ l ≠ .exit
  · intro fd hw
    exact ha fd ((loopStep_sameFds h hl hop.1 hop.2).1.watches ▸ hw)
  cases l with
  | operate o =>
    simp only [loopStep,Option.ite_none_right_eq_some] at h
    exact fun fd hw => ha fd (operate_accept h.2 hw).1
  | exit =>
    simp only [loopStep,Option.ite_none_right_eq_some,Option.some.injEq] at h
    obtain ⟨-,rfl⟩ := h
    exact fun fd hw => by simp [watches_init] at hw
  | _ => simp at hop hl

theorem killServer_acceptsNone {timeout : ℕ} (ha : e.AcceptsListed)
    (h : e.operate (.killServer timeout) = some e') : e'.AcceptsNone := by
  intro fd hw
  obtain ⟨hfd,hdel⟩ := operate_accept h hw
  exact hdel true (killCalls_del timeout (ha fd hfd))

/-- An event that leaves the timeout of a descriptor alone while the sockets `socks` listen. -/
def LoopEvent.Spares (socks : List ℕ) (fd : ℕ) : LoopEvent → Prop
  | .run _ _ | .exit => False
  | .timedOut k => k ≠ fd
  | .operate o => ∀ c ∈ o.calls socks, c.fd ≠ fd
  | _ => True

theorem call_deadline {w w' : Awaiting} {c : Call} (h : w.call c = some w') {fd : ℕ} (hfd : c.fd ≠ fd) :
    w'.deadline fd = w.deadline fd := by
  obtain ⟨e,-,rfl⟩ := Option.map_eq_some_iff.mp h
  have hup : ∀ o, Function.update w.deadline c.fd o fd = w.deadline fd :=
    fun o => Function.update_of_ne hfd.symm _ _
  cases c with
  | add k events secs callback counting =>
    simp only [Call.await]
    split
    · exact hup _
    · rfl
  | del k counted => exact hup _
  | delIfActive k =>
    simp only [Call.await]
    split
    · exact hup _
    · rfl
  | setTimeout k secs => exact hup _

theorem calls_deadline {cs : List Call} {w w' : Awaiting} {fd : ℕ} (hcs : ∀ c ∈ cs, c.fd ≠ fd)
    (h : Transition.run Awaiting.call w cs = some w') : w'.deadline fd = w.deadline fd := by
  induction cs generalizing w with
  | nil =>
    simp only [Transition.run,Option.some.injEq] at h
    rw [h]
  | cons c cs ih =>
    obtain ⟨w1,hc,hrun⟩ := Transition.run_cons_eq_some.mp h
    exact (ih (fun c hc => hcs c (List.mem_cons_of_mem _ hc)) hrun).trans
      (call_deadline hc (hcs c (by simp)))

theorem awaitingStep_deadline {w w' : Awaiting} {l : LoopEvent} {fd : ℕ}
    (hl : l.Spares w.loop.listenSocks fd) (h : awaitingStep w l = some w') :
    w'.deadline fd = w.deadline fd ∧ w'.loop.listenSocks = w.loop.listenSocks := by
  cases l with
  | run maxFd socks => cases hl
  | exit => cases hl
  | operate o =>
    have hloop := awaitingStep_loop h
    simp only [loopStep,Option.ite_none_right_eq_some] at hloop
    simp only [awaitingStep,Option.ite_none_right_eq_some,Option.map_eq_some_iff] at h
    obtain ⟨-,w1,hrun,rfl⟩ := h
    have hd := calls_deadline hl hrun
    exact ⟨hd,operate_frame hloop.2⟩
  | timedOut k =>
    have hloop := loopStep_sameFds (awaitingStep_loop h) (by simp) (by simp) (by simp)
    simp only [awaitingStep,Option.map_eq_some_iff] at h
    obtain ⟨e1,-,rfl⟩ := h
    exact ⟨Function.update_of_ne (Ne.symm hl) _ _,hloop.2⟩
  | _ =>
    have hloop := loopStep_sameFds (awaitingStep_loop h) (by simp) (by simp) (by simp)
    simp only [awaitingStep,Option.map_eq_some_iff] at h
    obtain ⟨e1,-,rfl⟩ := h
    exact ⟨rfl,hloop.2⟩

theorem awaitingRun_deadline {es : List LoopEvent} {w w' : Awaiting} {fd : ℕ}
    (hes : ∀ l ∈ es, l.Spares w.loop.listenSocks fd)
    (h : Transition.run awaitingStep w es = some w') : w'.deadline fd = w.deadline fd := by
  induction es generalizing w with
  | nil =>
    simp only [Transition.run,Option.some.injEq] at h
    rw [h]
  | cons l es ih =>
    obtain ⟨w1,hl,hrun⟩ := Transition.run_cons_eq_some.mp h
    obtain ⟨hd,hsocks⟩ := awaitingStep_deadline (hes l (by simp)) hl
    exact (ih (fun l hl => hsocks ▸ hes l (List.mem_cons_of_mem _ hl)) hrun).trans hd

/-- The seconds `kill_server` waits. -/
def killSecs (timeout : ℕ) : ℕ := if timeout > 0 then timeout else 1

/-- `kill_server` asks for the timeout at the first of the sockets. -/
theorem killServer_deadline {w w' : Awaiting} {timeout sock : ℕ} {socks : List ℕ}
    (hsocks : w.loop.listenSocks = sock :: socks) (hsock : sock ∉ socks)
    (h : awaitingStep w (.operate (.killServer timeout)) = some w') :
    w'.deadline sock = some (w.loop.clock + killSecs timeout) ∧
      w'.loop.listenSocks = w.loop.listenSocks := by
  have hloop := awaitingStep_loop h
  simp only [loopStep,Option.ite_none_right_eq_some] at hloop
  refine ⟨?_,operate_frame hloop.2⟩
  simp only [awaitingStep,Option.ite_none_right_eq_some,Option.map_eq_some_iff,hsocks,Operation.calls,
    killCalls] at h
  obtain ⟨-,w3,hrun,rfl⟩ := h
  obtain ⟨w1,hdel,hrun⟩ := Transition.run_cons_eq_some.mp hrun
  obtain ⟨w2,hadd,hrun⟩ := Transition.run_cons_eq_some.mp hrun
  have hrest : w3.deadline sock = w2.deadline sock := by
    refine calls_deadline (fun c hc => ?_) hrun
    obtain ⟨s,hs,rfl⟩ := List.mem_map.mp hc
    exact fun heq => hsock (heq ▸ hs)
  obtain ⟨e1,he1,rfl⟩ := Option.map_eq_some_iff.mp hdel
  obtain ⟨e2,he2,rfl⟩ := Option.map_eq_some_iff.mp hadd
  simp only [EventLoop.call,Option.ite_none_right_eq_some,Option.some.injEq] at he1
  obtain ⟨hlt,rfl⟩ := he1
  have hsecs : (if timeout > 0 then timeout else 1) ≠ 0 := by split <;> omega
  show w3.deadline sock = _
  rw [hrest]
  simp only [Call.await,Picoev.del_maxFd,if_pos hlt,EventLoop.runsOut,if_neg hsecs,
    Function.update_self,killSecs]

/-- As long as the socket is left alone and the callback of the shutdown is not called, no pass over
the timeouts is later than the seconds `kill_server` waits. -/
theorem kill_in_time {clock timeout sock : ℕ} {socks : List ℕ} {es es' : List LoopEvent} {w1 w : Awaiting}
    (h1 : Transition.run awaitingStep (.start clock) es = some w1)
    (hsocks : w1.loop.listenSocks = sock :: socks) (hsock : sock ∉ socks)
    (hrun : Transition.run awaitingStep w1 (.operate (.killServer timeout) :: es') = some w)
    (hes : ∀ l ∈ es', l.Spares w1.loop.listenSocks sock) (hscan : w.loop.phase.scan = none) :
    w.loop.picoev.now ≤ w1.loop.clock + killSecs timeout := by
  obtain ⟨w2,hkill,h2⟩ := Transition.run_cons_eq_some.mp hrun
  obtain ⟨hd,hlisten⟩ := killServer_deadline hsocks hsock hkill
  have hkept := awaitingRun_deadline (fun l hl => hlisten ▸ hes l hl) h2
  have hall : Transition.run awaitingStep (.start clock)
      (es ++ .operate (.killServer timeout) :: es') = some w :=
    Transition.run_append_eq_some.mpr ⟨w1,h1,hrun⟩
  have hattended : Attended w := Transition.invariant_run (fun _ _ _ ha _ => awaitingStep_attended ha)
    (start_attended clock)
    (.of_forall fun _ _ _ => trivial : Transition.Meets awaitingStep (fun _ _ => True) _ _) hall
  exact hattended.holds.now_le (hattended.caught hscan) (hkept.trans hd)

/-- Two sockets listen, and a client is suspended. -/
def servingRun : List LoopEvent :=
  [.run 8 [3,4],.iterate,.poll,.operate (.acceptRead 3),.operate (.suspendClient 5 60)]

/-- Two seconds of shutdown. -/
def closingRun : List LoopEvent :=
  [.polled,.next,.tick,.tick,.iterate,.poll,.polled] ++ List.replicate 16 .nextWord

theorem kill_in_time_suspended : ∃ w1 w, Transition.run awaitingStep (.start 100) servingRun = some w1 ∧
    Transition.run awaitingStep w1 (.operate (.killServer 2) :: closingRun) = some w ∧
    w.loop.phase = .after ∧ w.loop.picoev.now ≤ 100 + killSecs 2 := by
  have hends : (Transition.run awaitingStep (.start 100) servingRun).any (fun w1 =>
      w1.loop.listenSocks = [3,4] ∧ w1.loop.clock = 100 ∧
      (Transition.run awaitingStep w1 (.operate (.killServer 2) :: closingRun)).any fun w =>
        w.loop.phase = .after) = true := by decide +kernel
  obtain ⟨w1,h1,hw1⟩ := (Option.any_eq_true _ _).mp hends
  obtain ⟨hsocks,hclock,hw⟩ := of_decide_eq_true hw1
  obtain ⟨w,hrun,hphase⟩ := (Option.any_eq_true _ _).mp hw
  replace hphase := of_decide_eq_true hphase
  have hspares : ∀ l ∈ closingRun, l.Spares w1.loop.listenSocks 3 := by
    intro l hl
    fin_cases hl <;> trivial
  have hle := kill_in_time h1 hsocks (by decide) hrun hspares (by rw [hphase]; rfl)
  rw [hclock] at hle
  exact ⟨w1,w,h1,hrun,hphase,hle⟩

end Meinheld
