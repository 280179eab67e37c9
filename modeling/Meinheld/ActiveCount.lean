import Meinheld.EventLoop

/-! `activecnt`: what the run loop counts by hand, and what is there to be counted. -/
namespace Meinheld

/-- A registration that `activecnt` should count: any but the timer that `kill_server` arms. -/
def counts : Option Callback → Bool
  | none | some .kill => false
  | some _ => true

/-- The descriptors registered for listening, clients or greenlets. -/
def registered (l : Picoev Callback) : Finset ℕ :=
  (Finset.range l.maxFd).filter fun fd => counts (l.watches fd)

def Phase.inFlight : Phase → ℤ
  | .calls true => 1
  | _ => 0

/-- `activecnt` is what there is to count. -/
def Exact (e : EventLoop) : Prop :=
  e.activecnt = (registered e.picoev).card + e.pendings + e.timers.length + e.phase.inFlight

/-- The condition on a call of picoev. A registration that counts in any case finds its descriptor
without one, and one that counts if the descriptor was inactive does not find the timer of
`kill_server`, which is not counted. An unconditional removal finds a counted registration, a
removal that is asked about before does not find that timer. -/
def CallCounts (e : EventLoop) : Call → Prop
  | .add fd _ _ callback .always => callback ≠ .kill ∧ (fd < e.picoev.maxFd → counts (e.picoev.watches fd) = false)
  | .add fd _ _ callback .ifInactive => callback ≠ .kill ∧ e.picoev.watches fd ≠ some .kill
  | .add fd _ _ callback .never => callback = .kill ∧ counts (e.picoev.watches fd) = false
  | .del fd counted => counts (e.picoev.watches fd) = counted
  | .delIfActive fd => e.picoev.watches fd ≠ some .kill
  | .setTimeout _ _ => True

/-- The condition on a step: its calls meet theirs, and the loop is left with nothing registered. -/
def StepCounts (e : EventLoop) : LoopEvent → Prop
  | .run maxFd socks =>
    Transition.Meets EventLoop.call CallCounts (e.started maxFd socks) (listenCalls socks)
  | .operate o => Transition.Meets EventLoop.call CallCounts e (o.calls e.listenSocks)
  | .exit => registered e.picoev = ∅
  | _ => True

theorem card_filter_update {p : ℕ → Bool} {n fd : ℕ} (b : Bool) (h : fd < n) :
    (((Finset.range n).filter fun i => Function.update p fd b i).card : ℤ) =
      ((Finset.range n).filter fun i => p i).card - (if p fd then 1 else 0) + (if b then 1 else 0) := by
  have hmem : fd ∈ Finset.range n := Finset.mem_range.mpr h
  simp only [Finset.card_filter]
  rw [← Finset.add_sum_erase _ _ hmem,← Finset.add_sum_erase _ _ hmem]
  have herase : ∑ i ∈ (Finset.range n).erase fd, (if Function.update p fd b i = true then 1 else 0) =
      ∑ i ∈ (Finset.range n).erase fd, if p i = true then 1 else 0 :=
    Finset.sum_congr rfl fun i hi => by rw [Function.update_of_ne (Finset.ne_of_mem_erase hi)]
  rw [herase]
  cases b <;> cases hp : p fd <;> simp <;> ring

theorem registered_update {l l' : Picoev Callback} {fd : ℕ} {o : Option Callback}
    (hmax : l'.maxFd = l.maxFd) (hw : l'.watches = Function.update l.watches fd o)
    (hfd : fd < l.maxFd) : ((registered l').card : ℤ) =
      (registered l).card - (if counts (l.watches fd) then 1 else 0) + (if counts o then 1 else 0) := by
  have hcongr : (fun i => counts (l'.watches i)) =
      Function.update (fun i => counts (l.watches i)) fd (counts o) := by
    funext i
    by_cases hi : i = fd
    · simp [hw,hi]
    · simp [hw,Function.update_of_ne hi]
  have hcard := card_filter_update (p := fun i => counts (l.watches i)) (counts o) hfd
  simp only [registered,hmax]
  rw [← hcard]
  simp only [← hcongr]

/-- `activecnt` against the registrations alone. -/
def EventLoop.surplus (e : EventLoop) : ℤ := e.activecnt - (registered e.picoev).card

/-- A descriptor that is active has a callback. -/
def Called (l : Picoev Callback) : Prop := ∀ fd, (l.fds fd).active = true → (l.fds fd).callback ≠ none

theorem Called.isActive {l : Picoev Callback} (h : Called l) (fd : ℕ) :
    l.isActive fd = (l.watches fd).isSome := by
  simp only [Picoev.isActive,Picoev.watches]
  split
  next ha => simp [ha,Option.isSome_iff_ne_none,h fd ha]
  next ha => simpa using ha

theorem Called.setFd {l : Picoev Callback} (h : Called l) {fd : ℕ} {t : PicoevFd Callback}
    (ht : t.active = true → t.callback ≠ none) : Called (l.setFd fd t) := by
  intro k hk
  by_cases hkfd : k = fd
  · subst hkfd
    simp only [Picoev.setFd_fds,Function.update_self] at hk ⊢
    exact ht hk
  · simp only [Picoev.setFd_fds,Function.update_of_ne hkfd] at hk ⊢
    exact h k hk

theorem Called.setTimeout {l : Picoev Callback} (h : Called l) (fd secs : ℕ) :
    Called (l.setTimeout fd secs) := by
  obtain ⟨idx,hfds⟩ := Picoev.setTimeout_fds l fd secs
  have hset : Called (l.setFd fd { l.fds fd with timeoutIdx := idx }) := h.setFd (h fd)
  intro k
  rw [hfds]
  exact hset k

theorem Called.del {l : Picoev Callback} (h : Called l) (fd : ℕ) : Called (l.del fd) :=
  Called.setFd ((h.setFd (t := { l.fds fd with events := {} }) (h fd)).setTimeout fd 0) (by simp)

theorem call_called {e e' : EventLoop} {c : Call} (he : Called e.picoev) (h : e.call c = some e') :
    Called e'.picoev := by
  cases c with
  | add fd events secs callback counting =>
    simp only [EventLoop.call] at h
    split at h
    next l hadd =>
      obtain rfl := Option.some.inj h
      obtain ⟨-,rfl⟩ := Picoev.add_eq_some hadd
      exact (he.setFd (by simp)).setTimeout fd secs
    next =>
      split at h
      · simp at h
      · exact Option.some.inj h ▸ he
  | del fd counted =>
    simp only [EventLoop.call,Option.ite_none_right_eq_some,Option.some.injEq] at h
    exact h.2 ▸ he.del fd
  | delIfActive fd =>
    simp only [EventLoop.call,Option.ite_none_right_eq_some,Option.some.injEq] at h
    obtain ⟨-,rfl⟩ := h
    split
    · exact he.del fd
    · exact he
  | setTimeout fd secs =>
    simp only [EventLoop.call,Option.ite_none_right_eq_some,Option.some.injEq] at h
    exact h.2 ▸ he.setTimeout fd secs

theorem registered_add {l l' : Picoev Callback} {fd secs : ℕ} {events : Events}
    {callback : Callback} (h : l.add fd events secs callback = some l') :
    ((registered l').card : ℤ) = (registered l).card -
      (if counts (l.watches fd) then 1 else 0) + (if counts (some callback) then 1 else 0) :=
  registered_update (Picoev.add_maxFd h) (Picoev.add_watches h) (Picoev.add_eq_some h).1

theorem registered_del {l : Picoev Callback} {fd : ℕ} (h : fd < l.maxFd) :
    ((registered (l.del fd)).card : ℤ) =
      (registered l).card - (if counts (l.watches fd) then 1 else 0) := by
  rw [registered_update (Picoev.del_maxFd l fd) (Picoev.del_watches l fd) h]
  simp [counts]

theorem registered_setTimeout (l : Picoev Callback) (fd secs : ℕ) :
    registered (l.setTimeout fd secs) = registered l := by
  simp only [registered,Picoev.setTimeout_watches,(Picoev.setTimeout_frame l fd secs).1]

@[simp] theorem counts_kill : counts (some .kill) = false := rfl

theorem counts_some {callback : Callback} (h : callback ≠ .kill) : counts (some callback) = true := by
  cases callback <;> simp_all [counts]

theorem counts_eq_isSome {o : Option Callback} (h : o ≠ some .kill) : counts o = o.isSome := by
  cases o with
  | none => rfl
  | some callback => exact counts_some fun hk => h (congrArg some hk)

/-- A call that meets its condition moves `activecnt` with the registrations. -/
theorem call_surplus {e e' : EventLoop} {c : Call} (he : Called e.picoev) (hc : CallCounts e c)
    (h : e.call c = some e') : e'.surplus = e.surplus := by
  cases c with
  | add fd events secs callback counting =>
    simp only [EventLoop.call] at h
    split at h
    next l hadd =>
      obtain rfl := Option.some.inj h
      simp only [EventLoop.surplus,registered_add hadd]
      cases counting with
      | always =>
        have hold := hc.2 (Picoev.add_eq_some hadd).1
        simp [Counting.increment,hold,counts_some hc.1]
      | ifInactive =>
        simp only [Counting.increment,he.isActive,counts_eq_isSome hc.2,counts_some hc.1]
        split <;> simp
      | never =>
        obtain ⟨rfl,hold⟩ := hc
        simp [Counting.increment,hold]
    next =>
      split at h
      · simp at h
      · obtain rfl := Option.some.inj h
        rfl
  | del fd counted =>
    simp only [EventLoop.call,Option.ite_none_right_eq_some,Option.some.injEq] at h
    obtain ⟨hfd,rfl⟩ := h
    have hc' : counts (e.picoev.watches fd) = counted := hc
    simp only [EventLoop.surplus,registered_del hfd,hc']
    cases counted <;> simp
  | delIfActive fd =>
    simp only [EventLoop.call,Option.ite_none_right_eq_some,Option.some.injEq] at h
    obtain ⟨hfd,rfl⟩ := h
    have hcount := counts_eq_isSome hc
    rw [← he.isActive] at hcount
    split
    next ha => simp [EventLoop.surplus,registered_del hfd,hcount,ha]
    next => rfl
  | setTimeout fd secs =>
    simp only [EventLoop.call,Option.ite_none_right_eq_some,Option.some.injEq] at h
    obtain ⟨-,rfl⟩ := h
    simp only [EventLoop.surplus,registered_setTimeout]

/-! Steps and runs. -/

/-- What holds between the steps of the loop. Without a loop there are no descriptors. -/
structure Counted (e : EventLoop) : Prop where
  exact : Exact e
  called : Called e.picoev
  stopped : e.phase = .stopped → registered e.picoev = ∅

theorem calls_surplus {cs : List Call} {e e' : EventLoop} (he : Called e.picoev)
    (hc : Transition.Meets EventLoop.call CallCounts e cs)
    (h : Transition.run EventLoop.call e cs = some e') :
    e'.surplus = e.surplus ∧ Called e'.picoev ∧ Framed e e' :=
  @Transition.invariant_run _ _ _ _
    (fun x => x.surplus = e.surplus ∧ Called x.picoev ∧ Framed e x)
    (fun _ _ _ hx hcx hs => ⟨(call_surplus hx.2.1 hcx hs).trans hx.1,call_called hx.2.1 hs,
      hx.2.2.trans (call_framed hs)⟩) _ _ _ ⟨rfl,he,.refl e⟩ hc h

theorem registered_init (maxFd now : ℕ) : registered (.init maxFd now) = ∅ :=
  Finset.filter_eq_empty_iff.mpr fun _ _ => by simp [Picoev.watches,Picoev.init,counts]

theorem called_init (maxFd now : ℕ) : Called (.init maxFd now) := fun fd h => by
  simp [Picoev.init] at h

theorem exact_iff {e : EventLoop} :
    Exact e ↔ e.surplus = e.pendings + e.timers.length + e.phase.inFlight := by
  simp only [Exact,EventLoop.surplus]
  constructor <;> intro h <;> linarith

/-- A step of the loop that touches no registration. -/
theorem Counted.of_quiet {e e' : EventLoop} (he : Counted e)
    (hmax : e'.picoev.maxFd = e.picoev.maxFd) (hw : e'.picoev.watches = e.picoev.watches)
    (hcalled : Called e'.picoev) (hcount : e'.activecnt = e.activecnt)
    (hpend : e'.pendings = e.pendings) (htimers : e'.timers = e.timers)
    (hflight : e'.phase.inFlight = e.phase.inFlight) (hphase : e'.phase = .stopped → e.phase = .stopped) :
    Counted e' := by
  have hreg : registered e'.picoev = registered e.picoev := by simp only [registered,hmax,hw]
  refine ⟨?_,hcalled,fun hs => hreg.trans (he.stopped (hphase hs))⟩
  have := he.exact
  simp only [Exact,hreg,hcount,hpend,htimers,hflight] at this ⊢
  exact this

theorem beginSlot_phase (e : EventLoop) :
    e.beginSlot.phase.inFlight = 0 ∧ e.beginSlot.phase ≠ .stopped := by
  unfold EventLoop.beginSlot
  split <;> exact ⟨rfl,by simp⟩

theorem beginSlot_frame (e : EventLoop) : e.beginSlot.picoev = e.picoev ∧
    e.beginSlot.activecnt = e.activecnt ∧ e.beginSlot.pendings = e.pendings ∧
    e.beginSlot.timers = e.timers := by
  unfold EventLoop.beginSlot
  split <;> exact ⟨rfl,rfl,rfl,rfl⟩

theorem Counted.beginSlot {e : EventLoop} (he : Counted e) (hflight : e.phase.inFlight = 0) :
    Counted e.beginSlot := by
  obtain ⟨hpic,hact,hpend,htim⟩ := beginSlot_frame e
  obtain ⟨hfl,hne⟩ := beginSlot_phase e
  exact he.of_quiet (by rw [hpic]) (by rw [hpic]) (by rw [hpic]; exact he.called) hact hpend htim
    (hfl.trans hflight.symm) fun h => absurd h hne

/-- Every step that meets its condition keeps the count. -/
theorem loopStep_counted {e e' : EventLoop} {l : LoopEvent} (he : Counted e) (hc : StepCounts e l)
    (h : loopStep e l = some e') : Counted e' := by
  have hexact := he.exact
  cases l with
  | tick =>
    obtain rfl := Option.some.inj h
    exact he.of_quiet rfl rfl he.called rfl rfl rfl rfl id
  | run maxFd socks =>
    simp only [loopStep,Option.ite_none_right_eq_some] at h
    obtain ⟨hphase,h⟩ := h
    obtain ⟨hsur,hcalled,hf⟩ := calls_surplus (called_init maxFd e.clock) hc h
    refine ⟨?_,hcalled,fun hs => by simp [hf.phase,EventLoop.started] at hs⟩
    rw [exact_iff,hsur,hf.pendings,hf.timers,hf.phase]
    simp only [EventLoop.surplus,EventLoop.started,registered_init,Finset.card_empty,Nat.cast_zero,
      sub_zero]
    simpa [Exact,he.stopped hphase,hphase,Phase.inFlight] using hexact
  | iterate =>
    simp only [loopStep,Option.ite_none_right_eq_some,Option.some.injEq] at h
    obtain ⟨⟨hphase,_,_⟩,rfl⟩ := h
    exact he.of_quiet rfl rfl he.called rfl rfl rfl (by simp [hphase,Phase.inFlight]) (by simp)
  | firePending =>
    simp only [loopStep,Option.ite_none_right_eq_some,Option.some.injEq] at h
    obtain ⟨⟨hphase,hpos,_,_⟩,rfl⟩ := h
    refine ⟨?_,he.called,by simp⟩
    simp only [Exact,hphase,Phase.inFlight] at hexact ⊢
    omega
  | fireTimer due =>
    simp only [loopStep,Option.ite_none_right_eq_some,Option.some.injEq] at h
    obtain ⟨⟨hphase,hmem,_,_,_⟩,rfl⟩ := h
    refine ⟨?_,he.called,by simp⟩
    have hlen := List.length_erase_of_mem hmem
    have hpos := List.length_pos_of_mem hmem
    simp only [Exact,hphase,Phase.inFlight,hlen] at hexact ⊢
    omega
  | fired =>
    simp only [loopStep,Option.ite_none_right_eq_some,Option.some.injEq] at h
    obtain ⟨hphase,rfl⟩ := h
    refine ⟨?_,he.called,by simp⟩
    simp only [Exact,hphase,Phase.inFlight] at hexact ⊢
    omega
  | poll =>
    simp only [loopStep,Option.ite_none_right_eq_some,Option.some.injEq] at h
    obtain ⟨hphase,rfl⟩ := h
    exact he.of_quiet rfl rfl he.called rfl rfl rfl (by simp [hphase,Phase.inFlight]) (by simp)
  | polled =>
    simp only [loopStep,Option.ite_none_right_eq_some,Option.some.injEq] at h
    obtain ⟨hphase,rfl⟩ := h
    have hnow : Counted { e with picoev := { e.picoev with now := e.currentSec } } :=
      he.of_quiet rfl rfl he.called rfl rfl rfl rfl id
    exact hnow.beginSlot (by simp [hphase,Phase.inFlight])
  | timedOut fd =>
    simp only [loopStep] at h
    split at h
    next j k v hphase =>
      simp only [Option.ite_none_right_eq_some,Option.some.injEq] at h
      obtain ⟨-,rfl⟩ := h
      refine he.of_quiet rfl ?_ (he.called.setFd (he.called k)) rfl rfl rfl
        (by simp [hphase,Phase.inFlight]) (by simp)
      rw [Picoev.unsetTimeout,Picoev.setFd_watches]
      exact Function.update_eq_self k _
    next => simp at h
  | nextWord =>
    simp only [loopStep] at h
    split at h
    next j hphase =>
      simp only [Option.some.injEq] at h
      subst h
      have hcleared : Counted { e with picoev := e.picoev.clearWord j } :=
        he.of_quiet rfl rfl he.called rfl rfl rfl rfl id
      have hflight : e.phase.inFlight = 0 := by simp [hphase,Phase.inFlight]
      unfold EventLoop.nextWord
      simp only
      split
      · exact hcleared.of_quiet rfl rfl hcleared.called rfl rfl rfl hflight.symm (by simp)
      · have hslot : Counted { e with picoev := (e.picoev.clearWord j).nextSlot } :=
          hcleared.of_quiet rfl rfl he.called rfl rfl rfl rfl id
        exact hslot.beginSlot hflight
    next => simp at h
  | next =>
    simp only [loopStep,Option.ite_none_right_eq_some,Option.some.injEq] at h
    obtain ⟨hphase,rfl⟩ := h
    exact he.of_quiet rfl rfl he.called rfl rfl rfl (by simp [hphase,Phase.inFlight]) (by simp)
  | exit =>
    simp only [loopStep,Option.ite_none_right_eq_some,Option.some.injEq] at h
    obtain ⟨⟨hphase,_⟩,rfl⟩ := h
    refine ⟨?_,called_init 0 e.clock,fun _ => registered_init 0 e.clock⟩
    have hnone : registered e.picoev = ∅ := hc
    simp only [Exact,hnone,hphase,registered_init,Phase.inFlight] at hexact ⊢
    exact hexact
  | operate o =>
    simp only [loopStep,Option.ite_none_right_eq_some] at h
    obtain ⟨hbusy,h⟩ := h
    obtain ⟨e1,hrun,rfl⟩ := Option.map_eq_some_iff.mp h
    obtain ⟨hsur,hcalled,hf⟩ := calls_surplus he.called hc hrun
    refine ⟨?_,hcalled,fun hs => ?_⟩
    · have h1 : Exact e1 := by
        rw [exact_iff,hsur,hf.pendings,hf.timers,hf.phase]
        exact exact_iff.mp hexact
      exact h1
    · have hs' : e.phase = .stopped := hf.phase.symm.trans hs
      simp [hs',Phase.busy] at hbusy
  | schedule seconds =>
    simp only [loopStep] at h
    split at h
    · simp at h
    · obtain rfl := Option.some.inj h
      unfold EventLoop.schedule
      split
      · refine ⟨?_,he.called,he.stopped⟩
        simp only [Exact] at hexact ⊢
        push_cast
        linarith
      · refine ⟨?_,he.called,he.stopped⟩
        simp only [Exact,List.length_cons] at hexact ⊢
        push_cast
        linarith

/-- Between two turns of the run loop `activecnt` is the number of descriptors registered for
listening, clients or greenlets, with the pending calls and the timers. -/
theorem activecnt_exact {es : List LoopEvent} {e : EventLoop} (clock : ℕ)
    (hC : Transition.Meets loopStep StepCounts (.start clock) es)
    (hrun : Transition.run loopStep (.start clock) es = some e) (htop : e.phase = .top) :
    e.activecnt = (registered e.picoev).card + e.pendings + e.timers.length := by
  have h0 : Counted (.start clock) := ⟨by
    simp [Exact,EventLoop.start,registered_init,Phase.inFlight],called_init 0 clock,
    fun _ => registered_init 0 clock⟩
  have hcounted := Transition.invariant_run (fun _ _ _ => loopStep_counted) h0 hC hrun
  simpa [Exact,htop,Phase.inFlight] using hcounted.exact

/-- A client is accepted and waits for its request. -/
theorem activecnt_exact_accepted : ∃ e, Transition.run loopStep (.start 100)
    [.run 8 [3],.iterate,.poll,.operate (.accepted 5 2),.polled,.next] = some e ∧ e.phase = .top ∧
      e.activecnt = (registered e.picoev).card + e.pendings + e.timers.length := by
  refine ⟨_,rfl,rfl,activecnt_exact 100 ?_ (rfl : Transition.run loopStep
    (.start 100) [.run 8 [3],.iterate,.poll,.operate (.accepted 5 2),.polled,.next] = some _) rfl⟩
  refine .cons (.cons ⟨by decide,fun _ => rfl⟩ rfl trivial) rfl (.cons trivial rfl (.cons trivial rfl
    (.cons ?_ rfl (.cons trivial rfl (.cons trivial rfl trivial)))))
  exact .cons ⟨by decide,fun _ => rfl⟩ rfl trivial

/-- The server is stopped twice: the second `kill_server` takes the timer of the first out and counts
it, and nothing is counted when it is armed again. -/
theorem activecnt_not_exact : ¬∀ es e, Transition.run loopStep (.start 100) es = some e →
    e.phase = .top → e.activecnt = (registered e.picoev).card + e.pendings + e.timers.length := by
  intro hall
  have hbad := hall [.run 8 [3],.iterate,.poll,.operate (.killServer 0),.operate (.killServer 0),
    .polled,.next] _ rfl rfl
  revert hbad
  decide

end Meinheld
