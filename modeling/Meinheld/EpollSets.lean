import Meinheld.EventLoop

/-! `picoev_epoll.c`: what the kernel watches for the run loop. The deletes are deferred, and what is
added is added with `EPOLLEXCLUSIVE`. -/
namespace Meinheld

/-! ### The kernel -/

/-- A descriptor of an epoll set. -/
structure EpollEntry where
  events : Events
  exclusive : Bool
  deriving DecidableEq, Repr

abbrev EpollSet := ℕ → Option EpollEntry

/-- `epoll_ctl` with `EPOLL_CTL_ADD`, and whether it succeeds: a descriptor that is there gives
`EEXIST`. -/
def EpollSet.add (t : EpollSet) (fd : ℕ) (entry : EpollEntry) : Bool × EpollSet :=
  match t fd with
  | none => (true,Function.update t fd (some entry))
  | some _ => (false,t)

/-- `epoll_ctl` with `EPOLL_CTL_MOD`: a descriptor that is not there gives `ENOENT`, and one that has
been added with `EPOLLEXCLUSIVE` gives `EINVAL` on a kernel that knows the flag. -/
def EpollSet.mod (knows : Bool) (t : EpollSet) (fd : ℕ) (events : Events) : Bool × EpollSet :=
  match t fd with
  | none => (false,t)
  | some entry =>
    if knows ∧ entry.exclusive then (false,t)
    else (true,Function.update t fd (some { entry with events := events }))

/-- `EPOLL_CTL_DEL`, and `close` of the descriptor. -/
def EpollSet.remove (t : EpollSet) (fd : ℕ) : EpollSet := Function.update t fd none

/-- `picoev_update_events_internal`, where `old` is `target->events`. -/
def EpollSet.updateEvents (knows : Bool) (t : EpollSet) (fd : ℕ) (old events : Events) (del : Bool) :
    EpollSet :=
  if events = old then t
  else if del then t
  else if events = {} then t.remove fd
  else
    let r := t.mod knows fd events
    if r.1 then r.2 else (r.2.add fd ⟨events,true⟩).2

/-! ### The loop -/

/-- The run loop with its epoll set, and the events of `epoll_wait` that are not handled yet. -/
structure EpollLoop where
  loop : EventLoop
  set : EpollSet := fun _ => none
  batch : List (ℕ × Events) := []

/-- What a call of picoev makes of the set. `picoev_add` sets `target->events` to 0 before. -/
def EpollLoop.callSet (knows : Bool) (s : EpollLoop) : Call → EpollSet
  | .add fd events _ _ _ =>
    if fd < s.loop.picoev.maxFd then s.set.updateEvents knows fd {} events false else s.set
  | .del fd _ => s.set.updateEvents knows fd (s.loop.picoev.fds fd).events {} true
  | .delIfActive fd =>
    if s.loop.picoev.isActive fd then
      s.set.updateEvents knows fd (s.loop.picoev.fds fd).events {} true
    else s.set
  | .setTimeout _ _ => s.set

def EpollLoop.call (knows : Bool) (s : EpollLoop) (c : Call) : Option EpollLoop :=
  (s.loop.call c).map fun e => { s with loop := e, set := s.callSet knows c }

inductive EpollEvent
  | loop (l : LoopEvent)
  /-- `epoll_wait` returns these events. -/
  | wait (batch : List (ℕ × Events))
  /-- The next of them is handled: a callback is about to be called, or the descriptor is removed. -/
  | handle
  /-- A descriptor is closed, by the server or the application. -/
  | close (fd : ℕ)
  deriving DecidableEq, Repr

/-- The size of `loop->events`. -/
def epollEvents : ℕ := 1024

/-- An event that `epoll_wait` can report. Neither `EPOLLIN` nor `EPOLLOUT` may be in it. -/
def EpollSet.Reports (t : EpollSet) (x : ℕ × Events) : Prop :=
  ∃ entry ∈ t x.1, (x.2.read → entry.events.read) ∧ (x.2.write → entry.events.write)

instance (t : EpollSet) (x : ℕ × Events) : Decidable (t.Reports x) := by
  unfold EpollSet.Reports
  infer_instance

/-- The events that are asked for a descriptor that is watched. -/
def Picoev.wanted {κ : Type} (l : Picoev κ) (fd : ℕ) : Option Events :=
  if (l.fds fd).active ∧ (l.fds fd).events ≠ {} then some (l.fds fd).events else none

/-- One event; `none` as in `loopStep`. -/
def epollStep (knows : Bool) (s : EpollLoop) : EpollEvent → Option EpollLoop
  | .loop (.run maxFd socks) =>
    if s.loop.phase = .stopped then
      Transition.run (EpollLoop.call knows) { loop := s.loop.started maxFd socks } (listenCalls socks)
    else none
  | .loop (.operate o) =>
    if s.loop.phase.busy then
      (Transition.run (EpollLoop.call knows) s (o.calls s.loop.listenSocks)).map fun s' =>
        { s' with loop := s'.loop.finish o }
    else none
  -- `picoev_destroy_loop` closes the set
  | .loop .exit => (loopStep s.loop .exit).map fun e => { loop := e }
  | .loop .poll => none
  | .loop .polled =>
    if s.batch = [] then (loopStep s.loop .polled).map fun e => { s with loop := e } else none
  | .loop l => (loopStep s.loop l).map fun e => { s with loop := e }
  | .wait batch =>
    if batch.length ≤ epollEvents ∧ (batch.map (·.1)).Nodup ∧ ∀ x ∈ batch, s.set.Reports x then
      (loopStep s.loop .poll).map fun e => { s with loop := e, batch := batch }
    else none
  | .handle =>
    match s.loop.phase,s.batch with
    | .events,(fd,_) :: batch =>
      some { s with
        set := if (s.loop.picoev.wanted fd).isSome then s.set else s.set.remove fd
        batch := batch }
    | _,_ => none
  | .close fd => some { s with set := s.set.remove fd }

def EpollLoop.start (clock : ℕ) : EpollLoop := { loop := .start clock }

/-! ### What is wanted -/

namespace Picoev
variable {κ : Type} (l : Picoev κ)

theorem wanted_setFd (fd : ℕ) (t : PicoevFd κ) : (l.setFd fd t).wanted =
    Function.update l.wanted fd (if t.active ∧ t.events ≠ {} then some t.events else none) := by
  funext k
  by_cases hk : k = fd
  · simp [wanted,hk]
  · simp [wanted,Function.update_of_ne hk]

theorem wanted_setTimeout (fd secs : ℕ) : (l.setTimeout fd secs).wanted = l.wanted := by
  obtain ⟨idx,h⟩ := setTimeout_fds l fd secs
  funext k
  by_cases hk : k = fd
  · simp [wanted,h,hk]
  · simp [wanted,h,Function.update_of_ne hk]

theorem wanted_del (fd : ℕ) : (l.del fd).wanted = Function.update l.wanted fd none := by
  rw [del,wanted_setFd,wanted_setTimeout,wanted_setFd,Function.update_idem]
  simp

variable {l}

theorem wanted_add {l' : Picoev κ} {fd secs : ℕ} {events : Events} {callback : κ}
    (h : l.add fd events secs callback = some l') :
    l'.wanted = Function.update l.wanted fd (if events ≠ {} then some events else none) := by
  obtain ⟨-,rfl⟩ := add_eq_some h
  rw [wanted_setTimeout,wanted_setFd]
  simp

end Picoev

/-! ### What the kernel watches -/

/-- The kernel watches what is wanted. -/
def EpollLoop.Agrees (s : EpollLoop) : Prop :=
  ∀ fd events, s.loop.picoev.wanted fd = some events → (s.set fd).map (·.events) = some events

/-- All that is in the set has been added with `EPOLLEXCLUSIVE`. -/
def EpollLoop.Exclusive (s : EpollLoop) : Prop := ∀ fd, ∀ entry ∈ s.set fd, entry.exclusive

/-- A registration changes nothing in the set that the kernel would not change. -/
def EpollLoop.Changes (knows : Bool) (s : EpollLoop) : Call → Prop
  | .add fd events _ _ _ =>
    knows → events ≠ {} → fd < s.loop.picoev.maxFd → ∀ entry ∈ s.set fd, entry.events = events
  | _ => True

variable {knows : Bool} {s s' : EpollLoop}

theorem EpollSet.mod_add (knows : Bool) (t : EpollSet) (fd : ℕ) {events : Events} (he : events ≠ {})
    (ht : ∀ entry ∈ t fd, entry.exclusive) : t.updateEvents knows fd {} events false =
      if knows ∧ (t fd).isSome then t else Function.update t fd (some ⟨events,true⟩) := by
  unfold EpollSet.updateEvents EpollSet.mod EpollSet.add
  rw [if_neg he,if_neg (by simp),if_neg he]
  cases hfd : t fd with
  | none => simp [hfd]
  | some entry =>
    have hex : entry.exclusive = true := ht entry hfd
    cases knows with
    | true => simp [hfd,hex]
    | false => simp [hex]

theorem EpollSet.updateEvents_del (knows : Bool) (t : EpollSet) (fd : ℕ) (old : Events) :
    t.updateEvents knows fd old {} true = t := by
  unfold EpollSet.updateEvents
  simp

theorem callSet_eq (knows : Bool) (hs : s.Exclusive) (c : Call) : s.callSet knows c = s.set ∨
    ∃ fd events secs callback counting, c = .add fd events secs callback counting ∧
      ¬(knows ∧ (s.set fd).isSome) ∧
      s.callSet knows c = Function.update s.set fd (some ⟨events,true⟩) := by
  cases c with
  | add fd events secs callback counting =>
    simp only [EpollLoop.callSet]
    by_cases hfd : fd < s.loop.picoev.maxFd
    · rw [if_pos hfd]
      by_cases he : events = {}
      · left
        subst he
        simp [EpollSet.updateEvents]
      · rw [EpollSet.mod_add knows s.set fd he (hs fd)]
        by_cases hk : knows ∧ (s.set fd).isSome
        · exact .inl (if_pos hk)
        · exact .inr ⟨fd,events,secs,callback,counting,rfl,hk,if_neg hk⟩
    · exact .inl (if_neg hfd)
  | del fd counted => exact .inl (EpollSet.updateEvents_del knows s.set fd _)
  | delIfActive fd =>
    left
    simp only [EpollLoop.callSet,EpollSet.updateEvents_del,ite_self]
  | setTimeout fd secs => exact .inl rfl

theorem call_exclusive {c : Call} (hs : s.Exclusive) (h : s.call knows c = some s') : s'.Exclusive := by
  obtain ⟨e,-,rfl⟩ := Option.map_eq_some_iff.mp h
  intro fd entry hentry
  obtain hset | ⟨k,events,-,-,-,-,-,hset⟩ := callSet_eq knows hs c
  · exact hs fd entry (by rwa [← hset])
  · simp only [hset] at hentry
    by_cases hk : fd = k
    · subst hk
      rw [Function.update_self] at hentry
      obtain rfl := Option.some.inj hentry
      rfl
    · exact hs fd entry (by rwa [Function.update_of_ne hk] at hentry)

theorem EpollLoop.Agrees.of_wanted (h : s.Agrees) (hset : s'.set = s.set)
    (hw : ∀ fd events, s'.loop.picoev.wanted fd = some events → s.loop.picoev.wanted fd = some events) :
    s'.Agrees := by
  intro fd events hfd
  rw [hset]
  exact h fd events (hw fd events hfd)

theorem wanted_del_some {l : Picoev Callback} {fd k : ℕ} {events : Events}
    (h : (l.del fd).wanted k = some events) : l.wanted k = some events := by
  rw [Picoev.wanted_del] at h
  by_cases hk : k = fd
  · simp [hk] at h
  · rwa [Function.update_of_ne hk] at h

/-- A call keeps the agreement exactly when it changes nothing that cannot be changed. -/
theorem call_agrees {c : Call} (hs : s.Exclusive) (ha : s.Agrees) (h : s.call knows c = some s') :
    s'.Agrees ↔ s.Changes knows c := by
  obtain ⟨e,he,rfl⟩ := Option.map_eq_some_iff.mp h
  cases c with
  | add fd events secs callback counting =>
    simp only [EventLoop.call] at he
    cases hadd : s.loop.picoev.add fd events secs callback with
    | none =>
      have hfd : ¬fd < s.loop.picoev.maxFd := by
        intro hfd
        simp [Picoev.add,hfd] at hadd
      rw [hadd] at he
      simp only at he
      split at he
      · cases he
      · cases he
        refine iff_of_true (ha.of_wanted ?_ fun k w hw => hw) fun _ _ h => absurd h hfd
        simp only [EpollLoop.callSet,if_neg hfd]
    | some l =>
      obtain ⟨hfd,-⟩ := Picoev.add_eq_some hadd
      rw [hadd] at he
      simp only [Option.some.injEq] at he
      subst he
      have hw := Picoev.wanted_add hadd
      by_cases hev : events = {}
      · refine iff_of_true (ha.of_wanted ?_ fun k w hk => ?_) fun _ h => absurd hev h
        · simp [EpollLoop.callSet,EpollSet.updateEvents,hev]
        · rw [hw] at hk
          by_cases hkfd : k = fd
          · simp [hkfd,hev] at hk
          · rwa [Function.update_of_ne hkfd] at hk
      rw [if_pos hev] at hw
      have hset : s.callSet knows (.add fd events secs callback counting) =
          if knows ∧ (s.set fd).isSome then s.set
          else Function.update s.set fd (some ⟨events,true⟩) := by
        simp only [EpollLoop.callSet,if_pos hfd]
        exact EpollSet.mod_add knows s.set fd hev (hs fd)
      by_cases hk : knows ∧ (s.set fd).isSome
      · rw [if_pos hk] at hset
        obtain ⟨entry,hentry⟩ := Option.isSome_iff_exists.mp hk.2
        constructor
        · intro hagree _ _ _ x hx
          have hfd' := hagree fd events (by simp only [hw,Function.update_self])
          simp only [hset] at hfd'
          rw [show s.set fd = some x from hx] at hfd'
          exact Option.some.inj hfd'
        · intro hch k w hkw
          simp only [hw] at hkw
          simp only [hset]
          by_cases hkfd : k = fd
          · subst hkfd
            rw [Function.update_self] at hkw
            rw [hentry,Option.map_some,hch hk.1 hev hfd entry hentry,hkw]
          · rw [Function.update_of_ne hkfd] at hkw
            exact ha k w hkw
      · rw [if_neg hk] at hset
        refine iff_of_true (fun k w hkw => ?_) fun h1 _ _ x hx => ?_
        · simp only [hw] at hkw
          simp only [hset]
          by_cases hkfd : k = fd
          · subst hkfd
            rw [Function.update_self] at hkw ⊢
            rw [Option.map_some,hkw]
          · rw [Function.update_of_ne hkfd] at hkw ⊢
            exact ha k w hkw
        · exact absurd ⟨h1,Option.isSome_iff_exists.mpr ⟨x,hx⟩⟩ hk
  | del fd counted =>
    simp only [EventLoop.call,Option.ite_none_right_eq_some,Option.some.injEq] at he
    obtain ⟨-,rfl⟩ := he
    exact iff_of_true (ha.of_wanted (EpollSet.updateEvents_del knows s.set fd _) fun k w =>
      wanted_del_some) trivial
  | delIfActive fd =>
    simp only [EventLoop.call,Option.ite_none_right_eq_some,Option.some.injEq] at he
    obtain ⟨-,rfl⟩ := he
    refine iff_of_true (ha.of_wanted ?_ fun k w hw => ?_) trivial
    · simp only [EpollLoop.callSet,EpollSet.updateEvents_del,ite_self]
    · split at hw
      · exact wanted_del_some hw
      · exact hw
  | setTimeout fd secs =>
    simp only [EventLoop.call,Option.ite_none_right_eq_some,Option.some.injEq] at he
    obtain ⟨-,rfl⟩ := he
    exact iff_of_true (ha.of_wanted rfl fun k w hw => by rwa [Picoev.wanted_setTimeout] at hw) trivial

/-- A call that asks for no events. -/
def Call.Quiet : Call → Prop
  | .add _ events _ _ _ => events = {}
  | _ => True

theorem Call.Quiet.changes {c : Call} (h : c.Quiet) (s : EpollLoop) : s.Changes knows c := by
  cases c with
  | add fd events secs callback counting => exact fun _ he => absurd h he
  | del | delIfActive | setTimeout => trivial

theorem killCalls_quiet (timeout : ℕ) (socks : List ℕ) : ∀ c ∈ killCalls timeout socks, c.Quiet := by
  cases socks with
  | nil => simp [killCalls]
  | cons sock socks =>
    intro c hc
    simp only [killCalls,List.mem_cons,List.mem_map] at hc
    obtain rfl | rfl | ⟨k,-,rfl⟩ := hc
    · trivial
    · rfl
    · trivial

theorem Operation.calls_quiet (o : Operation) (socks : List ℕ) :
    (∃ c, o.calls socks = [c]) ∨ ∀ c ∈ o.calls socks, c.Quiet := by
  cases o with
  | readRequest fd keepAlive => cases keepAlive <;> simp [Operation.calls]
  | suspendClient fd timeout =>
    left
    simp only [Operation.calls]
    split <;> exact ⟨_,rfl⟩
  | trampoline fd read write timeout =>
    simp only [Operation.calls]
    split
    · exact .inr (by simp)
    · exact .inl ⟨_,rfl⟩
  | timeoutCallback fd closed => cases closed <;> simp [Operation.calls,Call.Quiet]
  | killServer timeout => exact .inr (killCalls_quiet timeout socks)
  | setupFailed => exact .inr (by simp [Operation.calls])
  | _ => exact .inl ⟨_,rfl⟩

theorem calls_exclusive {cs : List Call} (hs : s.Exclusive)
    (h : Transition.run (EpollLoop.call knows) s cs = some s') : s'.Exclusive :=
  Transition.invariant_run (C := fun _ _ => True) (fun _ _ _ hs _ hc => call_exclusive hs hc) hs
    (Transition.Meets.of_forall fun _ _ _ => trivial) h

theorem quiet_agrees {cs : List Call} (hs : s.Exclusive) (ha : s.Agrees) (hq : ∀ c ∈ cs, c.Quiet)
    (h : Transition.run (EpollLoop.call knows) s cs = some s') : s'.Agrees := by
  induction cs generalizing s with
  | nil =>
    cases h
    exact ha
  | cons c cs ih =>
    obtain ⟨hc,hq⟩ := List.forall_mem_cons.mp hq
    obtain ⟨s1,h1,hrun⟩ := Transition.run_cons_eq_some.mp h
    exact ih (call_exclusive hs h1) ((call_agrees hs ha h1).mpr (hc.changes s)) hq hrun

theorem operate_agrees {o : Operation} {socks : List ℕ} (hs : s.Exclusive) (ha : s.Agrees)
    (h : Transition.run (EpollLoop.call knows) s (o.calls socks) = some s') :
    s'.Agrees ↔ ∀ c ∈ o.calls socks, s.Changes knows c := by
  obtain ⟨c,hc⟩ | hq := o.calls_quiet socks
  · rw [hc] at h ⊢
    obtain ⟨s1,h1,hrun⟩ := Transition.run_cons_eq_some.mp h
    cases hrun
    simpa using call_agrees hs ha h1
  · exact iff_of_true (quiet_agrees hs ha hq h) fun c hc => (hq c hc).changes s

/-- The listening sockets are all added for reading. -/
theorem listen_agrees {socks : List ℕ} (hs : s.Exclusive) (ha : s.Agrees)
    (hread : ∀ fd, ∀ entry ∈ s.set fd, entry.events = ⟨true,false⟩)
    (h : Transition.run (EpollLoop.call knows) s (listenCalls socks) = some s') : s'.Agrees := by
  induction socks generalizing s with
  | nil =>
    cases h
    exact ha
  | cons sock socks ih =>
    obtain ⟨s1,h1,hrun⟩ := Transition.run_cons_eq_some.mp h
    refine ih (call_exclusive hs h1) ((call_agrees hs ha h1).mpr fun _ _ _ => hread sock)
      (fun fd entry hentry => ?_) hrun
    obtain ⟨e,-,rfl⟩ := Option.map_eq_some_iff.mp h1
    obtain hset | ⟨k,events,secs,callback,counting,hc,-,hset⟩ := callSet_eq knows hs
      (.add sock ⟨true,false⟩ ACCEPT_TIMEOUT_SECS .accept .always)
    · exact hread fd entry (by rwa [← hset])
    · cases hc
      simp only [hset] at hentry
      by_cases hk : fd = sock
      · subst hk
        rw [Function.update_self] at hentry
        obtain rfl := Option.some.inj hentry
        rfl
      · exact hread fd entry (by rwa [Function.update_of_ne hk] at hentry)

/-! ### Runs -/

theorem wanted_init (maxFd now : ℕ) (fd : ℕ) : (Picoev.init maxFd now : Picoev Callback).wanted fd = none :=
  if_neg fun h => by cases h.1

/-- Of every descriptor all but its timeout is the same. -/
def Picoev.SameFds {κ : Type} (l l' : Picoev κ) : Prop :=
  ∀ fd, ∃ idx, l'.fds fd = { l.fds fd with timeoutIdx := idx }

theorem Picoev.SameFds.of_eq {κ : Type} {l l' : Picoev κ} (h : l'.fds = l.fds) : l.SameFds l' :=
  fun fd => ⟨(l.fds fd).timeoutIdx,congrFun h fd⟩

theorem Picoev.sameFds_unsetTimeout {κ : Type} (l : Picoev κ) (fd : ℕ) :
    l.SameFds (l.unsetTimeout fd) := by
  intro k
  by_cases hk : k = fd
  · subst hk
    exact ⟨none,Function.update_self ..⟩
  · exact ⟨(l.fds k).timeoutIdx,Function.update_of_ne hk ..⟩

theorem Picoev.SameFds.wanted {κ : Type} {l l' : Picoev κ} (h : l.SameFds l') : l'.wanted = l.wanted := by
  funext fd
  obtain ⟨idx,hfd⟩ := h fd
  simp only [Picoev.wanted,hfd]

theorem Picoev.SameFds.watches {κ : Type} {l l' : Picoev κ} (h : l.SameFds l') :
    l'.watches = l.watches := by
  funext fd
  obtain ⟨idx,hfd⟩ := h fd
  simp only [Picoev.watches,hfd]

theorem beginSlot_picoev (e : EventLoop) : e.beginSlot.picoev = e.picoev := by
  unfold EventLoop.beginSlot
  split <;> rfl

theorem nextWord_fds (e : EventLoop) (j : ℕ) : (e.nextWord j).picoev.fds = e.picoev.fds := by
  unfold EventLoop.nextWord
  simp only
  split
  · rfl
  · rw [beginSlot_picoev]
    rfl

theorem nextWord_listenSocks (e : EventLoop) (j : ℕ) : (e.nextWord j).listenSocks = e.listenSocks := by
  unfold EventLoop.nextWord EventLoop.beginSlot
  simp only
  split <;> try split
  all_goals rfl

/-- The events that are no calls of picoev. -/
theorem loopStep_sameFds {e e' : EventLoop} {l : LoopEvent} (h : loopStep e l = some e')
    (hrun : ∀ m k, l ≠ .run m k) (hop : ∀ o, l ≠ .operate o) (hexit : l ≠ .exit) :
    e.picoev.SameFds e'.picoev ∧ e'.listenSocks = e.listenSocks := by
  cases l with
  | run m k => exact absurd rfl (hrun m k)
  | operate o => exact absurd rfl (hop o)
  | exit => exact absurd rfl hexit
  | tick =>
    cases h
    exact ⟨.of_eq rfl,rfl⟩
  | polled =>
    simp only [loopStep,Option.ite_none_right_eq_some,Option.some.injEq] at h
    obtain ⟨-,rfl⟩ := h
    refine ⟨.of_eq ?_,?_⟩
    · rw [beginSlot_picoev]
    · unfold EventLoop.beginSlot
      split <;> rfl
  | timedOut fd =>
    simp only [loopStep] at h
    split at h
    · simp only [Option.ite_none_right_eq_some,Option.some.injEq] at h
      obtain ⟨-,rfl⟩ := h
      exact ⟨e.picoev.sameFds_unsetTimeout _,rfl⟩
    · cases h
  | nextWord =>
    simp only [loopStep] at h
    split at h
    · cases h
      exact ⟨.of_eq (nextWord_fds e _),nextWord_listenSocks e _⟩
    · cases h
  | schedule seconds =>
    simp only [loopStep,EventLoop.schedule] at h
    split at h
    · cases h
    · cases h
      split <;> exact ⟨.of_eq rfl,rfl⟩
  | _ =>
    simp only [loopStep,Option.ite_none_right_eq_some,Option.some.injEq] at h
    obtain ⟨-,rfl⟩ := h
    exact ⟨.of_eq rfl,rfl⟩

/-- No descriptor is closed that is wanted, and no registration changes what a kernel that knows
`EPOLLEXCLUSIVE` does not change. -/
def Sound (knows : Bool) (s : EpollLoop) : EpollEvent → Prop
  | .loop (.operate o) => ∀ c ∈ o.calls s.loop.listenSocks, s.Changes knows c
  | .close fd => s.loop.picoev.wanted fd = none
  | _ => True

/-- The event of the run loop, where there is one. -/
def EpollEvent.loopEvent : EpollEvent → Option LoopEvent
  | .loop l => some l
  | .wait _ => some .poll
  | _ => none

theorem epollCalls_loop {cs : List Call} (h : Transition.run (EpollLoop.call knows) s cs = some s') :
    Transition.run EventLoop.call s.loop cs = some s'.loop := by
  induction cs generalizing s with
  | nil =>
    simp only [Transition.run,Option.some.injEq] at h
    simp [Transition.run,h]
  | cons c cs ih =>
    obtain ⟨s1,hc,hrun⟩ := Transition.run_cons_eq_some.mp h
    obtain ⟨e,he,rfl⟩ := Option.map_eq_some_iff.mp hc
    exact Transition.run_cons_eq_some.mpr ⟨e,he,ih hrun⟩

/-- What the run loop does is the same, whatever the kernel watches. -/
theorem epollStep_loop {ev : EpollEvent} (h : epollStep knows s ev = some s') :
    Transition.run loopStep s.loop ev.loopEvent.toList = some s'.loop := by
  have hone : ∀ {l : LoopEvent}, loopStep s.loop l = some s'.loop →
      Transition.run loopStep s.loop [l] = some s'.loop := fun hl => by simp [Transition.run,hl]
  cases ev with
  | loop l =>
    refine hone ?_
    cases l with
    | run maxFd socks =>
      simp only [epollStep,Option.ite_none_right_eq_some] at h
      simp only [loopStep,if_pos h.1]
      exact epollCalls_loop h.2
    | operate o =>
      simp only [epollStep,Option.ite_none_right_eq_some] at h
      obtain ⟨s1,hrun,rfl⟩ := Option.map_eq_some_iff.mp h.2
      simp only [loopStep,if_pos h.1,EventLoop.operate,epollCalls_loop hrun,Option.map_some]
    | poll => cases h
    | polled =>
      simp only [epollStep,Option.ite_none_right_eq_some] at h
      obtain ⟨e,he,rfl⟩ := Option.map_eq_some_iff.mp h.2
      exact he
    | _ =>
      simp only [epollStep,Option.map_eq_some_iff] at h
      obtain ⟨e,he,rfl⟩ := h
      exact he
  | wait batch =>
    simp only [epollStep,Option.ite_none_right_eq_some] at h
    obtain ⟨e,he,rfl⟩ := Option.map_eq_some_iff.mp h.2
    exact hone he
  | handle =>
    simp only [epollStep] at h
    split at h
    · cases h
      rfl
    · cases h
  | close fd =>
    cases h
    rfl

theorem remove_exclusive (hs : s.Exclusive) (fd : ℕ) : ∀ k, ∀ entry ∈ s.set.remove fd k, entry.exclusive := by
  intro k entry hentry
  by_cases hk : k = fd
  · simp [EpollSet.remove,hk] at hentry
  · exact hs k entry (by rwa [EpollSet.remove,Function.update_of_ne hk] at hentry)

theorem epollStep_exclusive {ev : EpollEvent} (hs : s.Exclusive) (h : epollStep knows s ev = some s') :
    s'.Exclusive := by
  have hnew : ∀ e : EventLoop, EpollLoop.Exclusive { loop := e } := fun _ _ _ hx => by cases hx
  cases ev with
  | loop l =>
    cases l with
    | run maxFd socks =>
      simp only [epollStep,Option.ite_none_right_eq_some] at h
      exact calls_exclusive (hnew _) h.2
    | operate o =>
      simp only [epollStep,Option.ite_none_right_eq_some] at h
      obtain ⟨s1,hrun,rfl⟩ := Option.map_eq_some_iff.mp h.2
      have h1 : s1.Exclusive := calls_exclusive hs hrun
      exact h1
    | exit =>
      simp only [epollStep] at h
      obtain ⟨e,-,rfl⟩ := Option.map_eq_some_iff.mp h
      exact hnew e
    | poll => cases h
    | polled =>
      simp only [epollStep,Option.ite_none_right_eq_some] at h
      obtain ⟨e,-,rfl⟩ := Option.map_eq_some_iff.mp h.2
      exact hs
    | _ =>
      simp only [epollStep,Option.map_eq_some_iff] at h
      obtain ⟨e,-,rfl⟩ := h
      exact hs
  | wait batch =>
    simp only [epollStep,Option.ite_none_right_eq_some] at h
    obtain ⟨e,-,rfl⟩ := Option.map_eq_some_iff.mp h.2
    exact hs
  | handle =>
    simp only [epollStep] at h
    split at h
    next fd _ rest _ _ =>
      cases h
      by_cases hw : (s.loop.picoev.wanted fd).isSome
      · rw [if_pos hw]
        exact hs
      · rw [if_neg hw]
        exact remove_exclusive hs fd
    · cases h
  | close fd =>
    cases h
    exact remove_exclusive hs fd

/-- One event keeps the agreement exactly when it is sound. -/
theorem epollStep_agrees {ev : EpollEvent} (hs : s.Exclusive) (ha : s.Agrees)
    (h : epollStep knows s ev = some s') : s'.Agrees ↔ Sound knows s ev := by
  have hsame : ∀ {l : LoopEvent} {e : EventLoop}, loopStep s.loop l = some e → (∀ m k, l ≠ .run m k) →
      (∀ o, l ≠ .operate o) → l ≠ .exit → ∀ t : EpollLoop, t.loop = e → t.set = s.set → t.Agrees := by
    intro l e he hrun hop hexit t ht hset
    refine ha.of_wanted hset fun k w hw => ?_
    rwa [ht,(loopStep_sameFds he hrun hop hexit).1.wanted] at hw
  cases ev with
  | loop l =>
    cases l with
    | run maxFd socks =>
      simp only [epollStep,Option.ite_none_right_eq_some] at h
      have hnew : EpollLoop.Exclusive { loop := s.loop.started maxFd socks } := fun _ _ hx => by cases hx
      refine iff_of_true (listen_agrees hnew (fun fd w hw => ?_) (fun _ _ hx => by cases hx) h.2) trivial
      rw [show (s.loop.started maxFd socks).picoev = .init maxFd s.loop.clock from rfl,wanted_init] at hw
      cases hw
    | operate o =>
      simp only [epollStep,Option.ite_none_right_eq_some] at h
      obtain ⟨s1,hrun,rfl⟩ := Option.map_eq_some_iff.mp h.2
      have h1 : s1.Agrees ↔ _ := operate_agrees hs ha hrun
      exact h1
    | exit =>
      simp only [epollStep] at h
      obtain ⟨e,he,rfl⟩ := Option.map_eq_some_iff.mp h
      simp only [loopStep,Option.ite_none_right_eq_some,Option.some.injEq] at he
      obtain ⟨-,rfl⟩ := he
      refine iff_of_true (fun fd w hw => ?_) trivial
      rw [wanted_init] at hw
      cases hw
    | poll => cases h
    | polled =>
      simp only [epollStep,Option.ite_none_right_eq_some] at h
      obtain ⟨e,he,rfl⟩ := Option.map_eq_some_iff.mp h.2
      exact iff_of_true (hsame he (by simp) (by simp) (by simp) { s with loop := e } rfl rfl) trivial
    | _ =>
      simp only [epollStep,Option.map_eq_some_iff] at h
      obtain ⟨e,he,rfl⟩ := h
      exact iff_of_true (hsame he (by simp) (by simp) (by simp) { s with loop := e } rfl rfl) trivial
  | wait batch =>
    simp only [epollStep,Option.ite_none_right_eq_some] at h
    obtain ⟨e,he,rfl⟩ := Option.map_eq_some_iff.mp h.2
    exact iff_of_true (hsame he (by simp) (by simp) (by simp) { s with loop := e, batch := batch } rfl rfl)
      trivial
  | handle =>
    simp only [epollStep] at h
    split at h
    next fd _ rest _ _ =>
      cases h
      by_cases hw : (s.loop.picoev.wanted fd).isSome
      · rw [if_pos hw]
        exact iff_of_true ha trivial
      · rw [if_neg hw]
        refine iff_of_true (fun k w hk => ?_) trivial
        have hne : k ≠ fd := by
          rintro rfl
          exact hw (Option.isSome_iff_exists.mpr ⟨w,hk⟩)
        simp only [EpollSet.remove,Function.update_of_ne hne]
        exact ha k w hk
    · cases h
  | close fd =>
    cases h
    refine ⟨fun hagree => ?_,fun hnone k w hk => ?_⟩
    · by_contra hw
      obtain ⟨w,hw⟩ := Option.ne_none_iff_exists'.mp hw
      have hgone := hagree fd w hw
      simp [EpollSet.remove] at hgone
    · have hne : k ≠ fd := by
        rintro rfl
        cases (show s.loop.picoev.wanted k = none from hnone).symm.trans hk
      simp only [EpollSet.remove,Function.update_of_ne hne]
      exact ha k w hk

theorem start_exclusive (clock : ℕ) : (EpollLoop.start clock).Exclusive := fun _ _ hx => by cases hx

theorem start_agrees (clock : ℕ) : (EpollLoop.start clock).Agrees := by
  intro fd w hw
  rw [show (EpollLoop.start clock).loop.picoev = .init 0 clock from rfl,wanted_init] at hw
  cases hw

/-- An event that takes a descriptor out of the set. -/
def Removes (fd : ℕ) (s : EpollLoop) : EpollEvent → Prop
  | .loop (.run _ _) | .loop .exit => True
  | .close k => k = fd
  | .handle => s.loop.picoev.wanted fd = none ∧ ∃ revents, s.batch.head? = some (fd,revents)
  | _ => False

theorem call_keeps {c : Call} (hs : s.Exclusive) {fd : ℕ} {entry : EpollEntry}
    (he : s.set fd = some entry) (h : s.call true c = some s') : s'.set fd = some entry := by
  obtain ⟨e,-,rfl⟩ := Option.map_eq_some_iff.mp h
  obtain hset | ⟨k,events,-,-,-,-,hk,hset⟩ := callSet_eq true hs c
  · simp only [hset,he]
  · have hne : fd ≠ k := by
      rintro rfl
      exact hk ⟨rfl,by rw [he]; rfl⟩
    simp only [hset,Function.update_of_ne hne,he]

theorem epollStep_keeps {ev : EpollEvent} (hs : s.Exclusive) {fd : ℕ} {entry : EpollEntry}
    (he : s.set fd = some entry) (hr : ¬Removes fd s ev) (h : epollStep true s ev = some s') :
    s'.set fd = some entry := by
  cases ev with
  | loop l =>
    cases l with
    | run maxFd socks => exact absurd trivial hr
    | exit => exact absurd trivial hr
    | operate o =>
      simp only [epollStep,Option.ite_none_right_eq_some] at h
      obtain ⟨s1,hrun,rfl⟩ := Option.map_eq_some_iff.mp h.2
      exact (@Transition.invariant_run _ _ (EpollLoop.call true) (fun _ _ => True)
        (fun s => s.Exclusive ∧ s.set fd = some entry)
        (fun _ _ _ hs _ hc => ⟨call_exclusive hs.1 hc,call_keeps hs.1 hs.2 hc⟩) _ _ _ ⟨hs,he⟩
        (Transition.Meets.of_forall fun _ _ _ => trivial) hrun).2
    | poll => cases h
    | polled =>
      simp only [epollStep,Option.ite_none_right_eq_some] at h
      obtain ⟨e,-,rfl⟩ := Option.map_eq_some_iff.mp h.2
      exact he
    | _ =>
      simp only [epollStep,Option.map_eq_some_iff] at h
      obtain ⟨e,-,rfl⟩ := h
      exact he
  | wait batch =>
    simp only [epollStep,Option.ite_none_right_eq_some] at h
    obtain ⟨e,-,rfl⟩ := Option.map_eq_some_iff.mp h.2
    exact he
  | handle =>
    simp only [epollStep] at h
    split at h
    next k revents rest _ hbatch =>
      cases h
      by_cases hw : (s.loop.picoev.wanted k).isSome
      · rw [if_pos hw]
        exact he
      · rw [if_neg hw]
        have hne : fd ≠ k := by
          rintro rfl
          exact hr ⟨by simpa using hw,revents,by rw [hbatch]; rfl⟩
        simpa only [EpollSet.remove,Function.update_of_ne hne] using he
    · cases h
  | close k =>
    cases h
    have hne : fd ≠ k := fun heq => hr heq.symm
    simpa only [EpollSet.remove,Function.update_of_ne hne] using he

/-- A kernel that knows `EPOLLEXCLUSIVE` watches a descriptor for what it was first asked, until
the descriptor is closed or an event for it finds it unwanted. -/
theorem entry_stays {clock fd : ℕ} {es es' : List EpollEvent} {entry : EpollEntry}
    (h : Transition.run (epollStep true) (.start clock) es = some s) (he : s.set fd = some entry)
    (hr : Transition.Meets (epollStep true) (fun s ev => ¬Removes fd s ev) s es')
    (h' : Transition.run (epollStep true) s es' = some s') : s'.set fd = some entry := by
  have hs : s.Exclusive := Transition.invariant_run (C := fun _ _ => True)
    (fun _ _ _ hs _ hc => epollStep_exclusive hs hc) (start_exclusive clock)
    (Transition.Meets.of_forall fun _ _ _ => trivial) h
  exact (@Transition.invariant_run _ _ (epollStep true) (fun s ev => ¬Removes fd s ev)
    (fun s => s.Exclusive ∧ s.set fd = some entry)
    (fun _ _ _ hs hr hc => ⟨epollStep_exclusive hs.1 hc,epollStep_keeps hs.1 hs.2 hr hc⟩) _ _ _ ⟨hs,he⟩
    hr h').2

/-- A connection is accepted and read; then there has to be room to write. -/
def acceptedRun : List EpollEvent :=
  [.loop (.run 10 [3]),.loop .iterate,.loop (.operate (.accepted 5 2))]

def writingRun : List EpollEvent :=
  [.loop (.operate (.readFinished 5)),.loop (.operate (.waitWrite 5))]

/-- The wait for room to write is one for a request. -/
theorem entry_stays_writing : ∃ s', Transition.run (epollStep true) (.start 100)
      (acceptedRun ++ writingRun) = some s' ∧ s'.loop.picoev.wanted 5 = some ⟨false,true⟩ ∧
      s'.set 5 = some ⟨⟨true,false⟩,true⟩ := by
  have hrun : ((Transition.run (epollStep true) (.start 100) acceptedRun).map (·.set 5)) =
      some (some ⟨⟨true,false⟩,true⟩) := by
    decide +kernel
  have hall : ((Transition.run (epollStep true) (.start 100) (acceptedRun ++ writingRun)).map
      (·.loop.picoev.wanted 5)) = some (some ⟨false,true⟩) := by
    decide +kernel
  obtain ⟨s,hs,hentry⟩ := Option.map_eq_some_iff.mp hrun
  obtain ⟨s',hs',hwanted⟩ := Option.map_eq_some_iff.mp hall
  refine ⟨s',hs',hwanted,?_⟩
  rw [Transition.run_append,hs,Option.bind_some] at hs'
  refine entry_stays hs hentry (Transition.Meets.of_forall fun ev hev t => ?_) hs'
  simp only [writingRun,List.mem_cons,List.not_mem_nil,or_false] at hev
  obtain rfl | rfl := hev
  · exact not_false
  · exact not_false

end Meinheld
