import Meinheld.Timeouts

/-! Timeouts that are asked for are not missed: whatever the callbacks do to the loop in a pass over
the timeouts, the pass delivers what has run out. -/
namespace Meinheld

/-- When the timeouts that are asked for and not delivered run out. -/
abbrev Deadlines := ℕ → Option ℕ

/-! ### The slots -/

namespace Picoev
variable {κ : Type} {l l' : Picoev κ} {deadline : Deadlines} {scan : Option (ℕ × List ℕ)}

def InSlot (l : Picoev κ) (fd d : ℕ) : Prop :=
  ∃ idx, (l.fds fd).timeoutIdx = some idx ∧ l.vec idx fd = true ∧ idx < PICOEV_TIMEOUT_VEC_SIZE ∧
    l.slotTime idx ≤ d

/-- A scan of the slot at `base_idx` in its word `j` has all of the word in `v` that is to be called. -/
structure Ahead (l : Picoev κ) (deadline : Deadlines) (j : ℕ) (v : List ℕ) : Prop where
  due : l.slotDue = true
  done : ScannedTo l j
  left : ∀ fd, (deadline fd).isSome → (l.fds fd).timeoutIdx = some l.baseIdx →
    fd / PICOEV_SHORT_BITS = j → fd ∈ v

/-- Every timeout that is to be delivered has its bit. -/
structure Holds (l : Picoev κ) (deadline : Deadlines) (scan : Option (ℕ × List ℕ)) : Prop where
  baseIdx : l.baseIdx < PICOEV_TIMEOUT_VEC_SIZE
  baseTime : l.baseTime ≤ l.now
  bound : ∀ idx fd, l.vec idx fd = true → fd < l.maxFd
  inSlot : ∀ fd d, deadline fd = some d → l.InSlot fd d
  ahead : ∀ j v, scan = some (j,v) → Ahead l deadline j v

/-- What is the same after a change of one descriptor. -/
structure SameBut (fd : ℕ) (l l' : Picoev κ) : Prop where
  maxFd : l'.maxFd = l.maxFd
  baseIdx : l'.baseIdx = l.baseIdx
  baseTime : l'.baseTime = l.baseTime
  now : l'.now = l.now
  fds : ∀ k, k ≠ fd → l'.fds k = l.fds k
  vec : ∀ idx k, k ≠ fd → l'.vec idx k = l.vec idx k

theorem SameBut.trans {fd : ℕ} {l'' : Picoev κ} (h : SameBut fd l l') (h' : SameBut fd l' l'') :
    SameBut fd l l'' :=
  ⟨h'.maxFd.trans h.maxFd,h'.baseIdx.trans h.baseIdx,h'.baseTime.trans h.baseTime,
    h'.now.trans h.now,fun k hk => (h'.fds k hk).trans (h.fds k hk),
    fun idx k hk => (h'.vec idx k hk).trans (h.vec idx k hk)⟩

theorem setFd_sameBut (fd : ℕ) (t : PicoevFd κ) : SameBut fd l (l.setFd fd t) :=
  ⟨rfl,rfl,rfl,rfl,fun _ hk => Function.update_of_ne hk _ _,fun _ _ _ => rfl⟩

theorem setVec_sameBut (idx fd : ℕ) (b : Bool) : SameBut fd l (l.setVec idx fd b) :=
  ⟨rfl,rfl,rfl,rfl,fun _ _ => rfl,fun _ _ hk => setVec_vec_of_ne l b fun h => hk h.2⟩

theorem clearTimeout_sameBut (fd : ℕ) : SameBut fd l (l.clearTimeout fd) := by
  unfold clearTimeout
  split
  · exact ⟨rfl,rfl,rfl,rfl,fun _ _ => rfl,fun _ _ _ => rfl⟩
  · exact (setVec_sameBut _ fd false).trans (setFd_sameBut fd _)

/-- A change of a descriptor sets no bit for it but, outside the slot that may be scanned, the one of
the timeout that is asked for. -/
theorem Holds.change (h : Holds l deadline scan) {fd : ℕ} {o : Option ℕ} (hsame : SameBut fd l l')
    (hbit : ∀ idx, l'.vec idx fd = true → l.vec idx fd = true ∨ idx ≠ l.baseIdx ∧ fd < l.maxFd)
    (hnew : ∀ d, o = some d → l'.InSlot fd d ∧ (l'.fds fd).timeoutIdx ≠ some l.baseIdx) :
    Holds l' (Function.update deadline fd o) scan := by
  have htime : l'.slotTime = l.slotTime := by
    funext idx
    simp only [slotTime,hsame.baseTime,hsame.baseIdx]
  refine ⟨hsame.baseIdx ▸ h.baseIdx,?_,fun idx k hk => ?_,fun k d hd => ?_,fun j v hs => ?_⟩
  · rw [hsame.baseTime,hsame.now]
    exact h.baseTime
  · rw [hsame.maxFd]
    by_cases hkfd : k = fd
    · subst hkfd
      exact (hbit idx hk).elim (h.bound idx k) And.right
    · exact h.bound idx k (hsame.vec idx k hkfd ▸ hk)
  · by_cases hkfd : k = fd
    · subst hkfd
      exact (hnew d (by simpa using hd)).1
    · rw [Function.update_of_ne hkfd] at hd
      obtain ⟨idx,hto,hvec,hlt,hle⟩ := h.inSlot k d hd
      exact ⟨idx,hsame.fds k hkfd ▸ hto,hsame.vec idx k hkfd ▸ hvec,hlt,htime ▸ hle⟩
  · obtain ⟨hdue,hdone,hleft⟩ := h.ahead j v hs
    refine ⟨?_,fun k hk => ?_,fun k hk hto hj => ?_⟩
    · simpa only [slotDue,hsame.baseTime,hsame.now] using hdue
    · rw [hsame.baseIdx]
      by_cases hkfd : k = fd
      · subst hkfd
        by_contra hvec
        have hold := (hbit _ (by simpa using hvec)).resolve_right fun hne => hne.1 rfl
        simp [hdone k hk] at hold
      · rw [hsame.vec _ k hkfd]
        exact hdone k hk
    · rw [hsame.baseIdx] at hto
      by_cases hkfd : k = fd
      · subst hkfd
        obtain ⟨d,hd⟩ := Option.isSome_iff_exists.mp hk
        exact absurd hto (hnew d (by simpa using hd)).2
      · rw [Function.update_of_ne hkfd] at hk
        rw [hsame.fds k hkfd] at hto
        exact hleft k hk hto hj

theorem Holds.setFd (h : Holds l deadline scan) (fd : ℕ) (t : PicoevFd κ) :
    Holds (l.setFd fd t) (Function.update deadline fd none) scan :=
  h.change (setFd_sameBut fd t) (fun _ => .inl) (by simp)

theorem clearTimeout_vec_fd {fd idx : ℕ} (h : (l.clearTimeout fd).vec idx fd = true) :
    l.vec idx fd = true := by
  unfold clearTimeout at h
  split at h
  · exact h
  next old _ =>
    simp only [setFd_vec,setVec_vec] at h
    split at h
    · cases h
    · exact h

/-- The slot chosen is the one after `base_idx` that stands for the time asked for, or the last. -/
theorem Holds.delta (h : Holds l deadline scan) (secs : ℕ) :
    l.delta secs = min (l.now + secs - l.baseTime) maxTimeout := by
  have hbase := h.baseTime
  simp only [Picoev.delta,resolution_eq,Nat.div_one,maxTimeout,PICOEV_TIMEOUT_VEC_SIZE]
  split <;> omega

/-- `picoev_set_timeout`, whatever stood in the slots for the descriptor. -/
theorem Holds.setTimeout (h : Holds l deadline scan) {fd clock : ℕ} (secs : ℕ) (hfd : fd < l.maxFd)
    (hnow : l.now ≤ clock) : Holds (l.setTimeout fd secs)
      (Function.update deadline fd (if secs = 0 then none else some (clock + secs))) scan := by
  have hclear := clearTimeout_sameBut (l := l) fd
  by_cases hs : secs = 0
  · rw [if_pos hs,Picoev.setTimeout,if_pos hs]
    exact h.change hclear (fun _ hk => .inl (clearTimeout_vec_fd hk)) (by simp)
  rw [if_neg hs,Picoev.setTimeout,if_neg hs]
  have hdelta : (l.clearTimeout fd).delta secs = min (l.now + secs - l.baseTime) maxTimeout := by
    rw [← h.delta secs]
    simp only [Picoev.delta,hclear.now,hclear.baseTime]
  have hbase := h.baseTime
  have hidx := h.baseIdx
  simp only [hdelta,hclear.baseIdx]
  simp only [maxTimeout,PICOEV_TIMEOUT_VEC_SIZE] at hidx ⊢
  set idx := (l.baseIdx + min (l.now + secs - l.baseTime) (128 - 1)) % 128 with hi
  have hne : idx ≠ l.baseIdx := by omega
  have hback : (idx + 128 - l.baseIdx) % 128 = min (l.now + secs - l.baseTime) (128 - 1) := by omega
  refine h.change (hclear.trans ((setVec_sameBut idx fd true).trans (setFd_sameBut fd _)))
    (fun i hk => ?_) fun d hd => ⟨⟨idx,by simp,by simp [setVec_vec],?_,?_⟩,by simp [hne]⟩
  · by_cases hii : i = idx
    · exact .inr ⟨hii ▸ hne,hfd⟩
    · rw [setFd_vec,setVec_vec_of_ne _ _ fun h => hii h.1] at hk
      exact .inl (clearTimeout_vec_fd hk)
  · exact Nat.mod_lt _ (by decide)
  · obtain rfl := Option.some.inj hd
    show (l.clearTimeout fd).baseTime + (idx + PICOEV_TIMEOUT_VEC_SIZE - (l.clearTimeout fd).baseIdx) %
      PICOEV_TIMEOUT_VEC_SIZE ≤ clock + secs
    rw [hclear.baseTime,hclear.baseIdx,PICOEV_TIMEOUT_VEC_SIZE,hback]
    omega

theorem Holds.add (h : Holds l deadline scan) {fd secs clock : ℕ} {events : Events} {callback : κ}
    (hnow : l.now ≤ clock) (hadd : l.add fd events secs callback = some l') :
    Holds l' (Function.update deadline fd (if secs = 0 then none else some (clock + secs))) scan := by
  obtain ⟨hfd,rfl⟩ := add_eq_some hadd
  have hset := (h.setFd fd ⟨some callback,true,events,none⟩).setTimeout secs hfd hnow
  rwa [Function.update_idem] at hset

theorem Holds.del (h : Holds l deadline scan) {fd : ℕ} (hfd : fd < l.maxFd) :
    Holds (l.del fd) (Function.update deadline fd none) scan := by
  have hset := (h.setFd fd { l.fds fd with events := {} }).setTimeout 0 hfd le_rfl
  have hgone := hset.setFd fd
    { ((l.setFd fd { l.fds fd with events := {} }).setTimeout fd 0).fds fd with active := false }
  rwa [Function.update_idem,Function.update_idem] at hgone

/-! ### The pass over the slots -/

/-- The callback of the next descriptor is called, for its timeout or for one it had. -/
theorem Holds.unsetTimeout {j k : ℕ} {v : List ℕ} (h : Holds l deadline (some (j,k :: v))) :
    Holds (l.unsetTimeout k) (Function.update deadline k none) (some (j,v)) := by
  have hset := h.setFd k { l.fds k with timeoutIdx := none }
  obtain ⟨hdue,hdone,hleft⟩ := hset.ahead j _ rfl
  refine ⟨hset.baseIdx,hset.baseTime,hset.bound,hset.inSlot,fun j' v' hs => ?_⟩
  obtain ⟨rfl,rfl⟩ : j = j' ∧ v = v' := by simpa using hs
  refine ⟨hdue,hdone,fun fd hfd hto hj => (List.mem_cons.mp (hleft fd hfd hto hj)).resolve_left ?_⟩
  rintro rfl
  simp at hfd

/-- The end of a word loses no bit of a timeout to come. -/
theorem Holds.clearWord {j : ℕ} (h : Holds l deadline (some (j,[]))) :
    Holds (l.clearWord j) deadline none ∧ (l.clearWord j).slotDue = true ∧
      ScannedTo (l.clearWord j) (j + 1) := by
  obtain ⟨hdue,hdone,hleft⟩ := h.ahead j _ rfl
  have hbit : ∀ {idx fd}, (l.clearWord j).vec idx fd =
      if idx = l.baseIdx ∧ fd / PICOEV_SHORT_BITS = j then false else l.vec idx fd := rfl
  refine ⟨⟨h.baseIdx,h.baseTime,fun idx fd hk => ?_,fun fd d hd => ?_,by simp⟩,hdue,fun fd hfd => ?_⟩
  · rw [hbit] at hk
    split at hk
    · cases hk
    · exact h.bound idx fd hk
  · obtain ⟨idx,hto,hvec,hlt,hle⟩ := h.inSlot fd d hd
    refine ⟨idx,hto,?_,hlt,hle⟩
    rw [hbit,if_neg]
    · exact hvec
    · rintro ⟨rfl,hj⟩
      simpa using hleft fd (by simp [hd]) hto hj
  · rw [hbit]
    split
    · rfl
    next hne =>
      refine hdone fd ?_
      have hj : fd / PICOEV_SHORT_BITS ≠ j := fun h0 => hne ⟨rfl,h0⟩
      omega

/-- A word is copied with all of it that is to be called. -/
theorem Holds.scanWord (h : Holds l deadline none) {j : ℕ} (hdue : l.slotDue = true)
    (hdone : ScannedTo l j) : Holds l deadline (some (j,l.word j)) := by
  refine ⟨h.baseIdx,h.baseTime,h.bound,h.inSlot,fun j' v' hs => ?_⟩
  obtain ⟨rfl,rfl⟩ : j = j' ∧ l.word j = v' := by simpa using hs
  refine ⟨hdue,hdone,fun fd hfd hto hj => mem_word.mpr ⟨hj,?_⟩⟩
  obtain ⟨d,hd⟩ := Option.isSome_iff_exists.mp hfd
  obtain ⟨idx,hto',hvec,-,-⟩ := h.inSlot fd d hd
  obtain rfl := Option.some.inj (hto.symm.trans hto')
  exact hvec

/-- A slot that is scanned to its end holds no timeout to come. -/
theorem Holds.nextSlot (h : Holds l deadline none) (hdue : l.slotDue = true)
    (hdone : ScannedTo l l.words) : Holds l.nextSlot deadline none := by
  have hidx := h.baseIdx
  simp only [PICOEV_TIMEOUT_VEC_SIZE] at hidx
  have hdue' : l.baseTime + resolution ≤ l.now := by simpa [slotDue] using hdue
  refine ⟨Nat.mod_lt _ (by decide),hdue',h.bound,fun fd d hd => ?_,by simp⟩
  obtain ⟨idx,hto,hvec,hlt,hle⟩ := h.inSlot fd d hd
  have hne : idx ≠ l.baseIdx := by
    rintro rfl
    have hnone := hdone fd (lt_words (h.bound _ fd hvec))
    simp [hnone] at hvec
  refine ⟨idx,hto,hvec,hlt,?_⟩
  simp only [PICOEV_TIMEOUT_VEC_SIZE] at hlt
  have htime : l.nextSlot.slotTime idx = l.slotTime idx := by
    simp only [slotTime,Picoev.nextSlot,PICOEV_TIMEOUT_VEC_SIZE,resolution_eq]
    omega
  exact htime.trans_le hle

theorem Holds.setNow (h : Holds l deadline none) {now : ℕ} (hn : l.now ≤ now) :
    Holds { l with now := now } deadline none :=
  ⟨h.baseIdx,h.baseTime.trans hn,h.bound,h.inSlot,by simp⟩

theorem holds_init (maxFd now : ℕ) : Holds (.init maxFd now : Picoev κ) (fun _ => none) none :=
  ⟨Nat.zero_lt_succ _,le_rfl,by simp [init],by simp,by simp⟩

/-- What is to come when no slot is due runs out at the time of the loop or later. -/
theorem Holds.now_le (h : Holds l deadline scan) (hdue : l.slotDue = false) {fd d : ℕ}
    (hd : deadline fd = some d) : l.now ≤ d := by
  obtain ⟨idx,-,-,-,hle⟩ := h.inSlot fd d hd
  have hbase : l.now ≤ l.baseTime := by
    simp only [slotDue,resolution_eq,decide_eq_false_iff_not] at hdue
    omega
  exact hbase.trans ((Nat.le_add_right _ _).trans hle)

end Picoev

/-! ### The run loop -/

/-- The run loop, with the timeouts to come. -/
structure Awaiting where
  loop : EventLoop
  deadline : Deadlines

/-- When a timeout runs out that is asked for now; 0 seconds ask for none. -/
def EventLoop.runsOut (e : EventLoop) (secs : ℕ) : Option ℕ :=
  if secs = 0 then none else some (e.clock + secs)

/-- What a call makes of the timeouts to come. -/
def Call.await (e : EventLoop) (deadline : Deadlines) : Call → Deadlines
  | .add fd _ secs _ _ =>
    if fd < e.picoev.maxFd then Function.update deadline fd (e.runsOut secs) else deadline
  | .del fd _ => Function.update deadline fd none
  | .delIfActive fd => if e.picoev.isActive fd then Function.update deadline fd none else deadline
  | .setTimeout fd secs => Function.update deadline fd (e.runsOut secs)

def Awaiting.call (w : Awaiting) (c : Call) : Option Awaiting :=
  (w.loop.call c).map fun e => ⟨e,c.await w.loop w.deadline⟩

/-- One event of the run loop. A timeout is delivered when the callback is called with
`PICOEV_TIMEOUT`. -/
def awaitingStep (w : Awaiting) : LoopEvent → Option Awaiting
  | .run maxFd socks =>
    if w.loop.phase = .stopped then
      Transition.run Awaiting.call ⟨w.loop.started maxFd socks,fun _ => none⟩ (listenCalls socks)
    else none
  | .operate o =>
    if w.loop.phase.busy then
      (Transition.run Awaiting.call w (o.calls w.loop.listenSocks)).map fun w' =>
        { w' with loop := w'.loop.finish o }
    else none
  | .exit => (loopStep w.loop .exit).map fun e => ⟨e,fun _ => none⟩
  | .timedOut fd =>
    (loopStep w.loop (.timedOut fd)).map fun e => ⟨e,Function.update w.deadline fd none⟩
  | l => (loopStep w.loop l).map fun e => { w with loop := e }

def Awaiting.start (clock : ℕ) : Awaiting := ⟨.start clock,fun _ => none⟩

/-- What holds in every state: between two passes over the timeouts no slot is due. -/
structure Attended (w : Awaiting) : Prop where
  holds : w.loop.picoev.Holds w.deadline w.loop.phase.scan
  caught : w.loop.phase.scan = none → w.loop.picoev.slotDue = false
  now : w.loop.picoev.now ≤ w.loop.clock
  current : w.loop.currentSec ≤ w.loop.clock
  running : w.loop.phase ≠ .stopped → w.loop.picoev.now ≤ w.loop.currentSec

theorem awaitingCalls_loop {cs : List Call} {w w' : Awaiting}
    (h : Transition.run Awaiting.call w cs = some w') :
    Transition.run EventLoop.call w.loop cs = some w'.loop := by
  induction cs generalizing w with
  | nil =>
    simp only [Transition.run,Option.some.injEq] at h
    simp [Transition.run,h]
  | cons c cs ih =>
    obtain ⟨w1,hc,hrun⟩ := Transition.run_cons_eq_some.mp h
    obtain ⟨e,he,rfl⟩ := Option.map_eq_some_iff.mp hc
    exact Transition.run_cons_eq_some.mpr ⟨e,he,ih hrun⟩

/-- A step is a step of the run loop. -/
theorem awaitingStep_loop {w w' : Awaiting} {l : LoopEvent} (h : awaitingStep w l = some w') :
    loopStep w.loop l = some w'.loop := by
  cases l with
  | run maxFd socks =>
    simp only [awaitingStep,Option.ite_none_right_eq_some] at h
    simp only [loopStep,if_pos h.1]
    exact awaitingCalls_loop h.2
  | operate o =>
    simp only [awaitingStep,Option.ite_none_right_eq_some] at h
    obtain ⟨w1,hrun,rfl⟩ := Option.map_eq_some_iff.mp h.2
    simp only [loopStep,if_pos h.1,EventLoop.operate,awaitingCalls_loop hrun,Option.map_some]
  | _ =>
    simp only [awaitingStep,Option.map_eq_some_iff] at h
    obtain ⟨e,he,rfl⟩ := h
    exact he

/-- A call changes the slots as its timeout has it, and not what time it is. -/
theorem call_awaits {w w' : Awaiting} {c : Call} (h : Attended w) (hs : w.call c = some w') :
    Attended w' := by
  obtain ⟨e,he,rfl⟩ := Option.map_eq_some_iff.mp hs
  -- what is left to show once the slots are changed
  have key : ∀ {l : Picoev Callback} {n : ℤ} {deadline : Deadlines},
      l.Holds deadline w.loop.phase.scan → l.now = w.loop.picoev.now →
      l.baseTime = w.loop.picoev.baseTime →
      Attended ⟨{ w.loop with picoev := l, activecnt := n },deadline⟩ := by
    intro l n deadline hl hnow hbase
    refine ⟨hl,fun hsc => ?_,hnow.trans_le h.now,h.current,fun hp => hnow.trans_le (h.running hp)⟩
    have hc := h.caught hsc
    simpa only [Picoev.slotDue,hnow,hbase] using hc
  have hdel : ∀ {fd : ℕ} {n : ℤ}, fd < w.loop.picoev.maxFd →
      Attended ⟨{ w.loop with picoev := w.loop.picoev.del fd, activecnt := n },
        Function.update w.deadline fd none⟩ := by
    intro fd n hfd
    obtain ⟨-,-,hbase,hnow⟩ := Picoev.setTimeout_frame
      (w.loop.picoev.setFd fd { w.loop.picoev.fds fd with events := {} }) fd 0
    exact key (h.holds.del hfd) hnow hbase
  cases c with
  | add fd events secs callback counting =>
    simp only [EventLoop.call] at he
    split at he
    next l hadd =>
      obtain rfl := Option.some.inj he
      obtain ⟨hfd,hl⟩ := Picoev.add_eq_some hadd
      obtain ⟨-,-,hbase,hnow⟩ := Picoev.setTimeout_frame
        (w.loop.picoev.setFd fd ⟨some callback,true,events,none⟩) fd secs
      rw [← hl] at hbase hnow
      simp only [Call.await,if_pos hfd]
      exact key (h.holds.add h.now hadd) hnow hbase
    next hadd =>
      have hfd : ¬fd < w.loop.picoev.maxFd := by simpa [Picoev.add] using hadd
      split at he
      · cases he
      · obtain rfl := Option.some.inj he
        simp only [Call.await,if_neg hfd]
        exact h
  | del fd counted =>
    simp only [EventLoop.call,Option.ite_none_right_eq_some,Option.some.injEq] at he
    obtain ⟨hfd,rfl⟩ := he
    exact hdel hfd
  | delIfActive fd =>
    simp only [EventLoop.call,Option.ite_none_right_eq_some,Option.some.injEq] at he
    obtain ⟨hfd,rfl⟩ := he
    by_cases ha : w.loop.picoev.isActive fd = true
    · simp only [Call.await,ha,if_true]
      exact hdel hfd
    · simp only [Call.await,ha]
      exact h
  | setTimeout fd secs =>
    simp only [EventLoop.call,Option.ite_none_right_eq_some,Option.some.injEq] at he
    obtain ⟨hfd,rfl⟩ := he
    obtain ⟨-,-,hbase,hnow⟩ := Picoev.setTimeout_frame w.loop.picoev fd secs
    exact key (h.holds.setTimeout secs hfd h.now) hnow hbase

theorem calls_attended {cs : List Call} {w w' : Awaiting} (h : Attended w)
    (hs : Transition.run Awaiting.call w cs = some w') : Attended w' :=
  Transition.invariant_run (fun _ _ _ ha _ => call_awaits ha) h
    (.of_forall fun _ _ _ => trivial : Transition.Meets Awaiting.call (fun _ _ => True) w cs) hs

/-- A step that touches neither slots nor the time of the loop, outside a pass. -/
theorem Attended.of_quiet {w : Awaiting} {e : EventLoop} (h : Attended w)
    (hpic : e.picoev = w.loop.picoev) (hscan : e.phase.scan = w.loop.phase.scan)
    (hclock : w.loop.clock ≤ e.clock) (hcur : e.currentSec ≤ e.clock)
    (hrun : e.phase ≠ .stopped → e.picoev.now ≤ e.currentSec) : Attended { w with loop := e } := by
  refine ⟨?_,?_,?_,hcur,hrun⟩
  · simp only [hpic,hscan]
    exact h.holds
  · simp only [hpic,hscan]
    exact h.caught
  · simp only [hpic]
    exact h.now.trans hclock

/-- The events of the loop around its calls, its polls and its passes. -/
def LoopEvent.idle : LoopEvent → Bool
  | .iterate | .firePending | .fireTimer _ | .fired | .next | .schedule _ => true
  | _ => false

/-- Such an event leaves picoev and the times as they are, and is outside a pass but for a call that
is scheduled. -/
theorem loopStep_idle {e e' : EventLoop} {l : LoopEvent} (h : loopStep e l = some e')
    (hl : l.idle = true) : e'.picoev = e.picoev ∧ e'.clock = e.clock ∧
      e'.currentSec = e.currentSec ∧ e'.phase.scan = e.phase.scan ∧
      (e'.phase ≠ .stopped → e.phase ≠ .stopped) := by
  cases l with
  | schedule seconds =>
    simp only [loopStep,EventLoop.schedule] at h
    split at h
    · cases h
    · cases h
      split <;> exact ⟨rfl,rfl,rfl,rfl,id⟩
  | iterate | firePending | fireTimer _ =>
    simp only [loopStep,Option.ite_none_right_eq_some,Option.some.injEq] at h
    obtain ⟨⟨hphase,-,-⟩,rfl⟩ := h
    exact ⟨rfl,rfl,rfl,by simp [hphase,Phase.scan],by simp [hphase]⟩
  | fired | next =>
    simp only [loopStep,Option.ite_none_right_eq_some,Option.some.injEq] at h
    obtain ⟨hphase,rfl⟩ := h
    exact ⟨rfl,rfl,rfl,by simp [hphase,Phase.scan],by simp [hphase]⟩
  | _ => cases hl

theorem Attended.of_idle {w : Awaiting} {e : EventLoop} {l : LoopEvent} (h : Attended w)
    (he : loopStep w.loop l = some e) (hl : l.idle = true) : Attended { w with loop := e } := by
  obtain ⟨hpic,hclock,hcur,hscan,hstopped⟩ := loopStep_idle he hl
  refine h.of_quiet hpic hscan hclock.ge (hcur.trans_le (h.current.trans hclock.ge)) fun hp => ?_
  rw [hpic,hcur]
  exact h.running (hstopped hp)

theorem attended_beginSlot {e : EventLoop} {deadline : Deadlines}
    (h : e.picoev.Holds deadline none) (hnow : e.picoev.now ≤ e.clock)
    (hcur : e.currentSec ≤ e.clock) (hrun : e.picoev.now ≤ e.currentSec) :
    Attended ⟨e.beginSlot,deadline⟩ := by
  unfold EventLoop.beginSlot
  split
  next hdue =>
    exact ⟨h.scanWord hdue fun _ hk => absurd hk (Nat.not_lt_zero _),(fun hs => by cases hs),hnow,hcur,
      fun _ => hrun⟩
  next hdue => exact ⟨h,(fun _ => by simpa using hdue),hnow,hcur,fun _ => hrun⟩

theorem Attended.nextWord {w : Awaiting} {j : ℕ} (h : Attended w)
    (hphase : w.loop.phase = .timeouts j []) : Attended { w with loop := w.loop.nextWord j } := by
  have hholds := h.holds
  rw [hphase] at hholds
  have hrun : w.loop.picoev.now ≤ w.loop.currentSec := h.running (by simp [hphase])
  obtain ⟨hcleared,hdue,hdone⟩ := hholds.clearWord
  unfold EventLoop.nextWord
  simp only
  split
  next =>
    exact ⟨hcleared.scanWord hdue hdone,(fun hs => by cases hs),h.now,h.current,fun _ => hrun⟩
  next hlast =>
    have hall : (w.loop.picoev.clearWord j).ScannedTo (w.loop.picoev.clearWord j).words :=
      fun fd hfd => hdone fd (by omega)
    exact attended_beginSlot (hcleared.nextSlot hdue hall) h.now h.current hrun

/-- Every step keeps the timeouts that are to come in their slots. -/
theorem awaitingStep_attended {w w' : Awaiting} {l : LoopEvent} (h : Attended w)
    (hs : awaitingStep w l = some w') : Attended w' := by
  cases l with
  | run maxFd socks =>
    simp only [awaitingStep,Option.ite_none_right_eq_some] at hs
    have hstart : Attended ⟨w.loop.started maxFd socks,fun _ => none⟩ :=
      ⟨Picoev.holds_init maxFd w.loop.clock,
        fun _ => by simp [EventLoop.started,Picoev.init,Picoev.slotDue],le_rfl,le_rfl,fun _ => le_rfl⟩
    exact calls_attended hstart hs.2
  | operate o =>
    simp only [awaitingStep,Option.ite_none_right_eq_some,Option.map_eq_some_iff] at hs
    obtain ⟨-,w1,hrun,rfl⟩ := hs
    have h1 := calls_attended h hrun
    exact h1.of_quiet rfl rfl le_rfl h1.current h1.running
  | exit =>
    simp only [awaitingStep,loopStep,Option.map_eq_some_iff,Option.ite_none_right_eq_some,
      Option.some.injEq] at hs
    obtain ⟨e,⟨-,rfl⟩,rfl⟩ := hs
    exact ⟨Picoev.holds_init 0 w.loop.clock,fun _ => by simp [Picoev.init,Picoev.slotDue],le_rfl,
      h.current,by simp⟩
  | tick =>
    simp only [awaitingStep,loopStep,Option.map_some,Option.some.injEq] at hs
    subst hs
    exact h.of_quiet rfl rfl (Nat.le_succ _) (h.current.trans (Nat.le_succ _)) h.running
  | poll =>
    simp only [awaitingStep,loopStep,Option.map_eq_some_iff,Option.ite_none_right_eq_some,
      Option.some.injEq] at hs
    obtain ⟨e,⟨hphase,rfl⟩,rfl⟩ := hs
    exact h.of_quiet rfl (by simp [hphase,Phase.scan]) le_rfl le_rfl fun _ => h.now
  | polled =>
    simp only [awaitingStep,loopStep,Option.map_eq_some_iff,Option.ite_none_right_eq_some,
      Option.some.injEq] at hs
    obtain ⟨e,⟨hphase,rfl⟩,rfl⟩ := hs
    have hholds := h.holds
    rw [hphase] at hholds
    exact attended_beginSlot (hholds.setNow (h.running (by simp [hphase]))) h.current h.current le_rfl
  | timedOut fd =>
    simp only [awaitingStep,loopStep,Option.map_eq_some_iff] at hs
    obtain ⟨e,hs,rfl⟩ := hs
    split at hs
    next j k v hphase =>
      simp only [Option.ite_none_right_eq_some,Option.some.injEq] at hs
      obtain ⟨rfl,rfl⟩ := hs
      have hholds := h.holds
      rw [hphase] at hholds
      exact ⟨hholds.unsetTimeout,(fun hs => by cases hs),h.now,h.current,
        fun _ => h.running (by simp [hphase])⟩
    next => cases hs
  | nextWord =>
    simp only [awaitingStep,loopStep,Option.map_eq_some_iff] at hs
    obtain ⟨e,hs,rfl⟩ := hs
    split at hs
    next j hphase =>
      obtain rfl := Option.some.inj hs
      exact h.nextWord hphase
    next => cases hs
  | _ =>
    simp only [awaitingStep,Option.map_eq_some_iff] at hs
    obtain ⟨e,he,rfl⟩ := hs
    exact h.of_idle he rfl

theorem start_attended (clock : ℕ) : Attended (.start clock) :=
  ⟨Picoev.holds_init 0 clock,fun _ => by simp [Awaiting.start,EventLoop.start,Picoev.init,Picoev.slotDue],
    le_rfl,Nat.zero_le _,fun h => absurd rfl h⟩

/-- No timeout is missed: at any point of a run that is not within a pass over the timeouts, none that
is to come has run out at the time of the last pass. -/
theorem no_missed_timeout {es : List LoopEvent} {w : Awaiting} {clock fd d : ℕ}
    (hrun : Transition.run awaitingStep (.start clock) es = some w) (hscan : w.loop.phase.scan = none)
    (hd : w.deadline fd = some d) : w.loop.picoev.now ≤ d := by
  have h : Attended w := Transition.invariant_run (fun _ _ _ ha _ => awaitingStep_attended ha)
    (start_attended clock)
    (.of_forall fun _ _ _ => trivial : Transition.Meets awaitingStep (fun _ _ => True) _ es) hrun
  exact h.holds.now_le (h.caught hscan) hd

/-- Two clients are suspended, and three seconds pass. -/
def waitingRun : List LoopEvent :=
  [.run 8 [3],.iterate,.poll,.operate (.suspendClient 5 1),.operate (.suspendClient 6 2),.polled,.next,
    .tick,.tick,.tick,.iterate,.poll,.polled]

/-- The callback of the first suspends a third for two seconds. -/
def firstCallback : List LoopEvent :=
  [.timedOut 3,.timedOut 5,.operate (.timeoutErrorCallback 5),.operate (.suspendClient 7 2)]

/-- Both time out in one pass. -/
def suspendedRun : List LoopEvent :=
  let slot := List.replicate 8 LoopEvent.nextWord
  waitingRun ++ slot ++ firstCallback ++ slot ++ [LoopEvent.timedOut 6] ++ slot

/-- The third client is left to wait. -/
theorem no_missed_timeout_suspended : ∃ w, Transition.run awaitingStep (.start 100) suspendedRun = some w ∧
    w.loop.phase.scan = none ∧ w.deadline 5 = none ∧ w.deadline 6 = none ∧ w.deadline 7 = some 105 ∧
    w.loop.picoev.now ≤ 105 := by
  have hends : (Transition.run awaitingStep (.start 100) suspendedRun).any (fun w =>
      w.loop.phase.scan = none ∧ w.deadline 5 = none ∧ w.deadline 6 = none ∧
        w.deadline 7 = some 105) = true := by decide +kernel
  obtain ⟨w,hrun,hw⟩ := (Option.any_eq_true _ _).mp hends
  obtain ⟨hscan,h5,h6,h7⟩ := of_decide_eq_true hw
  exact ⟨w,hrun,hscan,h5,h6,h7,no_missed_timeout hrun hscan h7⟩

end Meinheld
