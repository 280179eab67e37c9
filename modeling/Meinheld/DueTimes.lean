import Meinheld.Timers

/-! When scheduled calls are fired, and in which order. -/
namespace Meinheld

/-- The call that the next turn of a loop makes is due, but for a second, and no other call that is
due and waits was due more than a second before it. -/
def Scheduler.Timely (s : Scheduler) : Prop :=
  ∀ s' t, s.step .next = some s' → s'.popped = t :: s.popped → s.called t.id = false →
    t.due ≤ s.msec + 1000 ∧
      ∀ y ∈ s.pendings.items + s.timers.items, s.called y.id = false → y.due ≤ s.msec →
        t.due ≤ y.due + 1000

/-- No call in `g_pendings` is more than a second later than one below it, or than one in `g_timers`. -/
structure Scheduler.PendingsInOrder (s : Scheduler) : Prop where
  stack : ∀ i j, i < j → j < s.pendings.size → s.called (s.pendings.slots i).id = false →
    s.called (s.pendings.slots j).id = false → (s.pendings.slots j).due ≤ (s.pendings.slots i).due + 1000
  timers : ∀ z ∈ s.pendings.items, ∀ y ∈ s.timers.items, s.called z.id = false → s.called y.id = false →
    z.due ≤ y.due + 1000

/-- No call in `g_timers` that is to be fired is more than a second later than one in `g_pendings`. -/
def Scheduler.TimersInOrder (s : Scheduler) (now : ℕ) : Prop :=
  ∀ y ∈ s.timers.items, ∀ z ∈ s.pendings.items, s.called y.id = false → s.called z.id = false →
    y.seconds ≤ now → y.due ≤ z.due + 1000

/-- What `schedule_call` is given fits an `int`, the second that `current_msec` is in began a second
ago at most when it is not 0, and when it is 0 in a callback of `fire_pendings` no call has been due
for more than a second; and neither loop starts with a later call before an earlier one. -/
def Scheduler.InTime (s : Scheduler) : TimerEvent → Prop
  | .scheduleCall seconds _ => 0 ≤ seconds ∧ seconds < 2 ^ 63 →
    seconds < 2 ^ 31 ∧
    (0 < seconds → s.msec ≤ 1000 * (s.currentMsec / 1000) + 1000) ∧
    (seconds = 0 → s.phase = .pendings true →
      ∀ y ∈ s.pendings.items + s.timers.items, s.called y.id = false → s.msec ≤ y.due + 1000)
  | .firePendings => s.goesOn = true → s.PendingsInOrder
  | .fireTimers => s.goesOn = true → s.TimersInOrder (s.currentMsec / 1000)
  | _ => True

/-! ### What a queue holds -/

section Queue
variable {q : TimerQueue} {t y : TimerObject} {alloc : Bool}

theorem TimerQueue.room_eq (q : TimerQueue) (alloc : Bool) : ∃ max freed,
    (q.room alloc).1 = { q with max, freed } ∧ (q.freed = true → freed = true) ∧
      ((q.room alloc).2 = true → freed = q.freed) := by
  unfold TimerQueue.room
  simp only
  split
  · exact ⟨_,_,rfl,id,fun _ => rfl⟩
  split
  · exact ⟨_,_,rfl,fun _ => rfl,nofun⟩
  split
  · exact ⟨_,_,rfl,id,fun _ => rfl⟩
  · exact ⟨_,_,rfl,id,nofun⟩

theorem TimerQueue.mem_items : t ∈ q.items ↔ q.freed = false ∧ ∃ i < q.size, q.slots i = t := by
  unfold TimerQueue.items
  split
  next h => simp [h]
  next h => simp [h,BinaryHeap.mem_items]

theorem TimerQueue.mem_of_mem_room (h : t ∈ (q.room alloc).1.items) : t ∈ q.items := by
  obtain ⟨max,freed,hq,hfreed,-⟩ := q.room_eq alloc
  rw [hq,TimerQueue.mem_items] at h
  exact TimerQueue.mem_items.mpr ⟨Bool.eq_false_iff.mpr fun hf => by simp [hfreed hf] at h,h.2⟩

theorem TimerQueue.mem_append (h : t ∈ (q.append y).items) : t = y ∨ t ∈ q.items := by
  have hf : q.freed = false := (TimerQueue.mem_items.mp h).1
  rwa [TimerQueue.items_append hf,Multiset.mem_cons] at h

theorem TimerQueue.mem_heappush (h : t ∈ (q.heappush y).items) : t = y ∨ t ∈ q.items := by
  have hf : q.freed = false := by
    have hf := (TimerQueue.mem_items.mp h).1
    rwa [TimerQueue.heappush_eq] at hf
  rwa [TimerQueue.items_heappush hf,Multiset.mem_cons] at h

theorem TimerQueue.mem_last (h : t ∈ q.last.2.items) : t ∈ q.items := by
  obtain ⟨hf,i,hi,rfl⟩ := TimerQueue.mem_items.mp h
  exact TimerQueue.mem_items.mpr ⟨hf,i,hi.trans_le (Nat.sub_le _ _),rfl⟩

theorem TimerQueue.mem_heappop (hq : 0 < q.size) (h : t ∈ q.heappop.2.items) : t ∈ q.items := by
  have hf : q.freed = false := by
    have hf := (TimerQueue.mem_items.mp h).1
    rwa [TimerQueue.heappop_eq] at hf
  rw [TimerQueue.items_heappop hf hq]
  exact Multiset.mem_cons_of_mem h

end Queue

/-! ### What each step can do -/

section Cases
variable {s s' : Scheduler}

/-- What `schedule_call` does with what fits an `int`. -/
theorem Scheduler.scheduleCall_cases {seconds : ℤ} {alloc : Bool}
    (hfits : 0 ≤ seconds ∧ seconds < 2 ^ 63 → seconds < 2 ^ 31) (hs : s.scheduleCall seconds alloc = some s') :
    s' = s ∨ s' = { s with pendings := (s.pendings.room alloc).1 } ∨
      s' = { s with timers := (s.timers.room alloc).1 } ∨
      (seconds = 0 ∧ s.pendings.freed = false ∧ s' = { s with
        activecnt := s.activecnt + 1
        scheduled := s.newTimer 0 0 :: s.scheduled
        pendings := (s.pendings.room alloc).1.append (s.newTimer 0 0) }) ∨
      (0 < seconds ∧ seconds < 2 ^ 63 ∧ s' = { s with
        activecnt := s.activecnt + 1
        scheduled := s.newTimer seconds.toNat seconds :: s.scheduled
        timers := (s.timers.room alloc).1.heappush (s.newTimer seconds.toNat seconds) }) := by
  unfold Scheduler.scheduleCall at hs
  split at hs
  swap
  · exact .inl (Option.some.inj hs).symm
  next hpos =>
    have hcast : ((seconds.toNat : ℕ) : ℤ) = seconds := Int.toNat_of_nonneg hpos.1
    have hlt := hfits hpos
    have hint : Int.bmod seconds (2 ^ 32) = seconds := Int.bmod_eq_of_le (by omega) (by omega)
    unfold Scheduler.internalScheduleCall at hs
    simp only [hcast,hint] at hs
    by_cases hzero : seconds = 0
    · subst hzero
      simp only [if_true,Int.toNat_zero,Option.ite_none_left_eq_some] at hs
      obtain ⟨hfreed,hs⟩ := hs
      split at hs
      · exact .inr (.inr (.inr (.inl ⟨rfl,Bool.eq_false_iff.mpr hfreed,(Option.some.inj hs).symm⟩)))
      · exact .inr (.inl (Option.some.inj hs).symm)
    · simp only [if_neg hzero,Option.ite_none_left_eq_some] at hs
      obtain ⟨-,hs⟩ := hs
      split at hs
      · exact .inr (.inr (.inr (.inr ⟨by omega,hpos.2,(Option.some.inj hs).symm⟩)))
      · exact .inr (.inr (.inl (Option.some.inj hs).symm))

/-- What one turn of a loop does. -/
theorem Scheduler.next_cases (hs : s.next = some s') :
    (s.phase = .pendings false ∧ s' = { s with phase := .between }) ∨
    ((∃ now, s.phase = .timers now false) ∧ s' = { s with phase := .idle }) ∨
    (s.phase = .pendings false ∧ 0 < s.pendings.size ∧ s.goesOn = true ∧ s.pendings.freed = false ∧
      s' = Scheduler.fireTimer { s with pendings := s.pendings.last.2 } s.pendings.last.1 (.pendings true)
        (.pendings false)) ∨
    ∃ now, s.phase = .timers now false ∧ 0 < s.timers.size ∧ s.goesOn = true ∧ s.timers.freed = false ∧
      (s.timers.slots 0).seconds ≤ now ∧
      s' = Scheduler.fireTimer { s with timers := s.timers.heappop.2 } s.timers.heappop.1 (.timers now true)
        (.timers now false) := by
  unfold Scheduler.next at hs
  split at hs
  next hphase =>
    split at hs
    next hcond =>
      simp only [Option.ite_none_left_eq_some,Option.some.injEq] at hs
      exact .inr (.inr (.inl ⟨hphase,hcond.1,hcond.2,Bool.eq_false_iff.mpr hs.1,hs.2.symm⟩))
    next => exact .inl ⟨hphase,(Option.some.inj hs).symm⟩
  next now hphase =>
    split at hs
    next hcond =>
      simp only [Option.ite_none_left_eq_some] at hs
      obtain ⟨hfreed,hs⟩ := hs
      split at hs
      next hle =>
        exact .inr (.inr (.inr ⟨now,hphase,hcond.1,hcond.2,Bool.eq_false_iff.mpr hfreed,hle,
          (Option.some.inj hs).symm⟩))
      next => exact .inr (.inl ⟨⟨now,hphase⟩,(Option.some.inj hs).symm⟩)
    next => exact .inr (.inl ⟨⟨now,hphase⟩,(Option.some.inj hs).symm⟩)
  next => cases hs

theorem Scheduler.fireTimer_fields (s : Scheduler) (t : TimerObject) (calling looping : FirePhase) :
    ∃ called activecnt ran phase, s.fireTimer t calling looping =
      { s with called, activecnt, popped := t :: s.popped, ran, phase } ∧
        (∀ id, called id = false → s.called id = false) ∧ (phase = calling ∨ phase = looping) := by
  unfold Scheduler.fireTimer
  split
  next => exact ⟨_,_,_,_,rfl,fun _ h => h,.inr rfl⟩
  next =>
    refine ⟨_,_,_,_,rfl,fun id h => ?_,.inl rfl⟩
    by_contra hid
    have hne : id ≠ t.id := by
      rintro rfl
      simp [Function.update_self] at h
    rw [Function.update_of_ne hne] at h
    exact hid h

end Cases

/-! ### The invariant -/

def Scheduler.InPhase (s : Scheduler) : Prop :=
  match s.phase with
  | .pendings calling => calling = true ∨ s.goesOn = true → s.PendingsInOrder
  | .timers now calling => now ≤ s.currentMsec / 1000 ∧ (calling = true ∨ s.goesOn = true → s.TimersInOrder now)
  | _ => True

/-- What holds in every state. -/
structure Scheduler.Punctual (s : Scheduler) : Prop where
  cached : s.currentMsec ≤ s.msec
  heap : BinaryHeap.IsHeap TimerObject.seconds s.timers.slots s.timers.size
  zero : ∀ z ∈ s.pendings.items, z.due ≤ s.msec
  rounded : ∀ y ∈ s.timers.items, 1000 * y.seconds ≤ y.due ∧ y.due ≤ 1000 * y.seconds + 1000
  inPhase : s.InPhase

section Order
variable {s s' : Scheduler} {now : ℕ}

@[simp] theorem FirePhase.open_pendings (calling : Bool) : (FirePhase.pendings calling).open = calling := by
  cases calling <;> rfl

@[simp] theorem FirePhase.open_timers (now : ℕ) (calling : Bool) :
    (FirePhase.timers now calling).open = calling := by
  cases calling <;> rfl

theorem Scheduler.PendingsInOrder.mono (h : s.PendingsInOrder)
    (hslots : s'.pendings.slots = s.pendings.slots) (hsize : s'.pendings.size ≤ s.pendings.size)
    (hp : ∀ z ∈ s'.pendings.items, z ∈ s.pendings.items) (ht : ∀ y ∈ s'.timers.items, y ∈ s.timers.items)
    (hcalled : ∀ id, s'.called id = false → s.called id = false) : s'.PendingsInOrder := by
  refine ⟨fun i j hij hj hi' hj' => ?_,fun z hz y hy hz' hy' =>
    h.timers z (hp z hz) y (ht y hy) (hcalled _ hz') (hcalled _ hy')⟩
  rw [hslots] at hi' hj' ⊢
  exact h.stack i j hij (hj.trans_le hsize) (hcalled _ hi') (hcalled _ hj')

theorem Scheduler.TimersInOrder.mono (h : s.TimersInOrder now)
    (hp : ∀ z ∈ s'.pendings.items, z ∈ s.pendings.items) (ht : ∀ y ∈ s'.timers.items, y ∈ s.timers.items)
    (hcalled : ∀ id, s'.called id = false → s.called id = false) : s'.TimersInOrder now :=
  fun y hy z hz hy' hz' hnow => h y (ht y hy) z (hp z hz) (hcalled _ hy') (hcalled _ hz') hnow

/-- The queues hold less, and more calls are cancelled. -/
theorem Scheduler.InPhase.mono (h : s.InPhase) (hphase : s'.phase = s.phase)
    (hgoes : s'.phase.open = true ∨ s'.goesOn = s.goesOn) (hmsec : s.currentMsec ≤ s'.currentMsec)
    (hslots : s'.pendings.slots = s.pendings.slots) (hsize : s'.pendings.size ≤ s.pendings.size)
    (hp : ∀ z ∈ s'.pendings.items, z ∈ s.pendings.items) (ht : ∀ y ∈ s'.timers.items, y ∈ s.timers.items)
    (hcalled : ∀ id, s'.called id = false → s.called id = false) : s'.InPhase := by
  unfold Scheduler.InPhase at h ⊢
  rw [hphase] at hgoes ⊢
  split
  next calling hs =>
    rw [hs] at h hgoes
    refine fun hcond => (h ?_).mono hslots hsize hp ht hcalled
    rcases hgoes with hopen | hgoes
    · exact .inl (by rwa [FirePhase.open_pendings] at hopen)
    · rwa [← hgoes]
  next now calling hs =>
    rw [hs] at h hgoes
    refine ⟨h.1.trans (Nat.div_le_div_right hmsec),fun hcond => (h.2 ?_).mono hp ht hcalled⟩
    rcases hgoes with hopen | hgoes
    · exact .inl (by rwa [FirePhase.open_timers] at hopen)
    · rwa [← hgoes]
  next => trivial

end Order

/-! ### What each step keeps -/

section Steps
variable {s s' : Scheduler}

theorem Scheduler.punctual_start (msec : ℕ) : (Scheduler.start msec).Punctual where
  cached := Nat.zero_le _
  heap := nofun
  zero := nofun
  rounded := nofun
  inPhase := trivial

/-- A call of 0 seconds is scheduled. -/
theorem Scheduler.Punctual.pend {alloc : Bool} {t : TimerObject} (h : s.Punctual) (ht : t.due = s.msec)
    (hopen : s.phase.open = true) (hfreed : s.pendings.freed = false)
    (hC : s.phase = .pendings true →
      ∀ y ∈ s.pendings.items + s.timers.items, s.called y.id = false → s.msec ≤ y.due + 1000)
    (activecnt : ℤ) (scheduled : List TimerObject) :
    Scheduler.Punctual { s with
      activecnt, scheduled, pendings := (s.pendings.room alloc).1.append t } := by
  obtain ⟨max,freed,hq,-,-⟩ := s.pendings.room_eq alloc
  have hitems : ∀ z ∈ ((s.pendings.room alloc).1.append t).items, z = t ∨ z ∈ s.pendings.items := fun z hz =>
    (TimerQueue.mem_append hz).imp_right TimerQueue.mem_of_mem_room
  refine ⟨h.cached,h.heap,fun z hz => ?_,h.rounded,?_⟩
  · rcases hitems z hz with rfl | hz
    · exact ht.le
    · exact h.zero z hz
  have hphase := h.inPhase
  unfold Scheduler.InPhase at hphase ⊢
  simp only
  cases hs : s.phase with
  | idle => trivial
  | between => trivial
  | pendings calling =>
    rw [hs,FirePhase.open_pendings] at hopen
    subst hopen
    simp only [hs,true_or,forall_const] at hphase ⊢
    refine ⟨fun i j hij hj hi' hj' => ?_,fun z hz y hy hz' hy' => ?_⟩
    · rw [hq] at hj hi' hj' ⊢
      simp only [TimerQueue.append] at hj hi' hj' ⊢
      have hi : i < s.pendings.size := by omega
      rw [Function.update_of_ne hi.ne] at hi' ⊢
      rcases Nat.lt_succ_iff_lt_or_eq.mp hj with hj | rfl
      · rw [Function.update_of_ne hj.ne] at hj' ⊢
        exact hphase.stack i j hij hj hi' hj'
      · rw [Function.update_self,ht]
        exact hC hs _ (Multiset.mem_add.mpr (.inl (TimerQueue.mem_items.mpr ⟨hfreed,i,hi,rfl⟩))) hi'
    · rcases hitems z hz with rfl | hz
      · rw [ht]
        exact hC hs y (Multiset.mem_add.mpr (.inr hy)) hy'
      · exact hphase.timers z hz y hy hz' hy'
  | timers now calling =>
    rw [hs,FirePhase.open_timers] at hopen
    subst hopen
    simp only [hs,true_or,forall_const] at hphase ⊢
    refine ⟨hphase.1,fun y hy z hz hy' hz' hnow => ?_⟩
    rcases hitems z hz with rfl | hz
    · have hround := (h.rounded y hy).2
      have hcached := h.cached
      have hread := hphase.1
      omega
    · exact hphase.2 y hy z hz hy' hz' hnow

/-- A call of more than 0 seconds is scheduled. -/
theorem Scheduler.Punctual.push {alloc : Bool} {t : TimerObject} (h : s.Punctual) (hdue : s.msec ≤ t.due)
    (hseconds : s.currentMsec / 1000 < t.seconds)
    (hround : 1000 * t.seconds ≤ t.due ∧ t.due ≤ 1000 * t.seconds + 1000)
    (hopen : s.phase.open = true) (activecnt : ℤ) (scheduled : List TimerObject) :
    Scheduler.Punctual { s with
      activecnt, scheduled, timers := (s.timers.room alloc).1.heappush t } := by
  obtain ⟨max,freed,hq,-,-⟩ := s.timers.room_eq alloc
  have hitems : ∀ y ∈ ((s.timers.room alloc).1.heappush t).items, y = t ∨ y ∈ s.timers.items := fun y hy =>
    (TimerQueue.mem_heappush hy).imp_right TimerQueue.mem_of_mem_room
  refine ⟨h.cached,?_,h.zero,fun y hy => ?_,?_⟩
  · simp only [TimerQueue.heappush_eq,hq]
    exact BinaryHeap.isHeap_push h.heap
  · rcases hitems y hy with rfl | hy
    · exact hround
    · exact h.rounded y hy
  have hphase := h.inPhase
  unfold Scheduler.InPhase at hphase ⊢
  simp only
  cases hs : s.phase with
  | idle => trivial
  | between => trivial
  | pendings calling =>
    rw [hs,FirePhase.open_pendings] at hopen
    subst hopen
    simp only [hs,true_or,forall_const] at hphase ⊢
    refine ⟨hphase.stack,fun z hz y hy hz' hy' => ?_⟩
    rcases hitems y hy with rfl | hy
    · have hzero := h.zero z hz
      omega
    · exact hphase.timers z hz y hy hz' hy'
  | timers now calling =>
    rw [hs,FirePhase.open_timers] at hopen
    subst hopen
    simp only [hs,true_or,forall_const] at hphase ⊢
    refine ⟨hphase.1,fun y hy z hz hy' hz' hnow => ?_⟩
    rcases hitems y hy with rfl | hy
    · have hread := hphase.1
      omega
    · exact hphase.2 y hy z hz hy' hz' hnow

theorem Scheduler.Punctual.scheduleCall {seconds : ℤ} {alloc : Bool} (h : s.Punctual)
    (hC : s.InTime (.scheduleCall seconds alloc)) (hopen : s.phase.open = true)
    (hs : s.scheduleCall seconds alloc = some s') : s'.Punctual := by
  rcases Scheduler.scheduleCall_cases (fun hlong => (hC hlong).1) hs with
    rfl | rfl | rfl | ⟨h0,hfreed,rfl⟩ | ⟨hpos,hlong,rfl⟩
  · exact h
  · obtain ⟨max,freed,hq,-,-⟩ := s.pendings.room_eq alloc
    refine ⟨h.cached,h.heap,fun z hz => h.zero z (TimerQueue.mem_of_mem_room hz),h.rounded,?_⟩
    exact h.inPhase.mono rfl (.inr rfl) le_rfl (by rw [hq]) (by rw [hq])
      (fun _ hz => TimerQueue.mem_of_mem_room hz) (fun _ hy => hy) fun _ hc => hc
  · obtain ⟨max,freed,hq,-,-⟩ := s.timers.room_eq alloc
    refine ⟨h.cached,?_,h.zero,fun y hy => h.rounded y (TimerQueue.mem_of_mem_room hy),?_⟩
    · simp only [hq]
      exact h.heap
    · exact h.inPhase.mono rfl (.inr rfl) le_rfl rfl le_rfl (fun _ hz => hz)
        (fun _ hy => TimerQueue.mem_of_mem_room hy) fun _ hc => hc
  · exact h.pend rfl hopen hfreed ((hC (by omega)).2.2 h0) _ _
  · have hnew : s.newTimer seconds.toNat seconds =
        ⟨s.scheduled.length,s.currentMsec / 1000 + seconds.toNat,seconds.toNat,s.msec⟩ := by
      simp only [Scheduler.newTimer,if_pos hpos]
    have hcached := h.cached
    have hclock := (hC ⟨hpos.le,hlong⟩).2.1 hpos
    rw [hnew]
    refine h.push ?_ ?_ ?_ hopen _ _
    · exact Nat.le_add_right _ _
    · simp only
      omega
    · simp only [TimerObject.due]
      omega

theorem Scheduler.Punctual.next (h : s.Punctual) (hs : s.next = some s') : s'.Punctual := by
  rcases Scheduler.next_cases hs with ⟨-,rfl⟩ | ⟨-,rfl⟩ | ⟨hphase,-,hgoes,-,rfl⟩ |
    ⟨now,hphase,hsize,hgoes,-,-,rfl⟩
  · exact ⟨h.cached,h.heap,h.zero,h.rounded,trivial⟩
  · exact ⟨h.cached,h.heap,h.zero,h.rounded,trivial⟩
  · obtain ⟨called,activecnt,ran,phase,heq,hcalled,hto⟩ :=
      Scheduler.fireTimer_fields { s with pendings := s.pendings.last.2 } s.pendings.last.1 (.pendings true)
        (.pendings false)
    have hbefore : s.PendingsInOrder := by
      have hinPhase := h.inPhase
      unfold Scheduler.InPhase at hinPhase
      rw [hphase] at hinPhase
      exact hinPhase (.inr hgoes)
    rw [heq]
    refine ⟨h.cached,h.heap,fun z hz => h.zero z (TimerQueue.mem_last hz),h.rounded,?_⟩
    have hafter : Scheduler.PendingsInOrder { s with
        pendings := s.pendings.last.2, called, activecnt, popped := s.pendings.last.1 :: s.popped, ran, phase } :=
      hbefore.mono rfl (Nat.sub_le _ _) (fun _ hz => TimerQueue.mem_last hz) (fun _ hy => hy) hcalled
    rcases hto with rfl | rfl <;> exact fun _ => hafter
  · obtain ⟨called,activecnt,ran,phase,heq,hcalled,hto⟩ :=
      Scheduler.fireTimer_fields { s with timers := s.timers.heappop.2 } s.timers.heappop.1 (.timers now true)
        (.timers now false)
    have hbefore : now ≤ s.currentMsec / 1000 ∧ s.TimersInOrder now := by
      have hinPhase := h.inPhase
      unfold Scheduler.InPhase at hinPhase
      rw [hphase] at hinPhase
      exact ⟨hinPhase.1,hinPhase.2 (.inr hgoes)⟩
    rw [heq]
    refine ⟨h.cached,?_,h.zero,fun y hy => h.rounded y (TimerQueue.mem_heappop hsize hy),?_⟩
    · obtain ⟨n,hn⟩ : ∃ n, s.timers.size = n + 1 := ⟨s.timers.size - 1,by omega⟩
      have hheap := h.heap
      simp only [TimerQueue.heappop_eq]
      rw [hn] at hheap ⊢
      exact BinaryHeap.isHeap_pop hheap
    have hafter : Scheduler.TimersInOrder { s with
        timers := s.timers.heappop.2, called, activecnt, popped := s.timers.heappop.1 :: s.popped, ran, phase }
        now :=
      hbefore.2.mono (fun _ hz => hz) (fun _ hy => TimerQueue.mem_heappop hsize hy) hcalled
    rcases hto with rfl | rfl <;> exact ⟨hbefore.1,fun _ => hafter⟩

theorem Scheduler.Punctual.cancel (h : s.Punctual) (id : ℕ) : (s.cancel id).Punctual := by
  refine ⟨h.cached,h.heap,h.zero,h.rounded,?_⟩
  refine h.inPhase.mono rfl (.inr rfl) le_rfl rfl le_rfl (fun _ hz => hz) (fun _ hy => hy) fun id' hc => ?_
  by_cases heq : id' = id
  · simp [Scheduler.cancel,heq] at hc
  · simpa [Scheduler.cancel,Function.update_of_ne heq] using hc

theorem Scheduler.Punctual.step {e : TimerEvent} (h : s.Punctual) (hC : s.InTime e)
    (hs : s.step e = some s') : s'.Punctual := by
  cases e with
  | tick msec =>
    obtain rfl := Option.some.inj hs
    exact ⟨h.cached.trans (Nat.le_add_right _ _),h.heap,
      fun z hz => (h.zero z hz).trans (Nat.le_add_right _ _),h.rounded,h.inPhase.mono rfl (.inr rfl) le_rfl
        rfl le_rfl (fun _ hz => hz) (fun _ hy => hy) fun _ hc => hc⟩
  | cacheTimeUpdate =>
    obtain rfl := Option.some.inj hs
    exact ⟨le_rfl,h.heap,h.zero,h.rounded,h.inPhase.mono rfl (.inr rfl) h.cached rfl le_rfl
      (fun _ hz => hz) (fun _ hy => hy) fun _ hc => hc⟩
  | serve activecnt loopDone =>
    simp only [Scheduler.step,Option.ite_none_right_eq_some,Option.some.injEq] at hs
    obtain ⟨hopen,rfl⟩ := hs
    exact ⟨h.cached,h.heap,h.zero,h.rounded,h.inPhase.mono rfl (.inl hopen) le_rfl rfl le_rfl
      (fun _ hz => hz) (fun _ hy => hy) fun _ hc => hc⟩
  | scheduleCall seconds alloc =>
    simp only [Scheduler.step,Option.ite_none_right_eq_some] at hs
    exact h.scheduleCall hC hs.1 hs.2
  | cancel id =>
    simp only [Scheduler.step,Option.ite_none_right_eq_some,Option.some.injEq] at hs
    obtain ⟨-,rfl⟩ := hs
    exact h.cancel id
  | firePendings =>
    simp only [Scheduler.step,Option.ite_none_right_eq_some,Option.some.injEq] at hs
    obtain ⟨-,rfl⟩ := hs
    refine ⟨h.cached,h.heap,h.zero,h.rounded,fun hgoes => ?_⟩
    exact (hC (hgoes.resolve_left Bool.false_ne_true)).mono rfl le_rfl (fun _ hz => hz) (fun _ hy => hy)
      fun _ hc => hc
  | fireTimers =>
    simp only [Scheduler.step,Option.ite_none_right_eq_some,Option.some.injEq] at hs
    obtain ⟨-,rfl⟩ := hs
    refine ⟨h.cached,h.heap,h.zero,h.rounded,le_rfl,fun hgoes => ?_⟩
    exact (hC (hgoes.resolve_left Bool.false_ne_true)).mono (fun _ hz => hz) (fun _ hy => hy) fun _ hc => hc
  | next => exact h.next hs
  | returned raised =>
    have hinPhase := h.inPhase
    unfold Scheduler.InPhase at hinPhase
    simp only [Scheduler.step] at hs
    split at hs
    next hphase =>
      obtain rfl := Option.some.inj hs
      rw [hphase] at hinPhase
      refine ⟨h.cached,h.heap,h.zero,h.rounded,?_⟩
      cases raised with
      | true => trivial
      | false =>
        intro _
        exact (hinPhase (.inl rfl)).mono rfl le_rfl (fun _ hz => hz) (fun _ hy => hy) fun _ hc => hc
    next now hphase =>
      obtain rfl := Option.some.inj hs
      rw [hphase] at hinPhase
      refine ⟨h.cached,h.heap,h.zero,h.rounded,?_⟩
      cases raised with
      | true => trivial
      | false =>
        refine ⟨hinPhase.1,fun _ => ?_⟩
        exact (hinPhase.2 (.inl rfl)).mono (fun _ hz => hz) (fun _ hy => hy) fun _ hc => hc
    next => cases hs

/-- The order of the queues is the order of the calls. -/
theorem Scheduler.Punctual.timely (h : s.Punctual) : s.Timely := by
  intro s' t hs hpop ht
  have hinPhase := h.inPhase
  unfold Scheduler.InPhase at hinPhase
  rcases Scheduler.next_cases hs with ⟨-,rfl⟩ | ⟨-,rfl⟩ | ⟨hphase,hsize,hgoes,hfreed,rfl⟩ |
    ⟨now,hphase,hsize,hgoes,hfreed,hle,rfl⟩
  · exact absurd hpop.symm (List.cons_ne_self t s.popped)
  · exact absurd hpop.symm (List.cons_ne_self t s.popped)
  · obtain ⟨called,activecnt,ran,phase,heq,-,-⟩ :=
      Scheduler.fireTimer_fields { s with pendings := s.pendings.last.2 } s.pendings.last.1 (.pendings true)
        (.pendings false)
    rw [heq] at hpop
    obtain rfl : s.pendings.last.1 = t := (List.cons.inj hpop).1
    rw [hphase] at hinPhase
    have hmem : s.pendings.last.1 ∈ s.pendings.items :=
      TimerQueue.mem_items.mpr ⟨hfreed,s.pendings.size - 1,by omega,rfl⟩
    refine ⟨(h.zero _ hmem).trans (Nat.le_add_right _ _),fun y hy hy' _ => ?_⟩
    rcases Multiset.mem_add.mp hy with hy | hy
    · obtain ⟨-,i,hi,rfl⟩ := TimerQueue.mem_items.mp hy
      rcases Nat.lt_or_ge i (s.pendings.size - 1) with hlt | hge
      · exact (hinPhase (.inr hgoes)).stack i _ hlt (by omega) hy' ht
      · obtain rfl : i = s.pendings.size - 1 := by omega
        exact Nat.le_add_right _ _
    · exact (hinPhase (.inr hgoes)).timers _ hmem y hy ht hy'
  · obtain ⟨called,activecnt,ran,phase,heq,-,-⟩ :=
      Scheduler.fireTimer_fields { s with timers := s.timers.heappop.2 } s.timers.heappop.1 (.timers now true)
        (.timers now false)
    rw [heq] at hpop
    have hroot : s.timers.slots 0 = t := by
      rw [← (List.cons.inj hpop).1,TimerQueue.heappop_eq]
      exact (BinaryHeap.pop_fst _ _).symm
    rw [hphase] at hinPhase
    have hmem : t ∈ s.timers.items := TimerQueue.mem_items.mpr ⟨hfreed,0,hsize,hroot⟩
    have hround := (h.rounded t hmem).2
    rw [hroot] at hle
    refine ⟨?_,fun y hy hy' _ => ?_⟩
    · have hread := hinPhase.1
      have hcached := h.cached
      omega
    rcases Multiset.mem_add.mp hy with hy | hy
    · exact hinPhase.2 (.inr hgoes) t hmem y hy ht hy' hle
    · obtain ⟨-,i,hi,rfl⟩ := TimerQueue.mem_items.mp hy
      have hfirst : t.seconds ≤ (s.timers.slots i).seconds := hroot ▸ h.heap.root_le hi
      have hround' := (h.rounded _ hy).1
      omega

end Steps

/-! ### One call -/

section One
variable {s : Scheduler} {now : ℕ} {t : TimerObject}

theorem step_scheduleCall_five (msec : ℕ) :
    (Scheduler.start msec).step (.scheduleCall 5 true) = some { Scheduler.start msec with
      activecnt := 1
      scheduled := [⟨0,5,5,msec⟩]
      timers := { slots := Function.update (fun _ => default) 0 ⟨0,5,5,msec⟩, size := 1, max := 1024 * 4 } } := by
  have hlong : (0 : ℤ) ≤ 5 ∧ (5 : ℤ) < 2 ^ 63 := by decide
  have hint : Int.bmod ((5 : ℕ) : ℤ) (2 ^ 32) = 5 := by decide
  have hne : ¬(5 : ℤ) = 0 := by decide
  have htoNat : Int.toNat 5 = 5 := rfl
  have hopen : (Scheduler.start msec).phase.open = true := rfl
  have hnew : (Scheduler.start msec).newTimer 5 5 = ⟨0,5,5,msec⟩ := by
    simp [Scheduler.newTimer,Scheduler.start]
  have hroom : (Scheduler.start msec).timers.room true = ((Scheduler.start msec).timers,true) := rfl
  have hfreed : (Scheduler.start msec).timers.freed = false := rfl
  have hsize : (Scheduler.start msec).timers.size = 0 := rfl
  rw [Scheduler.step,if_pos hopen,Scheduler.scheduleCall,if_pos hlong,htoNat]
  unfold Scheduler.internalScheduleCall
  simp only [hint,if_neg hne,hnew,hroom,hfreed,Bool.false_eq_true,if_false,if_true,TimerQueue.heappush_eq]
  rw [hsize,BinaryHeap.push_zero]
  exact congrArg some rfl

theorem step_scheduleCall_room (hopen : s.phase.open = true) (hfreed : s.pendings.freed = false)
    (hroom : s.pendings.room true = (s.pendings,true)) : s.step (.scheduleCall 0 true) = some { s with
      activecnt := s.activecnt + 1
      scheduled := ⟨s.scheduled.length,0,0,s.msec⟩ :: s.scheduled
      pendings := s.pendings.append ⟨s.scheduled.length,0,0,s.msec⟩ } := by
  have hlong : (0 : ℤ) ≤ 0 ∧ (0 : ℤ) < 2 ^ 63 := by decide
  have hint : Int.bmod ((0 : ℕ) : ℤ) (2 ^ 32) = 0 := by decide
  have hnew : s.newTimer 0 0 = ⟨s.scheduled.length,0,0,s.msec⟩ := by simp [Scheduler.newTimer]
  rw [Scheduler.step,if_pos hopen,Scheduler.scheduleCall,if_pos hlong,Int.toNat_zero]
  unfold Scheduler.internalScheduleCall
  simp only [hint,if_true,hnew,hroom,hfreed,Bool.false_eq_true,if_false]

theorem run_scheduleCall_five (msec pause : ℕ) : Transition.run Scheduler.step (.start msec)
    [.scheduleCall 5 true,.serve 1 true,.tick pause,.cacheTimeUpdate,.firePendings,.next,.fireTimers] = some {
      msec := msec + pause
      currentMsec := msec + pause
      activecnt := 1
      loopDone := true
      timers := { slots := Function.update (fun _ => default) 0 ⟨0,5,5,msec⟩, size := 1, max := 1024 * 4 }
      phase := .timers ((msec + pause) / 1000) false
      scheduled := [⟨0,5,5,msec⟩] } :=
  Transition.run_cons_eq_some.mpr ⟨_,step_scheduleCall_five msec,rfl⟩

theorem step_next_root (hphase : s.phase = .timers now false) (hgoes : s.goesOn = true)
    (hsize : s.timers.size = 1) (hfreed : s.timers.freed = false) (hroot : s.timers.slots 0 = t)
    (hle : t.seconds ≤ now) : s.step .next = some (Scheduler.fireTimer
      { s with timers := { s.timers with size := 0 } } t (.timers now true) (.timers now false)) := by
  have hpop : s.timers.heappop = (t,{ s.timers with size := 0 }) := by
    unfold TimerQueue.heappop
    simp [hsize,hroot]
  change s.next = _
  unfold Scheduler.next
  rw [hphase]
  simp [hgoes,hsize,hfreed,hroot,hle,hpop]

end One

/-- Along every run on which the calls are in time, none is fired early, and none before one that has
been due for longer. -/
theorem timely_of_inTime {es : List TimerEvent} {s : Scheduler} (msec : ℕ)
    (hC : Transition.Meets Scheduler.step Scheduler.InTime (.start msec) es)
    (hrun : Transition.run Scheduler.step (.start msec) es = some s) : s.Timely :=
  (Transition.invariant_run (fun _ _ _ h hC hs => h.step hC hs) (Scheduler.punctual_start msec) hC
    hrun).timely

/-- `schedule_call(5, f)` and `schedule_call(0, h)`, then `server.run` and the first turn of its loop 5
seconds later, in which `h` raises. -/
def fiveAndZero : List TimerEvent :=
  [.scheduleCall 5 true,.scheduleCall 0 true,.serve 2 true,.tick 5000,.cacheTimeUpdate,.firePendings,
    .next,.returned true,.fireTimers]

/-- Both calls are scheduled. -/
def bothScheduled : Scheduler where
  msec := 0
  activecnt := 2
  pendings := TimerQueue.append { max := 1024 } ⟨1,0,0,0⟩
  timers := { slots := Function.update (fun _ => default) 0 ⟨0,5,5,0⟩, size := 1, max := 1024 * 4 }
  scheduled := [⟨1,0,0,0⟩,⟨0,5,5,0⟩]

/-- `h` has raised. -/
def zeroFired : Scheduler :=
  { bothScheduled with
    msec := 5000
    currentMsec := 5000
    activecnt := 1
    loopDone := true
    pendings := { bothScheduled.pendings with size := 0 }
    called := Function.update (fun _ => false) 1 true
    phase := .between
    popped := [⟨1,0,0,0⟩]
    ran := [1] }

theorem step_bothScheduled : Scheduler.step
    { Scheduler.start 0 with
      activecnt := 1
      scheduled := [⟨0,5,5,0⟩]
      timers := { slots := Function.update (fun _ => default) 0 ⟨0,5,5,0⟩, size := 1, max := 1024 * 4 } }
    (.scheduleCall 0 true) = some bothScheduled :=
  step_scheduleCall_room rfl rfl rfl

/-- With a clock that has just started, both calls fire in time. -/
theorem timely_fiveAndZero : ∃ s s', Transition.run Scheduler.step (.start 0) fiveAndZero = some s ∧
    s.Timely ∧ s.step .next = some s' ∧ s'.ran = [0,1] := by
  have hfive : (Scheduler.start 0).InTime (.scheduleCall 5 true) :=
    fun _ => ⟨by decide,fun _ => by decide,fun h => absurd h (by decide)⟩
  have hfire : zeroFired.InTime .fireTimers := by
    intro _ y _ z hz
    obtain ⟨-,i,hi,-⟩ := TimerQueue.mem_items.mp hz
    exact absurd hi (Nat.not_lt_zero i)
  have hpendings : Scheduler.InTime
      { bothScheduled with msec := 5000, currentMsec := 5000, loopDone := true } .firePendings := by
    refine fun _ => ⟨fun i j hij hj => ?_,fun z hz y _ _ _ => ?_⟩
    · have hj : j < 1 := hj
      omega
    · obtain ⟨-,i,hi,rfl⟩ := TimerQueue.mem_items.mp hz
      obtain rfl : i = 0 := Nat.lt_one_iff.mp hi
      exact Nat.zero_le _
  have hC : Transition.Meets Scheduler.step Scheduler.InTime (.start 0) fiveAndZero :=
    .cons hfive (step_scheduleCall_five 0) (.cons (fun _ => ⟨by decide,fun h => absurd h (by decide),
      fun _ h => (by cases h)⟩) step_bothScheduled (.cons trivial rfl (.cons trivial rfl
      (.cons trivial rfl (.cons hpendings rfl (.cons trivial rfl (.cons trivial (t := zeroFired) rfl
      (.cons hfire rfl trivial))))))))
  have hrun : Transition.run Scheduler.step (.start 0) fiveAndZero =
      some { zeroFired with phase := .timers 5 false } :=
    Transition.run_cons_eq_some.mpr ⟨_,step_scheduleCall_five 0,
      Transition.run_cons_eq_some.mpr ⟨_,step_bothScheduled,rfl⟩⟩
  exact ⟨_,_,hrun,timely_of_inTime 0 hC hrun,step_next_root rfl rfl rfl rfl rfl (by decide),rfl⟩

/-- `schedule_call(5, f)` before `server.run`, at a clock of `1700000000` seconds: `current_msec` is 0,
and the first turn of the loop fires the call. -/
theorem not_timely : ∃ es s, Transition.run Scheduler.step (.start 1700000000000) es = some s ∧ ¬s.Timely := by
  refine ⟨_,_,run_scheduleCall_five 1700000000000 0,fun h => ?_⟩
  have hstep := step_next_root (s := ⟨1700000000000 + 0,1700000000000 + 0,{ max := 1024 },
    { slots := Function.update (fun _ => default) 0 ⟨0,5,5,1700000000000⟩, size := 1, max := 1024 * 4 },
    fun _ => false,1,true,.timers ((1700000000000 + 0) / 1000) false,[⟨0,5,5,1700000000000⟩],[],[],[]⟩)
    rfl rfl rfl rfl rfl (by decide)
  have hearly := (h _ _ hstep rfl rfl).1
  exact absurd hearly (by decide)

end Meinheld
