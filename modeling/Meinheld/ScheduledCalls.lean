import Meinheld.Timers

/-! Scheduled calls are neither lost nor fired twice. -/
namespace Meinheld

/-- The timers that were ever scheduled are those in the two queues and those that were popped, no
two of them the same; each popped one has run its callback once unless it was cancelled before,
and no other has. -/
structure Scheduler.Conserves (s : Scheduler) : Prop where
  total : (s.scheduled : Multiset TimerObject) = s.pendings.items + s.timers.items + s.popped
  distinct : (s.scheduled.map TimerObject.id).Nodup
  ran : ∀ t ∈ s.popped, s.ran.count t.id = if t.id ∈ s.cancelled then 0 else 1
  waits : ∀ t ∈ s.pendings.items + s.timers.items, s.ran.count t.id = 0

/-- The queue a call of `schedule_call` goes to. -/
def Scheduler.target (s : Scheduler) (seconds : ℤ) : TimerQueue :=
  if Int.bmod seconds (2 ^ 32) = 0 then s.pendings else s.timers

/-- A call is scheduled only while its queue holds fewer than `2^31`. -/
def Scheduler.HasRoom (s : Scheduler) : TimerEvent → Prop
  | .scheduleCall seconds _ => (s.target seconds).size < 2 ^ 31
  | _ => True

/-! ### Growing -/

/-- An array whose `max` is a power of two and an `uint32_t`. -/
structure TimerQueue.Grows (q : TimerQueue) : Prop where
  alive : q.freed = false
  max : ∃ k ≤ 31, q.max = 2 ^ k
  size_le : q.size ≤ q.max

theorem TimerQueue.Grows.room {q : TimerQueue} (h : q.Grows) (hlt : q.size < 2 ^ 31) (alloc : Bool) :
    (q.room alloc).1.Grows ∧ (q.room alloc).1.slots = q.slots ∧ (q.room alloc).1.size = q.size ∧
      ((q.room alloc).2 = true → q.size < (q.room alloc).1.max) ∧
      (alloc = true → (q.room alloc).2 = true) := by
  obtain ⟨halive,⟨k,hk,hmax⟩,hle⟩ := h
  unfold TimerQueue.room
  split
  next hsize => exact ⟨⟨halive,⟨k,hk,hmax⟩,hle⟩,rfl,rfl,fun _ => hsize,fun _ => rfl⟩
  next hsize =>
    have hk' : k + 1 ≤ 31 := by
      by_contra hno
      obtain rfl : k = 31 := by omega
      omega
    have hdouble : q.max * 2 % 2 ^ 32 = 2 ^ (k + 1) := by
      rw [hmax,← Nat.pow_succ]
      exact Nat.mod_eq_of_lt (Nat.pow_lt_pow_right (by decide) (by omega))
    have hpos : 0 < 2 ^ (k + 1) := Nat.two_pow_pos _
    have hlarger : 2 ^ (k + 1) = 2 * q.max := by rw [hmax,Nat.pow_succ,Nat.mul_comm]
    simp only [hdouble]
    rw [if_neg hpos.ne']
    split
    · exact ⟨⟨halive,⟨k + 1,hk',rfl⟩,by simp only; omega⟩,rfl,rfl,fun _ => by simp only; omega,
        fun _ => rfl⟩
    next halloc => exact ⟨⟨halive,⟨k,hk,hmax⟩,hle⟩,rfl,rfl,nofun,fun ha => absurd ha halloc⟩

theorem TimerQueue.items_congr {q q' : TimerQueue} (hf : q'.freed = q.freed) (hs : q'.slots = q.slots)
    (hn : q'.size = q.size) : q'.items = q.items := by
  unfold TimerQueue.items
  rw [hf,hs,hn]

/-! ### What each step keeps -/

/-- What holds in every state. -/
structure Scheduler.Sound (s : Scheduler) : Prop where
  total : (s.scheduled : Multiset TimerObject) = s.pendings.items + s.timers.items + s.popped
  distinct : (s.scheduled.map TimerObject.id).Nodup
  below : ∀ t ∈ s.scheduled, t.id < s.scheduled.length
  ran : ∀ t ∈ s.popped, s.ran.count t.id = if t.id ∈ s.cancelled then 0 else 1
  unran : ∀ id, id ∉ s.popped.map TimerObject.id → s.ran.count id = 0
  called : ∀ id, id ∉ s.popped.map TimerObject.id → (s.called id = true ↔ id ∈ s.cancelled)
  pendings : s.pendings.Grows
  timers : s.timers.Grows

theorem Scheduler.sound_start (msec : ℕ) : (Scheduler.start msec).Sound where
  total := rfl
  distinct := List.nodup_nil
  below := nofun
  ran := nofun
  unran _ _ := rfl
  called _ _ := by simp [Scheduler.start]
  pendings := ⟨rfl,⟨10,by decide,rfl⟩,Nat.zero_le _⟩
  timers := ⟨rfl,⟨12,by decide,rfl⟩,Nat.zero_le _⟩

section Steps
variable {s s' : Scheduler}

theorem Scheduler.Sound.not_popped (h : s.Sound) {t : TimerObject}
    (ht : t ∈ s.pendings.items + s.timers.items) : t.id ∉ s.popped.map TimerObject.id := by
  have hsum : ((s.scheduled.map TimerObject.id : List ℕ) : Multiset ℕ) =
      (s.pendings.items + s.timers.items).map TimerObject.id +
        ((s.popped.map TimerObject.id : List ℕ) : Multiset ℕ) := by
    rw [← Multiset.map_coe,h.total,Multiset.map_add,Multiset.map_coe]
  have hnodup : ((s.scheduled.map TimerObject.id : List ℕ) : Multiset ℕ).Nodup :=
    Multiset.coe_nodup.mpr h.distinct
  rw [hsum,Multiset.nodup_add] at hnodup
  exact Multiset.disjoint_left.mp hnodup.2.2 (Multiset.mem_map_of_mem _ ht)

theorem Scheduler.Sound.conserves (h : s.Sound) : s.Conserves :=
  ⟨h.total,h.distinct,h.ran,fun t ht => h.unran t.id (h.not_popped ht)⟩

/-- A timer is popped. -/
theorem Scheduler.Sound.fireTimer {q q' : TimerQueue} {t : TimerObject} (calling looping : FirePhase)
    (h : s.Sound) (hq : q.Grows) (hq' : q'.Grows)
    (hitems : s.pendings.items + s.timers.items = t ::ₘ (q.items + q'.items)) :
    (Scheduler.fireTimer { s with pendings := q, timers := q' } t calling looping).Sound := by
  have htotal : (s.scheduled : Multiset TimerObject) = q.items + q'.items + (t :: s.popped : List TimerObject) := by
    rw [h.total,hitems,← Multiset.cons_coe,Multiset.add_cons,Multiset.cons_add]
  have hnew : t.id ∉ s.popped.map TimerObject.id := h.not_popped (hitems ▸ Multiset.mem_cons_self _ _)
  unfold Scheduler.fireTimer
  split
  next hcalled =>
    refine ⟨htotal,h.distinct,h.below,fun u hu => ?_,fun id hid => ?_,fun id hid => ?_,hq,hq'⟩
    · rcases List.mem_cons.mp hu with rfl | hu
      · rw [if_pos ((h.called _ hnew).mp hcalled)]
        exact h.unran _ hnew
      · exact h.ran u hu
    · exact h.unran id fun hmem => hid (List.mem_cons_of_mem _ hmem)
    · exact h.called id fun hmem => hid (List.mem_cons_of_mem _ hmem)
  next hcalled =>
    refine ⟨htotal,h.distinct,h.below,fun u hu => ?_,fun id hid => ?_,fun id hid => ?_,hq,hq'⟩
    · rcases List.mem_cons.mp hu with rfl | hu
      · have hnot : u.id ∉ s.cancelled := fun hc => hcalled ((h.called _ hnew).mpr hc)
        simp only [List.count_cons_self,h.unran _ hnew,if_neg hnot]
      · have hne : t.id ≠ u.id := fun heq => hnew (heq ▸ List.mem_map_of_mem hu)
        simp only [List.count_cons_of_ne hne]
        exact h.ran u hu
    · simp only [List.map_cons,List.mem_cons,not_or] at hid
      simp only [List.count_cons_of_ne (Ne.symm hid.1)]
      exact h.unran id hid.2
    · simp only [List.map_cons,List.mem_cons,not_or] at hid
      simp only [Function.update_of_ne hid.1]
      exact h.called id hid.2

theorem Scheduler.Sound.cancel (h : s.Sound) (id : ℕ) : (s.cancel id).Sound := by
  have hran : ∀ t ∈ s.popped, (t.id ∈ (s.cancel id).cancelled ↔ t.id ∈ s.cancelled) := by
    intro t ht
    unfold Scheduler.cancel
    simp only
    split
    · rfl
    next hid =>
      rw [List.mem_cons,or_iff_right]
      exact fun heq => hid (heq ▸ List.mem_map_of_mem ht)
  refine ⟨h.total,h.distinct,h.below,fun t ht => ?_,h.unran,fun id' hid' => ?_,h.pendings,h.timers⟩
  · simp only [hran t ht]
    exact h.ran t ht
  · have hcalled := h.called id' hid'
    by_cases heq : id' = id
    · subst heq
      simp only [Scheduler.cancel,Function.update_self,true_iff]
      rw [if_neg (by exact hid')]
      exact List.mem_cons_self
    · simp only [Scheduler.cancel,Function.update_of_ne heq,hcalled]
      split
      · rfl
      · rw [List.mem_cons,or_iff_right heq]

/-- A call is scheduled. -/
theorem Scheduler.Sound.schedule {q q' : TimerQueue} {t : TimerObject} {n : ℤ} (h : s.Sound)
    (ht : t.id = s.scheduled.length) (hq : q.Grows) (hq' : q'.Grows)
    (hitems : q.items + q'.items = t ::ₘ (s.pendings.items + s.timers.items)) :
    Scheduler.Sound { s with
      pendings := q, timers := q', activecnt := n, scheduled := t :: s.scheduled } := by
  refine ⟨?_,?_,fun u hu => ?_,h.ran,h.unran,h.called,hq,hq'⟩
  · simp only [hitems,← Multiset.cons_coe,h.total,Multiset.cons_add]
  · rw [List.map_cons,List.nodup_cons]
    refine ⟨fun hmem => ?_,h.distinct⟩
    obtain ⟨u,hu,heq⟩ := List.mem_map.mp hmem
    have hlt := h.below u hu
    omega
  · simp only [List.length_cons]
    rcases List.mem_cons.mp hu with rfl | hu
    · omega
    · have hlt := h.below u hu
      omega

theorem TimerQueue.Grows.append {q : TimerQueue} (h : q.Grows) (hlt : q.size < q.max) (t : TimerObject) :
    (q.append t).Grows := ⟨h.alive,h.max,hlt⟩

theorem TimerQueue.Grows.heappush {q : TimerQueue} (h : q.Grows) (hlt : q.size < q.max) (t : TimerObject) :
    (q.heappush t).Grows := by
  rw [TimerQueue.heappush_eq]
  exact ⟨h.alive,h.max,hlt⟩

theorem TimerQueue.Grows.last {q : TimerQueue} (h : q.Grows) : q.last.2.Grows :=
  ⟨h.alive,h.max,(Nat.sub_le _ _).trans h.size_le⟩

theorem TimerQueue.Grows.heappop {q : TimerQueue} (h : q.Grows) : q.heappop.2.Grows := by
  rw [TimerQueue.heappop_eq]
  exact ⟨h.alive,h.max,(Nat.sub_le _ _).trans h.size_le⟩

theorem Scheduler.Sound.scheduleCall {seconds : ℤ} {alloc : Bool} (h : s.Sound)
    (hroom : (s.target seconds).size < 2 ^ 31) (hs : s.scheduleCall seconds alloc = some s') :
    s'.Sound := by
  unfold Scheduler.scheduleCall at hs
  split at hs
  swap
  · obtain rfl := Option.some.inj hs
    exact h
  next hpos =>
    have hcast : ((seconds.toNat : ℕ) : ℤ) = seconds := Int.toNat_of_nonneg hpos.1
    unfold Scheduler.internalScheduleCall at hs
    unfold Scheduler.target at hroom
    simp only [hcast] at hs
    by_cases hzero : Int.bmod seconds (2 ^ 32) = 0
    · simp only [hzero,if_true,h.pendings.alive,Bool.false_eq_true,if_false] at hs hroom
      obtain ⟨hgrows,hslots,hsize,hlt,-⟩ := h.pendings.room hroom alloc
      have hitems := TimerQueue.items_congr (hgrows.alive.trans h.pendings.alive.symm) hslots hsize
      split at hs
      next hok =>
        obtain rfl := Option.some.inj hs
        refine h.schedule rfl (hgrows.append (by rw [hsize]; exact hlt hok) _) h.timers ?_
        rw [TimerQueue.items_append hgrows.alive,hitems,Multiset.cons_add]
      · obtain rfl := Option.some.inj hs
        exact ⟨by simp only [hitems]; exact h.total,h.distinct,h.below,h.ran,h.unran,h.called,hgrows,h.timers⟩
    · simp only [hzero,if_false,h.timers.alive,Bool.false_eq_true] at hs hroom
      obtain ⟨hgrows,hslots,hsize,hlt,-⟩ := h.timers.room hroom alloc
      have hitems := TimerQueue.items_congr (hgrows.alive.trans h.timers.alive.symm) hslots hsize
      split at hs
      next hok =>
        obtain rfl := Option.some.inj hs
        refine h.schedule rfl h.pendings (hgrows.heappush (by rw [hsize]; exact hlt hok) _) ?_
        rw [TimerQueue.items_heappush hgrows.alive,hitems,Multiset.add_cons]
      · obtain rfl := Option.some.inj hs
        exact ⟨by simp only [hitems]; exact h.total,h.distinct,h.below,h.ran,h.unran,h.called,h.pendings,hgrows⟩

theorem Scheduler.Sound.control (h : s.Sound) (msec currentMsec : ℕ) (activecnt : ℤ) (loopDone : Bool)
    (phase : FirePhase) :
    Scheduler.Sound { s with msec, currentMsec, activecnt, loopDone, phase } :=
  ⟨h.total,h.distinct,h.below,h.ran,h.unran,h.called,h.pendings,h.timers⟩

theorem Scheduler.Sound.next (h : s.Sound) (hs : s.next = some s') : s'.Sound := by
  unfold Scheduler.next at hs
  split at hs
  · split at hs
    next hcond =>
      simp only [h.pendings.alive,Bool.false_eq_true,if_false,Option.some.injEq] at hs
      subst hs
      refine h.fireTimer _ _ h.pendings.last h.timers ?_
      rw [TimerQueue.items_last h.pendings.alive hcond.1,Multiset.cons_add]
    · obtain rfl := Option.some.inj hs
      exact h.control _ _ _ _ _
  · split at hs
    next hcond =>
      simp only [h.timers.alive,Bool.false_eq_true,if_false] at hs
      split at hs
      · obtain rfl := Option.some.inj hs
        refine h.fireTimer _ _ h.pendings h.timers.heappop ?_
        rw [TimerQueue.items_heappop h.timers.alive hcond.1,Multiset.add_cons]
      · obtain rfl := Option.some.inj hs
        exact h.control _ _ _ _ _
    · obtain rfl := Option.some.inj hs
      exact h.control _ _ _ _ _
  · cases hs

theorem Scheduler.Sound.step {e : TimerEvent} (h : s.Sound) (hroom : s.HasRoom e)
    (hs : s.step e = some s') : s'.Sound := by
  cases e with
  | tick msec =>
    obtain rfl := Option.some.inj hs
    exact h.control _ _ _ _ _
  | cacheTimeUpdate =>
    obtain rfl := Option.some.inj hs
    exact h.control _ _ _ _ _
  | serve activecnt loopDone =>
    simp only [Scheduler.step,Option.ite_none_right_eq_some,Option.some.injEq] at hs
    obtain ⟨-,rfl⟩ := hs
    exact h.control _ _ _ _ _
  | scheduleCall seconds alloc =>
    simp only [Scheduler.step,Option.ite_none_right_eq_some] at hs
    exact h.scheduleCall hroom hs.2
  | cancel id =>
    simp only [Scheduler.step,Option.ite_none_right_eq_some,Option.some.injEq] at hs
    obtain ⟨-,rfl⟩ := hs
    exact h.cancel id
  | firePendings =>
    simp only [Scheduler.step,Option.ite_none_right_eq_some,Option.some.injEq] at hs
    obtain ⟨-,rfl⟩ := hs
    exact h.control _ _ _ _ _
  | fireTimers =>
    simp only [Scheduler.step,Option.ite_none_right_eq_some,Option.some.injEq] at hs
    obtain ⟨-,rfl⟩ := hs
    exact h.control _ _ _ _ _
  | next => exact h.next hs
  | returned raised =>
    simp only [Scheduler.step] at hs
    split at hs
    · obtain rfl := Option.some.inj hs
      exact h.control _ _ _ _ _
    · obtain rfl := Option.some.inj hs
      exact h.control _ _ _ _ _
    · cases hs

end Steps

/-- Along every run on which no queue is full at `2^31` when a call is scheduled for it, scheduled calls
are conserved. -/
theorem scheduled_calls_conserved {es : List TimerEvent} {s : Scheduler} (msec : ℕ)
    (hroom : Transition.Meets Scheduler.step Scheduler.HasRoom (.start msec) es)
    (hrun : Transition.run Scheduler.step (.start msec) es = some s) : s.Conserves :=
  (Transition.invariant_run (fun _ _ _ h hC hs => h.step hC hs) (Scheduler.sound_start msec) hroom
    hrun).conserves

/-- A call is scheduled before the server runs, and from the callback of that call another. -/
theorem scheduled_calls_conserved_nested : ∃ s, Transition.run Scheduler.step (.start 0)
    [.scheduleCall 0 true,.serve 1 true,.firePendings,.next,.scheduleCall 3 true,.returned false] =
      some s ∧ s.Conserves := by
  have hroom : Transition.Meets Scheduler.step Scheduler.HasRoom (.start 0)
      [.scheduleCall 0 true,.serve 1 true,.firePendings,.next,.scheduleCall 3 true,.returned false] :=
    .cons (by decide : 0 < 2 ^ 31) rfl (.cons trivial rfl (.cons trivial rfl (.cons trivial rfl
      (.cons (by decide : 0 < 2 ^ 31) rfl (.cons trivial rfl trivial)))))
  exact ⟨_,rfl,scheduled_calls_conserved 0 hroom rfl⟩

/-! ### A full queue -/

section Full
variable {s : Scheduler}

theorem internalScheduleCall_pendings {asked : ℕ} (hasked : Int.bmod asked (2 ^ 32) = 0)
    (halive : s.pendings.freed = false) :
    s.internalScheduleCall asked true = some (if (s.pendings.room true).2 then { s with
      activecnt := s.activecnt + 1
      scheduled := s.newTimer asked 0 :: s.scheduled
      pendings := (s.pendings.room true).1.append (s.newTimer asked 0) }
    else { s with pendings := (s.pendings.room true).1 }) := by
  unfold Scheduler.internalScheduleCall
  simp only [hasked,if_true,halive,Bool.false_eq_true,if_false]
  split
  · rfl
  · rfl

theorem step_scheduleCall_zero (hphase : s.phase = .idle) (halive : s.pendings.freed = false) :
    s.step (.scheduleCall 0 true) = some (if (s.pendings.room true).2 then { s with
      activecnt := s.activecnt + 1
      scheduled := s.newTimer 0 0 :: s.scheduled
      pendings := (s.pendings.room true).1.append (s.newTimer 0 0) }
    else { s with pendings := (s.pendings.room true).1 }) := by
  have hlong : (0 : ℤ) ≤ 0 ∧ (0 : ℤ) < 2 ^ 63 := by norm_num
  have hopen : s.phase.open = true := by rw [hphase]; rfl
  rw [Scheduler.step,if_pos hopen,Scheduler.scheduleCall,if_pos hlong,Int.toNat_zero]
  exact internalScheduleCall_pendings (by simp) halive

theorem exists_filled {n : ℕ} (hn : n ≤ 2 ^ 31) : ∃ s : Scheduler,
    Transition.run Scheduler.step (.start 0) (List.replicate n (.scheduleCall 0 true)) = some s ∧
      s.Sound ∧ s.phase = .idle ∧ s.pendings.size = n ∧ s.scheduled.length = n ∧ s.timers.size = 0 ∧
        s.popped = [] := by
  induction n with
  | zero => exact ⟨_,rfl,Scheduler.sound_start 0,rfl,rfl,rfl,rfl,rfl⟩
  | succ n ih =>
    obtain ⟨s,hrun,hsound,hphase,hsize,hlen,htimers,hpopped⟩ := ih (Nat.le_of_succ_le hn)
    have hroom : s.HasRoom (.scheduleCall 0 true) := by
      have htarget : s.target 0 = s.pendings := rfl
      simp only [Scheduler.HasRoom,htarget]
      omega
    obtain ⟨-,-,hsize',-,hok⟩ := hsound.pendings.room (by omega) true
    have hstep := step_scheduleCall_zero hphase hsound.pendings.alive
    rw [if_pos (hok rfl)] at hstep
    refine ⟨_,?_,hsound.step hroom hstep,hphase,?_,?_,htimers,hpopped⟩
    · rw [List.replicate_succ',Transition.run_append_eq_some]
      exact ⟨s,hrun,Transition.run_cons_eq_some.mpr ⟨_,hstep,rfl⟩⟩
    · simp only [TimerQueue.append,hsize',hsize]
    · simp only [List.length_cons,hlen]

end Full

/-- With `2^31` calls in `g_pendings` the next one has the array freed: `max` times two is 0. -/
theorem scheduled_calls_not_conserved : ∃ es s,
    Transition.run Scheduler.step (.start 0) es = some s ∧ ¬s.Conserves := by
  obtain ⟨es,s,hrun,hsound,hphase,hsize,hlen,htimers,hpopped⟩ : ∃ es, ∃ s : Scheduler,
      Transition.run Scheduler.step (.start 0) es = some s ∧ s.Sound ∧ s.phase = .idle ∧
        s.pendings.size = 2 ^ 31 ∧ s.scheduled.length = 2 ^ 31 ∧ s.timers.size = 0 ∧ s.popped = [] :=
    ⟨_,exists_filled le_rfl⟩
  obtain ⟨k,hk,hmax⟩ := hsound.pendings.max
  have hle := hsound.pendings.size_le
  have hk31 : k = 31 := by
    by_contra hne
    have hlt : 2 ^ k < 2 ^ 31 := Nat.pow_lt_pow_right (by decide) (by omega)
    omega
  have hroom : s.pendings.room true = ({ s.pendings with freed := true },false) := by
    have hdouble : s.pendings.max * 2 % 2 ^ 32 = 0 := by
      rw [hmax,hk31]
      norm_num
    have hfull : ¬s.pendings.size < s.pendings.max := by
      rw [hsize,hmax,hk31]
      exact lt_irrefl _
    unfold TimerQueue.room
    simp only [if_neg hfull,hdouble,if_true]
  have hstep := step_scheduleCall_zero hphase hsound.pendings.alive
  rw [hroom,if_neg Bool.false_ne_true] at hstep
  refine ⟨es ++ [.scheduleCall 0 true],_,
    Transition.run_append_eq_some.mpr ⟨s,hrun,Transition.run_cons_eq_some.mpr ⟨_,hstep,rfl⟩⟩,fun h => ?_⟩
  have hcard := congrArg Multiset.card h.total
  simp only [TimerQueue.items,hsound.timers.alive,htimers,hpopped,Multiset.coe_card,hlen,if_true,
    Bool.false_eq_true,if_false,BinaryHeap.items_zero,Multiset.card_add,Multiset.card_zero,
    List.length_nil] at hcard
  omega

end Meinheld
