import Meinheld.EventLoop

/-! Timeouts: when a callback is called with `PICOEV_TIMEOUT`, and what the registration in force
had asked for. -/
namespace Meinheld

/-- What a registration asked for: the seconds, 0 for no timeout, and when it did. -/
structure Asked where
  secs : ℕ
  since : ℕ
  deriving DecidableEq, Repr

/-- The registrations in force, with what they asked for. -/
abbrev Registry := ℕ → Option Asked

/-- The last slot counted from `base_idx`, which is the loop's longest timeout. -/
def maxTimeout : ℕ := PICOEV_TIMEOUT_VEC_SIZE - 1

/-- A timeout of the registration in force has passed, but for the length of a slot. -/
def Passed (asked : Registry) (fd now : ℕ) : Prop :=
  ∃ a, asked fd = some a ∧ a.secs ≠ 0 ∧ a.since + min a.secs maxTimeout ≤ now + resolution

/-! The slots. -/

namespace Picoev

variable {κ : Type} {l : Picoev κ} {asked : Registry} {scan : Option (ℕ × List ℕ)}

/-- The time a slot stands for. -/
def slotTime (l : Picoev κ) (idx : ℕ) : ℕ :=
  l.baseTime + (idx + PICOEV_TIMEOUT_VEC_SIZE - l.baseIdx) % PICOEV_TIMEOUT_VEC_SIZE

/-- A bit that stands for a timeout the registration in force asked for. -/
structure Armed (l : Picoev κ) (asked : Registry) (idx fd : ℕ) : Prop where
  timeoutIdx : (l.fds fd).timeoutIdx = some idx
  lt : idx < PICOEV_TIMEOUT_VEC_SIZE
  asks : ∃ a, asked fd = some a ∧ a.secs ≠ 0 ∧
    a.since + min a.secs maxTimeout ≤ l.slotTime idx + 2 * resolution

def Fired (l : Picoev κ) (scan : Option (ℕ × List ℕ)) (idx fd : ℕ) : Prop :=
  ∃ j v, scan = some (j,v) ∧ idx = l.baseIdx ∧ fd / PICOEV_SHORT_BITS = j ∧ fd ∉ v

/-- A scan of the slot at `base_idx` in its word `j`, with `v` left of it. -/
structure Scanning (l : Picoev κ) (j : ℕ) (v : List ℕ) : Prop where
  due : l.baseTime + resolution ≤ l.now
  nodup : v.Nodup
  word : ∀ fd ∈ v, fd / PICOEV_SHORT_BITS = j ∧ l.vec l.baseIdx fd = true ∧
    (l.fds fd).timeoutIdx = some l.baseIdx
  done : ∀ fd, fd / PICOEV_SHORT_BITS < j → l.vec l.baseIdx fd = false

/-- Every bit of the slots stands for a timeout asked for, or for one just delivered. -/
structure Slots (l : Picoev κ) (asked : Registry) (scan : Option (ℕ × List ℕ)) : Prop where
  baseIdx : l.baseIdx < PICOEV_TIMEOUT_VEC_SIZE
  baseTime : l.baseTime ≤ l.now
  active : ∀ fd a, asked fd = some a → l.isActive fd = true
  bound : ∀ idx fd, l.vec idx fd = true → fd < l.maxFd
  bits : ∀ idx fd, l.vec idx fd = true → Armed l asked idx fd ∨ Fired l scan idx fd
  scanning : ∀ j v, scan = some (j,v) → Scanning l j v

def Unarmed (l : Picoev κ) (scan : Option (ℕ × List ℕ)) (fd : ℕ) : Prop :=
  ∀ idx, l.vec idx fd = true → Fired l scan idx fd

def Left (scan : Option (ℕ × List ℕ)) (fd : ℕ) : Prop := ∃ j v, scan = some (j,v) ∧ fd ∈ v

/-- A descriptor without a timeout to come may change its registration. -/
theorem Slots.setFd (h : Slots l asked scan) {fd : ℕ} {t : PicoevFd κ} {o : Option Asked}
    (hun : Unarmed l scan fd) (hleft : ¬Left scan fd) (ht : o.isSome = true → t.active = true) :
    Slots (l.setFd fd t) (Function.update asked fd o) scan := by
  refine ⟨h.baseIdx,h.baseTime,fun k a ha => ?_,h.bound,fun idx k hk => ?_,fun j v hs => ?_⟩
  · by_cases hkfd : k = fd
    · subst hkfd
      rw [Function.update_self] at ha
      simpa [isActive] using ht (by simp [ha])
    · rw [Function.update_of_ne hkfd] at ha
      simpa [isActive,Function.update_of_ne hkfd] using h.active k a ha
  · by_cases hkfd : k = fd
    · subst hkfd
      exact .inr (hun idx hk)
    · refine (h.bits idx k hk).imp_left fun ha => ⟨?_,ha.lt,?_⟩
      · simpa [Function.update_of_ne hkfd] using ha.timeoutIdx
      · rw [Function.update_of_ne hkfd]
        exact ha.asks
  · obtain ⟨hdue,hnodup,hword,hdone⟩ := h.scanning j v hs
    refine ⟨hdue,hnodup,fun k hk => ?_,hdone⟩
    have hkfd : k ≠ fd := fun heq => hleft ⟨j,v,hs,heq ▸ hk⟩
    rw [setFd_fds,setFd_vec,setFd_baseIdx,Function.update_of_ne hkfd]
    exact hword k hk

/-- Clearing the timeout of a descriptor leaves it without one to come. -/
theorem Slots.clearTimeout (h : Slots l asked scan) {fd : ℕ} (hleft : ¬Left scan fd) :
    Slots (l.clearTimeout fd) asked scan ∧ Unarmed (l.clearTimeout fd) scan fd := by
  cases hidx : (l.fds fd).timeoutIdx with
  | none =>
    have heq : l.clearTimeout fd = l := by simp [Picoev.clearTimeout,hidx]
    rw [heq]
    refine ⟨h,fun idx hk => (h.bits idx fd hk).resolve_left fun ha => ?_⟩
    simp [ha.timeoutIdx] at hidx
  | some old =>
    have heq : l.clearTimeout fd = (l.setVec old fd false).setFd fd
        { l.fds fd with timeoutIdx := none } := by simp [Picoev.clearTimeout,hidx]
    have hbit : ∀ {idx k}, (l.setVec old fd false).vec idx k = true →
        l.vec idx k = true ∧ ¬(idx = old ∧ k = fd) := by
      intro idx k hk
      by_cases hsame : idx = old ∧ k = fd
      · simp [setVec_vec,hsame] at hk
      · rw [setVec_vec_of_ne l false hsame] at hk
        exact ⟨hk,hsame⟩
    have hun : Unarmed (l.setVec old fd false) scan fd := by
      intro idx hk
      obtain ⟨hk,hne⟩ := hbit hk
      refine (h.bits idx fd hk).resolve_left fun ha => hne ⟨?_,rfl⟩
      rw [ha.timeoutIdx] at hidx
      exact Option.some.inj hidx
    have hslots : Slots (l.setVec old fd false) asked scan := by
      refine ⟨h.baseIdx,h.baseTime,h.active,fun idx k hk => h.bound idx k (hbit hk).1,
        fun idx k hk => ?_,fun j v hs => ?_⟩
      · exact (h.bits idx k (hbit hk).1).imp_left fun ha => ⟨ha.timeoutIdx,ha.lt,ha.asks⟩
      · obtain ⟨hdue,hnodup,hword,hdone⟩ := h.scanning j v hs
        refine ⟨hdue,hnodup,fun k hk => ?_,fun k hk => ?_⟩
        · have hkfd : k ≠ fd := fun heq => hleft ⟨j,v,hs,heq ▸ hk⟩
          rw [setVec_fds,setVec_baseIdx,setVec_vec_of_ne l false fun h0 => hkfd h0.2]
          exact hword k hk
        · simp [setVec_vec,hdone k hk]
    rw [heq]
    have hsame : Function.update asked fd (asked fd) = asked := Function.update_eq_self fd asked
    refine ⟨?_,hun⟩
    rw [← hsame]
    exact hslots.setFd hun hleft fun ho => by
      obtain ⟨a,ha⟩ := Option.isSome_iff_exists.mp ho
      exact h.active fd a ha

/-- A timeout is armed in time when its slot is not too early for it: the time the loop works with
is at most two seconds old, and so is that of the first slot when the timeout is cut to the last. -/
def Timely (l : Picoev κ) (secs clock : ℕ) : Prop :=
  clock ≤ l.now + 2 ∧
    (l.baseTime + maxTimeout < l.now + secs → clock + min secs maxTimeout ≤ l.baseTime + maxTimeout + 2)

/-- Arming a timeout asked for. -/
theorem Slots.arm (h : Slots l asked scan) {fd secs clock : ℕ} (hfd : fd < l.maxFd)
    (hun : Unarmed l scan fd) (hleft : ¬Left scan fd) (hsecs : secs ≠ 0)
    (hasked : asked fd = some ⟨secs,clock⟩) (ht : Timely l secs clock) :
    Slots ((l.setVec ((l.baseIdx + l.delta secs) % PICOEV_TIMEOUT_VEC_SIZE) fd true).setFd fd
      { l.fds fd with timeoutIdx := some ((l.baseIdx + l.delta secs) % PICOEV_TIMEOUT_VEC_SIZE) })
      asked scan := by
  obtain ⟨hnow,hcut⟩ := ht
  have hbase := h.baseTime
  have hidx := h.baseIdx
  have hdelta : l.delta secs = min (l.now + secs - l.baseTime) maxTimeout := by
    simp only [delta,resolution_eq,Nat.div_one,maxTimeout,PICOEV_TIMEOUT_VEC_SIZE]
    split <;> omega
  simp only [maxTimeout,PICOEV_TIMEOUT_VEC_SIZE] at hdelta hcut hidx
  set d := l.delta secs with hd
  set idx := (l.baseIdx + d) % PICOEV_TIMEOUT_VEC_SIZE with hi
  simp only [PICOEV_TIMEOUT_VEC_SIZE] at hi
  have hne : idx ≠ l.baseIdx := by omega
  have hlt : idx < 128 := by omega
  have hback : (idx + 128 - l.baseIdx) % 128 = d := by omega
  have htime : clock + min secs maxTimeout ≤ l.slotTime idx + 2 * resolution := by
    simp only [slotTime,maxTimeout,PICOEV_TIMEOUT_VEC_SIZE,hback,resolution_eq]
    omega
  have hbit : ∀ {i k}, (l.setVec idx fd true).vec i k = true →
      (i = idx ∧ k = fd) ∨ l.vec i k = true := by
    intro i k hk
    by_cases hsame : i = idx ∧ k = fd
    · exact .inl hsame
    · exact .inr (setVec_vec_of_ne l true hsame ▸ hk)
  refine ⟨h.baseIdx,h.baseTime,fun k a ha => ?_,fun i k hk => ?_,fun i k hk => ?_,fun j v hs => ?_⟩
  · by_cases hkfd : k = fd
    · subst hkfd
      simpa [isActive] using h.active k a ha
    · simpa [isActive,Function.update_of_ne hkfd] using h.active k a ha
  · rcases hbit hk with ⟨_,rfl⟩ | hk'
    · exact hfd
    · exact h.bound i k hk'
  · rcases hbit hk with ⟨rfl,rfl⟩ | hk'
    · exact .inl ⟨by simp,hlt,_,hasked,hsecs,htime⟩
    · by_cases hkfd : k = fd
      · subst hkfd
        exact .inr (hun i hk')
      · refine (h.bits i k hk').imp_left fun ha => ⟨?_,ha.lt,ha.asks⟩
        simpa [Function.update_of_ne hkfd] using ha.timeoutIdx
  · obtain ⟨hdue,hnodup,hword,hdone⟩ := h.scanning j v hs
    refine ⟨hdue,hnodup,fun k hk => ?_,fun k hk => ?_⟩
    · have hkfd : k ≠ fd := fun heq => hleft ⟨j,v,hs,heq ▸ hk⟩
      rw [setFd_fds,setFd_vec,setFd_baseIdx,setVec_baseIdx,setVec_fds,
        setVec_vec_of_ne l true fun h0 => hkfd h0.2,Function.update_of_ne hkfd]
      exact hword k hk
    · rw [setFd_vec,setFd_baseIdx,setVec_baseIdx,setVec_vec_of_ne l true fun h0 => hne h0.1.symm]
      exact hdone k hk

theorem Slots.setAsked (h : Slots l asked scan) {fd : ℕ} (hun : Unarmed l scan fd)
    (hleft : ¬Left scan fd) {o : Option Asked} (ho : o.isSome = true → l.isActive fd = true) :
    Slots l (Function.update asked fd o) scan := by
  have hset := h.setFd (t := l.fds fd) hun hleft ho
  have hsame : l.setFd fd (l.fds fd) = l := by simp [Picoev.setFd]
  rwa [hsame] at hset

/-- `picoev_set_timeout` on a descriptor that is registered, which asks for it. -/
theorem Slots.setTimeout (h : Slots l asked scan) {fd secs clock : ℕ} (hfd : fd < l.maxFd)
    (hleft : ¬Left scan fd) (ht : secs ≠ 0 → (asked fd).isSome = true ∧ Timely l secs clock) :
    Slots (l.setTimeout fd secs)
      (Function.update asked fd ((asked fd).map fun _ => ⟨secs,clock⟩)) scan := by
  obtain ⟨hclear,hun⟩ := h.clearTimeout hleft
  have hframe : (l.clearTimeout fd).maxFd = l.maxFd ∧ (l.clearTimeout fd).now = l.now ∧
      (l.clearTimeout fd).baseTime = l.baseTime := by
    unfold Picoev.clearTimeout
    split <;> exact ⟨rfl,rfl,rfl⟩
  have hasked := hclear.setAsked (o := (asked fd).map fun _ => ⟨secs,clock⟩) hun hleft fun ho => by
    obtain ⟨a,ha⟩ := Option.isSome_iff_exists.mp (by simpa using ho)
    exact hclear.active fd a ha
  unfold Picoev.setTimeout
  by_cases hs : secs = 0
  · simpa [hs] using hasked
  · obtain ⟨hsome,htime⟩ := ht hs
    obtain ⟨a,ha⟩ := Option.isSome_iff_exists.mp hsome
    simp only [if_neg hs]
    have htimely : (l.clearTimeout fd).Timely secs clock := by
      simpa only [Timely,hframe.2.1,hframe.2.2] using htime
    exact hasked.arm (hframe.1 ▸ hfd) hun hleft hs (by simp [ha]) htimely

/-- A bit of the descriptor is set in the slot its `timeout_idx` names. -/
def pending (l : Picoev κ) (fd : ℕ) : Bool :=
  match (l.fds fd).timeoutIdx with
  | none => false
  | some idx => l.vec idx fd

theorem Slots.unarmed (h : Slots l asked scan) {fd : ℕ} (hp : l.pending fd = false) :
    Unarmed l scan fd := fun idx hk => (h.bits idx fd hk).resolve_left fun ha => by
  simp [pending,ha.timeoutIdx,hk] at hp

theorem Slots.not_left (h : Slots l asked scan) {fd : ℕ} (hp : l.pending fd = false) :
    ¬Left scan fd := by
  rintro ⟨j,v,hs,hfd⟩
  obtain ⟨_,hvec,hidx⟩ := (h.scanning j v hs).word fd hfd
  simp [pending,hidx,hvec] at hp

/-- A registration on a descriptor for which no timeout is pending. -/
theorem Slots.add (h : Slots l asked scan) {l' : Picoev κ} {fd secs clock : ℕ} {events : Events}
    {callback : κ} (hp : l.pending fd = false) (ht : secs ≠ 0 → Timely l secs clock)
    (hadd : l.add fd events secs callback = some l') :
    Slots l' (Function.update asked fd (some ⟨secs,clock⟩)) scan := by
  obtain ⟨hfd,rfl⟩ := add_eq_some hadd
  have hset := h.setFd (t := ⟨some callback,true,events,none⟩) (o := some ⟨secs,clock⟩)
    (h.unarmed hp) (h.not_left hp) fun _ => rfl
  have hto := hset.setTimeout hfd (h.not_left hp)
    fun hs => ⟨by simp,ht hs⟩
  simpa using hto

theorem Slots.setFd_same (h : Slots l asked scan) {fd : ℕ} {t : PicoevFd κ}
    (hidx : t.timeoutIdx = (l.fds fd).timeoutIdx) (hactive : t.active = (l.fds fd).active) :
    Slots (l.setFd fd t) asked scan := by
  have hto : ∀ k, ((l.setFd fd t).fds k).timeoutIdx = (l.fds k).timeoutIdx := by
    intro k
    by_cases hk : k = fd
    · subst hk
      simp [hidx]
    · simp [Function.update_of_ne hk]
  have hact : ∀ k, (l.setFd fd t).isActive k = l.isActive k := by
    intro k
    by_cases hk : k = fd
    · subst hk
      simp [isActive,hactive]
    · simp [isActive,Function.update_of_ne hk]
  refine ⟨h.baseIdx,h.baseTime,fun k a ha => (hact k).trans (h.active k a ha),h.bound,
    fun idx k hk => ?_,fun j v hs => ?_⟩
  · exact (h.bits idx k hk).imp_left fun ha => ⟨(hto k).trans ha.timeoutIdx,ha.lt,ha.asks⟩
  · obtain ⟨hdue,hnodup,hword,hdone⟩ := h.scanning j v hs
    refine ⟨hdue,hnodup,fun k hk => ?_,hdone⟩
    obtain ⟨hj,hvec,hti⟩ := hword k hk
    exact ⟨hj,hvec,(hto k).trans hti⟩

theorem Slots.del (h : Slots l asked scan) {fd : ℕ} (hleft : ¬Left scan fd) :
    Slots (l.del fd) (Function.update asked fd none) scan := by
  have hsame := h.setFd_same (t := { l.fds fd with events := {} }) rfl rfl
  obtain ⟨hclear,hun⟩ := hsame.clearTimeout hleft
  exact hclear.setFd hun hleft (by simp)

/-! The scan. -/

theorem Slots.unsetTimeout {j k : ℕ} {v : List ℕ} (h : Slots l asked (some (j,k :: v))) :
    Slots (l.unsetTimeout k) asked (some (j,v)) := by
  obtain ⟨hdue,hnodup,hword,hdone⟩ := h.scanning j _ rfl
  obtain ⟨hj,hvec,hto⟩ := hword k (by simp)
  have hkv : k ∉ v := (List.nodup_cons.mp hnodup).1
  refine ⟨h.baseIdx,h.baseTime,fun fd a ha => ?_,h.bound,fun idx fd hfd => ?_,fun j' v' hs => ?_⟩
  · by_cases hk : fd = k
    · subst hk
      simpa [isActive,Picoev.unsetTimeout] using h.active fd a ha
    · simpa [isActive,Picoev.unsetTimeout,Function.update_of_ne hk] using h.active fd a ha
  · have hfired : Fired l (some (j,k :: v)) idx fd → Fired (l.unsetTimeout k) (some (j,v)) idx fd := by
      rintro ⟨j',v',hs,hidx,hw,hmem⟩
      obtain ⟨rfl,rfl⟩ : j = j' ∧ k :: v = v' := by simpa using hs
      exact ⟨j,v,rfl,hidx,hw,fun hm => hmem (List.mem_cons_of_mem _ hm)⟩
    rcases h.bits idx fd hfd with ha | hf
    · by_cases hk : fd = k
      · subst hk
        have hidx : idx = l.baseIdx := Option.some.inj (ha.timeoutIdx.symm.trans hto)
        exact .inr ⟨j,v,rfl,hidx,hj,hkv⟩
      · refine .inl ⟨?_,ha.lt,ha.asks⟩
        simpa [Picoev.unsetTimeout,Function.update_of_ne hk] using ha.timeoutIdx
    · exact .inr (hfired hf)
  · obtain ⟨rfl,rfl⟩ : j = j' ∧ v = v' := by simpa using hs
    refine ⟨hdue,(List.nodup_cons.mp hnodup).2,fun fd hfd => ?_,hdone⟩
    have hk : fd ≠ k := fun heq => hkv (heq ▸ hfd)
    rw [Picoev.unsetTimeout,setFd_fds,setFd_vec,setFd_baseIdx,Function.update_of_ne hk]
    exact hword fd (List.mem_cons_of_mem _ hfd)

/-- The callback called next is that of a registration whose timeout has passed. -/
theorem Slots.passed {j k clock : ℕ} {v : List ℕ} (h : Slots l asked (some (j,k :: v)))
    (hnow : l.now ≤ clock) : Passed asked k clock := by
  obtain ⟨hdue,_,hword,_⟩ := h.scanning j _ rfl
  obtain ⟨_,hvec,_⟩ := hword k (by simp)
  rcases h.bits l.baseIdx k hvec with ha | ⟨j',v',hs,_,_,hmem⟩
  · obtain ⟨a,hask,hsecs,htime⟩ := ha.asks
    have hslot : l.slotTime l.baseIdx = l.baseTime := by
      simp [slotTime,PICOEV_TIMEOUT_VEC_SIZE]
    refine ⟨a,hask,hsecs,?_⟩
    rw [hslot] at htime
    simp only [resolution_eq] at htime hdue ⊢
    omega
  · obtain ⟨rfl,rfl⟩ : j = j' ∧ k :: v = v' := by simpa using hs
    simp at hmem

/-- What a slot has lost when its words up to `j` are scanned. -/
def ScannedTo (l : Picoev κ) (j : ℕ) : Prop :=
  ∀ fd, fd / PICOEV_SHORT_BITS < j → l.vec l.baseIdx fd = false

theorem Slots.clearWord {j : ℕ} (h : Slots l asked (some (j,[]))) :
    Slots (l.clearWord j) asked none ∧ ScannedTo (l.clearWord j) (j + 1) := by
  obtain ⟨_,_,_,hdone⟩ := h.scanning j _ rfl
  have hbit : ∀ {idx fd}, (l.clearWord j).vec idx fd = true →
      l.vec idx fd = true ∧ ¬(idx = l.baseIdx ∧ fd / PICOEV_SHORT_BITS = j) := by
    intro idx fd hk
    by_cases hsame : idx = l.baseIdx ∧ fd / PICOEV_SHORT_BITS = j
    · simp [Picoev.clearWord,hsame] at hk
    · exact ⟨by simpa only [Picoev.clearWord,if_neg hsame] using hk,hsame⟩
  refine ⟨⟨h.baseIdx,h.baseTime,h.active,fun idx fd hk => h.bound idx fd (hbit hk).1,
    fun idx fd hk => .inl ?_,by simp⟩,fun fd hfd => ?_⟩
  · obtain ⟨hk,hne⟩ := hbit hk
    rcases h.bits idx fd hk with ha | ⟨j',v',hs,hidx,hw,_⟩
    · exact ⟨ha.timeoutIdx,ha.lt,ha.asks⟩
    · obtain ⟨rfl,rfl⟩ : j = j' ∧ [] = v' := by simpa using hs
      exact absurd ⟨hidx,hw⟩ hne
  · by_contra hk
    obtain ⟨hk,hne⟩ := hbit (by simpa using hk)
    have hlt : fd / PICOEV_SHORT_BITS < j := by
      have : fd / PICOEV_SHORT_BITS ≠ j := fun h0 => hne ⟨rfl,h0⟩
      omega
    have hnone : l.vec l.baseIdx fd = false := hdone fd hlt
    have hk' : l.vec l.baseIdx fd = true := hk
    simp [hnone] at hk'

theorem mem_word {j fd : ℕ} : fd ∈ l.word j ↔
    fd / PICOEV_SHORT_BITS = j ∧ l.vec l.baseIdx fd = true := by
  simp only [word,List.mem_filter,List.mem_map,List.mem_range,PICOEV_SHORT_BITS]
  constructor
  · rintro ⟨⟨i,hi,rfl⟩,hvec⟩
    exact ⟨by omega,hvec⟩
  · rintro ⟨hj,hvec⟩
    exact ⟨⟨fd % 16,by omega,by omega⟩,hvec⟩

/-- A word is copied before its callbacks run. -/
theorem Slots.scanWord (h : Slots l asked none) {j : ℕ} (hdue : l.slotDue = true)
    (hdone : ScannedTo l j) : Slots l asked (some (j,l.word j)) := by
  have hbits : ∀ idx fd, l.vec idx fd = true → Armed l asked idx fd := fun idx fd hk =>
    (h.bits idx fd hk).resolve_right fun hf => by simp [Fired] at hf
  refine ⟨h.baseIdx,h.baseTime,h.active,h.bound,fun idx fd hk => .inl (hbits idx fd hk),
    fun j' v' hs => ?_⟩
  obtain ⟨rfl,rfl⟩ : j = j' ∧ l.word j = v' := by simpa using hs
  refine ⟨by simpa [slotDue] using hdue,?_,fun fd hfd => ?_,hdone⟩
  · exact (List.nodup_range.map fun a b hab => by simpa using hab).filter _
  · obtain ⟨hj,hvec⟩ := mem_word.mp hfd
    exact ⟨hj,hvec,(hbits _ _ hvec).timeoutIdx⟩

theorem lt_words {fd : ℕ} (h : fd < l.maxFd) : fd / PICOEV_SHORT_BITS < l.words := by
  simp only [words,rndUp,PICOEV_SIMD_BITS,PICOEV_SHORT_BITS]
  omega

/-- The scan goes on with the next slot when this one has no bit left. -/
theorem Slots.nextSlot (h : Slots l asked none) (hdue : l.slotDue = true)
    (hdone : ScannedTo l l.words) : Slots l.nextSlot asked none := by
  have hidx := h.baseIdx
  simp only [PICOEV_TIMEOUT_VEC_SIZE] at hidx
  have hdue' : l.baseTime + resolution ≤ l.now := by simpa [slotDue] using hdue
  refine ⟨Nat.mod_lt _ (by decide),hdue',h.active,h.bound,fun idx fd hk => .inl ?_,by simp⟩
  have ha : Armed l asked idx fd := (h.bits idx fd hk).resolve_right fun hf => by simp [Fired] at hf
  have hlt := ha.lt
  simp only [PICOEV_TIMEOUT_VEC_SIZE] at hlt
  have hne : idx ≠ l.baseIdx := by
    rintro rfl
    have hk' : l.vec l.baseIdx fd = true := hk
    simp [hdone fd (lt_words (h.bound _ fd hk))] at hk'
  have htime : l.nextSlot.slotTime idx = l.slotTime idx := by
    simp only [slotTime,Picoev.nextSlot,PICOEV_TIMEOUT_VEC_SIZE,resolution_eq]
    omega
  exact ⟨ha.timeoutIdx,ha.lt,by rw [htime]; exact ha.asks⟩

theorem Slots.setNow (h : Slots l asked none) {now : ℕ} (hn : l.now ≤ now) :
    Slots { l with now := now } asked none :=
  ⟨h.baseIdx,h.baseTime.trans hn,h.active,h.bound,fun idx fd hk => (h.bits idx fd hk).imp
    (fun ha => ⟨ha.timeoutIdx,ha.lt,ha.asks⟩) (fun hf => by simp [Fired] at hf),by simp⟩

theorem slots_init (maxFd now : ℕ) : Slots (.init maxFd now : Picoev κ) (fun _ => none) none :=
  ⟨Nat.zero_lt_succ _,le_rfl,by simp,by simp [init],by simp [init],by simp⟩

end Picoev

/-! The run loop, with what the registrations asked for. -/

structure Watched where
  loop : EventLoop
  asked : Registry

def Call.ask (e : EventLoop) (asked : Registry) : Call → Registry
  | .add fd _ secs _ _ =>
    if fd < e.picoev.maxFd then Function.update asked fd (some ⟨secs,e.clock⟩) else asked
  | .del fd _ => Function.update asked fd none
  | .delIfActive fd => if e.picoev.isActive fd then Function.update asked fd none else asked
  | .setTimeout fd secs => Function.update asked fd ((asked fd).map fun _ => ⟨secs,e.clock⟩)

def Watched.call (w : Watched) (c : Call) : Option Watched :=
  (w.loop.call c).map fun e => ⟨e,c.ask w.loop w.asked⟩

/-- One event of the run loop. -/
def watchedStep (w : Watched) : LoopEvent → Option Watched
  | .run maxFd socks =>
    if w.loop.phase = .stopped then
      Transition.run Watched.call ⟨w.loop.started maxFd socks,fun _ => none⟩ (listenCalls socks)
    else none
  | .operate o =>
    if w.loop.phase.busy then
      (Transition.run Watched.call w (o.calls w.loop.listenSocks)).map fun w' =>
        { w' with loop := w'.loop.finish o }
    else none
  | .exit => (loopStep w.loop .exit).map fun e => ⟨e,fun _ => none⟩
  | l => (loopStep w.loop l).map fun e => { w with loop := e }

theorem watchedCalls_loop {cs : List Call} {w w' : Watched}
    (h : Transition.run Watched.call w cs = some w') :
    Transition.run EventLoop.call w.loop cs = some w'.loop := by
  induction cs generalizing w with
  | nil =>
    simp only [Transition.run,Option.some.injEq] at h
    simp [Transition.run,h]
  | cons c cs ih =>
    obtain ⟨w1,hc,hrun⟩ := Transition.run_cons_eq_some.mp h
    obtain ⟨e,he,rfl⟩ := Option.map_eq_some_iff.mp hc
    exact Transition.run_cons_eq_some.mpr ⟨e,he,ih hrun⟩

/-- A step is a step of the run loop. -/
theorem watchedStep_loop {w w' : Watched} {l : LoopEvent} (h : watchedStep w l = some w') :
    loopStep w.loop l = some w'.loop := by
  cases l with
  | run maxFd socks =>
    simp only [watchedStep,Option.ite_none_right_eq_some] at h
    simp only [loopStep,if_pos h.1]
    exact watchedCalls_loop h.2
  | operate o =>
    simp only [watchedStep,Option.ite_none_right_eq_some] at h
    obtain ⟨w1,hrun,rfl⟩ := Option.map_eq_some_iff.mp h.2
    simp only [loopStep,if_pos h.1,EventLoop.operate,watchedCalls_loop hrun,Option.map_some]
  | _ =>
    simp only [watchedStep,Option.map_eq_some_iff] at h
    obtain ⟨e,he,rfl⟩ := h
    exact he

def Phase.scan : Phase → Option (ℕ × List ℕ)
  | .timeouts j v => some (j,v)
  | _ => none

/-- The condition on a call of picoev. A registration finds no timeout pending for its descriptor,
a removal or a new timeout does not take one from under the scan, a timeout is set on a registered
descriptor, and it is not too early. -/
def CallTimely (w : Watched) : Call → Prop
  | .add fd _ secs _ _ => fd < w.loop.picoev.maxFd → w.loop.picoev.pending fd = false ∧
      (secs ≠ 0 → w.loop.picoev.Timely secs w.loop.clock)
  | .del fd _ => ¬Picoev.Left w.loop.phase.scan fd
  | .delIfActive fd => w.loop.picoev.isActive fd = true → ¬Picoev.Left w.loop.phase.scan fd
  | .setTimeout fd secs => ¬Picoev.Left w.loop.phase.scan fd ∧
      (secs ≠ 0 → w.loop.picoev.isActive fd = true ∧ w.loop.picoev.Timely secs w.loop.clock)

def StepTimely (w : Watched) : LoopEvent → Prop
  | .run maxFd socks => Transition.Meets Watched.call CallTimely
      ⟨w.loop.started maxFd socks,fun _ => none⟩ (listenCalls socks)
  | .operate o => Transition.Meets Watched.call CallTimely w (o.calls w.loop.listenSocks)
  | _ => True

/-- What holds in every state. -/
structure Punctual (w : Watched) : Prop where
  slots : w.loop.picoev.Slots w.asked w.loop.phase.scan
  asked : ∀ fd, w.loop.picoev.isActive fd = true → (w.asked fd).isSome = true
  now : w.loop.picoev.now ≤ w.loop.clock
  current : w.loop.currentSec ≤ w.loop.clock
  running : w.loop.phase ≠ .stopped → w.loop.picoev.now ≤ w.loop.currentSec

theorem setTimeout_isActive (l : Picoev Callback) (fd secs k : ℕ) :
    (l.setTimeout fd secs).isActive k = l.isActive k := by
  obtain ⟨idx,h⟩ := Picoev.setTimeout_fds l fd secs
  by_cases hk : k = fd
  · simp [Picoev.isActive,h,hk]
  · simp [Picoev.isActive,h,Function.update_of_ne hk]

theorem del_isActive (l : Picoev Callback) (fd k : ℕ) :
    (l.del fd).isActive k = (decide (k ≠ fd) && l.isActive k) := by
  by_cases hk : k = fd
  · simp [Picoev.isActive,Picoev.del,hk]
  · have h := setTimeout_isActive (l.setFd fd { l.fds fd with events := {} }) fd 0 k
    simp only [Picoev.isActive,Picoev.setFd_fds,Function.update_of_ne hk] at h
    simp [Picoev.isActive,Picoev.del,hk,h]

theorem add_isActive {l l' : Picoev Callback} {fd secs : ℕ} {events : Events} {callback : Callback}
    (h : l.add fd events secs callback = some l') (k : ℕ) :
    l'.isActive k = (decide (k = fd) || l.isActive k) := by
  obtain ⟨-,rfl⟩ := Picoev.add_eq_some h
  rw [setTimeout_isActive]
  by_cases hk : k = fd
  · simp [Picoev.isActive,hk]
  · simp [Picoev.isActive,hk]

/-- A removal keeps the slots in order when the scan has not copied the descriptor. -/
theorem Punctual.del {w : Watched} (h : Punctual w) {fd : ℕ} {n : ℤ}
    (hleft : ¬Picoev.Left w.loop.phase.scan fd) : Punctual
      ⟨{ w.loop with picoev := w.loop.picoev.del fd, activecnt := n },
        Function.update w.asked fd none⟩ := by
  have hframe := Picoev.setTimeout_frame
    (w.loop.picoev.setFd fd { w.loop.picoev.fds fd with events := {} }) fd 0
  have hnow : (w.loop.picoev.del fd).now = w.loop.picoev.now := hframe.2.2.2
  refine ⟨h.slots.del hleft,fun k hk => ?_,hnow.trans_le h.now,h.current,
    fun hp => hnow.trans_le (h.running hp)⟩
  have hk' : (w.loop.picoev.del fd).isActive k = true := hk
  simp only [del_isActive,Bool.and_eq_true,decide_eq_true_eq] at hk'
  show (Function.update w.asked fd none k).isSome = true
  rw [Function.update_of_ne hk'.1]
  exact h.asked k hk'.2

/-- A call that meets its condition keeps the slots in order. -/
theorem call_punctual {w w' : Watched} {c : Call} (h : Punctual w) (hc : CallTimely w c)
    (hs : w.call c = some w') : Punctual w' := by
  obtain ⟨e,he,rfl⟩ := Option.map_eq_some_iff.mp hs
  cases c with
  | add fd events secs callback counting =>
    simp only [EventLoop.call] at he
    split at he
    next l hadd =>
      obtain rfl := Option.some.inj he
      obtain ⟨hfd,hl⟩ := Picoev.add_eq_some hadd
      obtain ⟨hp,ht⟩ := hc hfd
      have hnow : l.now = w.loop.picoev.now := by
        rw [hl]
        exact (Picoev.setTimeout_frame _ fd secs).2.2.2
      have hask : Call.ask w.loop w.asked (.add fd events secs callback counting) =
          Function.update w.asked fd (some ⟨secs,w.loop.clock⟩) := if_pos hfd
      rw [hask]
      refine ⟨h.slots.add hp ht hadd,fun k hk => ?_,hnow.trans_le h.now,h.current,
        fun hph => hnow.trans_le (h.running hph)⟩
      have hk' : l.isActive k = true := hk
      rw [add_isActive hadd] at hk'
      show (Function.update w.asked fd _ k).isSome = true
      by_cases hkfd : k = fd
      · simp [hkfd]
      · rw [Function.update_of_ne hkfd]
        exact h.asked k (by simpa [hkfd] using hk')
    next hadd =>
      have hfd : ¬fd < w.loop.picoev.maxFd := by simpa [Picoev.add] using hadd
      have hask : Call.ask w.loop w.asked (.add fd events secs callback counting) = w.asked :=
        if_neg hfd
      split at he
      · simp at he
      · obtain rfl := Option.some.inj he
        rw [hask]
        exact h
  | del fd counted =>
    simp only [EventLoop.call,Option.ite_none_right_eq_some,Option.some.injEq] at he
    obtain ⟨-,rfl⟩ := he
    exact h.del hc
  | delIfActive fd =>
    simp only [EventLoop.call,Option.ite_none_right_eq_some,Option.some.injEq] at he
    obtain ⟨-,rfl⟩ := he
    by_cases ha : w.loop.picoev.isActive fd = true
    · simp only [Call.ask,ha,if_true]
      exact h.del (hc ha)
    · simp only [Call.ask,ha]
      exact h
  | setTimeout fd secs =>
    simp only [EventLoop.call,Option.ite_none_right_eq_some,Option.some.injEq] at he
    obtain ⟨hfd,rfl⟩ := he
    obtain ⟨hleft,hsecs⟩ := hc
    have hnow : (w.loop.picoev.setTimeout fd secs).now = w.loop.picoev.now :=
      (Picoev.setTimeout_frame _ fd secs).2.2.2
    refine ⟨h.slots.setTimeout hfd hleft fun hs => ⟨h.asked fd (hsecs hs).1,(hsecs hs).2⟩,
      fun k hk => ?_,hnow.trans_le h.now,h.current,fun hph => hnow.trans_le (h.running hph)⟩
    have hk' : (w.loop.picoev.setTimeout fd secs).isActive k = true := hk
    rw [setTimeout_isActive] at hk'
    show (Function.update w.asked fd _ k).isSome = true
    by_cases hkfd : k = fd
    · subst hkfd
      simpa using h.asked k hk'
    · rw [Function.update_of_ne hkfd]
      exact h.asked k hk'

theorem watchedCalls_punctual {cs : List Call} {w w' : Watched} (h : Punctual w)
    (hc : Transition.Meets Watched.call CallTimely w cs)
    (hs : Transition.run Watched.call w cs = some w') : Punctual w' :=
  Transition.invariant_run (fun _ _ _ => call_punctual) h hc hs

/-- A step of the loop that touches neither slots nor registrations, outside the scan. -/
theorem Punctual.of_quiet {w : Watched} {e : EventLoop} (h : Punctual w)
    (hpic : e.picoev = w.loop.picoev) (hscan : e.phase.scan = w.loop.phase.scan)
    (hclock : w.loop.clock ≤ e.clock) (hcur : e.currentSec ≤ e.clock)
    (hrun : e.phase ≠ .stopped → e.picoev.now ≤ e.currentSec) : Punctual { w with loop := e } := by
  refine ⟨?_,?_,?_,hcur,hrun⟩
  · simp only [hpic,hscan]
    exact h.slots
  · simp only [hpic]
    exact h.asked
  · simp only [hpic]
    exact h.now.trans hclock

theorem Punctual.beginSlot {w : Watched} (h : Punctual w) (hscan : w.loop.phase.scan = none)
    (hphase : w.loop.phase ≠ .stopped) : Punctual { w with loop := w.loop.beginSlot } := by
  have hslots := h.slots
  rw [hscan] at hslots
  unfold EventLoop.beginSlot
  split
  next hdue =>
    exact ⟨hslots.scanWord hdue (fun _ hk => absurd hk (Nat.not_lt_zero _)),h.asked,h.now,h.current,
      fun _ => h.running hphase⟩
  next =>
    exact ⟨hslots,h.asked,h.now,h.current,fun _ => h.running hphase⟩

theorem Punctual.nextWord {w : Watched} {j : ℕ} (h : Punctual w)
    (hphase : w.loop.phase = .timeouts j []) : Punctual { w with loop := w.loop.nextWord j } := by
  have hslots := h.slots
  rw [hphase] at hslots
  have hdue : (w.loop.picoev.clearWord j).slotDue = true := by
    simpa [Picoev.slotDue,Picoev.clearWord] using (hslots.scanning j [] rfl).due
  have hrun : w.loop.picoev.now ≤ w.loop.currentSec := h.running (by simp [hphase])
  obtain ⟨hcleared,hdone⟩ := hslots.clearWord
  unfold EventLoop.nextWord
  simp only
  split
  next => exact ⟨hcleared.scanWord hdue hdone,h.asked,h.now,h.current,fun _ => hrun⟩
  next hlast =>
    have hall : (w.loop.picoev.clearWord j).ScannedTo (w.loop.picoev.clearWord j).words :=
      fun fd hfd => hdone fd (by omega)
    have hnext : Punctual ⟨{ w.loop with
        picoev := (w.loop.picoev.clearWord j).nextSlot
        phase := .after },w.asked⟩ :=
      ⟨hcleared.nextSlot hdue hall,h.asked,h.now,h.current,fun _ => hrun⟩
    exact hnext.beginSlot rfl (by simp)

/-- Every step that meets its condition keeps the slots in order. -/
theorem watchedStep_punctual {w w' : Watched} {l : LoopEvent} (h : Punctual w)
    (hc : StepTimely w l) (hs : watchedStep w l = some w') : Punctual w' := by
  cases l with
  | run maxFd socks =>
    simp only [watchedStep,Option.ite_none_right_eq_some] at hs
    have hstart : Punctual ⟨w.loop.started maxFd socks,fun _ => none⟩ :=
      ⟨Picoev.slots_init maxFd w.loop.clock,by simp [EventLoop.started,Picoev.init,Picoev.isActive],
        le_rfl,le_rfl,fun _ => le_rfl⟩
    exact watchedCalls_punctual hstart hc hs.2
  | operate o =>
    simp only [watchedStep,Option.ite_none_right_eq_some,Option.map_eq_some_iff] at hs
    obtain ⟨-,w1,hrun,rfl⟩ := hs
    exact (watchedCalls_punctual h hc hrun).of_quiet rfl rfl le_rfl
      (watchedCalls_punctual h hc hrun).current (watchedCalls_punctual h hc hrun).running
  | tick =>
    simp only [watchedStep,loopStep,Option.map_some,Option.some.injEq] at hs
    subst hs
    exact h.of_quiet rfl rfl (Nat.le_succ _) (h.current.trans (Nat.le_succ _)) h.running
  | iterate =>
    simp only [watchedStep,loopStep,Option.map_eq_some_iff,Option.ite_none_right_eq_some,
      Option.some.injEq] at hs
    obtain ⟨e,⟨⟨hphase,_,_⟩,rfl⟩,rfl⟩ := hs
    exact h.of_quiet rfl (by simp [hphase,Phase.scan]) le_rfl h.current
      fun _ => h.running (by simp [hphase])
  | firePending =>
    simp only [watchedStep,loopStep,Option.map_eq_some_iff,Option.ite_none_right_eq_some,
      Option.some.injEq] at hs
    obtain ⟨e,⟨⟨hphase,_,_⟩,rfl⟩,rfl⟩ := hs
    exact h.of_quiet rfl (by simp [hphase,Phase.scan]) le_rfl h.current
      fun _ => h.running (by simp [hphase])
  | fireTimer due =>
    simp only [watchedStep,loopStep,Option.map_eq_some_iff,Option.ite_none_right_eq_some,
      Option.some.injEq] at hs
    obtain ⟨e,⟨⟨hphase,_,_⟩,rfl⟩,rfl⟩ := hs
    exact h.of_quiet rfl (by simp [hphase,Phase.scan]) le_rfl h.current
      fun _ => h.running (by simp [hphase])
  | fired =>
    simp only [watchedStep,loopStep,Option.map_eq_some_iff,Option.ite_none_right_eq_some,
      Option.some.injEq] at hs
    obtain ⟨e,⟨hphase,rfl⟩,rfl⟩ := hs
    exact h.of_quiet rfl (by simp [hphase,Phase.scan]) le_rfl h.current
      fun _ => h.running (by simp [hphase])
  | poll =>
    simp only [watchedStep,loopStep,Option.map_eq_some_iff,Option.ite_none_right_eq_some,
      Option.some.injEq] at hs
    obtain ⟨e,⟨hphase,rfl⟩,rfl⟩ := hs
    exact h.of_quiet rfl (by simp [hphase,Phase.scan]) le_rfl le_rfl fun _ => h.now
  | polled =>
    simp only [watchedStep,loopStep,Option.map_eq_some_iff,Option.ite_none_right_eq_some,
      Option.some.injEq] at hs
    obtain ⟨e,⟨hphase,rfl⟩,rfl⟩ := hs
    have hslots := h.slots
    have hle := h.running (by simp [hphase])
    rw [hphase] at hslots
    have hnow : Punctual ⟨{ w.loop with
        picoev := { w.loop.picoev with now := w.loop.currentSec } },w.asked⟩ := by
      refine ⟨?_,h.asked,h.current,h.current,fun _ => le_rfl⟩
      simp only [hphase]
      exact hslots.setNow hle
    exact hnow.beginSlot (by simp [hphase,Phase.scan]) (by simp [hphase])
  | timedOut fd =>
    simp only [watchedStep,loopStep,Option.map_eq_some_iff] at hs
    obtain ⟨e,hs,rfl⟩ := hs
    split at hs
    next j k v hphase =>
      simp only [Option.ite_none_right_eq_some,Option.some.injEq] at hs
      obtain ⟨-,rfl⟩ := hs
      have hslots := h.slots
      rw [hphase] at hslots
      refine ⟨hslots.unsetTimeout,fun i hi => h.asked i ?_,h.now,h.current,
        fun _ => h.running (by simp [hphase])⟩
      have hi' : (w.loop.picoev.unsetTimeout k).isActive i = true := hi
      by_cases hik : i = k
      · subst hik
        simpa [Picoev.isActive,Picoev.unsetTimeout] using hi'
      · simpa [Picoev.isActive,Picoev.unsetTimeout,Function.update_of_ne hik] using hi'
    next => simp at hs
  | nextWord =>
    simp only [watchedStep,loopStep,Option.map_eq_some_iff] at hs
    obtain ⟨e,hs,rfl⟩ := hs
    split at hs
    next j hphase =>
      obtain rfl := Option.some.inj hs
      exact h.nextWord hphase
    next => simp at hs
  | next =>
    simp only [watchedStep,loopStep,Option.map_eq_some_iff,Option.ite_none_right_eq_some,
      Option.some.injEq] at hs
    obtain ⟨e,⟨hphase,rfl⟩,rfl⟩ := hs
    exact h.of_quiet rfl (by simp [hphase,Phase.scan]) le_rfl h.current
      fun _ => h.running (by simp [hphase])
  | exit =>
    simp only [watchedStep,loopStep,Option.map_eq_some_iff,Option.ite_none_right_eq_some,
      Option.some.injEq] at hs
    obtain ⟨e,⟨-,rfl⟩,rfl⟩ := hs
    exact ⟨Picoev.slots_init 0 w.loop.clock,by simp [Picoev.init,Picoev.isActive],le_rfl,h.current,
      by simp⟩
  | schedule seconds =>
    simp only [watchedStep,loopStep,Option.map_eq_some_iff] at hs
    obtain ⟨e,hs,rfl⟩ := hs
    split at hs
    · simp at hs
    · obtain rfl := Option.some.inj hs
      unfold EventLoop.schedule
      split
      · exact h.of_quiet rfl rfl le_rfl h.current h.running
      · exact h.of_quiet rfl rfl le_rfl h.current h.running

def Watched.start (clock : ℕ) : Watched := ⟨.start clock,fun _ => none⟩

/-- A callback is called with `PICOEV_TIMEOUT` for a registration in force that asked for a timeout,
and the timeout has passed. -/
def TimesOutWell (w : Watched) (l : LoopEvent) (_ : Watched) : Prop :=
  ∀ fd, l = .timedOut fd → w.loop.picoev.isActive fd = true ∧ Passed w.asked fd w.loop.clock

theorem watchedStep_timesOutWell {w w' : Watched} {l : LoopEvent} (h : Punctual w)
    (hs : watchedStep w l = some w') : TimesOutWell w l w' := by
  rintro fd rfl
  simp only [watchedStep,loopStep,Option.map_eq_some_iff] at hs
  obtain ⟨e,hs,rfl⟩ := hs
  split at hs
  next j k v hphase =>
    simp only [Option.ite_none_right_eq_some] at hs
    obtain ⟨rfl,-⟩ := hs
    have hslots := h.slots
    rw [hphase] at hslots
    have hpassed := hslots.passed h.now
    obtain ⟨a,ha,_⟩ := hpassed
    exact ⟨hslots.active fd a ha,hslots.passed h.now⟩
  next => simp at hs

/-- No timeout is spurious in a run whose steps all meet the condition. -/
theorem no_spurious_timeout {es : List LoopEvent} {l : LoopEvent} {w w' : Watched} (clock : ℕ)
    (hC : Transition.Meets watchedStep StepTimely (.start clock) (es ++ [l]))
    (hrun : Transition.run watchedStep (.start clock) es = some w)
    (hs : watchedStep w l = some w') : TimesOutWell w l w' := by
  have h0 : Punctual (.start clock) := ⟨Picoev.slots_init 0 clock,
    by simp [Watched.start,EventLoop.start,Picoev.init,Picoev.isActive],le_rfl,Nat.zero_le _,
    by simp [Watched.start,EventLoop.start]⟩
  exact Transition.last_step (P := TimesOutWell) (fun _ _ _ => watchedStep_punctual)
    (fun _ _ _ h _ hs => watchedStep_timesOutWell h hs) h0 hC hrun hs

/-- A client that waits for a second and is not resumed times out. -/
theorem no_spurious_timeout_suspended : ∃ w w', Transition.run watchedStep (.start 100)
    ([.run 8 [3],.iterate,.poll,.operate (.acceptRead 3),.operate (.suspendClient 5 1),.polled,.next,
      .tick,.tick,.iterate,.poll,.polled] ++ List.replicate 8 .nextWord) = some w ∧
    watchedStep w (.timedOut 5) = some w' ∧ TimesOutWell w (.timedOut 5) w' := by
  obtain ⟨w,w',hrun,hs⟩ : ∃ w w', Transition.run watchedStep (.start 100)
      ([.run 8 [3],.iterate,.poll,.operate (.acceptRead 3),.operate (.suspendClient 5 1),.polled,.next,
        .tick,.tick,.iterate,.poll,.polled] ++ List.replicate 8 .nextWord) = some w ∧
      watchedStep w (.timedOut 5) = some w' := ⟨_,_,rfl,rfl⟩
  refine ⟨w,w',hrun,hs,no_spurious_timeout 100 ?_ hrun hs⟩
  refine .cons (.cons (fun _ => ⟨rfl,fun _ => ⟨by decide,by decide⟩⟩) rfl trivial) rfl
    (.cons trivial rfl (.cons trivial rfl (.cons (.cons ⟨?_,fun _ => ⟨rfl,by decide,by decide⟩⟩ rfl trivial)
      rfl (.cons (.cons (fun _ => ⟨rfl,fun _ => ⟨by decide,by decide⟩⟩) rfl trivial) rfl ?_))))
  · rintro ⟨j,v,hs,-⟩
    exact absurd hs (by simp [Phase.scan])
  · exact .of_forall fun l hl w => by
      fin_cases hl <;> trivial

/-- A client suspended for a second is resumed and waits for a minute: two seconds later it gets the
timeout of the suspension. -/
theorem spurious_timeout : ¬∀ es l w w', Transition.run watchedStep (.start 100) es = some w →
    watchedStep w l = some w' → TimesOutWell w l w' := by
  intro hall
  have hbad := hall ([.run 8 [3],.iterate,.poll,.operate (.acceptRead 3),
    .operate (.suspendClient 5 1),.operate (.resumeClient 5),.polled,.next,.iterate,.poll,
    .operate (.trampolineCallback 5),.operate (.trampoline 5 true false 60),.polled,.next,
    .tick,.tick,.iterate,.poll,.polled] ++ List.replicate 8 .nextWord) (.timedOut 5) _ _ rfl rfl 5 rfl
  obtain ⟨-,a,ha,-,hle⟩ := hbad
  have ha' : some (⟨60,100⟩ : Asked) = some a := ha
  obtain rfl := Option.some.inj ha'
  revert hle
  decide

end Meinheld
