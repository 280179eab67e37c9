import Meinheld.ResponseOrder

/-! No connection is lost: each open one is read from, or a greenlet that will be woken serves it. -/
namespace Meinheld

namespace Connections

/-- Something other than the registration of `fd` wakes a greenlet. -/
def WokenBeside (s : Connections) (g fd : ℕ) : Prop :=
  g ∈ s.timers ∨ ∃ k, k ≠ fd ∧ s.picoev.watches k = some (.wake g)

/-- A wake-up is pending for a greenlet. -/
def WakeUp (s : Connections) (g : ℕ) : Prop :=
  g ∈ s.timers ∨ ∃ k, s.picoev.watches k = some (.wake g)

/-- A connection is registered, or owned by a greenlet that is suspended with a wake-up pending. -/
inductive Kept (s : Connections) (c : ℕ) : Prop
  | registered (h : s.picoev.watches (s.conn c).fd = some (.read c))
  | owned (g i : ℕ) (serves : (s.worker g).serves = some (c,i))
    (waits : (s.worker g).state = .waiting) (wakeUp : s.WakeUp g)

/-- At each return to the run loop every open socket is kept. -/
def NoneLost (s : Connections) : Prop :=
  s.activity = .hub → ∀ c, (s.conn c).isOpen = true → s.Kept c

/-! What a step must not do. -/

/-- No connection is read from at `fd`. -/
def Unread (s : Connections) (fd : ℕ) : Prop := ∀ c, s.picoev.watches fd ≠ some (.read c)

/-- No greenlet of a connection, but perhaps `g`, waits for the registration of `fd` alone. -/
def Unneeded (s : Connections) (fd : ℕ) (g : Option ℕ) : Prop :=
  ∀ k, some k ≠ g → (s.worker k).serves ≠ none → (s.worker k).state = .waiting →
    s.picoev.watches fd = some (.wake k) → s.WokenBeside k fd

end Connections

/-- A new socket can be set up and registered, the body of a request can be opened, and no
registration something depends on is taken away or replaced. Who waits has a wake-up. -/
def StepKeeps (s : Connections) : ConnectionEvent → Prop
  | .accept fd reading => reading ≠ none ∧ fd < s.picoev.maxFd ∧ s.Unneeded fd none
  | .inputFailed => False
  | .closeClient => ∀ c, s.attended = some c → s.Unneeded (s.conn c).fd none
  | .suspendClient g fd _ => s.Unread fd ∧ s.Unneeded fd (some g) ∧
      ∀ k, s.activity = .greenlet k → k = g ∨ (s.worker k).serves = none ∨ s.WokenBeside k fd
  | .resumeClient g fd => s.Unread fd ∧ s.Unneeded fd (some g)
  | .cancelWait fd | .trampoline fd _ _ => s.Unread fd ∧ s.Unneeded fd none
  | .waitWrite => ∀ k c i, s.serving = some (k,c,i) → s.Unneeded (s.conn c).fd none
  | _ => True

namespace Connections

/-- Who a connection is with. -/
inductive Held (s : Connections) (c : ℕ) : Prop
  | read (h : s.picoev.watches (s.conn c).fd = some (.read c))
  | waits (g i : ℕ) (serves : (s.worker g).serves = some (c,i))
    (waits : (s.worker g).state = .waiting) (wakeUp : s.WakeUp g)
  | runs (g i : ℕ) (serves : (s.worker g).serves = some (c,i))
    (runs : (s.worker g).state = .running)
  | attended (h : s.attended = some c)

structure Safe (s : Connections) : Prop where
  held : ∀ c, (s.conn c).isOpen = true → s.Held c
  bound : ∀ c, (s.conn c).isOpen = true → (s.conn c).fd < s.picoev.maxFd ∧ c < s.accepted
  distinct : ∀ c c', (s.conn c).isOpen = true → (s.conn c').isOpen = true →
    (s.conn c).fd = (s.conn c').fd → c = c'
  isOpen : ∀ c, (∃ fd, s.picoev.watches fd = some (.read c)) ∨ s.attended = some c ∨
    (∃ g i, s.Serves g c i) → (s.conn c).isOpen = true

theorem Safe.noneLost {s : Connections} (h : s.Safe) (ho : s.Orderly) : s.NoneLost := by
  intro hact c hc
  cases h.held c hc with
  | read hw => exact .registered hw
  | waits g i hserves hwaits hwake => exact .owned g i hserves hwaits hwake
  | runs g i hserves hruns =>
    rw [(ho.running g).mpr hruns] at hact
    simp at hact
  | attended hatt => simp [Connections.attended,hact] at hatt

/-- What keeps a connection with who it is with. -/
theorem Held.mono {s s' : Connections} {c : ℕ} (h : s.Held c)
    (hread : s.picoev.watches (s.conn c).fd = some (.read c) →
      s'.picoev.watches (s'.conn c).fd = some (.read c))
    (hserves : ∀ g i, s.Serves g c i → (s'.worker g).serves = (s.worker g).serves ∧
      (s'.worker g).state = (s.worker g).state)
    (hwake : ∀ g i, s.Serves g c i → (s.worker g).state = .waiting → s.WakeUp g → s'.WakeUp g)
    (hatt : s.attended = some c → s'.attended = some c) : s'.Held c := by
  cases h with
  | read hw => exact .read (hread hw)
  | waits g i hs hwaits hw =>
    have hg : s.Serves g c i := ⟨by simp [hwaits],hs⟩
    obtain ⟨hs',hstate⟩ := hserves g i hg
    exact .waits g i (hs'.trans hs) (hstate.trans hwaits) (hwake g i hg hwaits hw)
  | runs g i hs hruns =>
    obtain ⟨hs',hstate⟩ := hserves g i ⟨by simp [hruns],hs⟩
    exact .runs g i (hs'.trans hs) (hstate.trans hruns)
  | attended hatt' => exact .attended (hatt hatt')

/-- A wake-up survives a change of one registration, if it is not that one or comes again. -/
theorem WakeUp.rewatched {s s' : Connections} {fd g : ℕ} {w : Option Watch} (h : s.WakeUp g)
    (hs : Rewatched s s' fd w)
    (hw : s.picoev.watches fd = some (.wake g) → s.WokenBeside g fd ∨ w = some (.wake g)) :
    s'.WakeUp g := by
  have hwatches := hs.watches
  have hrest := hs.rest
  obtain ⟨l,rfl⟩ : ∃ l, s' = { s with picoev := l } := ⟨s'.picoev,hrest⟩
  have hkeep : ∀ k, k ≠ fd → s.picoev.watches k = some (.wake g) →
      l.watches k = some (.wake g) := by
    intro k hk hold
    simp only [hwatches,Function.update_of_ne hk]
    exact hold
  have hbeside : s.WokenBeside g fd → WakeUp { s with picoev := l } g := by
    rintro (ht | ⟨k,hk,hold⟩)
    · exact .inl ht
    · exact .inr ⟨k,hkeep k hk hold⟩
  obtain ht | ⟨k,hk⟩ := h
  · exact .inl ht
  · by_cases hkfd : k = fd
    · subst hkfd
      obtain hb | rfl := hw hk
      · exact hbeside hb
      · exact .inr ⟨k,by simp [hwatches]⟩
    · exact .inr ⟨k,hkeep k hkfd hk⟩

/-- A registration that nobody depends on is taken away or replaced. -/
theorem Safe.rewatched {s s' : Connections} {fd : ℕ} {w : Option Watch} {g : Option ℕ} (h : s.Safe)
    (hs : Rewatched s s' fd w) (hw : w = g.map .wake)
    (hread : ∀ c, s.picoev.watches fd = some (.read c) → s.attended = some c)
    (hneed : s.Unneeded fd g) : s'.Safe := by
  have hwatches := hs.watches
  have hmax := hs.maxFd
  have hup : ∀ k, s.WakeUp k → (s.worker k).serves ≠ none → (s.worker k).state = .waiting →
      s'.WakeUp k := by
    intro k hk hserves hwaits
    refine hk.rewatched hs fun hold => ?_
    by_cases hkg : some k = g
    · exact .inr (by simp [hw,← hkg])
    · exact .inl (hneed k hkg hserves hwaits hold)
  obtain ⟨l,rfl⟩ : ∃ l, s' = { s with picoev := l } := ⟨s'.picoev,hs.rest⟩
  refine ⟨fun c hc => ?_,fun c hc => ⟨(h.bound c hc).1.trans_eq hmax.symm,(h.bound c hc).2⟩,
    h.distinct,fun c hc => ?_⟩
  · cases h.held c hc with
    | read hold =>
      by_cases hfd : (s.conn c).fd = fd
      · exact .attended (hread c (hfd ▸ hold))
      · exact .read (by simpa only [hwatches,Function.update_of_ne hfd] using hold)
    | waits k i hserves hwaits hold =>
      exact .waits k i hserves hwaits (hup k hold (by simp [hserves]) hwaits)
    | runs k i hserves hruns => exact .runs k i hserves hruns
    | attended hatt => exact .attended hatt
  · obtain ⟨k,hk⟩ | hc | ⟨k,i,hk⟩ := hc
    · simp only [hwatches] at hk
      by_cases hkfd : k = fd
      · cases g <;> simp [hkfd,hw] at hk
      · exact h.isOpen c (.inl ⟨k,by rwa [Function.update_of_ne hkfd] at hk⟩)
    · exact h.isOpen c (.inr (.inl hc))
    · exact h.isOpen c (.inr (.inr ⟨k,i,hk.alive,hk.serves⟩))

/-- What does not change the connections, nor who serves them and is woken. -/
theorem Safe.congr {s s' : Connections} (h : s.Safe) (hconn : s'.conn = s.conn)
    (haccepted : s'.accepted = s.accepted) (hpicoev : s'.picoev = s.picoev)
    (hact : s'.activity = s.activity)
    (hold : ∀ g c i, s.Serves g c i → (s'.worker g).serves = (s.worker g).serves ∧
      (s'.worker g).state = (s.worker g).state)
    (hnew : ∀ g c i, s'.Serves g c i → s.Serves g c i)
    (htimers : ∀ g ∈ s.timers, g ∈ s'.timers) : s'.Safe where
  held c hc := by
    refine (h.held c (hconn ▸ hc)).mono (fun hw => by rw [hconn,hpicoev]; exact hw)
      (fun g i => hold g c i) (fun g _ _ _ hw => ?_) fun hatt => ?_
    · exact hw.imp (htimers g) (hpicoev ▸ id)
    · simpa only [Connections.attended,hact] using hatt
  bound c hc := by
    rw [hconn] at hc ⊢
    rw [hpicoev,haccepted]
    exact h.bound c hc
  distinct := hconn ▸ h.distinct
  isOpen c hc := by
    rw [hconn]
    rw [hpicoev] at hc
    obtain hc | hc | ⟨g,i,hg⟩ := hc
    · exact h.isOpen c (.inl hc)
    · exact h.isOpen c (.inr (.inl (by simpa only [Connections.attended,hact] using hc)))
    · exact h.isOpen c (.inr (.inr ⟨g,i,hnew g c i hg⟩))

theorem Safe.setSuspended {s : Connections} {g : ℕ} {b : Bool} (h : s.Safe) :
    (s.setSuspended g b).Safe := by
  have hserves : ∀ k, ((s.setSuspended g b).worker k).serves = (s.worker k).serves := by
    intro k
    by_cases hk : k = g <;> simp [Connections.setSuspended,setWorker,hk]
  have hstate : ∀ k, ((s.setSuspended g b).worker k).state = (s.worker k).state := by
    intro k
    by_cases hk : k = g <;> simp [Connections.setSuspended,setWorker,hk]
  exact h.congr rfl rfl rfl rfl (fun k _ _ _ => ⟨hserves k,hstate k⟩)
    (fun k _ _ hk => ⟨hstate k ▸ hk.alive,hserves k ▸ hk.serves⟩) fun _ => id

theorem Safe.setTimers {s : Connections} {l : List ℕ} (h : s.Safe) (hl : ∀ g ∈ s.timers, g ∈ l) :
    Safe { s with timers := l } :=
  h.congr rfl rfl rfl rfl (fun _ _ _ _ => ⟨rfl,rfl⟩) (fun _ _ _ hk => ⟨hk.alive,hk.serves⟩) hl

theorem Safe.spawn {s : Connections} {k : Option ℕ} (h : s.Safe) (ho : s.Orderly) :
    (s.spawn k).Safe := by
  refine h.congr rfl rfl rfl rfl (fun g c i hg => ?_) (fun g c i hg => ?_)
    fun g hg => List.mem_cons_of_mem _ hg
  · have hne : g ≠ s.created := (ho.workers g hg.alive).ne
    simp [Connections.spawn,setWorker,hne]
  · by_cases hgc : g = s.created
    · have hs := hg.serves
      simp [Connections.spawn,setWorker,hgc] at hs
    · refine ⟨?_,?_⟩
      · simpa [Connections.spawn,setWorker,hgc] using hg.alive
      · simpa [Connections.spawn,setWorker,hgc] using hg.serves

/-- A greenlet that will be woken waits. -/
theorem Safe.wait {s : Connections} {k : ℕ} (h : s.Safe) (ho : s.Orderly)
    (hk : s.activity = .greenlet k) (hw : (s.worker k).serves = none ∨ s.WakeUp k) :
    (s.wait k).Safe := by
  have hserves : ∀ g, ((s.wait k).worker g).serves = (s.worker g).serves := by
    intro g
    by_cases hg : g = k <;> simp [Connections.wait,setWorker,hg]
  have hother : ∀ g, g ≠ k → ((s.wait k).worker g).state = (s.worker g).state := fun g hg => by
    simp [Connections.wait,setWorker,hg]
  have hself : ((s.wait k).worker k).state = .waiting := by simp [Connections.wait,setWorker]
  have hrun := (ho.running k).mp hk
  refine ⟨fun c hc => ?_,h.bound,h.distinct,fun c hc => ?_⟩
  · cases h.held c hc with
    | read hread => exact .read hread
    | waits g i hs hwaits hwake =>
      have hne : g ≠ k := fun heq => by simp [heq,hrun] at hwaits
      exact .waits g i ((hserves g).trans hs) ((hother g hne).trans hwaits) hwake
    | runs g i hs hruns =>
      have hgk : g = k := by
        have heq := (ho.running g).mpr hruns
        rw [hk] at heq
        exact (Activity.greenlet.inj heq).symm
      subst hgk
      refine .waits g i ((hserves g).trans hs) hself (hw.resolve_left ?_)
      simp [hs]
    | attended hatt => simp [Connections.attended,hk] at hatt
  · obtain hc | hc | ⟨g,i,hg⟩ := hc
    · exact h.isOpen c (.inl hc)
    · simp [Connections.wait,Connections.attended] at hc
    · refine h.isOpen c (.inr (.inr ⟨g,i,?_,(hserves g) ▸ hg.serves⟩))
      by_cases hgk : g = k
      · simp [hgk,hrun]
      · exact hother g hgk ▸ hg.alive

theorem Safe.waitFor {s t : Connections} {k fd : ℕ} (h : s.Safe) (ho : s.Orderly)
    (hk : s.activity = .greenlet k) (ht : Rewatched s t fd (some (.wake k))) (hread : s.Unread fd)
    (hneed : s.Unneeded fd none) : (t.wait k).Safe := by
  have hadd : t.Safe := h.rewatched (g := some k) ht rfl (fun c hc => absurd hc (hread c))
    fun i _ his hiw hwatch => hneed i (by simp) his hiw hwatch
  have hot := ho.rewatched ht (by simp)
  have hwatches := ht.watches
  obtain ⟨l,rfl⟩ : ∃ l, t = { s with picoev := l } := ⟨t.picoev,ht.rest⟩
  exact hadd.wait hot hk (.inr (.inr ⟨fd,by simp [hwatches]⟩))

/-- A wake-up is used up: the greenlet goes on, if it waits. -/
theorem Safe.resume {s s' : Connections} {g : ℕ} (h : s.Safe) (hact : s.activity = .hub)
    (hs : s' = { s with picoev := s'.picoev, timers := s'.timers })
    (hmax : s'.picoev.maxFd = s.picoev.maxFd)
    (hread : ∀ fd c, s'.picoev.watches fd = some (.read c) ↔ s.picoev.watches fd = some (.read c))
    (hwake : ∀ k, k ≠ g → s.WakeUp k → s'.WakeUp k) : (s'.resume g).Safe := by
  obtain ⟨l,t,rfl⟩ : ∃ l t, s' = { s with picoev := l, timers := t } := ⟨s'.picoev,s'.timers,hs⟩
  have hopen : ∀ c, (∃ fd, l.watches fd = some (.read c)) ∨ s.attended = some c ∨
      (∃ g i, s.Serves g c i) → (s.conn c).isOpen = true :=
    fun c hc => h.isOpen c (hc.imp_left (Exists.imp fun fd => (hread fd c).mp))
  unfold Connections.resume
  split
  next hg =>
    have hg : (s.worker g).state = .waiting := hg
    refine ⟨fun c hc => ?_,fun c hc => ⟨(h.bound c hc).1.trans_eq hmax.symm,(h.bound c hc).2⟩,
      h.distinct,fun c hc => hopen c ?_⟩
    · cases h.held c hc with
      | read hw => exact .read ((hread _ c).mpr hw)
      | waits k i hserves hwaits hw =>
        by_cases hk : k = g
        · exact .runs g i (by simpa [setWorker,hk] using hk ▸ hserves) (by simp [setWorker])
        · exact .waits k i (by simpa [setWorker,hk] using hserves)
            (by simpa [setWorker,hk] using hwaits) (hwake k hk hw)
      | runs k i hserves hruns =>
        have hk : k ≠ g := fun heq => by simp [heq,hg] at hruns
        exact .runs k i (by simpa [setWorker,hk] using hserves) (by simpa [setWorker,hk] using hruns)
      | attended hatt => simp [Connections.attended,hact] at hatt
    · obtain hc | hc | ⟨k,i,hk⟩ := hc
      · exact .inl hc
      · simp [Connections.attended] at hc
      · refine .inr (.inr ⟨k,i,?_,?_⟩)
        · by_cases hkg : k = g
          · simp [hkg,hg]
          · simpa [setWorker,hkg] using hk.alive
        · by_cases hkg : k = g
          · simpa [setWorker,hkg] using hk.serves
          · simpa [setWorker,hkg] using hk.serves
  next hg =>
    have hg : (s.worker g).state ≠ .waiting := hg
    refine ⟨fun c hc => ?_,fun c hc => ⟨(h.bound c hc).1.trans_eq hmax.symm,(h.bound c hc).2⟩,
      h.distinct,fun c hc => hopen c ?_⟩
    · refine (h.held c hc).mono (hread _ c).mpr (fun _ _ _ => ⟨rfl,rfl⟩) (fun k i _ hwaits hw => ?_) id
      exact hwake k (fun heq => hg (heq ▸ hwaits)) hw
    · exact hc.imp_right (.imp_right (Exists.imp fun k => Exists.imp fun i hk => ⟨hk.alive,hk.serves⟩))

/-- A step of one connection that keeps its socket. -/
theorem Safe.setConn {s : Connections} {c : ℕ} {u : Connection} {a : Activity} (h : s.Safe)
    (hfd : u.fd = (s.conn c).fd) (hopen : u.isOpen = (s.conn c).isOpen)
    (hatt : ∀ c', c' ≠ c → s.attended ≠ some c')
    (ha : ∀ c', Connections.attended { s with activity := a } = some c' →
      c' = c ∧ (s.conn c).isOpen = true)
    (hheld : (s.conn c).isOpen = true → Held { s.setConn c u with activity := a } c) :
    Safe { s.setConn c u with activity := a } := by
  have hfds : ∀ k, ((s.setConn c u).conn k).fd = (s.conn k).fd := by
    intro k
    by_cases hk : k = c <;> simp [Connections.setConn,hk,hfd]
  have hopens : ∀ k, ((s.setConn c u).conn k).isOpen = (s.conn k).isOpen := by
    intro k
    by_cases hk : k = c <;> simp [Connections.setConn,hk,hopen]
  refine ⟨fun k hk => ?_,fun k hk => ?_,fun k k' hk hk' heq => ?_,fun k hk => ?_⟩
  · by_cases hkc : k = c
    · subst hkc
      exact hheld (hopens k ▸ hk)
    · refine (h.held k (hopens k ▸ hk)).mono (fun hw => ?_) (fun _ _ _ => ⟨rfl,rfl⟩)
        (fun _ _ _ _ hw => hw) fun hold => absurd hold (hatt k hkc)
      exact (congrArg s.picoev.watches (hfds k)).trans hw
  · exact (hfds k).symm ▸ h.bound k (hopens k ▸ hk)
  · exact h.distinct k k' (hopens k ▸ hk) (hopens k' ▸ hk') ((hfds k).symm.trans (heq.trans (hfds k')))
  · refine (hopens k).trans ?_
    obtain hk | hk | ⟨g,i,hg⟩ := hk
    · exact h.isOpen k (.inl hk)
    · obtain ⟨rfl,hc⟩ := ha k hk
      exact hc
    · exact h.isOpen k (.inr (.inr ⟨g,i,hg.alive,hg.serves⟩))

theorem Safe.refuse {s s' : Connections} {page : Bytes} {keepAlive : Bool} (h : s.Safe)
    (hs : connectionStep s (.refuse page keepAlive) = some s') : s'.Safe := by
  simp only [connectionStep] at hs
  split at hs
  next c hact =>
    obtain ⟨t,ht,rfl⟩ := Option.map_eq_some_iff.mp hs
    obtain ⟨i,q,hq,rfl⟩ := shiftRequest_eq_some ht
    have hatt := attended_of_activity hact
    exact h.setConn rfl rfl (fun c' hc' => by simp [hatt,Ne.symm hc']) (fun c' hc' =>
      ⟨by simpa [Connections.attended,eq_comm] using hc',h.isOpen c (.inr (.inl hatt))⟩)
      fun _ => .attended rfl
  next => simp at hs

theorem Safe.write {s s' : Connections} {data : Bytes} (h : s.Safe)
    (hs : connectionStep s (.write data) = some s') : s'.Safe := by
  obtain ⟨⟨k,c,i⟩,hk,rfl⟩ := Option.map_eq_some_iff.mp hs
  obtain ⟨hact,-⟩ := serving_eq_some hk
  have hnone : ∀ c', s.attended ≠ some c' := by simp [Connections.attended,hact]
  refine h.setConn (c := c) (a := s.activity) rfl rfl (fun c' _ => hnone c')
    (fun c' hc' => absurd hc' (hnone c')) fun hc => ?_
  exact (h.held c hc).mono (fun hw => by simpa [Connections.setConn] using hw)
    (fun _ _ _ => ⟨rfl,rfl⟩) (fun _ _ _ _ hw => hw) id

/-- `call_wsgi_handler` takes a connection over. -/
theorem Safe.callHandler {s : Connections} {c i : ℕ} (h : s.Safe)
    (hworkers : ∀ g, (s.worker g).state ≠ .dead → g < s.created) (hact : s.activity = .dispatch c) :
    (s.callHandler c i).Safe := by
  have hother : ∀ g, g ≠ s.created → (s.callHandler c i).worker g = s.worker g := fun g hg => by
    simp [Connections.callHandler,setWorker,hg]
  refine ⟨fun k hk => ?_,h.bound,h.distinct,fun k hk => ?_⟩
  · by_cases hkc : k = c
    · subst hkc
      exact .runs s.created i (by simp [Connections.callHandler,setWorker])
        (by simp [Connections.callHandler,setWorker])
    · refine (h.held k hk).mono id (fun g j hg => ?_) (fun _ _ _ _ hw => hw) fun hold => ?_
      · rw [hother g (hworkers g hg.alive).ne]
        exact ⟨rfl,rfl⟩
      · simp [Connections.attended,hact,Ne.symm hkc] at hold
  · have hc := h.isOpen c (.inr (.inl (attended_of_activity hact)))
    obtain hk | hk | ⟨g,j,hg⟩ := hk
    · exact h.isOpen k (.inl hk)
    · simp [Connections.callHandler,Connections.attended] at hk
    · obtain ⟨-,rfl,-⟩ | ⟨-,hold⟩ := serves_callHandler hg
      · exact hc
      · exact h.isOpen k (.inr (.inr ⟨g,j,hold⟩))

theorem Safe.start {s s' : Connections} {interim : Bytes} (h : s.Safe) (ho : s.Orderly)
    (hs : connectionStep s (.start interim) = some s') : s'.Safe := by
  simp only [connectionStep] at hs
  split at hs
  next c hact =>
    obtain ⟨i,q,hq,rfl⟩ := startHandler_eq_some hs
    have hatt := attended_of_activity hact
    have hconn := h.setConn (c := c) (a := s.activity) (u := { s.conn c with
      queue := q
      log := (s.conn c).log ++ [.wrote i interim,.started i] }) rfl rfl
      (fun c' hc' => by simp [hatt,Ne.symm hc']) (fun c' hc' =>
      ⟨by simpa [Connections.attended,hact,eq_comm] using hc',h.isOpen c (.inr (.inl hatt))⟩)
      fun _ => .attended hatt
    exact Safe.callHandler hconn ho.workers hact
  next => simp at hs

theorem Safe.finish {s s' : Connections} {keepAlive : Bool} (h : s.Safe) (ho : s.Orderly)
    (hs : connectionStep s (.finish keepAlive) = some s') : s'.Safe := by
  simp only [connectionStep] at hs
  split at hs
  next k hact =>
    have hrun := (ho.running k).mp hact
    have hother : ∀ g, g ≠ k → (s.setWorker k { s.worker k with state := .dead }).worker g =
        s.worker g := fun g hg => by simp [setWorker,hg]
    have hserves : ∀ g c i, (s.setWorker k { s.worker k with state := .dead }).Serves g c i →
        s.Serves g c i := by
      intro g c i hg
      have hgk : g ≠ k := fun hgk => hg.alive (by simp [setWorker,hgk])
      exact ⟨hother g hgk ▸ hg.alive,hother g hgk ▸ hg.serves⟩
    -- the connections of other greenlets
    have hheld : ∀ (t : Connections) c, t.picoev = s.picoev → t.timers = s.timers →
        t.worker = (s.setWorker k { s.worker k with state := .dead }).worker →
        (t.conn c).fd = (s.conn c).fd → (s.conn c).isOpen = true →
        (∀ i, (s.worker k).serves ≠ some (c,i)) → t.Held c := by
      intro t c hpicoev htimers hworker hfd hc hk
      have hne : ∀ g i, s.Serves g c i → g ≠ k := fun g i hg heq => hk i (heq ▸ hg.serves)
      refine (h.held c hc).mono (fun hw => by rw [hpicoev,hfd]; exact hw) (fun g i hg => ?_)
        (fun g i _ _ hw => ?_) fun hatt => ?_
      · rw [hworker,hother g (hne g i hg)]
        exact ⟨rfl,rfl⟩
      · simpa only [WakeUp,hpicoev,htimers] using hw
      · simp [Connections.attended,hact] at hatt
    split at hs
    next c i hk =>
      obtain rfl := Option.some.inj hs
      have hc := h.isOpen c (.inr (.inr ⟨k,i,by simp [hrun],hk⟩))
      have hopens : ∀ c', (((s.setWorker k { s.worker k with state := .dead }).writeLog c
          (.ended i)).conn c').isOpen = (s.conn c').isOpen := by
        intro c'
        by_cases hcc : c' = c <;> simp [writeLog,Connections.setConn,setWorker,hcc]
      have hfds : ∀ c', (((s.setWorker k { s.worker k with state := .dead }).writeLog c
          (.ended i)).conn c').fd = (s.conn c').fd := by
        intro c'
        by_cases hcc : c' = c <;> simp [writeLog,Connections.setConn,setWorker,hcc]
      refine ⟨fun c' hc' => ?_,fun c' hc' => (hfds c').symm ▸ h.bound c' (hopens c' ▸ hc'),
        fun a b ha hb heq => h.distinct a b (hopens a ▸ ha) (hopens b ▸ hb)
          ((hfds a).symm.trans (heq.trans (hfds b))),fun c' hc' => (hopens c').trans ?_⟩
      · by_cases hcc : c' = c
        · exact .attended (by simp [Connections.attended,hcc])
        · refine hheld _ c' rfl rfl rfl (hfds c') (hopens c' ▸ hc') fun j hj => hcc ?_
          rw [hk] at hj
          simpa [eq_comm] using congrArg (Option.map Prod.fst) hj
      · obtain hc' | hc' | ⟨g,j,hg⟩ := hc'
        · exact h.isOpen c' (.inl hc')
        · simp only [Connections.attended,Option.some.injEq] at hc'
          exact hc' ▸ hc
        · exact h.isOpen c' (.inr (.inr ⟨g,j,hserves g c' j ⟨hg.alive,hg.serves⟩⟩))
    next hk =>
      obtain rfl := Option.some.inj hs
      refine ⟨fun c hc => hheld _ c rfl rfl rfl rfl hc (by simp [hk]),h.bound,h.distinct,
        fun c hc => ?_⟩
      obtain hc | hc | ⟨g,j,hg⟩ := hc
      · exact h.isOpen c (.inl hc)
      · simp [Connections.attended] at hc
      · exact h.isOpen c (.inr (.inr ⟨g,j,hserves g c j ⟨hg.alive,hg.serves⟩⟩))
  next => simp at hs

theorem Safe.closeClient {s s' : Connections} (h : s.Safe) (ho : s.Orderly)
    (hC : StepKeeps s .closeClient) (hs : connectionStep s .closeClient = some s') : s'.Safe := by
  have ho' := ho.closeClient hs
  simp only [connectionStep] at hs
  split at hs
  next c keepAlive hact =>
    obtain ⟨t,ht,hs⟩ := Option.bind_eq_some_iff.mp hs
    have hre := unwatch_eq_some ht
    have hatt : s.attended = some c := by simp [Connections.attended,hact]
    have hreads : ∀ k, s.picoev.watches (s.conn c).fd = some (.read k) → s.attended = some k := by
      intro k hk
      have hfd := ((ho.conns k).reads _ hk).1
      have hkc := h.distinct k c (h.isOpen k (.inl ⟨_,hk⟩)) (h.isOpen c (.inr (.inl hatt))) hfd
      exact hkc ▸ hatt
    have hold := h.rewatched (g := none) hre rfl hreads (hC c hatt)
    have hop := hold.isOpen c
    obtain ⟨l,rfl⟩ : ∃ l, t = { s with picoev := l } := ⟨t.picoev,hre.rest⟩
    have hc := hop (.inr (.inl hatt))
    have hwatches : l.watches = Function.update s.picoev.watches (s.conn c).fd none := hre.watches
    have hnone : l.watches (s.conn c).fd = none := by simp [hwatches]
    split at hs
    next =>
      obtain rfl := Option.some.inj hs
      have hd := hold.setConn (c := c) (u := s.conn c) (a := .dispatch c) rfl rfl
        (fun k hk => by simp [Connections.attended,hact,Ne.symm hk])
        (fun k hk => ⟨by simpa [Connections.attended,eq_comm] using hk,hc⟩) fun _ => .attended rfl
      simpa [Connections.setConn] using hd
    next =>
      split at hs
      next =>
        obtain ⟨t,hw,rfl⟩ := Option.map_eq_some_iff.mp hs
        have hadd := watch_eq_some hw
        have hread : t.picoev.watches = Function.update l.watches (s.conn c).fd (some (.read c)) :=
          hadd.watches
        have hmax : t.picoev.maxFd = l.maxFd := hadd.maxFd
        obtain ⟨l',rfl⟩ : ∃ l', t = { s with picoev := l' } := ⟨t.picoev,by rw [hadd.rest]⟩
        simp only at hread hmax
        have hfree : ∀ k, k ≠ (s.conn c).fd → l'.watches k = l.watches k := fun k hk => by
          rw [hread,Function.update_of_ne hk]
        refine ⟨fun k hk => ?_,fun k hk => ⟨(hold.bound k hk).1.trans_eq hmax.symm,(hold.bound k hk).2⟩,
          hold.distinct,fun k hk => ?_⟩
        · by_cases hkc : k = c
          · subst hkc
            exact .read (by simp [hread])
          · refine (hold.held k hk).mono (fun hw => ?_) (fun _ _ _ => ⟨rfl,rfl⟩)
              (fun g i _ _ hw => ?_) fun hk' => ?_
            · exact (hfree _ fun heq => hkc (hold.distinct k c hk hc heq)).trans hw
            · obtain ht | ⟨fd,hfd⟩ := hw
              · exact .inl ht
              · refine .inr ⟨fd,(hfree fd fun heq => ?_).trans hfd⟩
                have hfd' : l.watches (s.conn c).fd = some (.wake g) := heq ▸ hfd
                simp [hnone] at hfd'
            · simp [Connections.attended,hact,Ne.symm hkc] at hk'
        · obtain ⟨fd,hfd⟩ | hk | ⟨g,i,hg⟩ := hk
          · by_cases hfdc : fd = (s.conn c).fd
            · have hkc : c = k := by simpa [hread,hfdc] using hfd
              exact hkc ▸ hc
            · exact hold.isOpen k (.inl ⟨fd,(hfree fd hfdc) ▸ hfd⟩)
          · simp [Connections.attended] at hk
          · exact hold.isOpen k (.inr (.inr ⟨g,i,hg.alive,hg.serves⟩))
      next =>
        obtain rfl := Option.some.inj hs
        have hother : ∀ k, k ≠ c → ((({ s with picoev := l } : Connections).setConn c
            { s.conn c with isOpen := false }).conn k) = s.conn k := fun k hk => by
          simp [Connections.setConn,hk]
        have hne : ∀ k, ((({ s with picoev := l } : Connections).setConn c
            { s.conn c with isOpen := false }).conn k).isOpen = true → k ≠ c := fun k hk heq => by
          simp [Connections.setConn,heq] at hk
        refine ⟨fun k hk => ?_,fun k hk => ?_,fun a b ha hb heq => ?_,fun k hk => ?_⟩
        · have hkc := hne k hk
          have hk' : (s.conn k).isOpen = true := hother k hkc ▸ hk
          refine (hold.held k hk').mono (fun hw => by
            simp only [hother k hkc]; exact hw) (fun _ _ _ => ⟨rfl,rfl⟩) (fun _ _ _ _ hw => hw)
            fun hk'' => ?_
          simp [Connections.attended,hact,Ne.symm hkc] at hk''
        · have hkc := hne k hk
          simp only [hother k hkc] at hk ⊢
          exact hold.bound k hk
        · have hac := hne a ha
          have hbc := hne b hb
          simp only [hother a hac] at ha heq
          simp only [hother b hbc] at hb heq
          exact hold.distinct a b ha hb heq
        · have hkc : k ≠ c := by
            rintro rfl
            obtain ⟨fd,hfd⟩ | hk | ⟨g,i,hg⟩ := hk
            · have hfd' := ((ho'.conns k).reads fd hfd).1
              simp only [Connections.setConn,Function.update_self] at hfd'
              have hbad : l.watches (s.conn k).fd = some (.read k) := hfd' ▸ hfd
              simp [hnone] at hbad
            · simp [Connections.attended] at hk
            · exact ((ho.conns k).attended hatt).free g i ⟨hg.alive,hg.serves⟩
          simp only [hother k hkc]
          obtain ⟨fd,hfd⟩ | hk | ⟨g,i,hg⟩ := hk
          · exact hold.isOpen k (.inl ⟨fd,hfd⟩)
          · simp [Connections.attended] at hk
          · exact hold.isOpen k (.inr (.inr ⟨g,i,hg.alive,hg.serves⟩))
  next => simp at hs

theorem Safe.read {s s' : Connections} {fd : ℕ} {r : Reading} (h : s.Safe) (ho : s.Orderly)
    (hs : connectionStep s (.read fd r) = some s') : s'.Safe := by
  simp only [connectionStep] at hs
  split at hs
  next c hact hw =>
    obtain ⟨t,hr,rfl⟩ := Option.map_eq_some_iff.mp hs
    obtain ⟨u,rfl,hfd,hopen⟩ := readRequest_eq_some hr
    have hc := h.isOpen c (.inl ⟨fd,hw⟩)
    obtain ⟨rfl,-,-⟩ := (ho.conns c).reads fd hw
    have hnone : ∀ k, s.attended ≠ some k := by simp [Connections.attended,hact]
    rw [hact]
    have ht : Safe { s.setConn c u with activity := r.next c .hub } := by
      refine h.setConn hfd hopen (fun k _ => hnone k) (fun k hk => ⟨?_,hc⟩) fun _ => ?_
      · cases r <;> simp_all [Reading.next,Connections.attended]
      · cases r with
        | pending n => exact .read (by simpa [Connections.setConn,hfd] using hw)
        | finished n => exact .attended rfl
        | failed page => exact .attended rfl
    cases r with
    | pending n => exact ht
    | finished n =>
      have hu : ((s.setConn c u).conn c).fd = (s.conn c).fd := by simp [Connections.setConn,hfd]
      have hre : Rewatched { s.setConn c u with activity := .dispatch c }
          { s.setConn c u with activity := .dispatch c, picoev := s.picoev.del (s.conn c).fd }
          (s.conn c).fd none :=
        ⟨(h.bound c hc).1,Picoev.del_maxFd _ _,Picoev.del_watches _ _,rfl⟩
      have hdel := ht.rewatched (g := none) hre rfl (fun k hk => ?_) fun g _ _ _ hg => ?_
      · show Safe { s.setConn c u with
          activity := .dispatch c, picoev := s.picoev.del ((s.setConn c u).conn c).fd }
        rw [hu]
        exact hdel
      · have hk' : s.picoev.watches (s.conn c).fd = some (.read k) := hk
        rw [hw] at hk'
        simpa [Connections.attended,Reading.next] using hk'
      · have hg' : s.picoev.watches (s.conn c).fd = some (.wake g) := hg
        simp [hw] at hg'
    | failed page => exact ht
  next => simp at hs

/-- A new socket that is registered, or that the server is at. -/
theorem Safe.opened {s : Connections} {u : Connection} {a : Activity} {l : Picoev Watch}
    (h : s.Safe) (hact : s.activity = .hub)
    (hfresh : ∀ c < s.accepted, (s.conn c).isOpen = true → (s.conn c).fd ≠ u.fd)
    (hlt : u.fd < s.picoev.maxFd) (hopen : u.isOpen = true) (hmax : l.maxFd = s.picoev.maxFd)
    (hother : ∀ k, k ≠ u.fd → l.watches k = s.picoev.watches k)
    (hnew : l.watches u.fd = some (.read s.accepted) ∧ s.Unneeded u.fd none ∧ a = .hub ∨
      l = s.picoev ∧ Connections.attended { s with activity := a } = some s.accepted) :
    Safe { s.setConn s.accepted u with picoev := l, accepted := s.accepted + 1, activity := a } := by
  have hconn : ∀ k, k ≠ s.accepted → (s.setConn s.accepted u).conn k = s.conn k := fun k hk => by
    simp [Connections.setConn,hk]
  have hself : (s.setConn s.accepted u).conn s.accepted = u := by simp [Connections.setConn]
  have hne : ∀ k, (s.conn k).isOpen = true → k ≠ s.accepted := fun k hk => (h.bound k hk).2.ne
  have hold : ∀ k, k ≠ s.accepted → ((s.setConn s.accepted u).conn k).isOpen = true →
      (s.conn k).isOpen = true := fun k hk hk' => hconn k hk ▸ hk'
  refine ⟨fun k hk => ?_,fun k hk => ?_,fun b c hb hc heq => ?_,fun k hk => ?_⟩
  · by_cases hkc : k = s.accepted
    · subst hkc
      obtain ⟨hw,-,-⟩ | ⟨-,hatt⟩ := hnew
      · exact .read ((congrArg l.watches (by rw [hself])).trans hw)
      · exact .attended hatt
    · have hk' := hold k hkc hk
      refine (h.held k hk').mono (fun hw => ?_) (fun _ _ _ => ⟨rfl,rfl⟩) (fun g i hg hwaits hw => ?_)
        fun hatt => ?_
      · simp only [hconn k hkc]
        exact (hother _ (hfresh k (h.bound k hk').2 hk')).trans hw
      · obtain ⟨-,hneed,-⟩ | ⟨rfl,-⟩ := hnew
        · obtain ht | ⟨fd,hfd⟩ := hw
          · exact .inl ht
          · by_cases hfdu : fd = u.fd
            · subst hfdu
              obtain ht | ⟨fd',hne',hfd'⟩ := hneed g (by simp) (by simp [hg.serves]) hwaits hfd
              · exact .inl ht
              · exact .inr ⟨fd',(hother fd' hne').trans hfd'⟩
            · exact .inr ⟨fd,(hother fd hfdu).trans hfd⟩
        · exact hw
      · simp [Connections.attended,hact] at hatt
  · by_cases hkc : k = s.accepted
    · subst hkc
      exact ⟨by rw [hself,hmax]; exact hlt,Nat.lt_succ_self _⟩
    · obtain ⟨hb,hacc⟩ := h.bound k (hold k hkc hk)
      simp only [hconn k hkc]
      exact ⟨hb.trans_eq hmax.symm,hacc.trans (Nat.lt_succ_self _)⟩
  · by_cases hbc : b = s.accepted
    · by_cases hcc : c = s.accepted
      · exact hbc.trans hcc.symm
      · have hc' := hold c hcc hc
        simp only [hbc,hself,hconn c hcc] at heq
        exact absurd heq.symm (hfresh c (h.bound c hc').2 hc')
    · have hb' := hold b hbc hb
      by_cases hcc : c = s.accepted
      · simp only [hcc,hself,hconn b hbc] at heq
        exact absurd heq (hfresh b (h.bound b hb').2 hb')
      · simp only [hconn b hbc,hconn c hcc] at heq
        exact h.distinct b c hb' (hold c hcc hc) heq
  · by_cases hkc : k = s.accepted
    · subst hkc
      simpa only [hself] using hopen
    · simp only [hconn k hkc]
      obtain ⟨fd,hfd⟩ | hk | ⟨g,i,hg⟩ := hk
      · by_cases hfdu : fd = u.fd
        · subst hfdu
          obtain ⟨hw,-,-⟩ | ⟨rfl,-⟩ := hnew
          · have heq : s.accepted = k := by simpa [hw] using hfd
            exact absurd heq.symm hkc
          · exact h.isOpen k (.inl ⟨_,hfd⟩)
        · exact h.isOpen k (.inl ⟨fd,(hother fd hfdu) ▸ hfd⟩)
      · obtain ⟨-,-,rfl⟩ | ⟨-,hatt⟩ := hnew
        · simp [Connections.attended] at hk
        · exact absurd (Option.some.inj (hk.symm.trans hatt)) hkc
      · exact h.isOpen k (.inr (.inr ⟨g,i,hg.alive,hg.serves⟩))

theorem Safe.accept {s s' : Connections} {fd : ℕ} {r : Option Reading} (h : s.Safe) (hC : StepKeeps s (.accept fd r))
    (hs : connectionStep s (.accept fd r) = some s') : s'.Safe := by
  obtain ⟨hsetup,hlt,hneed⟩ := hC
  simp only [connectionStep,Option.ite_none_right_eq_some] at hs
  obtain ⟨⟨hact,hfresh⟩,hs⟩ := hs
  cases r with
  | none => exact absurd rfl hsetup
  | some r =>
    obtain ⟨t,hr,rfl⟩ := Option.map_eq_some_iff.mp hs
    obtain ⟨u,rfl,hfd,hopen⟩ := readRequest_eq_some hr
    have hufd : u.fd = fd := by simpa [Connections.opened,Connections.setConn] using hfd
    have huopen : u.isOpen = true := by simpa [Connections.opened,Connections.setConn] using hopen
    subst hufd
    have hset : (s.opened u.fd).setConn s.accepted u =
        { s.setConn s.accepted u with accepted := s.accepted + 1 } := by
      simp [Connections.opened,Connections.setConn]
    rw [hset]
    cases r with
    | pending n =>
      obtain ⟨l,hl⟩ : ∃ l, s.picoev.add u.fd ⟨true,false⟩ s.keepAliveTimeout (.read s.accepted) =
          some l := ⟨_,if_pos hlt⟩
      have hw := Picoev.add_watches hl
      have hopened := h.opened (a := .hub) (l := l) hact hfresh hlt huopen (Picoev.add_maxFd hl)
        (fun k hk => by rw [hw,Function.update_of_ne hk]) (.inl ⟨by simp [hw],hneed,rfl⟩)
      have hself : (s.setConn s.accepted u).conn s.accepted = u := by simp [Connections.setConn]
      show Safe { s.setConn s.accepted u with
        accepted := s.accepted + 1
        activity := s.activity
        picoev := (s.picoev.add ((s.setConn s.accepted u).conn s.accepted).fd ⟨true,false⟩
          s.keepAliveTimeout (.read s.accepted)).getD s.picoev }
      rw [hself,hl,hact]
      exact hopened
    | finished n =>
      exact h.opened (l := s.picoev) hact hfresh hlt huopen rfl (fun _ _ => rfl) (.inr ⟨rfl,rfl⟩)
    | failed page =>
      exact h.opened (l := s.picoev) hact hfresh hlt huopen rfl (fun _ _ => rfl) (.inr ⟨rfl,rfl⟩)

/-- Every step that meets the condition leaves each connection with someone. -/
theorem connectionStep_safe {s s' : Connections} {e : ConnectionEvent} (h : s.Safe) (ho : s.Orderly)
    (hC : StepKeeps s e) (hs : connectionStep s e = some s') : s'.Safe := by
  cases e with
  | accept fd r => exact h.accept hC hs
  | read fd r => exact h.read ho hs
  | refuse page keepAlive => exact h.refuse hs
  | inputFailed => exact absurd hC id
  | start interim => exact h.start ho hs
  | closeClient => exact h.closeClient ho hC hs
  | write data => exact h.write hs
  | finish keepAlive => exact h.finish ho hs
  | suspendClient g fd timeout =>
    obtain ⟨hread,hneed,hwaits⟩ := hC
    simp only [connectionStep,Option.ite_none_right_eq_some] at hs
    obtain ⟨k,hk,hs⟩ := Option.bind_eq_some_iff.mp hs.2
    obtain ⟨t,ht,rfl⟩ := Option.map_eq_some_iff.mp hs
    have hre := watch_eq_some ht
    have hstate : ∀ i, ((s.setSuspended g true).worker i).state = (s.worker i).state := by
      intro i
      by_cases hi : i = g <;> simp [setSuspended,setWorker,hi]
    have hserves : ∀ i, ((s.setSuspended g true).worker i).serves = (s.worker i).serves := by
      intro i
      by_cases hi : i = g <;> simp [setSuspended,setWorker,hi]
    have hadd : t.Safe := by
      refine h.setSuspended.rewatched (g := some g) hre rfl (fun c hc => absurd hc (hread c)) ?_
      intro i hi his hiw hwatch
      exact hneed i hi (hserves i ▸ his) (hstate i ▸ hiw) hwatch
    have hot : t.Orderly :=
      (ho.setWorker (g := g) (t := { s.worker g with suspended := true }) rfl rfl).rewatched hre (by simp)
    cases k with
    | none => exact hadd
    | some k =>
      have hactk := caller_eq_some hk
      have hbeside : k = g ∨ (s.worker k).serves = none ∨ s.WokenBeside k fd := hwaits k hactk
      have hwatches := hre.watches
      obtain ⟨l,rfl⟩ : ∃ l, t = { s.setSuspended g true with picoev := l } := ⟨t.picoev,hre.rest⟩
      refine hadd.wait hot hactk ?_
      obtain rfl | hnone | ht | ⟨j,hj,hjw⟩ := hbeside
      · exact .inr (.inr ⟨fd,by simp [hwatches]⟩)
      · exact .inl ((hserves k).trans hnone)
      · exact .inr (.inl ht)
      · refine .inr (.inr ⟨j,?_⟩)
        simp only [hwatches,Function.update_of_ne hj]
        exact hjw
  | resumeClient g fd =>
    obtain ⟨hread,hneed⟩ := hC
    simp only [connectionStep,Option.ite_none_right_eq_some] at hs
    obtain ⟨k,-,ht⟩ := Option.bind_eq_some_iff.mp hs.2
    refine h.setSuspended.rewatched (g := some g) (watch_eq_some ht) rfl
      (fun c hc => absurd hc (hread c)) fun i hi his hiw hwatch => ?_
    by_cases hig : i = g
    · exact absurd (congrArg some hig) hi
    · refine hneed i hi ?_ ?_ hwatch
      · simpa [setSuspended,setWorker,hig] using his
      · simpa [setSuspended,setWorker,hig] using hiw
  | cancelWait fd =>
    obtain ⟨hread,hneed⟩ := hC
    obtain ⟨k,-,ht⟩ := Option.bind_eq_some_iff.mp hs
    exact h.rewatched (g := none) (unwatch_eq_some ht) rfl (fun c hc => absurd hc (hread c)) hneed
  | trampoline fd events timeout =>
    obtain ⟨hread,hneed⟩ := hC
    simp only [connectionStep,Option.ite_none_left_eq_some] at hs
    obtain ⟨k,hk,hs⟩ := Option.bind_eq_some_iff.mp hs.2
    obtain ⟨t,ht,rfl⟩ := Option.map_eq_some_iff.mp hs
    exact h.waitFor ho (caller_join_eq_some hk) (watch_eq_some ht) hread hneed
  | waitWrite =>
    obtain ⟨⟨k,c,i⟩,hk,hs⟩ := Option.bind_eq_some_iff.mp hs
    obtain ⟨t,ht,rfl⟩ := Option.map_eq_some_iff.mp hs
    obtain ⟨hact,hserves⟩ := serving_eq_some hk
    have hsk : s.Serves k c i := ⟨by simp [(ho.running k).mp hact],hserves⟩
    refine h.waitFor ho hact (watch_eq_some ht) (fun c' hc' => ?_) (hC k c i hk)
    obtain ⟨hfd,-,hun⟩ := (ho.conns c').reads _ hc'
    have heq := h.distinct c' c (h.isOpen c' (.inl ⟨_,hc'⟩))
      (h.isOpen c (.inr (.inr ⟨k,i,hsk⟩))) hfd
    exact hun.free k i (heq ▸ hsk)
  | sleep =>
    obtain ⟨k,hk,rfl⟩ := Option.map_eq_some_iff.mp hs
    have hact := caller_join_eq_some hk
    have ht := h.setTimers (l := k :: s.timers) fun g hg => List.mem_cons_of_mem _ hg
    exact ht.wait ho.setTimers hact (.inr (.inl (by simp)))
  | spawn =>
    obtain ⟨k,-,rfl⟩ := Option.map_eq_some_iff.mp hs
    exact h.spawn ho
  | wakeFd fd clear =>
    simp only [connectionStep] at hs
    split at hs
    next g hact hw =>
      obtain rfl := Option.some.inj hs
      have hread : ∀ k c, (s.picoev.del fd).watches k = some (.read c) ↔
          s.picoev.watches k = some (.read c) := by
        intro k c
        rw [Picoev.del_watches]
        by_cases hk : k = fd
        · simp [hk,hw]
        · rw [Function.update_of_ne hk]
      have hwake : ∀ t : Connections, t.picoev = s.picoev → ∀ k, k ≠ g → t.WakeUp k →
          WakeUp { t with picoev := s.picoev.del fd } k := by
        rintro t ht k hk (hin | ⟨j,hj⟩)
        · exact .inl hin
        · have hne : j ≠ fd := by
            rintro rfl
            rw [ht,hw] at hj
            exact hk (by simpa [eq_comm] using hj)
          refine .inr ⟨j,?_⟩
          simp only [Picoev.del_watches,Function.update_of_ne hne]
          exact ht ▸ hj
      split
      · exact h.setSuspended.resume hact rfl (Picoev.del_maxFd _ _) hread (hwake _ rfl)
      · exact h.resume hact rfl (Picoev.del_maxFd _ _) hread (hwake s rfl)
    next => simp at hs
  | wakeTimer g =>
    simp only [connectionStep,Option.ite_none_right_eq_some,Option.some.injEq] at hs
    obtain ⟨⟨hact,-⟩,rfl⟩ := hs
    refine h.resume hact rfl rfl (fun _ _ => .rfl) fun k hk hw => ?_
    exact hw.imp_left (List.mem_erase_of_ne hk).mpr
  | toParent k =>
    simp only [connectionStep,Option.ite_none_right_eq_some] at hs
    obtain ⟨⟨hact,-,-⟩,hs⟩ := hs
    obtain ⟨g,-,rfl⟩ := Option.map_eq_some_iff.mp hs
    exact h.resume hact rfl rfl (fun _ _ => .rfl) fun _ _ hw => hw

theorem safe_start (maxFd keepAliveTimeout now : ℕ) :
    (Connections.start maxFd keepAliveTimeout now).Safe where
  held c hc := by simp [Connections.start] at hc
  bound c hc := by simp [Connections.start] at hc
  distinct c c' hc := by simp [Connections.start] at hc
  isOpen c hc := by
    obtain ⟨fd,hfd⟩ | hc | ⟨g,i,hg⟩ := hc
    · simp [Connections.start,Picoev.init,Picoev.watches] at hfd
    · simp [Connections.start,Connections.attended] at hc
    · exact absurd rfl hg.alive

end Connections

/-- In a run whose steps all meet the condition no connection is lost. -/
theorem no_connection_lost {es : List ConnectionEvent} {s : Connections}
    (maxFd keepAliveTimeout now : ℕ)
    (hC : Transition.Meets connectionStep StepKeeps (.start maxFd keepAliveTimeout now) es)
    (h : Transition.run connectionStep (.start maxFd keepAliveTimeout now) es = some s) :
    s.NoneLost := by
  have hstep : ∀ s e s', (Connections.Safe s ∧ Connections.Orderly s) → StepKeeps s e →
      connectionStep s e = some s' → s'.Safe ∧ s'.Orderly := fun s e s' hs hC h =>
    ⟨Connections.connectionStep_safe hs.1 hs.2 hC h,Connections.connectionStep_orderly hs.2 h⟩
  have hs := Transition.invariant_run hstep ⟨Connections.safe_start maxFd keepAliveTimeout now,
    Connections.orderly_start maxFd keepAliveTimeout now⟩ hC h
  exact hs.1.noneLost hs.2

/-- A connection whose application waits for a timer. -/
theorem no_connection_lost_sleeping : ∃ s, Transition.run connectionStep (.start 8 2 100)
    [.accept 5 (some (.finished 1)),.start [],.sleep] = some s ∧ s.NoneLost := by
  refine ⟨_,rfl,no_connection_lost
    8 2 100 ?_ (rfl : Transition.run connectionStep (.start 8 2 100)
      [.accept 5 (some (.finished 1)),.start [],.sleep] = some _)⟩
  refine .cons ⟨by simp,by decide,fun k _ hk => absurd rfl hk⟩ rfl ?_
  exact .cons trivial rfl (.cons trivial rfl trivial)

/-- A descriptor of `max_fd` is not registered, nor closed. -/
theorem connection_lost : ¬∀ es s, Transition.run connectionStep (.start 8 2 100) es = some s →
    s.NoneLost := by
  intro hall
  cases hall [.accept 8 (some (.pending 0))] _ rfl rfl 0 rfl with
  | registered h => exact nomatch (h : none = some (Watch.read 0))
  | owned g i serves waits wakeUp => exact nomatch (waits : Liveness.dead = .waiting)

end Meinheld
