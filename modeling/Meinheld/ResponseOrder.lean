import Meinheld.Connections

/-! One connection, one response at a time: the requests of a connection are started and answered in
the order they came in, whatever else is going on. -/
namespace Meinheld

namespace LogEntry

def request : LogEntry → ℕ
  | .started i | .wrote i _ | .ended i => i

def data : LogEntry → Bytes
  | .wrote _ data => data
  | _ => []

end LogEntry

/-- The bytes written on a connection, and those of the response to request `i`. -/
def wire (log : List LogEntry) : Bytes := log.flatMap LogEntry.data

def responseBytes (log : List LogEntry) (i : ℕ) : Bytes :=
  wire (log.filter fun e => e.request = i)

/-- Every request is started at most once, and not before the responses to those before it have
ended; nothing is written of a response that has ended; and the bytes written are those of the
responses, one after the other. -/
structure InOrder (log : List LogEntry) : Prop where
  once : ∀ i, log.count (.started i) ≤ 1
  started : ∀ before i rest, log = before ++ .started i :: rest → ∀ j < i, .ended j ∈ before
  ended : ∀ before i rest, log = before ++ .ended i :: rest → ∀ e ∈ rest, i < e.request
  wire : ∀ n, (∀ e ∈ log, e.request < n) → wire log = (List.range n).flatMap (responseBytes log)

/-! A log that is in order, read from its front. -/

/-- The next response to end, and whether its request was started. -/
structure Line where
  next : ℕ := 0
  started : Bool := false
  deriving DecidableEq, Repr

def lineStep (l : Line) : LogEntry → Option Line
  | .started i => if i = l.next ∧ l.started = false then some { l with started := true } else none
  | .wrote i _ => if i = l.next then some l else none
  | .ended i => if i = l.next then some ⟨i + 1,false⟩ else none

theorem lineStep_eq_some {l l' : Line} {e : LogEntry} (h : lineStep l e = some l') :
    e.request = l.next ∧ (l' = l ∧ (∃ data, e = .wrote l.next data) ∨
      l.started = false ∧ e = .started l.next ∧ l' = ⟨l.next,true⟩ ∨
      e = .ended l.next ∧ l' = ⟨l.next + 1,false⟩) := by
  cases e with
  | started i =>
    simp only [lineStep,Option.ite_none_right_eq_some,Option.some.injEq] at h
    obtain ⟨⟨rfl,hs⟩,rfl⟩ := h
    exact ⟨rfl,.inr (.inl ⟨hs,rfl,rfl⟩)⟩
  | wrote i data =>
    simp only [lineStep,Option.ite_none_right_eq_some,Option.some.injEq] at h
    obtain ⟨rfl,rfl⟩ := h
    exact ⟨rfl,.inl ⟨rfl,data,rfl⟩⟩
  | ended i =>
    simp only [lineStep,Option.ite_none_right_eq_some,Option.some.injEq] at h
    obtain ⟨rfl,rfl⟩ := h
    exact ⟨rfl,.inr (.inr ⟨rfl,rfl⟩)⟩

theorem lineStep_next_le {l l' : Line} {e : LogEntry} (h : lineStep l e = some l') :
    l.next ≤ l'.next := by
  obtain ⟨-,⟨rfl,-⟩ | ⟨-,-,rfl⟩ | ⟨-,rfl⟩⟩ := lineStep_eq_some h
  · exact le_rfl
  · exact le_rfl
  · exact Nat.le_succ _

theorem next_le_request {l l' : Line} {log : List LogEntry}
    (h : Transition.run lineStep l log = some l') : ∀ e ∈ log, l.next ≤ e.request := by
  induction log generalizing l with
  | nil => simp
  | cons e log ih =>
    obtain ⟨m,hm,hrun⟩ := Transition.run_cons_eq_some.mp h
    intro d hd
    rcases List.mem_cons.mp hd with rfl | hd
    · exact (lineStep_eq_some hm).1.ge
    · exact (lineStep_next_le hm).trans (ih hrun d hd)

theorem pairwise_request {l l' : Line} {log : List LogEntry}
    (h : Transition.run lineStep l log = some l') :
    log.Pairwise fun d e => d.request ≤ e.request := by
  induction log generalizing l with
  | nil => exact .nil
  | cons e log ih =>
    obtain ⟨m,hm,hrun⟩ := Transition.run_cons_eq_some.mp h
    refine .cons (fun d hd => ?_) (ih hrun)
    calc e.request = l.next := (lineStep_eq_some hm).1
      _ ≤ m.next := lineStep_next_le hm
      _ ≤ d.request := next_le_request hrun d hd

theorem started_notMem {l l' : Line} {log : List LogEntry} (hl : l.started = true)
    (h : Transition.run lineStep l log = some l') : .started l.next ∉ log := by
  induction log generalizing l with
  | nil => simp
  | cons e log ih =>
    obtain ⟨m,hm,hrun⟩ := Transition.run_cons_eq_some.mp h
    obtain ⟨-,⟨rfl,data,rfl⟩ | ⟨hs,-,-⟩ | ⟨rfl,rfl⟩⟩ := lineStep_eq_some hm
    · simpa using ih hl hrun
    · simp [hl] at hs
    · intro hmem
      have hle := next_le_request hrun (.started l.next) (by simpa using hmem)
      exact absurd hle (by simp [LogEntry.request])

theorem count_started_le {l l' : Line} {log : List LogEntry}
    (h : Transition.run lineStep l log = some l') (i : ℕ) : log.count (.started i) ≤ 1 := by
  induction log generalizing l with
  | nil => simp
  | cons e log ih =>
    obtain ⟨m,hm,hrun⟩ := Transition.run_cons_eq_some.mp h
    obtain ⟨-,⟨rfl,data,rfl⟩ | ⟨-,rfl,rfl⟩ | ⟨rfl,rfl⟩⟩ := lineStep_eq_some hm
    · simpa using ih hrun
    · by_cases hi : i = l.next
      · have hnot : .started l.next ∉ log := started_notMem (l := ⟨l.next,true⟩) rfl hrun
        simp [hi,List.count_eq_zero.mpr hnot]
      · have hne : LogEntry.started l.next ≠ .started i := by simpa using Ne.symm hi
        simpa [List.count_cons_of_ne hne] using ih hrun
    · simpa using ih hrun

theorem ended_mem {l l' : Line} {log : List LogEntry}
    (h : Transition.run lineStep l log = some l') :
    ∀ j, l.next ≤ j → j < l'.next → .ended j ∈ log := by
  induction log generalizing l with
  | nil =>
    simp only [Transition.run,Option.some.injEq] at h
    subst h
    exact fun j hle hlt => absurd hle (not_le.mpr hlt)
  | cons e log ih =>
    obtain ⟨m,hm,hrun⟩ := Transition.run_cons_eq_some.mp h
    intro j hle hlt
    by_cases hj : m.next ≤ j
    · exact List.mem_cons_of_mem _ (ih hrun j hj hlt)
    · obtain ⟨-,⟨rfl,-⟩ | ⟨-,-,rfl⟩ | ⟨rfl,rfl⟩⟩ := lineStep_eq_some hm
      · exact absurd hle hj
      · exact absurd hle hj
      · have heq : j = l.next := by simp only at hj; omega
        simp [heq]

theorem filter_append_filter {log : List LogEntry}
    (h : log.Pairwise fun d e => d.request ≤ e.request) (n : ℕ) :
    log = (log.filter fun e => e.request < n) ++ log.filter fun e => n ≤ e.request := by
  induction log with
  | nil => rfl
  | cons e log ih =>
    obtain ⟨he,hlog⟩ := List.pairwise_cons.mp h
    by_cases hn : e.request < n
    · simpa [hn,not_le.mpr hn] using ih hlog
    · have hall : ∀ d ∈ log, n ≤ d.request := fun d hd => (not_lt.mp hn).trans (he d hd)
      have hnone : (log.filter fun e => e.request < n) = [] := by simpa using hall
      have hkeep : (log.filter fun e => n ≤ e.request) = log := by simpa using hall
      simp [hn,not_lt.mp hn,hnone,hkeep]

/-- A log ordered by its requests is the concatenation of theirs. -/
theorem flatMap_filter {log : List LogEntry}
    (h : log.Pairwise fun d e => d.request ≤ e.request) (n : ℕ) (hn : ∀ e ∈ log, e.request < n) :
    log = (List.range n).flatMap fun i => log.filter fun e => e.request = i := by
  induction n generalizing log with
  | zero => exact List.eq_nil_iff_forall_not_mem.mpr fun e he => absurd (hn e he) (Nat.not_lt_zero _)
  | succ n ih =>
    have hsplit := filter_append_filter h n
    have hlow := ih (h.filter (fun e => e.request < n)) (by simp)
    have hlast : (log.filter fun e => n ≤ e.request) = log.filter fun e => e.request = n := by
      refine List.filter_congr fun e he => ?_
      have hlt := hn e he
      simp only [decide_eq_decide]
      omega
    have hsame : (List.range n).flatMap (fun i =>
        (log.filter fun e => e.request < n).filter fun e => e.request = i) =
        (List.range n).flatMap fun i => log.filter fun e => e.request = i := by
      refine List.flatMap_congr fun i hi => ?_
      rw [List.filter_filter]
      refine List.filter_congr fun e he => ?_
      have hlt := List.mem_range.mp hi
      simp only [Bool.and_eq_decide,decide_eq_true_eq,decide_eq_decide]
      omega
    rw [hsame] at hlow
    rw [List.range_succ,List.flatMap_append,← hlow]
    simpa [hlast] using hsplit

theorem wire_flatMap (l : List ℕ) (f : ℕ → List LogEntry) :
    wire (l.flatMap f) = l.flatMap fun i => wire (f i) := by
  simp [wire,List.flatMap_assoc]

theorem inOrder_of_run {l : Line} {log : List LogEntry}
    (h : Transition.run lineStep {} log = some l) : InOrder log where
  once := count_started_le h
  started := by
    rintro before i rest rfl j hj
    obtain ⟨m,hm,hrest⟩ := Transition.run_append_eq_some.mp h
    obtain ⟨k,hk,-⟩ := Transition.run_cons_eq_some.mp hrest
    have hi : i = m.next := (lineStep_eq_some hk).1
    exact ended_mem hm j (Nat.zero_le _) (hi ▸ hj)
  ended := by
    rintro before i rest rfl e he
    obtain ⟨m,hm,hrest⟩ := Transition.run_append_eq_some.mp h
    obtain ⟨k,hk,hrest⟩ := Transition.run_cons_eq_some.mp hrest
    simp only [lineStep,Option.ite_none_right_eq_some,Option.some.injEq] at hk
    obtain ⟨rfl,rfl⟩ := hk
    exact next_le_request hrest e he
  wire n hn := by
    rw [flatMap_filter (pairwise_request h) n hn,wire_flatMap]
    rw [← flatMap_filter (pairwise_request h) n hn]
    rfl

/-! Where the requests of a connection are. -/

/-- Request `n` is the next to end, and started or not; those after it are in the queue. -/
structure Connection.Stands (t : Connection) (n : ℕ) (started : Bool) : Prop where
  line : Transition.run lineStep {} t.log = some ⟨n,started⟩
  le : n + started.toNat ≤ t.received
  queue : t.queue = List.range' (n + started.toNat) (t.received - (n + started.toNat))

namespace Connections

/-- No greenlet that is alive serves a connection, and its next request has not been started. -/
structure Unserved (s : Connections) (c : ℕ) : Prop where
  free : ∀ g i, ¬s.Serves g c i
  stands : ∃ n, (s.conn c).Stands n false

/-- One connection: while it is read from, at `check_status_code` or at `close_client`, none of its
requests is being served; else one greenlet at most serves it. -/
structure Proper (s : Connections) (c : ℕ) : Prop where
  line : ∃ l, Transition.run lineStep {} (s.conn c).log = some l
  reads : ∀ fd, s.picoev.watches fd = some (.read c) →
    (s.conn c).fd = fd ∧ s.activity ≠ .dispatch c ∧ s.Unserved c
  attended : s.attended = some c → s.Unserved c
  serves : ∀ g i, s.Serves g c i →
    (s.conn c).Stands i true ∧ ∀ g' i', s.Serves g' c i' → g' = g
  new : s.accepted ≤ c → (∀ fd, s.picoev.watches fd ≠ some (.read c)) ∧ s.attended ≠ some c ∧
    ∀ g i, ¬s.Serves g c i

structure Orderly (s : Connections) : Prop where
  conns : ∀ c, s.Proper c
  workers : ∀ g, (s.worker g).state ≠ .dead → g < s.created
  running : ∀ g, s.activity = .greenlet g ↔ (s.worker g).state = .running

/-- Nothing about a connection has changed but that less may wait for it. -/
structure Undisturbed (s s' : Connections) (c : ℕ) : Prop where
  conn : s'.conn c = s.conn c
  accepted : s.accepted ≤ s'.accepted
  activity : s'.attended = some c → s'.activity = s.activity
  watches : ∀ fd, s'.picoev.watches fd = some (.read c) → s.picoev.watches fd = some (.read c)
  serves : ∀ g i, s'.Serves g c i → s.Serves g c i

theorem attended_of_activity {s : Connections} {c : ℕ} (h : s.activity = .dispatch c) :
    s.attended = some c := by
  simp [Connections.attended,h]

theorem Unserved.undisturbed {s s' : Connections} {c : ℕ} (h : s.Unserved c)
    (hs : Undisturbed s s' c) : s'.Unserved c where
  free g i hg := h.free g i (hs.serves g i hg)
  stands := hs.conn ▸ h.stands

theorem Proper.undisturbed {s s' : Connections} {c : ℕ} (h : s.Proper c)
    (hs : Undisturbed s s' c) : s'.Proper c where
  line := hs.conn ▸ h.line
  reads fd hfd := by
    obtain ⟨hfd',hdisp,hun⟩ := h.reads fd (hs.watches fd hfd)
    refine ⟨hs.conn ▸ hfd',fun hact => ?_,hun.undisturbed hs⟩
    exact hdisp (hs.activity (attended_of_activity hact) ▸ hact)
  attended hatt := by
    have hsame := hs.activity hatt
    have hold : s.attended = some c := by
      simpa only [Connections.attended,hsame] using hatt
    exact (h.attended hold).undisturbed hs
  serves g i hg := by
    obtain ⟨hstands,hone⟩ := h.serves g i (hs.serves g i hg)
    exact ⟨hs.conn ▸ hstands,fun g' i' hg' => hone g' i' (hs.serves g' i' hg')⟩
  new hc := by
    obtain ⟨hreads,hatt,hserves⟩ := h.new (hs.accepted.trans hc)
    refine ⟨fun fd hfd => hreads fd (hs.watches fd hfd),fun hold => ?_,
      fun g i hg => hserves g i (hs.serves g i hg)⟩
    have hsame := hs.activity hold
    exact hatt (by simpa only [Connections.attended,hsame] using hold)

theorem Undisturbed.trans {s s' t : Connections} {c : ℕ} (h : Undisturbed s s' c)
    (h' : Undisturbed s' t c) : Undisturbed s t c where
  conn := h'.conn.trans h.conn
  accepted := h.accepted.trans h'.accepted
  activity hatt := by
    have hsame := h'.activity hatt
    exact hsame.trans (h.activity (by simpa only [Connections.attended,hsame] using hatt))
  watches fd hfd := h.watches fd (h'.watches fd hfd)
  serves g i hg := h.serves g i (h'.serves g i hg)

/-! Steps that leave every connection as it is. -/

theorem Orderly.of_undisturbed {s s' : Connections} (h : s.Orderly)
    (hs : ∀ c, Undisturbed s s' c) (hw : ∀ g, (s'.worker g).state ≠ .dead → g < s'.created)
    (hr : ∀ g, s'.activity = .greenlet g ↔ (s'.worker g).state = .running) : s'.Orderly :=
  ⟨fun c => (h.conns c).undisturbed (hs c),hw,hr⟩

theorem Orderly.rewatched {s s' : Connections} {fd : ℕ} {w : Option Watch} (h : s.Orderly)
    (hs : Rewatched s s' fd w) (hw : ∀ c, w ≠ some (.read c)) : s'.Orderly := by
  have hwatches := hs.watches
  rw [hs.rest]
  refine h.of_undisturbed (fun c => ⟨rfl,le_rfl,fun _ => rfl,fun k hk => ?_,
    fun g i hg => ⟨hg.alive,hg.serves⟩⟩) h.workers h.running
  have hk' : s'.picoev.watches k = some (.read c) := hk
  rw [hwatches] at hk'
  by_cases hkfd : k = fd
  · subst hkfd
    exact absurd (by simpa using hk') (hw c)
  · rwa [Function.update_of_ne hkfd] at hk'

/-- Changing a greenlet that stays what it is for the connections. -/
theorem Orderly.setWorker {s : Connections} {g : ℕ} {t : Worker} (h : s.Orderly)
    (hserves : t.serves = (s.worker g).serves) (hstate : t.state = (s.worker g).state) :
    (s.setWorker g t).Orderly := by
  have hstates : ∀ k, ((s.setWorker g t).worker k).state = (s.worker k).state := by
    intro k
    by_cases hk : k = g <;> simp [Connections.setWorker,hk,hstate]
  refine h.of_undisturbed (fun c => ⟨rfl,le_rfl,fun _ => rfl,fun _ hfd => hfd,
    fun k i hk => ⟨hstates k ▸ hk.alive,?_⟩⟩) (fun k hk => h.workers k (hstates k ▸ hk))
    fun k => by rw [hstates k]; exact h.running k
  have hs := hk.serves
  by_cases hkg : k = g <;> simpa [Connections.setWorker,hkg,hserves] using hs

theorem Orderly.setTimers {s : Connections} {l : List ℕ} (h : s.Orderly) :
    Orderly { s with timers := l } :=
  h.of_undisturbed (fun _ => ⟨rfl,le_rfl,fun _ => rfl,fun _ hfd => hfd,
    fun _ _ hg => ⟨hg.alive,hg.serves⟩⟩) h.workers h.running

theorem Orderly.switch {s : Connections} {g : ℕ} {state : Liveness} {a : Activity} (h : s.Orderly)
    (ha : ∀ c, Connections.attended { s with activity := a } ≠ some c)
    (hg : (s.worker g).state ≠ .dead)
    (hr : ∀ k, a = .greenlet k ↔
      (({ s.worker g with state := state } : Worker).state = .running ∧ k = g ∨
        (s.worker k).state = .running ∧ k ≠ g)) :
    Orderly { s.setWorker g { s.worker g with state := state } with activity := a } := by
  refine h.of_undisturbed (fun c => ⟨rfl,le_rfl,fun hatt => absurd hatt (ha c),fun _ hfd => hfd,
    fun k i hk => ⟨?_,?_⟩⟩) (fun k hk => ?_) fun k => ?_
  · by_cases hkg : k = g
    · exact hkg ▸ hg
    · simpa [Connections.setWorker,hkg] using hk.alive
  · by_cases hkg : k = g
    · simpa [Connections.setWorker,hkg] using hk.serves
    · simpa [Connections.setWorker,hkg] using hk.serves
  · by_cases hkg : k = g
    · exact hkg ▸ h.workers g hg
    · exact h.workers k (by simpa [Connections.setWorker,hkg] using hk)
  · rw [hr k]
    by_cases hkg : k = g <;> simp [Connections.setWorker,hkg]

theorem Orderly.wait {s : Connections} {k : ℕ} (h : s.Orderly) (hk : s.activity = .greenlet k) :
    (s.wait k).Orderly := by
  refine h.switch (by simp [Connections.attended]) (by simp [(h.running k).mp hk]) fun g => ?_
  simp only [reduceCtorEq,false_and,false_or,false_iff,not_and,not_not]
  intro hg
  have heq := (h.running g).mpr hg
  rw [hk] at heq
  exact (Activity.greenlet.inj heq).symm

theorem Orderly.resume {s : Connections} {g : ℕ} (h : s.Orderly) (hact : s.activity = .hub) :
    (s.resume g).Orderly := by
  unfold Connections.resume
  split
  next hg =>
    refine h.switch (by simp [Connections.attended]) (by simp [hg]) fun k => ?_
    have hnone : (s.worker k).state ≠ .running := fun hk => by
      simpa [hact] using (h.running k).mpr hk
    simp [hnone,eq_comm]
  next => exact h

theorem Orderly.spawn {s : Connections} {k : Option ℕ} (h : s.Orderly) : (s.spawn k).Orderly := by
  have hdead : (s.worker s.created).state = .dead := by
    by_contra hne
    exact absurd (h.workers _ hne) (lt_irrefl _)
  refine h.of_undisturbed (fun c => ⟨rfl,le_rfl,fun _ => rfl,fun _ hfd => hfd,
    fun g i hg => ⟨?_,?_⟩⟩) (fun g hg => ?_) fun g => ?_
  · by_cases hgc : g = s.created
    · have hs := hg.serves
      simp [Connections.spawn,Connections.setWorker,hgc] at hs
    · simpa [Connections.spawn,Connections.setWorker,hgc] using hg.alive
  · by_cases hgc : g = s.created
    · have hs := hg.serves
      simp [Connections.spawn,Connections.setWorker,hgc] at hs
    · simpa [Connections.spawn,Connections.setWorker,hgc] using hg.serves
  · by_cases hgc : g = s.created
    · simp [Connections.spawn,hgc]
    · have hlt := h.workers g (by simpa [Connections.spawn,Connections.setWorker,hgc] using hg)
      exact hlt.trans (Nat.lt_succ_self _)
  · by_cases hgc : g = s.created
    · have hnot : s.activity ≠ .greenlet s.created := fun hact => by
        simpa [hdead] using (h.running _).mp hact
      simpa [Connections.spawn,Connections.setWorker,hgc] using hnot
    · simpa [Connections.spawn,Connections.setWorker,hgc] using h.running g

end Connections

/-! Steps of one connection. -/

namespace Connection.Stands

variable {t : Connection} {n : ℕ}

theorem receive (h : t.Stands n false) (k : ℕ) :
    Stands { t with queue := t.queue ++ List.range' t.received k, received := t.received + k } n false := by
  have hle := h.le
  simp only [Bool.toNat_false,Nat.add_zero] at hle
  refine ⟨h.line,by simp only [Bool.toNat_false]; omega,?_⟩
  have hsum : n + (t.received - n) = t.received := by omega
  have hcount : t.received + k - n = (t.received - n) + k := by omega
  have happ := List.range'_append_1 (s := n) (m := t.received - n) (n := k)
  rw [hsum] at happ
  simp only [h.queue,Bool.toNat_false,Nat.add_zero,happ,hcount]

/-- A response to the next request that ends at once, without its application. -/
theorem page (h : t.Stands n false) (data : Bytes) :
    Transition.run lineStep {} (t.log ++ [.wrote n data,.ended n]) = some ⟨n + 1,false⟩ := by
  rw [Transition.run_append,h.line]
  simp [Transition.run,lineStep]

theorem of_nil (h : t.Stands n false) (hq : t.queue = []) : t.received = n := by
  have hle := h.le
  have hlen := congrArg List.length (hq.symm.trans h.queue)
  simp only [List.length_nil,List.length_range',Bool.toNat_false] at hlen hle
  omega

theorem of_cons {i : ℕ} {q : List ℕ} (h : t.Stands n false) (hq : t.queue = i :: q) :
    i = n ∧ n + 1 ≤ t.received ∧ q = List.range' (n + 1) (t.received - (n + 1)) := by
  have hqueue := hq.symm.trans h.queue
  simp only [Bool.toNat_false,Nat.add_zero] at hqueue
  obtain ⟨k,hk⟩ : ∃ k, t.received - n = k + 1 := by
    cases hk : t.received - n with
    | zero => simp [hk] at hqueue
    | succ k => exact ⟨k,rfl⟩
  rw [hk,List.range'_succ] at hqueue
  obtain ⟨rfl,rfl⟩ := List.cons.inj hqueue
  have hrest : t.received - (i + 1) = k := by omega
  exact ⟨rfl,by omega,by rw [hrest]⟩

theorem sendPage (h : t.Stands n false) (hq : t.queue = []) (data : Bytes) :
    Stands { t with
      received := t.received + 1
      log := t.log ++ [.wrote t.received data,.ended t.received] } (n + 1) false := by
  have hn := h.of_nil hq
  exact ⟨hn ▸ h.page data,by simp [hn],by simp [hn,hq]⟩

theorem refuse {i : ℕ} {q : List ℕ} (h : t.Stands n false) (hq : t.queue = i :: q) (data : Bytes) :
    Stands { t with queue := q, log := t.log ++ [.wrote i data,.ended i] } (n + 1) false := by
  obtain ⟨rfl,hle,hrest⟩ := h.of_cons hq
  exact ⟨h.page data,hle,hrest⟩

theorem start {i : ℕ} {q : List ℕ} (h : t.Stands n false) (hq : t.queue = i :: q) (data : Bytes) :
    Stands { t with queue := q, log := t.log ++ [.wrote i data,.started i] } i true := by
  obtain ⟨rfl,hle,hrest⟩ := h.of_cons hq
  refine ⟨?_,hle,hrest⟩
  rw [Transition.run_append,h.line]
  simp [Transition.run,lineStep]

theorem write (h : t.Stands n true) (data : Bytes) :
    Stands { t with log := t.log ++ [.wrote n data] } n true := by
  refine ⟨?_,h.le,h.queue⟩
  rw [Transition.run_append,h.line]
  simp [Transition.run,lineStep]

theorem finish (h : t.Stands n true) :
    Stands { t with log := t.log ++ [.ended n] } (n + 1) false := by
  refine ⟨?_,h.le,h.queue⟩
  rw [Transition.run_append,h.line]
  simp [Transition.run,lineStep]

end Connection.Stands

namespace Connections

theorem readRequest_stands {s t : Connections} {c n : ℕ} {r : Reading}
    (h : s.readRequest c r = some t) (hn : (s.conn c).Stands n false) :
    ∃ m, (t.conn c).Stands m false := by
  cases r with
  | pending k =>
    obtain rfl := Option.some.inj h
    exact ⟨n,by simpa [receive,setConn] using hn.receive k⟩
  | finished k =>
    simp only [readRequest,Option.ite_none_left_eq_some,Option.some.injEq] at h
    obtain ⟨-,rfl⟩ := h
    exact ⟨n,by simpa [receive,setConn] using hn.receive k⟩
  | failed page =>
    simp only [readRequest,Option.ite_none_right_eq_some,Option.some.injEq] at h
    obtain ⟨hq,rfl⟩ := h
    cases page with
    | none => exact ⟨n,hn⟩
    | some page => exact ⟨n + 1,by simpa [Connections.sendPage,setConn] using hn.sendPage hq page⟩

theorem Proper.lt_accepted {s : Connections} {c : ℕ} (h : s.Proper c)
    (hc : (∃ fd, s.picoev.watches fd = some (.read c)) ∨ s.attended = some c ∨ ∃ g i, s.Serves g c i) :
    c < s.accepted := by
  by_contra hle
  obtain ⟨hreads,hatt,hserves⟩ := h.new (not_lt.mp hle)
  obtain ⟨fd,hfd⟩ | hc | ⟨g,i,hg⟩ := hc
  · exact hreads fd hfd
  · exact hatt hc
  · exact hserves g i hg

theorem Proper.of_unserved {s : Connections} {c : ℕ} (hlt : c < s.accepted) (h : s.Unserved c)
    (hreads : ∀ fd, s.picoev.watches fd = some (.read c) →
      (s.conn c).fd = fd ∧ s.activity ≠ .dispatch c) : s.Proper c where
  line := let ⟨n,hn⟩ := h.stands; ⟨⟨n,false⟩,hn.line⟩
  reads fd hfd := ⟨(hreads fd hfd).1,(hreads fd hfd).2,h⟩
  attended _ := h
  serves g i hg := absurd hg (h.free g i)
  new hle := absurd hlt (not_lt.mpr hle)

theorem Proper.of_serves {s : Connections} {c g i : ℕ} (hlt : c < s.accepted)
    (h : (s.conn c).Stands i true) (hone : ∀ g' i', s.Serves g' c i' → g' = g ∧ i' = i)
    (hreads : ∀ fd, s.picoev.watches fd ≠ some (.read c)) (hatt : s.attended ≠ some c) :
    s.Proper c where
  line := ⟨⟨i,true⟩,h.line⟩
  reads fd hfd := absurd hfd (hreads fd)
  attended hc := absurd hc hatt
  serves g' i' hg' := by
    obtain ⟨rfl,rfl⟩ := hone g' i' hg'
    exact ⟨h,fun g'' i'' hg'' => (hone g'' i'' hg'').1⟩
  new hle := absurd hlt (not_lt.mpr hle)

theorem Orderly.of_one {s s' : Connections} {c : ℕ} (h : s.Orderly) (hc : s'.Proper c)
    (hs : ∀ c', c' ≠ c → Undisturbed s s' c') (hw : ∀ g, (s'.worker g).state ≠ .dead → g < s'.created)
    (hr : ∀ g, s'.activity = .greenlet g ↔ (s'.worker g).state = .running) : s'.Orderly := by
  refine ⟨fun c' => ?_,hw,hr⟩
  by_cases hcc : c' = c
  · exact hcc ▸ hc
  · exact (h.conns c').undisturbed (hs c' hcc)

theorem undisturbed_setConn {s : Connections} {c c' : ℕ} {u : Connection} {a : Activity}
    (hne : c' ≠ c) (ha : Connections.attended { s with activity := a } ≠ some c') :
    Undisturbed s { s.setConn c u with activity := a } c' :=
  ⟨by simp [setConn,hne],le_rfl,fun hatt => absurd hatt ha,fun _ hfd => hfd,
    fun _ _ hg => ⟨hg.alive,hg.serves⟩⟩

theorem Unserved.setConn {s : Connections} {c n : ℕ} {u : Connection} {a : Activity}
    (h : ∀ g i, ¬s.Serves g c i) (hu : u.Stands n false) :
    Unserved { s.setConn c u with activity := a } c :=
  ⟨fun g i hg => h g i ⟨hg.alive,hg.serves⟩,⟨n,by simpa [Connections.setConn] using hu⟩⟩

theorem running_of_hub {s : Connections} (h : s.Orderly) {a : Activity}
    (hact : ∀ g, s.activity ≠ .greenlet g) (ha : ∀ g, a ≠ .greenlet g) (g : ℕ) :
    a = .greenlet g ↔ (s.worker g).state = .running :=
  ⟨fun hg => absurd hg (ha g),fun hg => absurd ((h.running g).mpr hg) (hact g)⟩

/-- After `read_request` and what the callback does to the registration. -/
theorem Orderly.received {s t : Connections} {c : ℕ} {r : Reading} {l : Picoev Watch}
    (h : s.Orderly) (hact : s.activity = .hub) (hlt : c < s.accepted) (hun : s.Unserved c)
    (ht : s.readRequest c r = some t)
    (hother : ∀ fd c', c' ≠ c → l.watches fd = some (.read c') →
      t.picoev.watches fd = some (.read c'))
    (hself : ∀ fd, l.watches fd = some (.read c) →
      (t.conn c).fd = fd ∧ r.next c .hub ≠ .dispatch c) : Orderly { t with picoev := l } := by
  obtain ⟨n,hn⟩ := hun.stands
  obtain ⟨m,hm⟩ := readRequest_stands ht hn
  obtain ⟨u,rfl,hfd,-⟩ := readRequest_eq_some ht
  have hu : u.Stands m false := by simpa [Connections.setConn] using hm
  rw [hact]
  have hnext : ∀ g, r.next c .hub ≠ .greenlet g := by cases r <;> simp [Reading.next]
  have hatt : ∀ c', c' ≠ c →
      Connections.attended { s with activity := r.next c .hub } ≠ some c' := by
    cases r <;> simp [Reading.next,Connections.attended,eq_comm]
  refine h.of_one (c := c) ?_ (fun c' hc' => ⟨by simp [Connections.setConn,hc'],le_rfl,
    fun h' => absurd h' (hatt c' hc'),fun fd => hother fd c' hc',fun _ _ hg => ⟨hg.alive,hg.serves⟩⟩)
    h.workers (running_of_hub h (by simp [hact]) hnext)
  exact Proper.of_unserved hlt ⟨fun g i hg => hun.free g i ⟨hg.alive,hg.serves⟩,
    ⟨m,by simpa [Connections.setConn] using hu⟩⟩ hself

/-- A new connection, before anything is read from it. -/
theorem Orderly.opened {s : Connections} (fd : ℕ) (h : s.Orderly) : (s.opened fd).Orderly ∧
    (s.opened fd).Unserved s.accepted ∧
    ∀ k, (s.opened fd).picoev.watches k ≠ some (.read s.accepted) := by
  obtain ⟨hreads,-,hserves⟩ := (h.conns s.accepted).new le_rfl
  have hun : (s.opened fd).Unserved s.accepted := by
    refine ⟨fun g i hg => hserves g i ⟨hg.alive,hg.serves⟩,0,?_⟩
    simpa [Connections.opened,setConn] using
      (⟨rfl,le_rfl,rfl⟩ : Connection.Stands { fd := fd, isOpen := true } 0 false)
  refine ⟨h.of_one (c := s.accepted) (Proper.of_unserved (Nat.lt_succ_self _) hun
    fun k hk => absurd hk (hreads k)) (fun c hc => ⟨by simp [Connections.opened,setConn,hc],
    Nat.le_succ _,fun _ => rfl,fun _ hfd => hfd,fun _ _ hg => ⟨hg.alive,hg.serves⟩⟩)
    h.workers h.running,hun,hreads⟩

theorem Orderly.accept {s s' : Connections} {fd : ℕ} {r : Option Reading} (h : s.Orderly)
    (hs : connectionStep s (.accept fd r) = some s') : s'.Orderly := by
  simp only [connectionStep,Option.ite_none_right_eq_some] at hs
  obtain ⟨⟨hact,-⟩,hs⟩ := hs
  obtain ⟨ht,hun,hreads⟩ := h.opened fd
  cases r with
  | none => exact Option.some.inj hs ▸ ht
  | some r =>
    obtain ⟨t,hr,rfl⟩ := Option.map_eq_some_iff.mp hs
    have hlt : s.accepted < (s.opened fd).accepted := Nat.lt_succ_self _
    have hsame : t.picoev = (s.opened fd).picoev := by
      obtain ⟨u,rfl,-⟩ := readRequest_eq_some hr
      rfl
    rw [← hsame] at hreads
    cases r with
    | pending n =>
      refine ht.received (l := (t.picoev.add (t.conn s.accepted).fd _ _ _).getD _) hact hlt hun hr
        (fun k c hc hk => ?_) fun k hk => ?_
      · rcases Picoev.add_getD_watches hk with ⟨-,heq⟩ | hold
        · exact absurd (Watch.read.inj heq) hc
        · exact hold
      · rcases Picoev.add_getD_watches hk with ⟨rfl,-⟩ | hold
        · exact ⟨rfl,by simp [Reading.next]⟩
        · exact absurd hold (hreads k)
    | finished n =>
      exact ht.received hact hlt hun hr (fun _ _ _ hfd => hfd) fun k hk => absurd hk (hreads k)
    | failed page =>
      exact ht.received hact hlt hun hr (fun _ _ _ hfd => hfd) fun k hk => absurd hk (hreads k)

theorem Orderly.read {s s' : Connections} {fd : ℕ} {r : Reading} (h : s.Orderly)
    (hs : connectionStep s (.read fd r) = some s') : s'.Orderly := by
  simp only [connectionStep] at hs
  split at hs
  next c hact hw =>
    obtain ⟨t,hr,rfl⟩ := Option.map_eq_some_iff.mp hs
    obtain ⟨-,-,hun⟩ := (h.conns c).reads fd hw
    have hlt := (h.conns c).lt_accepted (.inl ⟨fd,hw⟩)
    obtain ⟨u,ht,hfd,-⟩ := readRequest_eq_some hr
    have hsame : t.picoev = s.picoev := by rw [ht]; rfl
    have hself : ∀ k, t.picoev.watches k = some (.read c) → (t.conn c).fd = k := by
      intro k hk
      rw [ht]
      simp only [Connections.setConn,Function.update_self,hfd]
      exact ((h.conns c).reads k (hsame ▸ hk)).1
    cases r with
    | pending n =>
      exact h.received hact hlt hun hr (fun _ _ _ hk => hk) fun k hk =>
        ⟨hself k hk,by simp [Reading.next]⟩
    | finished n =>
      refine h.received (l := t.picoev.del (t.conn c).fd) hact hlt hun hr (fun k c' _ hk => ?_)
        fun k hk => ?_
      · rw [Picoev.del_watches] at hk
        by_cases hkfd : k = (t.conn c).fd
        · simp [hkfd] at hk
        · rwa [Function.update_of_ne hkfd] at hk
      · rw [Picoev.del_watches] at hk
        by_cases hkfd : k = (t.conn c).fd
        · simp [hkfd] at hk
        · rw [Function.update_of_ne hkfd] at hk
          exact absurd (hself k hk).symm hkfd
    | failed page =>
      exact h.received hact hlt hun hr (fun _ _ _ hk => hk) fun k hk =>
        ⟨hself k hk,by simp [Reading.next]⟩
  next => simp at hs

theorem Orderly.attends {s : Connections} {c : ℕ} {a : Activity} {u : Connection} (h : s.Orderly)
    (hact : ∀ g, s.activity ≠ .greenlet g) (hatt : s.attended = some c)
    (hreads : ∀ fd, s.picoev.watches fd = some (.read c) → u.fd = fd ∧ a ≠ .dispatch c)
    (ha : ∀ c', c' ≠ c → Connections.attended { s with activity := a } ≠ some c')
    (hg : ∀ g, a ≠ .greenlet g) (hu : ∃ n, u.Stands n false) :
    Orderly { s.setConn c u with activity := a } := by
  obtain ⟨hfree,-⟩ := (h.conns c).attended hatt
  obtain ⟨n,hn⟩ := hu
  refine h.of_one (c := c) ?_ (fun c' hc' => undisturbed_setConn hc' (ha c' hc')) h.workers
    (running_of_hub h hact hg)
  refine Proper.of_unserved ((h.conns c).lt_accepted (.inr (.inl hatt))) (.setConn hfree hn)
    fun fd hfd => ?_
  simpa [Connections.setConn] using hreads fd hfd

theorem Orderly.refuse {s s' : Connections} {page : Bytes} {keepAlive : Bool} (h : s.Orderly)
    (hs : connectionStep s (.refuse page keepAlive) = some s') : s'.Orderly := by
  simp only [connectionStep] at hs
  split at hs
  next c hact =>
    obtain ⟨t,ht,rfl⟩ := Option.map_eq_some_iff.mp hs
    obtain ⟨i,q,hq,rfl⟩ := shiftRequest_eq_some ht
    have hatt := attended_of_activity hact
    obtain ⟨-,n,hn⟩ := (h.conns c).attended hatt
    refine h.attends (by simp [hact]) hatt (fun fd hfd => ?_)
      (by simp [Connections.attended,eq_comm]) (by simp) ⟨_,hn.refuse hq page⟩
    exact absurd hact ((h.conns c).reads fd hfd).2.1
  next => simp at hs

/-- `set_input_file` has failed: nothing waits for the connection any more. -/
theorem Orderly.inputFailed {s s' : Connections} (h : s.Orderly)
    (hs : connectionStep s .inputFailed = some s') : s'.Orderly := by
  simp only [connectionStep] at hs
  split at hs
  next c hact =>
    obtain ⟨t,ht,rfl⟩ := Option.map_eq_some_iff.mp hs
    obtain ⟨i,q,hq,rfl⟩ := shiftRequest_eq_some ht
    have hatt := attended_of_activity hact
    obtain ⟨hfree,n,hn⟩ := (h.conns c).attended hatt
    have hlt := (h.conns c).lt_accepted (.inr (.inl hatt))
    refine h.of_one (c := c) ?_ (fun c' hc' => undisturbed_setConn hc' (by simp [Connections.attended]))
      h.workers (running_of_hub h (by simp [hact]) (by simp))
    exact
      { line := ⟨⟨n,false⟩,by simpa [Connections.setConn] using hn.line⟩
        reads := fun fd hfd => absurd hact ((h.conns c).reads fd hfd).2.1
        attended := fun hnew => by simp [Connections.attended] at hnew
        serves := fun g i hg => absurd ⟨hg.alive,hg.serves⟩ (hfree g i)
        new := fun hle => absurd hlt (not_lt.mpr hle) }
  next => simp at hs

/-- The greenlets that serve a request after `call_wsgi_handler`. -/
theorem serves_callHandler {s : Connections} {c c' g i j : ℕ}
    (h : (s.callHandler c i).Serves g c' j) :
    g = s.created ∧ c' = c ∧ j = i ∨ g ≠ s.created ∧ s.Serves g c' j := by
  by_cases hg : g = s.created
  · have hserves := h.serves
    simp [callHandler,Connections.setWorker,hg] at hserves
    exact .inl ⟨hg,hserves.1.symm,hserves.2.symm⟩
  · refine .inr ⟨hg,?_,?_⟩
    · simpa [callHandler,Connections.setWorker,hg] using h.alive
    · simpa [callHandler,Connections.setWorker,hg] using h.serves

theorem Orderly.start {s s' : Connections} {interim : Bytes} (h : s.Orderly)
    (hs : connectionStep s (.start interim) = some s') : s'.Orderly := by
  simp only [connectionStep] at hs
  split at hs
  next c hact =>
    obtain ⟨i,q,hq,rfl⟩ := startHandler_eq_some hs
    have hatt := attended_of_activity hact
    obtain ⟨hfree,n,hn⟩ := (h.conns c).attended hatt
    have hlt := (h.conns c).lt_accepted (.inr (.inl hatt))
    have hnone : ∀ g, (s.worker g).state ≠ .running := fun g hg => by
      simpa [hact] using (h.running g).mpr hg
    refine h.of_one (c := c) (Proper.of_serves (g := s.created) (i := i) hlt ?_ (fun g j hg => ?_)
      (fun fd hfd => absurd hact ((h.conns c).reads fd hfd).2.1)
      (by simp [callHandler,Connections.attended])) (fun c' hc' => ⟨?_,le_rfl,fun hnew => ?_,
      fun _ hfd => hfd,fun g j hg => ?_⟩) (fun g hg => ?_) fun g => ?_
    · simpa [callHandler,Connections.setWorker,setConn] using hn.start hq interim
    · obtain ⟨hgc,-,hj⟩ | ⟨-,hold⟩ := serves_callHandler hg
      · exact ⟨hgc,hj⟩
      · exact absurd ⟨hold.alive,hold.serves⟩ (hfree g j)
    · simp [callHandler,Connections.setWorker,setConn,hc']
    · simp [callHandler,Connections.attended] at hnew
    · obtain ⟨-,hcc,-⟩ | ⟨-,hold⟩ := serves_callHandler hg
      · exact absurd hcc hc'
      · exact ⟨hold.alive,hold.serves⟩
    · by_cases hgc : g = s.created
      · simp [callHandler,setConn,hgc]
      · have hlt' := h.workers g (by simpa [callHandler,Connections.setWorker,setConn,hgc] using hg)
        exact hlt'.trans (Nat.lt_succ_self _)
    · by_cases hgc : g = s.created
      · simp [callHandler,Connections.setWorker,setConn,hgc]
      · have hother := hnone g
        simp [callHandler,Connections.setWorker,setConn,hgc,hother,Ne.symm hgc]
  next => simp at hs

theorem Orderly.closeClient {s s' : Connections} (h : s.Orderly)
    (hs : connectionStep s .closeClient = some s') : s'.Orderly := by
  simp only [connectionStep] at hs
  split at hs
  next c keepAlive hact =>
    obtain ⟨t,ht,hs⟩ := Option.bind_eq_some_iff.mp hs
    have hre := unwatch_eq_some ht
    have hatt : s.attended = some c := by simp [Connections.attended,hact]
    obtain ⟨l,rfl⟩ : ∃ l, t = { s with picoev := l } := ⟨t.picoev,hre.rest⟩
    have hold := h.rewatched hre (by simp)
    have hnone : ∀ fd, l.watches fd ≠ some (.read c) := by
      intro fd hfd
      have hw := hre.watches
      simp only at hw
      rw [hw] at hfd
      by_cases hk : fd = (s.conn c).fd
      · simp [hk] at hfd
      · rw [Function.update_of_ne hk] at hfd
        exact hk ((h.conns c).reads fd hfd).1.symm
    obtain ⟨hfree,n,hn⟩ := (hold.conns c).attended hatt
    split at hs
    next hq =>
      obtain rfl := Option.some.inj hs
      have hdispatch := hold.attends (u := s.conn c) (a := .dispatch c) (by simp [hact]) hatt
        (fun fd hfd => absurd hfd (hnone fd)) (by simp [Connections.attended,eq_comm]) (by simp) ⟨n,hn⟩
      simpa [Connections.setConn] using hdispatch
    next hq =>
      split at hs
      next =>
        obtain ⟨t,hw,rfl⟩ := Option.map_eq_some_iff.mp hs
        have hadd := watch_eq_some hw
        have hwatches := hadd.watches
        obtain ⟨l',rfl⟩ : ∃ l', t = { s with picoev := l' } := ⟨t.picoev,by rw [hadd.rest]⟩
        refine hold.of_one (c := c) (Proper.of_unserved
          ((hold.conns c).lt_accepted (.inr (.inl hatt))) ⟨fun g i hg => hfree g i ⟨hg.alive,hg.serves⟩,
          n,hn⟩ fun fd hfd => ?_) (fun c' hc' => ⟨rfl,le_rfl,by simp [Connections.attended],fun fd hfd => ?_,
          fun g i hg => ⟨hg.alive,hg.serves⟩⟩) hold.workers (running_of_hub hold (by simp [hact]) (by simp))
        · simp only at hfd hwatches
          rw [hwatches] at hfd
          by_cases hk : fd = (s.conn c).fd
          · exact ⟨hk.symm,by simp⟩
          · rw [Function.update_of_ne hk] at hfd
            exact absurd hfd (hnone fd)
        · simp only at hfd hwatches
          rw [hwatches] at hfd
          by_cases hk : fd = (s.conn c).fd
          · simp [hk,hc'.symm] at hfd
          · rwa [Function.update_of_ne hk] at hfd
      next =>
        obtain rfl := Option.some.inj hs
        exact hold.attends (by simp [hact]) hatt (fun fd hfd => absurd hfd (hnone fd))
          (by simp [Connections.attended]) (by simp) ⟨n,⟨hn.line,hn.le,hn.queue⟩⟩
  next => simp at hs

/-- The running greenlet writes of its response. -/
theorem Orderly.write {s s' : Connections} {data : Bytes} (h : s.Orderly)
    (hs : connectionStep s (.write data) = some s') : s'.Orderly := by
  obtain ⟨⟨k,c,i⟩,hk,rfl⟩ := Option.map_eq_some_iff.mp hs
  obtain ⟨hact,hserves⟩ := serving_eq_some hk
  have hk : s.Serves k c i := ⟨by simp [(h.running k).mp hact],hserves⟩
  obtain ⟨hstands,hone⟩ := (h.conns c).serves k i hk
  have hlt := (h.conns c).lt_accepted (.inr (.inr ⟨k,i,hk⟩))
  refine h.of_one (c := c) (Proper.of_serves (g := k) (i := i) hlt ?_ (fun g j hg => ?_)
    (fun fd hfd => ?_) (by simp [writeLog,setConn,Connections.attended,hact]))
    (fun c' hc' => ⟨by simp [writeLog,setConn,hc'],le_rfl,fun _ => rfl,fun _ hfd => hfd,
      fun _ _ hg => ⟨hg.alive,hg.serves⟩⟩) h.workers h.running
  · simpa [writeLog,setConn] using hstands.write data
  · obtain rfl := hone g j ⟨hg.alive,hg.serves⟩
    have hj : (s.worker g).serves = some (c,j) := hg.serves
    rw [hserves] at hj
    exact ⟨rfl,by simpa using hj.symm⟩
  · exact ((h.conns c).reads fd hfd).2.2.free k i hk

theorem Orderly.finish {s s' : Connections} {keepAlive : Bool} (h : s.Orderly)
    (hs : connectionStep s (.finish keepAlive) = some s') : s'.Orderly := by
  simp only [connectionStep] at hs
  split at hs
  next k hact =>
    have hrun := (h.running k).mp hact
    have hdead : ∀ g, ((s.setWorker k { s.worker k with state := .dead }).worker g).state ≠ .dead →
        (s.worker g).state ≠ .dead := by
      intro g hg
      by_cases hgk : g = k
      · simp [hgk,hrun]
      · simpa [Connections.setWorker,hgk] using hg
    have hrunning : ∀ (a : Activity) g, (∀ g, a ≠ .greenlet g) → (a = .greenlet g ↔
        ((s.setWorker k { s.worker k with state := .dead }).worker g).state = .running) := by
      intro a g ha
      refine ⟨fun heq => absurd heq (ha g),fun hg => ?_⟩
      by_cases hgk : g = k
      · simp [Connections.setWorker,hgk] at hg
      · have hg' := (h.running g).mpr (by simpa [Connections.setWorker,hgk] using hg)
        rw [hact] at hg'
        exact absurd (Activity.greenlet.inj hg').symm hgk
    have hserves : ∀ g c i, (s.setWorker k { s.worker k with state := .dead }).Serves g c i →
        g ≠ k ∧ s.Serves g c i := by
      intro g c i hg
      have hgk : g ≠ k := fun hgk => hg.alive (by simp [Connections.setWorker,hgk])
      exact ⟨hgk,by simpa [Connections.setWorker,hgk] using hg.alive,
        by simpa [Connections.setWorker,hgk] using hg.serves⟩
    split at hs
    next c i hk =>
      obtain rfl := Option.some.inj hs
      have hsk : s.Serves k c i := ⟨by simp [hrun],hk⟩
      obtain ⟨hstands,hone⟩ := (h.conns c).serves k i hsk
      have hlt := (h.conns c).lt_accepted (.inr (.inr ⟨k,i,hsk⟩))
      refine h.of_one (c := c) (Proper.of_unserved hlt ⟨fun g j hg => ?_,i + 1,?_⟩ fun fd hfd => ?_)
        (fun c' hc' => ⟨by simp [writeLog,setConn,Connections.setWorker,hc'],le_rfl,
          by simp [Connections.attended,Ne.symm hc'],fun _ hfd => hfd,
          fun g j hg => (hserves g c' j ⟨hg.alive,hg.serves⟩).2⟩)
        (fun g hg => h.workers g (hdead g hg)) fun g => hrunning _ g (by simp)
      · obtain ⟨hgk,hg'⟩ := hserves g c j ⟨hg.alive,hg.serves⟩
        exact hgk (hone g j hg')
      · simpa [writeLog,setConn,Connections.setWorker] using hstands.finish
      · exact absurd hsk (((h.conns c).reads fd hfd).2.2.free k i)
    next hk =>
      obtain rfl := Option.some.inj hs
      exact h.of_undisturbed (fun c => ⟨rfl,le_rfl,by simp [Connections.attended],fun _ hfd => hfd,
        fun g j hg => (hserves g c j ⟨hg.alive,hg.serves⟩).2⟩)
        (fun g hg => h.workers g (hdead g hg)) fun g => hrunning _ g (by simp)
  next => simp at hs

/-- Whatever happens next, the connections stay orderly. -/
theorem connectionStep_orderly {s s' : Connections} {e : ConnectionEvent} (h : s.Orderly)
    (hs : connectionStep s e = some s') : s'.Orderly := by
  cases e with
  | accept fd r => exact h.accept hs
  | read fd r => exact h.read hs
  | refuse page keepAlive => exact h.refuse hs
  | inputFailed => exact h.inputFailed hs
  | start interim => exact h.start hs
  | closeClient => exact h.closeClient hs
  | write data => exact h.write hs
  | finish keepAlive => exact h.finish hs
  | suspendClient g fd timeout =>
    simp only [connectionStep,Option.ite_none_right_eq_some] at hs
    obtain ⟨k,hk,hs⟩ := Option.bind_eq_some_iff.mp hs.2
    obtain ⟨t,ht,rfl⟩ := Option.map_eq_some_iff.mp hs
    have hre := watch_eq_some ht
    have hadd : t.Orderly :=
      (h.setWorker (g := g) (t := { s.worker g with suspended := true }) rfl rfl).rewatched hre (by simp)
    cases k with
    | none => exact hadd
    | some k =>
      refine hadd.wait ?_
      rw [hre.rest]
      exact caller_eq_some hk
  | resumeClient g fd =>
    simp only [connectionStep,Option.ite_none_right_eq_some] at hs
    obtain ⟨k,-,ht⟩ := Option.bind_eq_some_iff.mp hs.2
    exact (h.setWorker (g := g) (t := { s.worker g with suspended := false }) rfl rfl).rewatched
      (watch_eq_some ht) (by simp)
  | cancelWait fd =>
    obtain ⟨k,-,ht⟩ := Option.bind_eq_some_iff.mp hs
    exact h.rewatched (unwatch_eq_some ht) (by simp)
  | trampoline fd events timeout =>
    simp only [connectionStep,Option.ite_none_left_eq_some] at hs
    obtain ⟨k,hk,hs⟩ := Option.bind_eq_some_iff.mp hs.2
    obtain ⟨t,ht,rfl⟩ := Option.map_eq_some_iff.mp hs
    have hre := watch_eq_some ht
    refine (h.rewatched hre (by simp)).wait ?_
    rw [hre.rest]
    exact caller_join_eq_some hk
  | waitWrite =>
    obtain ⟨⟨k,c,i⟩,hk,hs⟩ := Option.bind_eq_some_iff.mp hs
    obtain ⟨t,ht,rfl⟩ := Option.map_eq_some_iff.mp hs
    have hre := watch_eq_some ht
    refine (h.rewatched hre (by simp)).wait ?_
    rw [hre.rest]
    exact (serving_eq_some hk).1
  | sleep =>
    obtain ⟨k,hk,rfl⟩ := Option.map_eq_some_iff.mp hs
    exact (h.wait (caller_join_eq_some hk)).setTimers
  | spawn =>
    obtain ⟨k,-,rfl⟩ := Option.map_eq_some_iff.mp hs
    exact h.spawn
  | wakeFd fd clear =>
    simp only [connectionStep] at hs
    split at hs
    next g hact hw =>
      obtain rfl := Option.some.inj hs
      have hdel : Orderly { s with picoev := s.picoev.del fd } := by
        refine h.of_undisturbed (fun c => ⟨rfl,le_rfl,fun _ => rfl,fun k hk => ?_,
          fun _ _ hg => ⟨hg.alive,hg.serves⟩⟩) h.workers h.running
        simp only [Picoev.del_watches] at hk
        by_cases hkfd : k = fd
        · simp [hkfd] at hk
        · rwa [Function.update_of_ne hkfd] at hk
      split
      · exact (hdel.setWorker (g := g) (t := { s.worker g with suspended := false }) rfl rfl).resume hact
      · exact hdel.resume hact
    next => simp at hs
  | wakeTimer g =>
    simp only [connectionStep,Option.ite_none_right_eq_some,Option.some.injEq] at hs
    obtain ⟨⟨hact,-⟩,rfl⟩ := hs
    exact h.setTimers.resume hact
  | toParent k =>
    simp only [connectionStep,Option.ite_none_right_eq_some] at hs
    obtain ⟨⟨hact,-,-⟩,hs⟩ := hs
    obtain ⟨g,-,rfl⟩ := Option.map_eq_some_iff.mp hs
    exact h.resume hact

theorem orderly_start (maxFd keepAliveTimeout now : ℕ) :
    (Connections.start maxFd keepAliveTimeout now).Orderly where
  conns c :=
    { line := ⟨{},rfl⟩
      reads := fun fd hfd => by simp [Connections.start,Picoev.init,Picoev.watches] at hfd
      attended := fun hatt => by simp [Connections.start,Connections.attended] at hatt
      serves := fun g i hg => absurd rfl hg.alive
      new := fun _ => ⟨by simp [Connections.start,Picoev.init,Picoev.watches],
        by simp [Connections.start,Connections.attended],fun g i hg => hg.alive rfl⟩ }
  workers g hg := absurd rfl hg
  running g := by simp [Connections.start]

end Connections

/-- In every run the requests of each connection are started and answered one at a time and in
order. -/
theorem responses_inOrder {es : List ConnectionEvent} {s : Connections}
    (maxFd keepAliveTimeout now : ℕ)
    (h : Transition.run connectionStep (.start maxFd keepAliveTimeout now) es = some s) (c : ℕ) :
    InOrder (s.conn c).log := by
  have hs : s.Orderly := Transition.invariant_run (C := fun _ _ => True)
    (fun _ _ _ h _ hs => Connections.connectionStep_orderly h hs)
    (Connections.orderly_start maxFd keepAliveTimeout now) (.of_forall fun _ _ _ => trivial) h
  obtain ⟨l,hl⟩ := (hs.conns c).line
  exact inOrder_of_run hl

/-- Two requests on a connection: the first is suspended while another connection is served, then
resumed, and the second is started when the first has ended. -/
theorem responses_inOrder_two : ∃ s, Transition.run connectionStep (.start 8 2 100)
    [.accept 5 (some (.finished 2)),.start [],.write [65],.suspendClient 0 5 0,
      .accept 6 (some (.finished 1)),.start [],.write [70],.finish false,.closeClient,
      .resumeClient 0 5,.wakeFd 5 false,.write [66],.finish true,.closeClient,.start [],.write [67],
      .finish true,.closeClient] = some s ∧
    (s.conn 0).log = [.wrote 0 [],.started 0,.wrote 0 [65],.wrote 0 [66],.ended 0,
      .wrote 1 [],.started 1,.wrote 1 [67],.ended 1] ∧ InOrder (s.conn 0).log :=
  ⟨_,rfl,rfl,responses_inOrder 8 2 100 (rfl : Transition.run connectionStep (.start 8 2 100)
    [.accept 5 (some (.finished 2)),.start [],.write [65],.suspendClient 0 5 0,
      .accept 6 (some (.finished 1)),.start [],.write [70],.finish false,.closeClient,
      .resumeClient 0 5,.wakeFd 5 false,.write [66],.finish true,.closeClient,.start [],.write [67],
      .finish true,.closeClient] = some _) 0⟩

end Meinheld
