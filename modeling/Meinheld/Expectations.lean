import Meinheld.Takeovers
import Meinheld.SplitReads

/-! A client that keeps the body of its request back until it has read `100 Continue`. -/
namespace Meinheld

/-! ### A read that ends within a message -/

section Within

variable {σ : Type} {cb : Settings σ} {I F : σ → Prop}

/-- The callback that fails among those of a byte that completes no message. -/
theorem runActs_within (hn : ∀ n p d e, n ≠ .messageComplete → I d → cb.onNotify n p d = (true,e) → I e)
    (hd : ∀ k p buf d e, I d → cb.onData k p buf d = (true,e) → I e)
    (hnF : ∀ n p d e, I d → cb.onNotify n p d = (false,e) → F e)
    (hdF : ∀ k p buf d e, I d → cb.onData k p buf d = (false,e) → F e) {as : List Act} {ch : Byte}
    {m : Marked σ} {r : HttpParser × σ × ℕ} (has : as.any Act.completes = false) (hI : I m.data)
    (h : runActs cb ch as m = .error r) : F r.2.1 := by
  induction as generalizing m with
  | nil => cases h
  | cons a as ih =>
    simp only [List.any_cons,Bool.or_eq_false_iff] at has
    cases a with
    | mark k => exact ih (m := { m with mark := m.mark.or (some (k,[])) }) has.2 hI h
    | data k incl adv p =>
      simp only [runActs] at h
      split at h
      · exact ih has.2 hI h
      · split at h
        next e he => exact ih (m := { data := e }) has.2 (hd _ _ _ _ _ hI he) h
        next e he =>
          cases h
          exact hdF _ _ _ _ _ hI he
    | notify n adv p =>
      simp only [runActs] at h
      split at h
      next e he =>
        have hne : n ≠ .messageComplete := by
          rintro rfl
          cases has.1
        exact ih (m := { m with data := e }) has.2 (hn _ _ _ _ hne hI he) h
      next e he =>
        cases h
        exact hnF _ _ _ _ hI he

/-- A read of the first part of a message: a callback fails in it, or it leaves a parser for the
rest, unless it stops before its last byte. -/
theorem executeLoop_within
    (hn : ∀ n p d e, n ≠ .messageComplete → I d → cb.onNotify n p d = (true,e) → I e)
    (hd : ∀ k p buf d e, I d → cb.onData k p buf d = (true,e) → I e)
    (hnF : ∀ n p d e, I d → cb.onNotify n p d = (false,e) → F e)
    (hdF : ∀ k p buf d e, I d → cb.onData k p buf d = (false,e) → F e) {a b : Bytes}
    {p : HttpParser} {m : Marked σ} (pos : ℕ) (hb : b ≠ []) (hone : oneMessage p (a ++ b))
    (hI : I m.data) :
    F (executeLoop cb p m pos a).2.1 ∨ I (executeLoop cb p m pos a).2.1 ∧
      ((executeLoop cb p m pos a).2.2 = ((pos + a.length : ℕ) : ℤ) →
        oneMessage (executeLoop cb p m pos a).1 b ∧
          (executeLoop cb p m pos a).1.httpErrno = p.httpErrno) := by
  induction a generalizing p m pos with
  | nil =>
    simp only [executeLoop,flushMark]
    cases hmark : m.mark with
    | none => exact .inr ⟨hI,fun _ => ⟨hone,rfl⟩⟩
    | some kb =>
      obtain ⟨k,buf⟩ := kb
      simp only
      split
      next e he => exact .inr ⟨hd _ _ _ _ _ hI he,fun _ => ⟨hone,rfl⟩⟩
      next e he => exact .inl (hdF _ _ _ _ _ hI he)
  | cons ch rest ih =>
    rw [List.cons_append,oneMessage_cons (by simp [hb]),Bool.and_eq_true,Bool.not_eq_true'] at hone
    obtain ⟨hcomp,hone⟩ := hone
    cases hs : step p ch with
    | error q =>
      simp only [executeLoop,hs,List.length_cons]
      exact .inr ⟨hI,fun hpos => by omega⟩
    | bail q =>
      simp only [executeLoop,hs,List.length_cons]
      exact .inr ⟨hI,fun hpos => by omega⟩
    | stop acts q =>
      rw [hs] at hcomp
      exact absurd (step_stop hs).2.2 (by simpa [Step.completes] using hcomp)
    | next acts q =>
      rw [hs] at hcomp hone
      simp only [Step.parser] at hone
      cases hr : runActs cb ch acts m with
      | ok m' =>
        have hI' : I m'.data := runActs_keeps hn hd hcomp hI hr
        have hrest := ih (m := m'.push ch) (pos + 1) hone hI'
        rw [Nat.add_assoc,Nat.add_comm 1] at hrest
        simpa only [executeLoop,hs,hr,List.length_cons,step_errno hs] using hrest
      | error r =>
        simp only [executeLoop,hs,hr]
        exact .inl (runActs_within hn hd hnF hdF hcomp hI hr)

end Within

/-! ### The read -/

/-- `execute_parse` takes all the bytes and finds nothing wrong. -/
def LetThrough (g : Globals) (c : Client) (data : Bytes) : Prop :=
  (executeParse g c data).1.aborted = false ∧ (executeParse g c data).2 = data.length ∧
    ∃ r, (executeParse g c data).1.currentReq = some r ∧ r.badRequestCode = 0

/-- A client in the middle of a request of which `rest` is missing. -/
structure Client.Lacks (c : Client) (rest : Bytes) : Prop where
  errno : c.httpParser.httpErrno = .OK
  reading : c.entering.Reading
  rest : oneMessage c.httpParser rest

/-- A read that ends within a request leaves it pending, or finds an error. -/
theorem Client.Lacks.read {g : Globals} {c c' : Client} {a b : Bytes} {w w' : World} {e : ReadEnd}
    (hc : c.Lacks (a ++ b)) (ha : a ≠ []) (hb : b ≠ [])
    (h : parseHttpRequest g c a w = .ret (e,c') w') :
    (e = .pending ∧ LetThrough g c a ∧ w' = w ∧ c'.currentReq.isSome ∧ c'.Lacks b) ∨
      (e ≠ .pending ∧ ¬LetThrough g c a ∧ (e = .finish → c'.keepAlive = false)) := by
  have hcases : ((c.read g a).2.1.Failed ∧ (c.read g a).2.1.upgrade = false) ∨
      (c.read g a).2.1.Reading ∧ ((c.read g a).2.2 = ((0 + a.length : ℕ) : ℤ) →
        oneMessage (c.read g a).1 b ∧ (c.read g a).1.httpErrno = c.httpParser.httpErrno) := by
    refine executeLoop_within (I := Client.Reading) (F := fun e => e.Failed ∧ e.upgrade = false)
      (fun _ _ _ _ => onNotify_reading) (fun _ _ _ _ _ => onData_reading) ?_ ?_ 0 hb hc.rest
      hc.reading
    · intro n p d e hd he
      refine ⟨onNotify_failed he,?_⟩
      cases n with
      | headersComplete =>
        have hup := onCurrentReq_upgrade { d with keepAlive := httpShouldKeepAlive p }
          (f := fun req => some (headersComplete g p req))
        rw [show onCurrentReq { d with keepAlive := httpShouldKeepAlive p } _ = (false,e) from he]
          at hup
        exact hup.trans hd.upgrade
      | messageBegin => cases he
      | messageComplete => cases he
    · intro k p buf d e hd he
      refine ⟨onData_failed he,?_⟩
      have hup : ((settings g).onData k p buf d).2.upgrade = d.upgrade := by
        cases k <;> exact onCurrentReq_upgrade d
      rw [he] at hup
      exact hup.trans hd.upgrade
  have hexec := executeParse_eq (g := g) hc.errno ha
  unfold LetThrough
  unfold parseHttpRequest at h
  rw [hexec] at h ⊢
  generalize c.read g a = L at h hcases
  obtain ⟨q,d,n⟩ := L
  simp only [Nat.zero_add] at h hcases ⊢
  obtain ⟨hfail,hup⟩ | ⟨hread,hrest⟩ := hcases
  · right
    split at h
    · cases h
    next hab =>
      obtain ha | ⟨r,hr,hcode⟩ := hfail
      · exact absurd ha hab
      · unfold parsedRequest at h
        simp only [hr,hup,Bool.false_eq_true,if_false] at h
        rw [if_pos (.inr (Nat.pos_of_ne_zero hcode))] at h
        obtain ⟨hne,hkeep⟩ := setReadError_refuses h
        refine ⟨hne,?_,hkeep⟩
        rintro ⟨-,-,r',hr',hcode'⟩
        cases hr.symm.trans hr'
        exact hcode hcode'
  · rw [if_neg (by simp [hread.aborted])] at h
    unfold parsedRequest at h
    cases hcur : d.currentReq with
    | none =>
      simp only [hcur,hread.upgrade,Bool.false_eq_true,if_false] at h
      obtain ⟨hne,hkeep⟩ := setReadError_refuses h
      refine .inr ⟨hne,?_,hkeep⟩
      rintro ⟨-,-,r,hr,-⟩
      cases hr
    | some r =>
      have hcode := hread.good r hcur
      have hgood : Client.Reading { d with complete := false, upgrade := false, httpParser := q } :=
        ⟨rfl,rfl,hread.aborted,hread.good⟩
      simp only [hcur,hread.upgrade,Bool.false_eq_true,if_false] at h
      by_cases hn : n = a.length
      · rw [if_neg (by simp [hn,hcode])] at h
        simp only [parserFinish,hread.complete,Bool.false_eq_true,if_false,Action.pure_apply,
          Run.ret.injEq,Prod.mk.injEq] at h
        obtain ⟨⟨rfl,rfl⟩,rfl⟩ := h
        obtain ⟨hone,herr⟩ := hrest hn
        refine .inl ⟨rfl,⟨hread.aborted,hn,r,rfl,hcode⟩,rfl,by simp,herr.trans hc.errno,?_,hone⟩
        rw [hcur] at hgood
        exact hgood
      · rw [if_pos (.inl hn)] at h
        obtain ⟨hne,hkeep⟩ := setReadError_refuses h
        exact .inr ⟨hne,fun hlet => hn hlet.2.1,hkeep⟩

/-! ### The server and the client that waits -/

/-- The connection with a client that has sent the head of a request: what the server has not read
of it yet, the body that the client keeps back, and what the server has sent since. -/
structure Meeting where
  line : SocketState
  unread : Bytes
  body : Bytes
  sent : Bytes := []
  deriving DecidableEq, Repr

/-- The server reads the next bytes, waits in vain, or answers the request at the head of the queue;
the client sends the body. -/
inductive MeetingEvent
  | read (n : ℕ) (os : List Outcome)
  | timeout (os : List Outcome)
  | serve (app : AppRun) (os : List Outcome)
  | proceed
  deriving DecidableEq, Repr

def interimResponse : Bytes := ascii "HTTP/1.1 100 Continue\r\n\r\n"

theorem no_interim : ¬interimResponse <+: [] := by decide

/-- The meeting after `read_callback`. -/
def Meeting.after (m : Meeting) : Run (ReadEnd × Client) → Option Meeting
  | .ret r w =>
    (SocketState.afterRead (.ret r w)).map fun l => { m with line := l, sent := m.sent ++ w.sent }
  | .stop _ _ => none

/-- One event of the server or the client. The client sends the body when it has read the interim
response. -/
def meetingStep (g : Globals) (m : Meeting) : MeetingEvent → Option Meeting
  | .read n os =>
    match m.line with
    | .reading c =>
      if 0 < n ∧ n ≤ m.unread.length ∧ n ≤ READ_BUF_SIZE then
        Meeting.after { m with unread := m.unread.drop n }
          (readRequest g c (.data (m.unread.take n)) ⟨os,[],0⟩)
      else none
    | _ => none
  | .timeout os =>
    match m.line with
    | .reading c => m.after (readTimeout c ⟨os,[],0⟩)
    | _ => none
  | .serve app os =>
    match m.line with
    | .serving c =>
      match c.queue with
      | [] => none
      | req :: rest =>
        match serveOne g req app { c with requestQueue := rest } ⟨os,[],0⟩ with
        | .ret (served,c') _ =>
          some { m with line := .afterClose c' rest, sent := m.sent ++ served.bytes }
        | .stop _ _ => none
    | _ => none
  | .proceed =>
    if interimResponse <+: m.sent ∧ m.body ≠ [] then
      some { m with unread := m.unread ++ m.body, body := [] }
    else none

/-- The client waits for the interim response, and the server for more bytes of the request. -/
def Deadlocked (m : Meeting) : Prop :=
  m.body ≠ [] ∧ ¬interimResponse <+: m.sent ∧ m.unread = [] ∧
    ∃ c, m.line = .reading c ∧ c.currentReq.isSome

/-- The read that would take the last of the head finds an error. -/
def Refuses (g : Globals) (m : Meeting) : MeetingEvent → Prop
  | .read n _ => ∀ c, m.line = .reading c → m.unread.length ≤ n → ¬LetThrough g c m.unread
  | _ => True

/-- What holds of a meeting: while the server reads it has sent nothing, and after an error the
connection is not kept. -/
def Meeting.Sound (m : Meeting) : Prop :=
  match m.line with
  | .reading c => c.Lacks (m.unread ++ m.body) ∧ m.body ≠ [] ∧ m.sent = [] ∧
      (m.unread = [] → c.currentReq.isSome)
  | .serving c => c.keepAlive = false
  | .shut => True

theorem Meeting.after_eq_some {m m' : Meeting} {r : Run (ReadEnd × Client)} (h : m.after r = some m') :
    ∃ e c w, r = .ret (e,c) w ∧ m'.body = m.body ∧ m'.unread = m.unread ∧
      m'.sent = m.sent ++ w.sent ∧ SocketState.afterRead (.ret (e,c) w) = some m'.line := by
  cases r with
  | stop s w => cases h
  | ret r w =>
    obtain ⟨l,hl,rfl⟩ := Option.map_eq_some_iff.mp h
    exact ⟨r.1,r.2,w,rfl,rfl,rfl,rfl,hl⟩

theorem refused_line {e : ReadEnd} {c : Client} {w : World} {l : SocketState} (he : e ≠ .pending)
    (hkeep : e = .finish → c.keepAlive = false)
    (h : SocketState.afterRead (.ret (e,c) w) = some l) :
    l = .shut ∨ ∃ c', l = .serving c' ∧ c'.keepAlive = false := by
  cases e with
  | pending => exact absurd rfl he
  | finish =>
    obtain rfl := Option.some.inj h
    exact .inr ⟨c,rfl,hkeep rfl⟩
  | closed =>
    obtain rfl := Option.some.inj h
    exact .inl rfl

theorem Meeting.Sound.of_line {m : Meeting}
    (h : m.line = .shut ∨ ∃ c, m.line = .serving c ∧ c.keepAlive = false) :
    m.Sound ∧ ¬Deadlocked m := by
  unfold Meeting.Sound
  rcases h with h | ⟨c,h,hk⟩
  · simp only [h,true_and]
    rintro ⟨-,-,-,c,hc,-⟩
    rw [h] at hc
    cases hc
  · simp only [h,hk,true_and]
    rintro ⟨-,-,-,c,hc,-⟩
    rw [h] at hc
    cases hc

theorem serveOne_keepAlive {g : Globals} {req : Request} {app : AppRun} {c c' : Client} {s : Served}
    {w w' : World} (hc : c.keepAlive = false) (h : serveOne g req app c w = .ret (s,c') w') :
    c'.keepAlive = false := by
  rcases serveOne_cases h with ⟨-,hkeep,-⟩ | ⟨-,-,hkeep,-⟩
  · exact hkeep hc
  · exact hkeep hc

/-- One event of a meeting. -/
theorem meeting_step {g : Globals} {m m' : Meeting} {e : MeetingEvent} (hm : m.Sound)
    (h : meetingStep g m e = some m') : m'.Sound ∧ (¬Deadlocked m → (¬Deadlocked m' ↔ Refuses g m e)) := by
  obtain ⟨line,unread,body,sent⟩ := m
  cases e with
  | read n os =>
    cases line with
    | serving c => cases h
    | shut => cases h
    | reading c =>
      obtain ⟨hlacks,hbody,rfl,hcur⟩ := hm
      simp only [meetingStep] at h
      split at h
      next hn =>
        obtain ⟨hpos,hle,-⟩ := hn
        obtain ⟨e,c',w,hread,hb,hu,hs,hl⟩ := Meeting.after_eq_some h
        obtain ⟨line',unread',body',sent'⟩ := m'
        simp only [List.nil_append] at hb hu hs hl
        subst hb hu hs
        have htake : unread.take n ≠ [] := by
          rw [Ne,List.take_eq_nil_iff]
          rintro (rfl | rfl)
          · exact absurd hpos (lt_irrefl 0)
          · exact absurd hle (not_le.mpr hpos)
        have hrest : unread.drop n ++ body' ≠ [] := by simp [hbody]
        have hwhole : c.Lacks (unread.take n ++ (unread.drop n ++ body')) := by
          rwa [← List.append_assoc,List.take_append_drop]
        rcases hwhole.read htake hrest hread with ⟨rfl,hlet,rfl,hcur',hlacks'⟩ | ⟨he,hno,hkeep⟩
        · obtain rfl := Option.some.inj hl
          refine ⟨⟨hlacks',hbody,rfl,fun _ => hcur'⟩,fun _ => ?_⟩
          by_cases hfull : unread.length ≤ n
          · rw [List.take_of_length_le hfull] at hlet
            refine iff_of_false (not_not.mpr ?_) fun href => href c rfl hfull hlet
            exact ⟨hbody,no_interim,List.drop_of_length_le hfull,c',rfl,hcur'⟩
          · refine iff_of_true ?_ fun _ _ hle' => absurd hle' hfull
            rintro ⟨-,-,hnil,-⟩
            exact hfull (List.drop_eq_nil_iff.mp hnil)
        · obtain ⟨hsound,hfree⟩ :=
            Meeting.Sound.of_line (m := ⟨line',_,body',_⟩) (refused_line he hkeep hl)
          refine ⟨hsound,fun _ => iff_of_true hfree ?_⟩
          intro c0 hc0 hfull
          obtain rfl : c = c0 := SocketState.reading.inj hc0
          rwa [List.take_of_length_le hfull] at hno
      next => cases h
  | timeout os =>
    cases line with
    | serving c => cases h
    | shut => cases h
    | reading c =>
      obtain ⟨e,c',w,hread,-,-,-,hl⟩ := Meeting.after_eq_some h
      obtain ⟨he,hkeep⟩ := setReadError_refuses hread
      obtain ⟨hsound,hfree⟩ := Meeting.Sound.of_line (refused_line he hkeep hl)
      exact ⟨hsound,fun _ => iff_of_true hfree trivial⟩
  | serve app os =>
    cases line with
    | reading c => cases h
    | shut => cases h
    | serving c =>
      simp only [meetingStep] at h
      split at h
      · cases h
      next req rest hq =>
        split at h
        next served c' w' hone =>
          obtain rfl := Option.some.inj h
          have hkeep := serveOne_keepAlive (c := { c with requestQueue := rest }) hm hone
          have hl : SocketState.afterClose c' rest = .shut ∨
              ∃ c, SocketState.afterClose c' rest = .serving c ∧ c.keepAlive = false := by
            by_cases hrest : rest = []
            · exact .inl (SocketState.afterClose_eq_shut.mpr ⟨hrest,hkeep⟩)
            · exact .inr ⟨c',if_pos hrest,hkeep⟩
          obtain ⟨hsound,hfree⟩ := Meeting.Sound.of_line (m := ⟨_,_,_,_⟩) hl
          exact ⟨hsound,fun _ => iff_of_true hfree trivial⟩
        next => cases h
  | proceed =>
    simp only [meetingStep] at h
    split at h
    next hgo =>
      obtain rfl := Option.some.inj h
      cases line with
      | reading c =>
        obtain ⟨-,-,rfl,-⟩ := hm
        exact absurd hgo.1 no_interim
      | serving c =>
        obtain ⟨hsound,hfree⟩ := Meeting.Sound.of_line (m := ⟨_,_,_,_⟩) (.inr ⟨c,rfl,hm⟩)
        exact ⟨hsound,fun _ => iff_of_true hfree trivial⟩
      | shut =>
        obtain ⟨hsound,hfree⟩ := Meeting.Sound.of_line (m := ⟨_,_,_,_⟩) (.inl rfl)
        exact ⟨hsound,fun _ => iff_of_true hfree trivial⟩
    next => cases h

/-! ### Any requests served before -/

/-- Where the server waits for a new request, its client is as good as new. -/
def Socket.Fresh (s : Socket) : Prop :=
  ∀ c, s.line = .reading c → c.currentReq = none → ∃ port k, c = idleClient port k

theorem parseHttpRequest_pending {g : Globals} {c c' : Client} {buf : Bytes} {w w' : World}
    (h : parseHttpRequest g c buf w = .ret (.pending,c') w') : c'.currentReq.isSome := by
  have herr : ∀ d code, setReadError d code w ≠ .ret (.pending,c') w' := fun d code he =>
    (setReadError_refuses he).1 rfl
  unfold parseHttpRequest at h
  split at h
  · cases h
  · unfold parsedRequest at h
    cases hcur : (executeParse g c buf).1.currentReq with
    | none =>
      simp only [hcur] at h
      split at h
      · cases h
      · exact absurd h (herr _ _)
    | some r =>
      have hfin : parserFinish (executeParse g c buf).1 w = .ret (.pending,c') w' →
          c'.currentReq.isSome := by
        intro hf
        simp only [parserFinish,Action.pure_apply,Run.ret.injEq,Prod.mk.injEq] at hf
        obtain ⟨⟨-,rfl⟩,-⟩ := hf
        simp [hcur]
      simp only [hcur] at h
      split at h
      · split at h
        · exact hfin h
        · exact absurd h (herr _ _)
      · split at h
        · exact absurd h (herr _ _)
        · exact hfin h

theorem fresh_step {g : Globals} {s s' : Socket} {e : SocketEvent} (hs : s.Fresh)
    (h : socketStep g s e = some s') : s'.Fresh := by
  obtain ⟨line,taken⟩ := s
  have hafter : ∀ {r : Run (ReadEnd × Client)}, (∀ c w, r = .ret (.pending,c) w →
      c.currentReq = none → ∃ port k, c = idleClient port k) → (SocketState.afterRead r).map
        (fun l => ({ line := l, taken := taken } : Socket)) = some s' → s'.Fresh := by
    intro r hr hs' c hc hnone
    obtain ⟨l,hl,rfl⟩ := Option.map_eq_some_iff.mp hs'
    simp only at hc
    subst hc
    unfold SocketState.afterRead at hl
    split at hl
    next c0 w0 =>
      cases hl
      exact hr c w0 rfl hnone
    all_goals cases hl
  cases line with
  | shut => cases e <;> cases h
  | reading c =>
    cases e with
    | serve app os => cases h
    | timeout os =>
      refine hafter (fun c' w' hr => ?_) h
      exact absurd rfl (setReadError_refuses hr).1
    | read r os =>
      refine hafter (fun c' w' hr hnone => ?_) h
      cases r with
      | data buf =>
        have hsome := parseHttpRequest_pending hr
        rw [hnone] at hsome
        cases hsome
      | eagain =>
        obtain ⟨hp,-⟩ := Run.ret.inj hr
        obtain rfl := (Prod.mk.inj hp).2
        exact hs _ rfl hnone
      | eof => exact absurd rfl (setReadError_refuses hr).1
      | error reset => exact absurd rfl (setReadError_refuses hr).1
  | serving c =>
    cases e with
    | read r os => cases h
    | timeout os => cases h
    | serve app os =>
      simp only [socketStep] at h
      split at h
      · cases h
      next req rest hq =>
        split at h
        next served c' w' hone =>
          obtain rfl := Option.some.inj h
          intro c1 hc1 _
          simp only [SocketState.afterClose] at hc1
          split at hc1
          · cases hc1
          · split at hc1
            · exact ⟨c'.remotePort,true,(SocketState.reading.inj hc1).symm⟩
            · cases hc1
        next => cases h

/-- After whatever was served before, a client that sends the head of a request and keeps its body
back never waits in vain exactly when no read takes the last byte of a head in which the server
finds no error. -/
theorem not_deadlocked_iff {g : Globals} {port : ℕ} {before : List SocketEvent} {c : Client}
    {taken : Bool} (hbefore : Transition.run (socketStep g)
      ⟨.reading (idleClient port false),false⟩ before = some ⟨.reading c,taken⟩)
    (hwaits : c.currentReq = none) {head body : Bytes} (hhead : head ≠ []) (hbody : body ≠ [])
    (hone : oneMessage {} (head ++ body)) (es : List MeetingEvent) :
    Transition.Always (meetingStep g) (fun m => ¬Deadlocked m) ⟨.reading c,head,body,[]⟩ es ↔
      Transition.Meets (meetingStep g) (Refuses g) ⟨.reading c,head,body,[]⟩ es := by
  have hfresh : Socket.Fresh ⟨.reading c,taken⟩ := by
    refine Transition.invariant_run (C := fun _ _ => True)
      (fun s e s' hs _ h => fresh_step hs h) ?_ (Transition.Meets.of_forall fun _ _ _ => trivial)
      hbefore
    intro c0 hc0 _
    exact ⟨port,false,(SocketState.reading.inj hc0).symm⟩
  obtain ⟨port',k,rfl⟩ := hfresh c rfl hwaits
  have hwait := idleClient_betweenReads port' k
  refine Transition.always_iff_meets (fun m e m' hm h => (meeting_step hm h).1)
    (fun m e m' hm hfree h => (meeting_step hm h).2 hfree) ?_ ?_ es
  · exact ⟨⟨hwait.errno,hwait.reading,hone⟩,hbody,rfl,fun hnil => absurd hnil hhead⟩
  · rintro ⟨-,-,hnil,-⟩
    exact hhead hnil

/-- The head of a request that asks for the interim response. -/
def expectingHead : Bytes :=
  ascii "POST / HTTP/1.1\nExpect:100-continue\nContent-Length:1\n\n"

/-- The client of `expectingHead`, which keeps one byte back. -/
def expectingMeeting : Meeting := ⟨.reading (idleClient 80 false),expectingHead,[120],[]⟩

set_option maxRecDepth 100000 in
theorem expecting_read : ∃ c, meetingStep {} expectingMeeting (.read 54 []) =
    some ⟨.reading c,[],[120],[]⟩ ∧ c.currentReq.isSome :=
  ⟨(executeParse {} (idleClient 80 false) expectingHead).1,rfl,rfl⟩

theorem not_refuses_expecting :
    ¬Transition.Meets (meetingStep {}) (Refuses {}) expectingMeeting [.read 54 []] := by
  intro h
  have hbefore : Transition.run (socketStep {}) ⟨.reading (idleClient 80 false),false⟩ [] =
      some ⟨.reading (idleClient 80 false),false⟩ := rfl
  have hall := (not_deadlocked_iff hbefore rfl (by decide) (by decide) (by decide) [.read 54 []]).mpr h
  obtain ⟨c,hc,hcur⟩ := expecting_read
  exact hall.2 _ hc ⟨by simp,no_interim,rfl,c,rfl,hcur⟩

/-- The server has read the head and sent nothing, and the client waits. -/
theorem deadlocked_expecting :
    ∃ m, Transition.run (meetingStep {}) expectingMeeting [.read 54 []] = some m ∧ Deadlocked m := by
  obtain ⟨c,hc,hcur⟩ := expecting_read
  exact ⟨_,Transition.run_cons_eq_some.mpr ⟨_,hc,rfl⟩,by simp,no_interim,rfl,c,rfl,hcur⟩

end Meinheld
