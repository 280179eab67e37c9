import Meinheld.RequestPieces

/-! A request whose bytes come in several reads. -/
namespace Meinheld

/-! ### Successive reads -/

/-- The buffer of `read_request`. -/
def READ_BUF_SIZE : ℕ := 1024 * 64

/-- The client of a connection that waits for a request, new or kept alive. -/
def idleClient (port : ℕ) (keepAlive : Bool) : Client :=
  { newClientT port with keepAlive := keepAlive }

def Body.content : Body → Option Bytes
  | .none => Option.none
  | .tmpfile content => content
  | .buffer b => some b.buf

/-- `data` is one complete request, which a single read by `c` accepts and makes `c'` of. -/
structure SingleRead (g : Globals) (w : World) (c : Client) (data : Bytes) (c' : Client) : Prop where
  size : data.length ≤ READ_BUF_SIZE
  complete : oneMessage c.httpParser data
  read : parseHttpRequest g c data w = .ret (.finish,c') w
  accepted : ∃ r, c'.currentReq = some r ∧ r.badRequestCode = 0

/-- Two clients that have read the same request. -/
structure SameRequest (c c' : Client) : Prop where
  keepAlive : c'.keepAlive = c.keepAlive
  queue : c'.requestQueue.length = c.requestQueue.length
  request : ∃ r r', c.currentReq = some r ∧ c'.currentReq = some r' ∧ r'.environ = r.environ ∧
    r'.method = r.method ∧ r'.body.content = r.body.content ∧ r'.badRequestCode = r.badRequestCode

/-- Successive reads of pieces: each but the last leaves the request pending with nothing sent, and
the last completes what `single` has. -/
def ReadInPieces (g : Globals) (w : World) (single : Client) : Client → List Bytes → Prop
  | _, [] => False
  | c, [buf] => ∃ c', parseHttpRequest g c buf w = .ret (.finish,c') w ∧ SameRequest single c'
  | c, buf :: rest =>
    ∃ c', parseHttpRequest g c buf w = .ret (.pending,c') w ∧ ReadInPieces g w single c' rest

/-- A client in the middle of a request. -/
structure Client.Reading (c : Client) : Prop where
  complete : c.complete = false
  upgrade : c.upgrade = false
  aborted : c.aborted = false
  good : ∀ r, c.currentReq = some r → r.badRequestCode = 0

/-- A client whose callback has failed. -/
def Client.Failed (c : Client) : Prop :=
  c.aborted = true ∨ ∃ r, c.currentReq = some r ∧ r.badRequestCode ≠ 0

def Coded (f : Request → Option (Bool × Request)) : Prop :=
  ∀ r s, (f r = some (true,s) → s.badRequestCode = r.badRequestCode) ∧
    (f r = some (false,s) → s.badRequestCode ≠ 0)

theorem addHeader_code {r s : Request} (h : addHeader r = some s) :
    s.badRequestCode = r.badRequestCode := by
  unfold addHeader at h
  split at h
  · cases h
    rfl
  · cases h

theorem storeField_coded (buf : Bytes) : Coded fun r => some (storeField r buf) := by
  intro r s
  constructor
  · intro h
    obtain ⟨-,-,rfl⟩ := storeField_true.mp (Option.some.inj h)
    rfl
  · intro h
    replace h := Option.some.inj h
    unfold storeField Request.bad at h
    repeat' split at h
    all_goals cases h
    all_goals simp

theorem headerFieldCb_coded (buf : Bytes) : Coded (headerFieldCb buf) := by
  intro r s
  unfold headerFieldCb Request.bad
  split
  · split
    · constructor <;> intro h <;> cases h
      simp
    · cases hr : addHeader r with
      | none => simp
      | some r' =>
        have hc := storeField_coded buf r' s
        rw [addHeader_code hr] at hc
        simpa using hc
  · exact storeField_coded buf r s

theorem headerValueCb_coded (buf : Bytes) : Coded (headerValueCb buf) := by
  intro r s
  unfold headerValueCb Request.bad
  simp only
  split <;> constructor <;> intro h <;> cases h <;> simp

theorem urlCb_coded (buf : Bytes) : Coded (urlCb buf) := by
  intro r s
  unfold urlCb Request.bad
  simp only
  split <;> constructor <;> intro h <;> cases h <;> simp

theorem bodyCb_coded (g : Globals) (p : HttpParser) (buf : Bytes) : Coded (bodyCb g p buf) := by
  intro r s
  constructor
  · intro h
    rw [(writeBody_some (bodyCb_true.mp h).2.2).2]
  · intro h
    unfold bodyCb Request.bad at h
    repeat' split at h
    · cases h
      simp
    · cases h
      simp
    all_goals
      obtain ⟨x,-,hx⟩ := Option.map_eq_some_iff.mp h
      cases hx

theorem headersComplete_coded (g : Globals) (p : HttpParser) :
    Coded fun r => some (headersComplete g p r) := by
  intro r s
  unfold headersComplete Request.bad
  simp only
  split
  · constructor <;> intro h <;> cases h
    simp
  · constructor <;> intro h <;> cases h
    unfold lastHeader
    cases hr : addHeader { r with environ := requestLineEnv g p r, path := none } with
    | none => rfl
    | some r' =>
      have hc := addHeader_code hr
      exact hc

theorem Coded.reading {f : Request → Option (Bool × Request)} (hf : Coded f) {c e : Client}
    (hc : c.Reading) (h : onCurrentReq c f = (true,e)) : e.Reading := by
  obtain ⟨r,s,hr,hs,rfl⟩ := onCurrentReq_true.mp h
  refine ⟨hc.complete,hc.upgrade,hc.aborted,fun r' hr' => ?_⟩
  cases hr'
  rw [(hf r s).1 hs]
  exact hc.good r hr

theorem Coded.failed {f : Request → Option (Bool × Request)} (hf : Coded f) {c e : Client}
    (h : onCurrentReq c f = (false,e)) : e.Failed := by
  unfold onCurrentReq Client.abort at h
  split at h
  next x hx =>
    obtain ⟨ok,s⟩ := x
    obtain ⟨r,-,hr⟩ := Option.bind_eq_some_iff.mp hx
    cases h
    exact .inr ⟨s,rfl,(hf r s).2 hr⟩
  · cases h
    exact .inl rfl

/-- What every callback does when it succeeds and when it fails. -/
theorem onNotify_reading {g : Globals} {n : Notify} {p : HttpParser} {c e : Client}
    (hn : n ≠ .messageComplete) (hc : c.Reading) (h : (settings g).onNotify n p c = (true,e)) :
    e.Reading := by
  cases n with
  | messageBegin =>
    cases h
    exact ⟨rfl,hc.upgrade,hc.aborted,fun r hr => by cases hr; rfl⟩
  | headersComplete =>
    exact (headersComplete_coded g p).reading (c := { c with keepAlive := httpShouldKeepAlive p })
      ⟨hc.complete,hc.upgrade,hc.aborted,hc.good⟩ h
  | messageComplete => exact absurd rfl hn

theorem onNotify_failed {g : Globals} {n : Notify} {p : HttpParser} {c e : Client}
    (h : (settings g).onNotify n p c = (false,e)) : e.Failed := by
  cases n with
  | messageBegin => cases h
  | headersComplete =>
    exact (headersComplete_coded g p).failed (c := { c with keepAlive := httpShouldKeepAlive p }) h
  | messageComplete => cases h

theorem onData_reading {g : Globals} {k : Mark} {p : HttpParser} {buf : Bytes} {c e : Client}
    (hc : c.Reading) (h : (settings g).onData k p buf c = (true,e)) : e.Reading := by
  cases k with
  | headerField => exact (headerFieldCb_coded buf).reading hc h
  | headerValue => exact (headerValueCb_coded buf).reading hc h
  | url => exact (urlCb_coded buf).reading hc h
  | body => exact (bodyCb_coded g p buf).reading hc h

theorem onData_failed {g : Globals} {k : Mark} {p : HttpParser} {buf : Bytes} {c e : Client}
    (h : (settings g).onData k p buf c = (false,e)) : e.Failed := by
  cases k with
  | headerField => exact (headerFieldCb_coded buf).failed h
  | headerValue => exact (headerValueCb_coded buf).failed h
  | url => exact (urlCb_coded buf).failed h
  | body => exact (bodyCb_coded g p buf).failed h

theorem onNotify_current {g : Globals} (n : Notify) (p : HttpParser) (c : Client)
    (hc : c.currentReq.isSome) : ((settings g).onNotify n p c).2.currentReq.isSome := by
  cases n with
  | messageBegin => rfl
  | headersComplete =>
    obtain ⟨r,hr⟩ := Option.isSome_iff_exists.mp hc
    simp [settings,headersCompleteCb,onCurrentReq,hr]
  | messageComplete => exact hc

theorem onCurrentReq_current {c : Client} {f : Request → Option (Bool × Request)}
    (hc : c.currentReq.isSome) : (onCurrentReq c f).2.currentReq.isSome := by
  unfold onCurrentReq
  split
  · rfl
  · exact hc

theorem onCurrentReq_upgrade {f : Request → Option (Bool × Request)} (c : Client) :
    (onCurrentReq c f).2.upgrade = c.upgrade := by
  unfold onCurrentReq Client.abort
  split <;> rfl

theorem onData_current {g : Globals} (k : Mark) (p : HttpParser) (buf : Bytes) (c : Client)
    (hc : c.currentReq.isSome) : ((settings g).onData k p buf c).2.currentReq.isSome := by
  cases k <;> exact onCurrentReq_current hc

/-! ### The first piece -/

/-- Line ends before a request change nothing but the count of header bytes. -/
theorem step_lineEnd {p : HttpParser} {ch : Byte} (hp : p.state = .sStartReq)
    (h : ch = CR ∨ ch = LF) : step p ch = .next [] { p with nread := p.nread + 1 } ∨
      step p ch = .error { p with nread := p.nread + 1, httpErrno := .HEADER_OVERFLOW } := by
  unfold step
  rw [if_pos (by rw [hp]; rfl)]
  simp only
  split
  · exact .inr rfl
  · left
    simp only [stepState,hp,stepStartReq]
    rw [if_pos h]

theorem executeLoop_lineEnds {σ : Type} {cb : Settings σ} {a : Bytes} {p : HttpParser} {d : σ}
    {pos : ℕ} (hp : p.state = .sStartReq) (ha : ∀ b ∈ a, b = CR ∨ b = LF) :
    (executeLoop cb p ⟨d,none⟩ pos a).2.1 = d := by
  induction a generalizing p pos with
  | nil => rfl
  | cons ch rest ih =>
    obtain ⟨hch,hrest⟩ := List.forall_mem_cons.mp ha
    obtain h | h := step_lineEnd hp hch
    · simp only [executeLoop,h]
      exact ih hp hrest
    · simp only [executeLoop,h]

def Step.Begins : Step → Prop
  | .next acts q => acts = [callbackNotify .messageBegin q]
  | .error _ => True
  | _ => False

theorem Step.Begins.ite {c : Prop} [Decidable c] {a b : Step} (ha : a.Begins) (hb : b.Begins) :
    (if c then a else b).Begins := by
  split <;> assumption

/-- The first other byte begins a message. -/
theorem step_begins {p : HttpParser} {ch : Byte} (hp : p.state = .sStartReq)
    (hch : ¬(ch = CR ∨ ch = LF)) : (step p ch).Begins := by
  unfold step
  rw [if_pos (by rw [hp]; rfl)]
  refine .ite trivial ?_
  simp only [stepState,hp,stepStartReq]
  rw [if_neg hch]
  iterate 13 refine .ite rfl ?_
  trivial

theorem executeLoop_begins {g : Globals} {a : Bytes} {p : HttpParser} {c : Client} (pos : ℕ)
    {r : HttpParser × Marked Client} (hp : p.state = .sStartReq)
    (ha : ∃ b ∈ a, ¬(b = CR ∨ b = LF)) (h : feed (settings g) p ⟨c,none⟩ a = some r) :
    (executeLoop (settings g) p ⟨c,none⟩ pos a).2.1.currentReq.isSome := by
  induction a generalizing p pos with
  | nil => simp at ha
  | cons ch rest ih =>
    by_cases hch : ch = CR ∨ ch = LF
    · obtain ⟨b,hb,hb'⟩ := ha
      have hrest : b ∈ rest := (List.mem_cons.mp hb).resolve_left fun he => hb' (he ▸ hch)
      obtain hs | hs := step_lineEnd hp hch
      · simp only [executeLoop,feed,hs] at h ⊢
        exact ih (pos + 1) hp ⟨b,hrest,hb'⟩ h
      · simp [feed,hs] at h
    · have hb := step_begins hp hch
      simp only [executeLoop]
      cases hs : step p ch with
      | next acts q =>
        rw [hs] at hb
        cases hb
        exact executeLoop_invariant (I := fun c : Client => (c.currentReq.isSome : Prop))
          onNotify_current onData_current _ _ _ _ rfl
      | error q => simp [feed,hs] at h
      | stop acts q => simp [hs,Step.Begins] at hb
      | bail q => simp [hs,Step.Begins] at hb

/-! ### One read -/

/-- How a read error ends: with the code on the tail of the queue, or with the connection
closed. -/
theorem setReadError_cases {c c' : Client} {code : ℕ} {w w' : World} {e : ReadEnd}
    (h : setReadError c code w = .ret (e,c') w') :
    (e = .finish ∧ c.queue ≠ [] ∧
      ∀ r, c'.currentReq = some r → r.badRequestCode ≠ 0) ∨ e = .closed := by
  unfold setReadError at h
  simp only at h
  split at h
  next hq =>
    simp only [Action.pure_apply,Run.ret.injEq,Prod.mk.injEq] at h
    obtain ⟨⟨rfl,rfl⟩,-⟩ := h
    refine .inl ⟨rfl,hq,fun r hr => ?_⟩
    obtain ⟨r0,-,rfl⟩ := Option.map_eq_some_iff.mp hr
    simp only
    split <;> omega
  · split at h
    all_goals
      obtain ⟨c1,w1,-,h⟩ := Action.bind_eq_ret.mp h
      obtain ⟨c2,w2,-,h⟩ := Action.bind_eq_ret.mp h
      simp only [Action.pure_apply,Run.ret.injEq,Prod.mk.injEq] at h
      exact .inr h.1.1.symm

theorem setReadError_refuses {c c' : Client} {code : ℕ} {w w' : World} {e : ReadEnd}
    (h : setReadError c code w = .ret (e,c') w') :
    e ≠ .pending ∧ (e = .finish → c'.keepAlive = false) := by
  unfold setReadError at h
  simp only at h
  split at h
  · simp only [Action.pure_apply,Run.ret.injEq,Prod.mk.injEq] at h
    obtain ⟨⟨rfl,rfl⟩,-⟩ := h
    exact ⟨nofun,fun _ => rfl⟩
  · split at h
    all_goals
      obtain ⟨c1,w1,-,h⟩ := Action.bind_eq_ret.mp h
      obtain ⟨c2,w2,-,h⟩ := Action.bind_eq_ret.mp h
      simp only [Action.pure_apply,Run.ret.injEq,Prod.mk.injEq] at h
      obtain ⟨⟨rfl,-⟩,-⟩ := h
      exact ⟨nofun,nofun⟩

/-- What makes a read end with a request, or leave one pending. -/
theorem parsedRequest_eq {n : ℕ} {c : Client} {nread : ℤ} {w : World} {r : Request}
    (hr : c.currentReq = some r) (hcode : r.badRequestCode = 0)
    (hn : if c.upgrade then parseNewProtocol r.environ = true else nread = n) :
    parsedRequest n c nread w = .ret (if c.complete then .finish else .pending,c) w := by
  unfold parsedRequest
  simp only [hr]
  split at hn
  next hu => rw [if_pos hu,if_pos hn]; rfl
  next hu =>
    rw [if_neg hu,if_neg (by simp [hn,hcode])]
    rfl

/-- A read that is accepted, told by its result. -/
theorem parsedRequest_accepted {n : ℕ} {c c' : Client} {nread : ℤ} {w w' : World} {r : Request}
    (h : parsedRequest n c nread w = .ret (.finish,c') w') (hr : c'.currentReq = some r)
    (hcode : r.badRequestCode = 0) : c' = c ∧ c.complete = true ∧
      (if c.upgrade then parseNewProtocol r.environ = true else nread = n) := by
  have herr : ∀ code, setReadError c code w ≠ .ret (.finish,c') w' := by
    intro code he
    obtain ⟨-,-,hne⟩ | hcl := setReadError_cases he
    · exact hne r hr hcode
    · cases hcl
  have hfin : parserFinish c w = .ret (.finish,c') w' → c' = c ∧ c.complete = true := by
    intro hf
    simp only [parserFinish,Action.pure_apply,Run.ret.injEq,Prod.mk.injEq] at hf
    obtain ⟨⟨hc,rfl⟩,-⟩ := hf
    refine ⟨rfl,?_⟩
    by_contra hne
    rw [if_neg hne] at hc
    cases hc
  unfold parsedRequest at h
  cases hreq : c.currentReq with
  | none =>
    simp only [hreq] at h
    split at h
    · cases h
    · exact absurd h (herr _)
  | some req =>
    simp only [hreq] at h
    split at h
    next hu =>
      split at h
      next hp =>
        obtain ⟨rfl,hc⟩ := hfin h
        rw [hreq] at hr
        cases hr
        exact ⟨rfl,hc,by rw [if_pos hu]; exact hp⟩
      · exact absurd h (herr _)
    next hu =>
      split at h
      · exact absurd h (herr _)
      next hn =>
        obtain ⟨rfl,hc⟩ := hfin h
        refine ⟨rfl,hc,?_⟩
        rw [if_neg hu]
        exact not_not.mp fun hne => hn (.inl hne)

theorem parseHttpRequest_of_feed {g : Globals} {c e : Client} {buf : Bytes} {q p : HttpParser}
    {m : Marked Client} {r : Request} {w : World} (hp : c.httpParser.httpErrno = .OK)
    (hbuf : buf ≠ []) (h : feed (settings g) c.httpParser
      ⟨{ c with complete := false },entryMark c.httpParser.state⟩ buf = some (q,m))
    (hf : flushMark (settings g) q m = (p,e)) (ha : e.aborted = false)
    (hr : e.currentReq = some r) (hcode : r.badRequestCode = 0)
    (hup : e.upgrade = true → parseNewProtocol r.environ = true) :
    parseHttpRequest g c buf w =
      .ret (if e.complete then .finish else .pending,{ e with httpParser := p }) w := by
  have hexec : executeParse g c buf = ({ e with httpParser := p },(buf.length : ℤ)) := by
    unfold executeParse
    rw [httpParserExecute_of_feed hp hbuf h,hf]
  unfold parseHttpRequest
  rw [hexec]
  simp only
  rw [if_neg (by simp [ha])]
  refine parsedRequest_eq (c := { e with httpParser := p }) hr hcode ?_
  cases hu : e.upgrade with
  | true => exact hup hu
  | false => rfl

/-- The client that `execute_parse` hands to the parser. -/
def Client.entering (c : Client) : Client := { c with complete := false }

/-- A request that has been read with one message. -/
structure Client.HasRequest (c : Client) : Prop where
  complete : c.complete = true
  aborted : c.aborted = false
  request : ∃ r, c.currentReq = some r ∧ r.badRequestCode = 0 ∧ r.bodyReaded ≤ LIMIT_MAX ∧
    (c.upgrade = true → parseNewProtocol r.environ = true)

theorem BodyAlike.content {n : ℕ} {x y : Body} (h : BodyAlike n x y) (hn : n ≤ LIMIT_MAX) :
    y.content = x.content := by
  cases h with
  | none => rfl
  | tmpfile => rfl
  | buffer hbb => exact congrArg some (hbb hn).2.1

theorem Client.HasRequest.same {c c' : Client} (hc : c.HasRequest) (h : c.Alike c') :
    SameRequest c c' ∧ c'.HasRequest := by
  obtain ⟨hcomp,hab,r,hr,hcode,hn,hup⟩ := hc
  have hrest := h.rest
  have hcur := h.current
  rw [hr] at hcur
  generalize hx : c'.currentReq = x at hcur
  cases hcur with
  | @some _ r' halike =>
    have hrr := halike.rest
    have henv : r'.environ = r.environ := by rw [hrr]
    have hcode' : r'.badRequestCode = r.badRequestCode := by rw [hrr]
    refine ⟨⟨by rw [hrest],h.queue,r,r',hr,hx,henv,by rw [hrr],halike.body.content hn,hcode'⟩,
      by rw [hrest]; exact hcomp,by rw [hrest]; exact hab,r',hx,hcode'.trans hcode,?_,?_⟩
    · rw [hrr]
      exact hn
    · rw [hrest,henv]
      exact hup

theorem Client.Reading.flush {g : Globals} {p : HttpParser} {d e : Client}
    (hd : d.Reading) (h : e = d ∨ ∃ k buf, (settings g).onData k p buf d = (true,e)) :
    e.Reading := by
  obtain rfl | ⟨k,buf,h⟩ := h
  · exact hd
  · exact onData_reading hd h

/-- A client between two reads of one request. -/
structure Client.BetweenReads (c : Client) : Prop where
  errno : c.httpParser.httpErrno = .OK
  reading : c.entering.Reading
  alike : c.entering.Alike c.entering

/-- One read after another, when a single read of all the bytes goes through. -/
theorem readInPieces_of_feed {g : Globals} {w : World} {single : Client}
    (hs : single.HasRequest) {pieces : List Bytes} {c : Client} {q : HttpParser} {m : Marked Client}
    (hne : ∀ x ∈ pieces, x ≠ []) (hpieces : pieces ≠ []) (hc : c.BetweenReads)
    (hone : oneMessage c.httpParser pieces.flatten)
    (hfirst : c.currentReq.isSome ∨ c.httpParser.state = .sStartReq ∧
      ∃ b ∈ pieces.headD [], ¬(b = CR ∨ b = LF))
    (h : feed (settings g) c.httpParser ⟨c.entering,entryMark c.httpParser.state⟩ pieces.flatten =
      some (q,m)) (hm : m.mark = none) (hR : single.Alike m.data) :
    ReadInPieces g w single c pieces := by
  induction pieces generalizing c m with
  | nil => exact absurd rfl hpieces
  | cons a rest ih =>
    have ha : a ≠ [] := hne a (by simp)
    cases rest with
    | nil =>
      simp only [List.flatten_cons,List.flatten_nil,List.append_nil] at h
      obtain ⟨hsame,hreq⟩ := hs.same hR
      obtain ⟨hcomp,hab,r,hr,hcode,-,hup⟩ := hreq
      have hf : flushMark (settings g) q m = (q,m.data) := by simp [flushMark,hm]
      refine ⟨{ m.data with httpParser := q },?_,hsame.1,hsame.2,hsame.3⟩
      rw [parseHttpRequest_of_feed hc.errno ha h hf hab hr hcode hup,if_pos hcomp]
    | cons b rest =>
      have hb : (b :: rest).flatten ≠ [] := by
        simp [hne b (by simp)]
      have hfit := entryMark_fits c.entering c.httpParser.state
      rw [List.flatten_cons] at h hone
      obtain ⟨p1,m2,e,m3,h1,herr,hf,hcall,hee,h3,hm3,hR3⟩ :=
        (settings_additive g).feed_cut hfit hc.alike h hb hm
      obtain ⟨hread,hone'⟩ := feed_keeps (fun n p d e => onNotify_reading)
        (fun k p buf d e => onData_reading) hb hone hc.reading h1
      have he : e.Reading := hread.flush hcall
      have hcur : e.currentReq.isSome := by
        have hexec := executeLoop_of_feed 0 hfit h1
        rw [hf] at hexec
        obtain hcur | ⟨hstate,hfirst⟩ := hfirst
        · have hI := executeLoop_invariant (I := fun c : Client => (c.currentReq.isSome : Prop))
            (onNotify_current (g := g)) onData_current c.httpParser
            ⟨c.entering,entryMark c.httpParser.state⟩ 0 a hcur
          rwa [hexec] at hI
        · rw [show entryMark c.httpParser.state = none by rw [hstate]; rfl] at h1 hexec
          have hI := executeLoop_begins (a := a) 0 hstate hfirst h1
          rwa [hexec] at hI
      obtain ⟨r,hr⟩ := Option.isSome_iff_exists.mp hcur
      refine ⟨{ e with httpParser := p1 },?_,?_⟩
      · rw [parseHttpRequest_of_feed hc.errno ha h1 hf he.aborted hr (he.good r hr)
          fun hu => absurd hu (by simp [he.upgrade]),if_neg (by simp [he.complete])]
      · have halike : e.Alike (Client.entering { e with httpParser := p1 }) :=
          ⟨hee.current,rfl,by rw [Client.entering,← he.complete]⟩
        obtain ⟨m4,h4,hm4,hR4⟩ := (settings_additive g).feed_congr (entryMark_fits e p1.state) hee
          halike h3 hm3
        refine ih (fun x hx => hne x (List.mem_cons_of_mem _ hx)) (by simp) ?_ hone' (.inl hcur) h4
          hm4 ((hR.trans hR3).trans hR4)
        exact ⟨herr.trans hc.errno,⟨rfl,he.upgrade,he.aborted,he.good⟩,⟨hee.current,rfl,rfl⟩⟩

/-- The length of the body read so far. -/
def Client.bodyReaded (c : Client) : ℕ := c.currentReq.elim 0 Request.bodyReaded

theorem onCurrentReq_size {f : Request → Option (Bool × Request)} {n : ℕ} {c e : Client}
    (hf : ∀ r s, f r = some (true,s) → s.bodyReaded ≤ r.bodyReaded + n)
    (h : onCurrentReq c f = (true,e)) : e.bodyReaded ≤ c.bodyReaded + n := by
  obtain ⟨r,s,hr,hs,rfl⟩ := onCurrentReq_true.mp h
  simpa [Client.bodyReaded,hr] using hf r s hs

theorem onNotify_size {g : Globals} {n : Notify} {p : HttpParser} {c e : Client}
    (h : (settings g).onNotify n p c = (true,e)) : e.bodyReaded ≤ c.bodyReaded := by
  cases n with
  | messageBegin =>
    cases h
    exact Nat.zero_le _
  | messageComplete =>
    cases h
    exact le_rfl
  | headersComplete =>
    refine onCurrentReq_size (n := 0) (c := { c with keepAlive := httpShouldKeepAlive p }) ?_ h
    intro r s hs
    unfold headersComplete Request.bad at hs
    split at hs
    · cases hs
    · cases hs
      exact (lastHeader_keeps _).2.2.le

theorem onData_size {g : Globals} {k : Mark} {p : HttpParser} {buf : Bytes} {c e : Client}
    (h : (settings g).onData k p buf c = (true,e)) :
    e.bodyReaded ≤ c.bodyReaded + buf.length := by
  cases k with
  | headerField =>
    refine onCurrentReq_size (fun r s hs => ?_) h
    rw [(headerFieldCb_keeps hs).2.2]
    exact Nat.le_add_right _ _
  | headerValue =>
    refine onCurrentReq_size (fun r s hs => ?_) h
    rw [(headerValueCb_true.mp hs).2]
    exact Nat.le_add_right _ _
  | url =>
    refine onCurrentReq_size (fun r s hs => ?_) h
    rw [(urlCb_true.mp hs).2]
    exact Nat.le_add_right _ _
  | body =>
    refine onCurrentReq_size (fun r s hs => ?_) h
    rw [(writeBody_some (bodyCb_true.mp hs).2.2).2]

theorem idleClient_betweenReads (port : ℕ) (k : Bool) : (idleClient port k).BetweenReads where
  errno := rfl
  reading := ⟨rfl,rfl,rfl,fun r hr => by cases hr⟩
  alike := ⟨.none,rfl,rfl⟩

/-- The loop that `execute_parse` runs. -/
def Client.read (g : Globals) (c : Client) (data : Bytes) : HttpParser × Client × ℤ :=
  executeLoop (settings g) c.httpParser ⟨c.entering,entryMark c.httpParser.state⟩ 0 data

theorem Client.BetweenReads.read_cases {g : Globals} {c : Client} {data : Bytes} (hc : c.BetweenReads)
    (hone : oneMessage c.httpParser data) :
    (∃ r, feed (settings g) c.httpParser ⟨c.entering,entryMark c.httpParser.state⟩ data = some r) ∨
      (c.read g data).2.1.Failed ∨
      (c.read g data).2.1.Reading ∧ (c.read g data).2.2 ≠ (data.length : ℤ) := by
  have h : (∃ r, feed (settings g) c.httpParser
      ⟨c.entering,entryMark c.httpParser.state⟩ data = some r) ∨ (c.read g data).2.1.Failed ∨
      (c.read g data).2.1.Reading ∧ (c.read g data).2.2 ≠ ((0 + data.length : ℕ) : ℤ) :=
    executeLoop_cases (fun _ _ _ _ => onNotify_reading) (fun _ _ _ _ _ => onData_reading)
      (fun _ _ _ _ => onNotify_failed) (fun _ _ _ _ _ => onData_failed) 0 hone hc.reading
  rwa [Nat.zero_add] at h

theorem executeParse_eq {g : Globals} {c : Client} {data : Bytes}
    (hp : c.httpParser.httpErrno = .OK) (hdata : data ≠ []) : executeParse g c data =
      ({ (c.read g data).2.1 with httpParser := (c.read g data).1 },(c.read g data).2.2) := by
  unfold executeParse httpParserExecute
  rw [if_neg (by simp [hp]),if_neg hdata]
  rfl

theorem entryMark_length {σ : Type} (d : σ) (s : State) :
    Marked.length { data := d, mark := entryMark s } = 0 := by
  cases s <;> rfl

/-- A single read that is accepted goes through. -/
theorem SingleRead.feed {g : Globals} {w : World} {c c' : Client} {data : Bytes}
    (h : SingleRead g w c data c') (hc : c.BetweenReads) (h0 : c.currentReq = none) :
    c'.HasRequest ∧ ∃ q m, feed (settings g) c.httpParser
      ⟨c.entering,entryMark c.httpParser.state⟩ data = some (q,m) ∧ m.mark = none ∧
      c'.Alike m.data := by
  obtain ⟨hsize,hone,hread,r,hr,hcode⟩ := h
  have hdata : data ≠ [] := by
    rintro rfl
    cases hone
  unfold parseHttpRequest at hread
  rw [executeParse_eq hc.errno hdata] at hread
  have hcases := hc.read_cases (g := g) hone
  generalize hL : c.read g data = L at hread hcases
  simp only at hread
  split at hread
  · cases hread
  next hab =>
    obtain ⟨rfl,hcomp,hup⟩ := parsedRequest_accepted hread hr hcode
    obtain ⟨⟨q,m⟩,hfeed⟩ | hfail | ⟨hread',hpos⟩ := hcases
    · have hfit := entryMark_fits c.entering c.httpParser.state
      have hm : m.mark = none := oneMessage_feed hone hfit hfeed
      have hLq : L = (q,m.data,((0 + data.length : ℕ) : ℤ)) := by
        rw [← hL,Client.read,executeLoop_of_feed 0 hfit hfeed]
        simp [flushMark,hm]
      subst hLq
      have hsize' : m.data.bodyReaded + m.length ≤ c.entering.bodyReaded +
          Marked.length ⟨c.entering,entryMark c.httpParser.state⟩ + data.length :=
        feed_size (fun _ _ _ _ => onNotify_size) (fun _ _ _ _ _ => onData_size) hfeed
      have halike := (settings_additive g).feed_refl hc.alike hfeed
      refine ⟨⟨hcomp,by simpa using hab,r,hr,hcode,?_,?_⟩,q,m,hfeed,hm,halike.current,rfl,?_⟩
      · have hr0 : m.data.bodyReaded = r.bodyReaded := by
          rw [Client.bodyReaded,show m.data.currentReq = some r from hr]
          rfl
        have hc0 : c.entering.bodyReaded = 0 := by
          rw [Client.bodyReaded,show c.entering.currentReq = none from h0]
          rfl
        have hmark : Marked.length ⟨c.entering,entryMark c.httpParser.state⟩ = 0 :=
          entryMark_length c.entering c.httpParser.state
        have hlim : READ_BUF_SIZE ≤ LIMIT_MAX := by decide
        simp only [hr0,hc0,hmark] at hsize'
        omega
      · intro hu
        rwa [if_pos hu] at hup
      · rfl
    · obtain ha | ⟨r',hr',hne⟩ := hfail
      · exact absurd ha hab
      · cases hr'.symm.trans hr
        exact absurd hcode hne
    · rw [if_neg (by simp [hread'.upgrade])] at hup
      exact absurd hup hpos

/-- The piece has a byte beyond the line ends before the request. -/
def beginsRequest (piece : Bytes) : Prop := ∃ b ∈ piece, ¬(b = CR ∨ b = LF)

/-- A read of line ends only is answered with an error page. -/
theorem parseHttpRequest_lineEnds {g : Globals} {w w' : World} {c c' : Client} {buf : Bytes}
    {e : ReadEnd} (hc : c.BetweenReads) (h0 : c.queue = []) (hp : c.httpParser.state = .sStartReq)
    (hbuf : buf ≠ []) (hends : ¬beginsRequest buf)
    (h : parseHttpRequest g c buf w = .ret (e,c') w') : e = .closed := by
  have hall : ∀ b ∈ buf, b = CR ∨ b = LF := by
    intro b hb
    by_contra hne
    exact hends ⟨b,hb,hne⟩
  have hread : (c.read g buf).2.1 = c.entering := by
    unfold Client.read
    rw [show entryMark c.httpParser.state = none by rw [hp]; rfl]
    exact executeLoop_lineEnds hp hall
  have hcur : c.currentReq = none := by
    have h1 := (List.append_eq_nil_iff.mp h0).2
    cases hx : c.currentReq with
    | none => rfl
    | some r => simp [hx] at h1
  unfold parseHttpRequest at h
  rw [executeParse_eq hc.errno hbuf,hread] at h
  simp only at h
  rw [if_neg (by simp [hc.reading.aborted])] at h
  unfold parsedRequest at h
  rw [show c.entering.currentReq = none from hcur] at h
  simp only at h
  rw [if_neg (by simp [hc.reading.upgrade])] at h
  obtain ⟨-,hq,-⟩ | hcl := setReadError_cases h
  · have hrq : c.requestQueue = [] := (List.append_eq_nil_iff.mp h0).1
    exact absurd (by simp [Client.queue,Client.entering,hrq]) hq
  · exact hcl

/-- A request may be cut anywhere but after nothing of it. -/
theorem reads_cut_iff {g : Globals} {w : World} {port : ℕ} {k : Bool} {data : Bytes} {c' : Client}
    (hsingle : SingleRead g w (idleClient port k) data c') {pieces : List Bytes}
    (hne : ∀ piece ∈ pieces, piece ≠ []) (hcut : pieces.flatten = data) :
    ReadInPieces g w c' (idleClient port k) pieces ↔ beginsRequest (pieces.headD []) := by
  have hwait := idleClient_betweenReads port k
  have hpieces : pieces ≠ [] := by
    rintro rfl
    cases hcut
    cases hsingle.complete
  constructor
  · intro h
    by_contra hends
    cases pieces with
    | nil => exact hpieces rfl
    | cons a rest =>
      have hclosed : ∀ {e c1}, parseHttpRequest g (idleClient port k) a w = .ret (e,c1) w →
          e = .closed := fun h => parseHttpRequest_lineEnds hwait rfl rfl (hne a (by simp)) hends h
      cases rest with
      | nil =>
        obtain ⟨c1,hread,-⟩ := h
        cases hclosed hread
      | cons b rest =>
        obtain ⟨c1,hread,-⟩ := h
        cases hclosed hread
  · intro hbegin
    obtain ⟨hreq,q,m,hfeed,hm,halike⟩ := hsingle.feed hwait rfl
    subst hcut
    exact readInPieces_of_feed hreq hne hpieces hwait hsingle.complete (.inr ⟨rfl,hbegin⟩) hfeed hm
      halike

/-- A line end, `GET /` without a version, and the line end after the empty header section. -/
def getRoot : Bytes := [13,10,71,69,84,32,47,10,10]

theorem singleRead_getRoot (w : World) : SingleRead {} w (idleClient 80 false) getRoot
    (executeParse {} (idleClient 80 false) getRoot).1 where
  size := by decide
  complete := by decide
  read := rfl
  accepted := ⟨_,rfl,rfl⟩

theorem reads_cut_getRoot : ReadInPieces {} ⟨[],[],0⟩
    (executeParse {} (idleClient 80 false) getRoot).1 (idleClient 80 false)
    [[13,10,71],[69,84,32],[47,10,10]] :=
  (reads_cut_iff (singleRead_getRoot ⟨[],[],0⟩) (by decide) rfl).mpr ⟨71,by decide,by decide⟩

/-- Cut after the line end, the same bytes are answered with an error page. -/
theorem reads_cut_lineEnd : ∃ c', SingleRead {} ⟨[],[],0⟩ (idleClient 80 false) getRoot c' ∧
    ¬ReadInPieces {} ⟨[],[],0⟩ c' (idleClient 80 false) [[13,10],[71,69,84,32,47,10,10]] := by
  refine ⟨_,singleRead_getRoot ⟨[],[],0⟩,?_⟩
  rintro ⟨c1,hread,-⟩
  have hclosed := parseHttpRequest_lineEnds (idleClient_betweenReads 80 false) rfl rfl (by decide)
    (by unfold beginsRequest; decide) hread
  cases hclosed

end Meinheld
