import Meinheld.Head
import Meinheld.RequestPieces
import Meinheld.StatusStrings
import Meinheld.ResponseRuns
import Meinheld.Endings

/-! The `start_response` calls of an application and the head that is written between them. -/
namespace Meinheld

/-! ### The status line -/

/-- A buffer no larger than its limit allows, which an `int` holds. -/
structure Buffer.Bounded (b : Buffer) : Prop where
  limit : b.limit < 2 ^ 31 - 1
  bufSize : b.bufSize ≤ b.limit + 1

theorem Buffer.Bounded.write_cases {b : Buffer} (hb : b.Bounded) (c : Bytes) :
    (b.len + c.length ≤ b.limit ∧ ∃ b', write2buf b c = (.WRITE_OK,b') ∧ b'.buf = b.buf ++ c ∧
      b'.limit = b.limit ∧ b'.Bounded) ∨
    b.limit < b.len + c.length ∧ (write2buf b c).1 ≠ .WRITE_OK := by
  have hg : b.grow (b.len + c.length) ≤ b.limit + 1 := by
    obtain ⟨hl,hs⟩ := hb
    unfold Buffer.grow
    simp only
    repeat' split
    all_goals omega
  by_cases hn : b.len + c.length ≤ b.limit
  · exact .inl ⟨hn,_,write2buf_ok hb.limit hn,rfl,rfl,hb.limit,hg⟩
  · refine .inr ⟨by omega,?_⟩
    unfold write2buf
    simp only
    rw [if_pos (by omega)]
    simp

/-- The line of a status. -/
def statusLine (httpMinor : ℕ) (status : Bytes) : Bytes :=
  (if httpMinor = 1 then ascii "HTTP/1.1 " else ascii "HTTP/1.0 ") ++ status ++ CRLF

/-- A status whose line `create_status` has room for. -/
def StatusFits (status : Bytes) : Prop := status.length + 11 ≤ LIMIT_MAX

theorem createStatus_eq (status : Bytes) (minor : ℕ) :
    (StatusFits status → createStatus status minor = some (statusLine minor status)) ∧
      (¬StatusFits status → createStatus status minor = none) := by
  unfold createStatus statusLine StatusFits
  generalize hv : (if minor = 1 then ascii "HTTP/1.1 " else ascii "HTTP/1.0 ") = v
  have hlen : v.length = 9 := by rw [← hv]; split <;> rfl
  have hb : (newBuffer 256 0).Bounded := ⟨by decide,by decide⟩
  have hlim : (newBuffer 256 0).limit = LIMIT_MAX := rfl
  have hcrlf : CRLF.length = 2 := rfl
  rcases hb.write_cases v with ⟨-,b1,h1,hbuf1,hl1,hb1⟩ | ⟨hover,-⟩
  swap
  · rw [hlen] at hover
    exact absurd hover (by decide)
  rw [show (newBuffer 256 0).buf = [] from rfl,List.nil_append] at hbuf1
  have hn1 : b1.len = 9 := by rw [Buffer.len,hbuf1,hlen]
  rw [hlim] at hl1
  simp only [h1,true_and]
  rcases hb1.write_cases status with ⟨h,b2,h2,hbuf2,hl2,hb2⟩ | ⟨hover,h2⟩
  swap
  · exact ⟨fun _ => by omega,fun _ => if_neg fun hok => h2 hok.1⟩
  have hn2 : b2.len = 9 + status.length := by
    rw [Buffer.len,hbuf2,List.length_append,hbuf1,hlen]
  simp only [h2,true_and]
  rcases hb2.write_cases CRLF with ⟨h',b3,h3,hbuf3,-,-⟩ | ⟨hover,h3⟩
  · refine ⟨fun _ => ?_,fun _ => by omega⟩
    simp only [h3,if_true,hbuf3,hbuf2,hbuf1]
  · exact ⟨fun _ => by omega,fun _ => if_neg h3⟩

theorem statusLine_length (minor : ℕ) (status : Bytes) :
    (statusLine minor status).length = status.length + 11 := by
  unfold statusLine
  rw [List.length_append,List.length_append]
  have hversion : (if minor = 1 then ascii "HTTP/1.1 " else ascii "HTTP/1.0 ").length = 9 := by
    split <;> rfl
  have hcrlf : CRLF.length = 2 := rfl
  omega

theorem StatusFits.take {status : Bytes} (h : StatusFits status) {n : ℕ} (hn : n ∈ byteLen status) :
    status.take n = status := by
  have hlt : status.length < 2 ^ 31 := by
    have hmax : LIMIT_MAX < 2 ^ 31 := by decide
    unfold StatusFits at h
    omega
  rw [byteLen_of_lt hlt,Option.mem_some_iff] at hn
  rw [← hn,List.take_length]

theorem createStatus_take {status : Bytes} {n : ℕ} (hn : n ∈ byteLen status) (minor : ℕ) :
    createStatus (status.take n) minor = some (statusLine minor status) ↔ StatusFits status := by
  constructor
  · intro h
    by_cases hfit : StatusFits (status.take n)
    · rw [(createStatus_eq _ _).1 hfit] at h
      have hlen := congrArg List.length (Option.some.inj h)
      rw [statusLine_length,statusLine_length] at hlen
      unfold StatusFits at hfit ⊢
      omega
    · rw [(createStatus_eq _ _).2 hfit] at h
      cases h
  · intro hfit
    rw [hfit.take hn,(createStatus_eq _ _).1 hfit]

/-! ### A response that begins -/

/-- What happens to a response up to the end of its head: the application calls `start_response`,
or the server writes. -/
inductive StartEvent
  | call (a : StartResponseArgs)
  | write
  deriving DecidableEq, Repr

/-- A response that begins: `begun` once `write_headers` was called, and `taken` the last call of
`start_response` that returned. -/
structure Starting where
  client : Client
  world : World
  begun : Bool := false
  taken : Option StartResponseArgs := none
  deriving DecidableEq, Repr

/-- `process_body` as far as the bucket goes that a suspended head left. -/
def resumeHead (c : Client) : Action (ResponseStatus × Client) :=
  match c.bucket with
  | none => pure (.OK,c)
  | some b => do
    let r ← writevBucket b
    match r.1 with
    | .OK => pure (.OK,{ c with writeBytes := c.writeBytes + r.2.totalSize, bucket := none })
    | .ERROR => pure (.ERROR,{ c with bucket := none })
    | .SUSPEND => pure (.SUSPEND,{ c with bucket := some r.2 })

theorem processBody_eq (c : Client) : processBody c =
    resumeHead c >>= fun r => if r.1 = .OK then processRest r.2 else pure r := by
  unfold processBody resumeHead
  cases c.bucket with
  | none => rfl
  | some b =>
    simp only
    rw [Action.bind_assoc]
    congr 1
    funext r
    cases r.1 <;> rfl

section Runs
variable (g : Globals) (data : Option Bytes) (isFile : Option ℕ)

/-- One event; `none` when the process dies or waits for the socket. -/
def Starting.step (s : Starting) : StartEvent → Option Starting
  | .call a =>
    match responseObjectCall s.client a with
    | .raised _ => some s
    | .returned c => some { s with client := c, taken := some a }
    | .crash => none
  | .write =>
    match (if s.begun then resumeHead s.client else writeHeaders g s.client data isFile) s.world with
    | .ret r w => some { s with client := r.2, world := w, begun := true }
    | .stop _ _ => none

def Starting.run (s : Starting) (es : List StartEvent) : Option Starting :=
  es.foldlM (Starting.step g data isFile) s

/-- A call that `start_response` takes on a client without headers. -/
def StartResponseArgs.Acceptable (a : StartResponseArgs) : Prop := ∃ str hs code,
  a.status = .str str ∧ a.headers = some hs ∧ (∀ ch ∈ str, ch < 256) ∧ Copied (latin1 str) ∧
    statusCodeOf (latin1 str) = some code

/-- The bytes of the status. -/
def StartResponseArgs.statusBytes (a : StartResponseArgs) : Bytes :=
  match a.status with
  | .str str => latin1 str
  | .other => []

/-- What a head starts with that carries the status and the headers of a call. -/
def StartResponseArgs.opening (a : StartResponseArgs) (httpMinor : ℕ) : Bytes :=
  statusLine httpMinor a.statusBytes ++ headerLine (ascii "Server",SERVER) ++
    headerLine (ascii "Date",g.httpTime) ++ (emitted (a.headers.getD [])).flatMap headerLine

/-- A client with the status and the headers of a call. -/
structure Client.Stores (c : Client) (a : StartResponseArgs) : Prop where
  headers : c.headers = a.headers
  statusCode : statusCodeOf a.statusBytes = some c.statusCode
  httpStatus : c.httpStatus = some (statusLine c.httpParser.httpMinor a.statusBytes)

/-- The calls of `start_response` go as they should. -/
structure Prescribed (s : Starting) (es : List StartEvent) : Prop where
  once : ∀ es1 a es2 t, es = es1 ++ .call a :: es2 → s.run g data isFile es1 = some t →
    t.taken.isSome → a.excInfo = false → ∃ e, responseObjectCall t.client a = .raised e
  replaces : ∀ es1 a es2 t, es = es1 ++ .call a :: es2 → s.run g data isFile es1 = some t →
    t.world.sent = s.world.sent → a.excInfo = true → a.Acceptable →
      ∃ c, responseObjectCall t.client a = .returned c ∧ c.Stores a
  reraises : ∀ es1 a es2 t, es = es1 ++ .call a :: es2 → s.run g data isFile es1 = some t →
    t.world.sent ≠ s.world.sent → a.excInfo = true → responseObjectCall t.client a = .raised .given
  only : ∀ es1 a es2 t, es = es1 ++ .call a :: es2 → s.run g data isFile es1 = some t →
    a.excInfo = true → responseObjectCall t.client a = .raised .given →
      t.world.sent ≠ s.world.sent
  head : ∀ es1 es2 t, es = es1 ++ es2 → s.run g data isFile es1 = some t →
    match t.taken with
    | some a => t.client.Stores a ∧ ∃ tail,
        t.world.sent <+: s.world.sent ++ (a.opening g s.client.httpParser.httpMinor ++ tail)
    | none => t.world.sent = s.world.sent

/-- Before anything is sent, a call with `exc_info` and a string comes after one that was taken. -/
def Replacing (s : Starting) (es : List StartEvent) : Prop := ∃ es1 a es2 t,
  es = es1 ++ .call a :: es2 ∧ s.run g data isFile es1 = some t ∧
    (∃ b, StartEvent.call b ∈ es1 ∧ b.Acceptable) ∧ t.world.sent = s.world.sent ∧
    a.excInfo = true ∧ a.status ≠ .other

/-- Once something is sent, a call with `exc_info` has a status that is no string. -/
def Mistyped (s : Starting) (es : List StartEvent) : Prop := ∃ es1 a es2 t,
  es = es1 ++ .call a :: es2 ∧ s.run g data isFile es1 = some t ∧
    t.world.sent ≠ s.world.sent ∧ a.excInfo = true ∧ a.status = .other

/-- The first status that is taken is not too long. -/
def FirstFits (s : Starting) (es : List StartEvent) : Prop := ∀ es1 a es2 t,
  es = es1 ++ .call a :: es2 → s.run g data isFile es1 = some t →
    (∀ b, StartEvent.call b ∈ es1 → ¬b.Acceptable) → a.Acceptable → StatusFits a.statusBytes

end Runs

/-- A response before its first event. -/
structure Starting.Initial (s : Starting) : Prop where
  headers : s.client.headers = none
  bucket : s.client.bucket = none
  headerDone : s.client.headerDone = false
  begun : s.begun = false
  taken : s.taken = none

/-! ### What holds at each point -/

theorem writevBucketLoop_sent {os : List Outcome} {b b' : WriteBucket} {w w' : World}
    {s : ResponseStatus} (h : writevBucketLoop os b w = .ret (s,b') w') :
    w'.sent <+: w.sent ++ b.bytes ∧ (s = .SUSPEND → w'.sent ++ b'.bytes = w.sent ++ b.bytes) := by
  induction os generalizing b w with
  | nil => simp [writevBucketLoop] at h
  | cons o os ih =>
    simp only [writevBucketLoop] at h
    split at h
    · simp at h
    · cases o with
      | eagain =>
        simp only [Run.ret.injEq,Prod.mk.injEq] at h
        obtain ⟨⟨rfl,rfl⟩,rfl⟩ := h
        exact ⟨List.prefix_append _ _,fun _ => rfl⟩
      | error epipe =>
        simp only [Run.ret.injEq,Prod.mk.injEq] at h
        obtain ⟨⟨rfl,rfl⟩,rfl⟩ := h
        exact ⟨List.prefix_append _ _,by simp⟩
      | count n =>
        simp only at h
        split at h
        · obtain ⟨hp,hs⟩ := ih h
          have hb : ∀ iov : List Iovec, ∀ k : ℕ, ((iov.flatMap (·.base)).take k) ++
              (advance ((iov.flatMap (·.base)).take k).length iov).flatMap (·.base) =
              iov.flatMap (·.base) := by
            intro iov k
            rw [advance_bytes,List.length_take]
            rcases Nat.le_total k (iov.flatMap (·.base)).length with hle | hle
            · rw [Nat.min_eq_left hle,List.take_append_drop]
            · rw [Nat.min_eq_right hle,List.take_of_length_le hle,List.drop_length,List.append_nil]
          simp only [World.send,WriteBucket.bytes,List.append_assoc,hb] at hp hs
          exact ⟨hp,hs⟩
        · simp only [Run.ret.injEq,Prod.mk.injEq] at h
          obtain ⟨⟨rfl,rfl⟩,rfl⟩ := h
          refine ⟨?_,by simp⟩
          exact (List.prefix_append_right_inj _).mpr (List.take_prefix _ _)

/-- The bytes of the head that wait. -/
def Client.waiting (c : Client) : Bytes := (c.bucket.map (·.bytes)).getD []

/-- The status and the headers of a call, and a head that begins with them. -/
structure Starting.Took (g : Globals) (s t : Starting) (a : StartResponseArgs) : Prop where
  acceptable : a.Acceptable
  headers : t.client.headers = a.headers
  statusCode : statusCodeOf a.statusBytes = some t.client.statusCode
  httpStatus : ∃ n ∈ byteLen a.statusBytes,
    t.client.httpStatus = createStatus (a.statusBytes.take n) s.client.httpParser.httpMinor
  sent : ∃ tail, t.world.sent ++ t.client.waiting <+: s.world.sent ++ (statusLines g t.client ++
    (emitted (a.headers.getD [])).flatMap headerLine ++ tail)

/-- What holds after each event, for the response that began as `s`. -/
structure Starting.Sound (g : Globals) (s t : Starting) : Prop where
  httpParser : t.client.httpParser = s.client.httpParser
  idle : t.taken = none → t.client.headers = none ∧ t.client.bucket = none ∧ t.world.sent = s.world.sent
  unbegun : t.begun = false → t.client.bucket = none ∧ t.client.headerDone = false ∧
    t.world.sent = s.world.sent
  took : ∀ a, t.taken = some a → s.Took g t a

/-- On a client with headers every call raises, and the given exception for a call that has one. -/
theorem responseObjectCall_of_headers {c : Client} (h : c.headers.isSome) (a : StartResponseArgs) :
    ∃ e, responseObjectCall c a = .raised e ∧ (e = .given ↔ a.excInfo = true ∧ a.status ≠ .other) := by
  unfold responseObjectCall
  cases a.status with
  | other => exact ⟨_,rfl,by simp⟩
  | str s =>
    cases he : a.excInfo with
    | true => exact ⟨.given,by simp [h],by simp⟩
    | false => exact ⟨.typeError,by simp [h],by simp⟩

theorem readStatus_ne_given (bytes : Bytes) : readStatus bytes ≠ .error .given := by
  unfold readStatus
  simp only
  repeat' split
  all_goals simp

/-- The given exception is raised only on a client with headers. -/
theorem headers_of_given {c : Client} {a : StartResponseArgs}
    (h : responseObjectCall c a = .raised .given) : c.headers.isSome ∧ a.status ≠ .other := by
  unfold responseObjectCall takeStatus at h
  cases hstatus : a.status with
  | other => simp [hstatus] at h
  | str s =>
    cases hh : c.headers with
    | some hs => simp
    | none =>
      exfalso
      simp only [hstatus,hh,Option.isSome_none,Bool.false_eq_true,false_and,if_false] at h
      split at h
      · cases h
      · split at h
        · cases h
        · split at h
          · cases h
          · split at h
            · cases h
            · split at h
              next e he =>
                obtain rfl := CallResult.raised.inj h
                exact readStatus_ne_given _ he
              · cases h

/-- On a client without headers the acceptable calls return. -/
theorem responseObjectCall_acceptable {c : Client} (h : c.headers = none) {a : StartResponseArgs}
    (ha : a.Acceptable) : ∃ code n, statusCodeOf a.statusBytes = some code ∧
      n ∈ byteLen a.statusBytes ∧ responseObjectCall c a = .returned { c with
        statusCode := code
        headers := a.headers
        httpStatus := createStatus (a.statusBytes.take n) c.httpParser.httpMinor } := by
  obtain ⟨status,headers,excInfo⟩ := a
  obtain ⟨str,hs,code,rfl,rfl,hl,hroom,hcode⟩ := ha
  obtain ⟨n,hn,htake⟩ := takeStatus_copied c hs hroom
  refine ⟨code,n,hcode,hn,?_⟩
  rw [responseObjectCall_latin1 h hl,htake,statusCodeOf_eq_some_iff.mp hcode]
  rfl

theorem responseObjectCall_not_acceptable {c c' : Client} {a : StartResponseArgs}
    (ha : ¬a.Acceptable) : responseObjectCall c a ≠ .returned c' := by
  intro hr
  have hnone : c.headers = none := by
    cases hh : c.headers with
    | none => rfl
    | some hs =>
      obtain ⟨e,hraise,-⟩ := responseObjectCall_of_headers (a := a) (by rw [hh]; rfl : c.headers.isSome)
      rw [hraise] at hr
      cases hr
  obtain ⟨status,headers,excInfo⟩ := a
  cases status with
  | other => simp [responseObjectCall] at hr
  | str s =>
    cases headers with
    | none => simp [responseObjectCall,hnone] at hr
    | some hs =>
      by_cases hl : ∀ ch ∈ s, ch < 256
      · rw [responseObjectCall_latin1 hnone hl] at hr
        obtain ⟨code,n,hn,hcode,hroom,-⟩ := takeStatus_returned hr
        exact ha ⟨s,hs,code,rfl,rfl,hl,⟨n,hn,hroom⟩,statusCodeOf_eq_some_iff.mpr hcode⟩
      · rw [responseObjectCall_not_latin1 hnone hl] at hr
        cases hr

theorem Starting.Initial.sound {g : Globals} {s : Starting} (h : s.Initial) : s.Sound g s := by
  refine ⟨rfl,fun _ => ⟨h.headers,h.bucket,rfl⟩,fun _ => ⟨h.bucket,h.headerDone,rfl⟩,fun a ha => ?_⟩
  rw [h.taken] at ha
  cases ha

theorem Starting.Sound.headers_isSome {g : Globals} {s t : Starting} (h : s.Sound g t) :
    t.client.headers.isSome = t.taken.isSome := by
  cases ht : t.taken with
  | none =>
    rw [(h.idle ht).1]
    rfl
  | some a =>
    obtain ⟨str,hs,code,-,hhs,-⟩ := (h.took a ht).acceptable
    rw [(h.took a ht).headers,hhs]
    rfl

theorem Starting.Sound.call_refused {g : Globals} {data : Option Bytes} {isFile : Option ℕ}
    {s t t' : Starting} {a : StartResponseArgs} (h : s.Sound g t)
    (ha : t.taken.isSome ∨ ¬a.Acceptable) (hstep : t.step g data isFile (.call a) = some t') :
    t' = t := by
  simp only [Starting.step] at hstep
  cases hcall : responseObjectCall t.client a with
  | raised e =>
    simp only [hcall,Option.some.injEq] at hstep
    exact hstep.symm
  | crash => simp [hcall] at hstep
  | returned c =>
    exfalso
    rcases ha with ha | ha
    · rw [← h.headers_isSome] at ha
      obtain ⟨e,hraise,-⟩ := responseObjectCall_of_headers ha a
      cases hraise.symm.trans hcall
    · exact responseObjectCall_not_acceptable ha hcall

theorem Starting.Sound.call_taken {g : Globals} {data : Option Bytes} {isFile : Option ℕ}
    {s t t' : Starting} {a : StartResponseArgs} (h : s.Sound g t) (ht : t.taken = none)
    (ha : a.Acceptable) (hstep : t.step g data isFile (.call a) = some t') :
    s.Sound g t' ∧ t'.taken = some a := by
  obtain ⟨hheaders,hbucket,hsent⟩ := h.idle ht
  obtain ⟨code,n,hcode,hn,hcall⟩ := responseObjectCall_acceptable hheaders ha
  simp only [Starting.step,hcall,Option.some.injEq] at hstep
  subst hstep
  refine ⟨⟨h.httpParser,nofun,fun hb => ?_,fun b hb => ?_⟩,rfl⟩
  · exact h.unbegun hb
  · obtain rfl := Option.some.inj hb
    refine ⟨ha,rfl,hcode,⟨n,hn,by rw [h.httpParser]⟩,[],?_⟩
    simp only [Client.waiting,hbucket,Option.map_none,Option.getD_none,List.append_nil,hsent]
    exact List.prefix_append _ _

/-- The head that `write_headers` writes begins with the status and the headers. -/
theorem writeHeaders_sent {g : Globals} {c c' : Client} {data : Option Bytes} {isFile : Option ℕ}
    {hs : List HeaderItem} {w w' : World} {r : ResponseStatus} (hdone : c.headerDone = false)
    (hbucket : c.bucket = none) (hh : c.headers = some hs)
    (h : writeHeaders g c data isFile w = .ret (r,c') w') :
    ∃ tail, w'.sent ++ c'.waiting <+:
      w.sent ++ (statusLines g c ++ (emitted hs).flatMap headerLine ++ tail) := by
  unfold writeHeaders at h
  simp only [hdone,Bool.false_eq_true,if_false,hh] at h
  cases hb : buildHead g c hs data isFile with
  | crash => simp [hb,die] at h
  | error c1 =>
    obtain ⟨_,_,_,rfl⟩ := buildHead_reframed (.inl hb)
    simp only [hb,Action.pure_apply,Run.ret.injEq,Prod.mk.injEq] at h
    obtain ⟨⟨_,rfl⟩,rfl⟩ := h
    exact ⟨[],by simp [Client.waiting,hbucket]⟩
  | ok c1 b1 =>
    obtain ⟨hadds,hc1⟩ := buildHead_ok hb
    simp only [hb] at h
    obtain ⟨⟨s1,b2⟩,v,hv,h⟩ := Action.bind_eq_ret.mp h
    obtain ⟨hp,hsus⟩ := writevBucketLoop_sent hv
    -- the bytes of the bucket
    have hbytes : ∃ tail, (setFirstBodyData c1 b1 data).bytes =
        statusLines g c ++ (emitted hs).flatMap headerLine ++ tail := by
      rw [setFirstBodyData_bytes,hadds.bytes,newWriteBucket_bytes,List.nil_append,headBytes,headLines]
      exact ⟨_,by simp only [List.flatMap_append,List.append_assoc]; rfl⟩
    obtain ⟨tail,htail⟩ := hbytes
    rw [htail] at hp hsus
    refine ⟨tail,?_⟩
    cases s1 with
    | SUSPEND =>
      simp only [Action.pure_apply,Run.ret.injEq,Prod.mk.injEq] at h
      obtain ⟨⟨_,rfl⟩,rfl⟩ := h
      simp only [Client.waiting,Option.map_some,Option.getD_some]
      rw [hsus rfl]
    | OK =>
      simp only [Action.pure_apply,Run.ret.injEq,Prod.mk.injEq] at h
      obtain ⟨⟨_,rfl⟩,rfl⟩ := h
      simpa [Client.waiting] using hp
    | ERROR =>
      simp only [Action.pure_apply,Run.ret.injEq,Prod.mk.injEq] at h
      obtain ⟨⟨_,rfl⟩,rfl⟩ := h
      simpa [Client.waiting] using hp

/-- What a write keeps of a client. -/
structure SameCalls (c c' : Client) : Prop where
  httpParser : c'.httpParser = c.httpParser
  headers : c'.headers = c.headers
  statusCode : c'.statusCode = c.statusCode
  httpStatus : c'.httpStatus = c.httpStatus

theorem writeHeaders_sameCalls {g : Globals} {c c' : Client} {data : Option Bytes} {isFile : Option ℕ}
    {w w' : World} {r : ResponseStatus} (h : writeHeaders g c data isFile w = .ret (r,c') w') :
    SameCalls c c' := by
  unfold writeHeaders at h
  split at h
  · simp only [Action.pure_apply,Run.ret.injEq,Prod.mk.injEq] at h
    obtain ⟨⟨_,rfl⟩,-⟩ := h
    exact ⟨rfl,rfl,rfl,rfl⟩
  · cases hh : c.headers with
    | none =>
      simp only [hh,Action.pure_apply,Run.ret.injEq,Prod.mk.injEq] at h
      obtain ⟨⟨_,rfl⟩,-⟩ := h
      exact ⟨rfl,rfl,rfl,rfl⟩
    | some hs =>
      simp only [hh] at h
      cases hb : buildHead g c hs data isFile with
      | crash => simp [hb,die] at h
      | error c1 =>
        obtain ⟨_,_,_,rfl⟩ := buildHead_reframed (.inl hb)
        simp only [hb,Action.pure_apply,Run.ret.injEq,Prod.mk.injEq] at h
        obtain ⟨⟨_,rfl⟩,-⟩ := h
        exact ⟨rfl,rfl,rfl,rfl⟩
      | ok c1 b1 =>
        obtain ⟨_,_,_,rfl⟩ := buildHead_reframed (.inr ⟨b1,hb⟩)
        simp only [hb] at h
        obtain ⟨⟨s1,b2⟩,v,hv,h⟩ := Action.bind_eq_ret.mp h
        cases s1 <;>
          simp only [Action.pure_apply,Run.ret.injEq,Prod.mk.injEq] at h <;>
          obtain ⟨⟨_,rfl⟩,-⟩ := h <;>
          exact ⟨rfl,rfl,rfl,rfl⟩

/-- The rest of a head goes on where it was left. -/
theorem resumeHead_sent {c c' : Client} {w w' : World} {r : ResponseStatus}
    (h : resumeHead c w = .ret (r,c') w') :
    SameCalls c c' ∧ w'.sent ++ c'.waiting <+: w.sent ++ c.waiting ∧
      (c.bucket = none → c' = c ∧ w' = w) := by
  unfold resumeHead at h
  cases hb : c.bucket with
  | none =>
    simp only [hb,Action.pure_apply,Run.ret.injEq,Prod.mk.injEq] at h
    obtain ⟨⟨_,rfl⟩,rfl⟩ := h
    exact ⟨⟨rfl,rfl,rfl,rfl⟩,List.prefix_rfl,fun _ => ⟨rfl,rfl⟩⟩
  | some b =>
    simp only [hb] at h
    obtain ⟨⟨s1,b1⟩,v,hv,h⟩ := Action.bind_eq_ret.mp h
    obtain ⟨hp,hsus⟩ := writevBucketLoop_sent hv
    have hwait : c.waiting = b.bytes := by rw [Client.waiting,hb]; rfl
    rw [hwait]
    cases s1 with
    | SUSPEND =>
      simp only [Action.pure_apply,Run.ret.injEq,Prod.mk.injEq] at h
      obtain ⟨⟨_,rfl⟩,rfl⟩ := h
      refine ⟨⟨rfl,rfl,rfl,rfl⟩,?_,nofun⟩
      simp only [Client.waiting,Option.map_some,Option.getD_some]
      rw [hsus rfl]
    | OK =>
      simp only [Action.pure_apply,Run.ret.injEq,Prod.mk.injEq] at h
      obtain ⟨⟨_,rfl⟩,rfl⟩ := h
      exact ⟨⟨rfl,rfl,rfl,rfl⟩,by simpa [Client.waiting] using hp,nofun⟩
    | ERROR =>
      simp only [Action.pure_apply,Run.ret.injEq,Prod.mk.injEq] at h
      obtain ⟨⟨_,rfl⟩,rfl⟩ := h
      exact ⟨⟨rfl,rfl,rfl,rfl⟩,by simpa [Client.waiting] using hp,nofun⟩

theorem statusLines_congr {g : Globals} {c c' : Client} (h : SameCalls c c') :
    statusLines g c' = statusLines g c := by
  unfold statusLines
  rw [h.httpStatus]

theorem Starting.Sound.write {g : Globals} {data : Option Bytes} {isFile : Option ℕ} {s t t' : Starting}
    (h : s.Sound g t) (hstep : t.step g data isFile .write = some t') :
    s.Sound g t' ∧ t'.taken = t.taken := by
  simp only [Starting.step] at hstep
  -- the calls are as before, and what goes out continues the head
  have key : ∃ r w, t' = { t with client := r, world := w, begun := true } ∧ SameCalls t.client r ∧
      (t.taken = none → r.bucket = none ∧ w.sent = t.world.sent) ∧
      ∀ a, t.taken = some a → ∃ tail, w.sent ++ r.waiting <+: s.world.sent ++
        (statusLines g t.client ++ (emitted (a.headers.getD [])).flatMap headerLine ++ tail) := by
    cases hb : t.begun with
    | true =>
      rw [hb] at hstep
      simp only [if_true] at hstep
      cases hr : resumeHead t.client t.world with
      | stop e w => simp [hr] at hstep
      | ret r w =>
        obtain ⟨r1,c⟩ := r
        simp only [hr,Option.some.injEq] at hstep
        obtain ⟨hsame,hp,hnone⟩ := resumeHead_sent hr
        refine ⟨c,w,hstep.symm,hsame,fun ht => ?_,fun a ht => ?_⟩
        · obtain ⟨rfl,rfl⟩ := hnone (h.idle ht).2.1
          exact ⟨(h.idle ht).2.1,rfl⟩
        · obtain ⟨tail,htail⟩ := (h.took a ht).sent
          exact ⟨tail,hp.trans htail⟩
    | false =>
      rw [hb] at hstep
      simp only [Bool.false_eq_true,if_false] at hstep
      obtain ⟨hbucket,hdone,hsent⟩ := h.unbegun hb
      cases hr : writeHeaders g t.client data isFile t.world with
      | stop e w => simp [hr] at hstep
      | ret r w =>
        obtain ⟨r1,c⟩ := r
        simp only [hr,Option.some.injEq] at hstep
        refine ⟨c,w,hstep.symm,writeHeaders_sameCalls hr,fun ht => ?_,fun a ht => ?_⟩
        · simp only [writeHeaders,hdone,Bool.false_eq_true,if_false,(h.idle ht).1,Action.pure_apply,
            Run.ret.injEq,Prod.mk.injEq] at hr
          obtain ⟨⟨-,rfl⟩,rfl⟩ := hr
          exact ⟨hbucket,rfl⟩
        · obtain ⟨str,hs,code,-,hhs,-⟩ := (h.took a ht).acceptable
          rw [hhs,← hsent]
          exact writeHeaders_sent hdone hbucket ((h.took a ht).headers.trans hhs) hr
  obtain ⟨c,w,rfl,hsame,hidle,htook⟩ := key
  refine ⟨⟨hsame.httpParser.trans h.httpParser,fun ht => ?_,by simp,fun a ht => ?_⟩,rfl⟩
  · obtain ⟨hheaders,-,hsent⟩ := h.idle ht
    exact ⟨hsame.headers.trans hheaders,(hidle ht).1,(hidle ht).2.trans hsent⟩
  · have hold := h.took a ht
    obtain ⟨tail,htail⟩ := htook a ht
    refine ⟨hold.acceptable,hsame.headers.trans hold.headers,?_,?_,tail,?_⟩
    · rw [hsame.statusCode]
      exact hold.statusCode
    · obtain ⟨n,hn,hline⟩ := hold.httpStatus
      exact ⟨n,hn,hsame.httpStatus.trans hline⟩
    · rw [statusLines_congr (c := t.client) hsame]
      exact htail

theorem Starting.run_concat {g : Globals} {data : Option Bytes} {isFile : Option ℕ} {s t : Starting}
    {es : List StartEvent} {e : StartEvent} : s.run g data isFile (es ++ [e]) = some t ↔
      ∃ u, s.run g data isFile es = some u ∧ u.step g data isFile e = some t := by
  simp [Starting.run,List.foldlM_append,Option.bind_eq_some_iff]

/-- The invariant along a run; a call was taken exactly when one was acceptable. -/
theorem Starting.Sound.run {g : Globals} {data : Option Bytes} {isFile : Option ℕ} {s : Starting}
    (h : s.Initial) {es : List StartEvent} {t : Starting} (hr : s.run g data isFile es = some t) :
    s.Sound g t ∧ (t.taken.isSome ↔ ∃ b, StartEvent.call b ∈ es ∧ b.Acceptable) := by
  induction es using List.reverseRecOn generalizing t with
  | nil =>
    obtain rfl : s = t := by simpa [Starting.run] using hr
    exact ⟨h.sound,by simp [h.taken]⟩
  | append_singleton es e ih =>
    obtain ⟨u,hu,hstep⟩ := Starting.run_concat.mp hr
    obtain ⟨hsound,htaken⟩ := ih hu
    cases e with
    | write =>
      obtain ⟨hsound',htaken'⟩ := hsound.write hstep
      exact ⟨hsound',by simpa [htaken'] using htaken⟩
    | call a =>
      by_cases hnew : u.taken = none ∧ a.Acceptable
      · obtain ⟨hsound',htaken'⟩ := hsound.call_taken hnew.1 hnew.2 hstep
        exact ⟨hsound',by simp [htaken',hnew.2,or_comm]⟩
      · have hrefuse : u.taken.isSome ∨ ¬a.Acceptable := by
          rw [not_and_or] at hnew
          exact hnew.imp_left Option.isSome_iff_ne_none.mpr
        obtain rfl := hsound.call_refused hrefuse hstep
        refine ⟨hsound,htaken.trans ⟨fun hold => ?_,fun hold => ?_⟩⟩
        · obtain ⟨b,hb,ha⟩ := hold
          exact ⟨b,by simp [hb],ha⟩
        obtain ⟨b,hb,ha⟩ := hold
        rcases List.mem_append.mp hb with hb | hb
        · exact ⟨b,hb,ha⟩
        · obtain rfl : b = a := by simpa using hb
          rcases hrefuse with hsome | hno
          · exact htaken.mp hsome
          · exact absurd ha hno

/-- The call that is taken is the first acceptable one. -/
theorem Starting.taken_first {g : Globals} {data : Option Bytes} {isFile : Option ℕ} {s : Starting}
    (h : s.Initial) {es : List StartEvent} {t : Starting} (hr : s.run g data isFile es = some t)
    {a : StartResponseArgs} (ht : t.taken = some a) : ∃ es1 es2 u, es = es1 ++ .call a :: es2 ∧
      s.run g data isFile es1 = some u ∧ ∀ b, StartEvent.call b ∈ es1 → ¬b.Acceptable := by
  induction es using List.reverseRecOn generalizing t with
  | nil =>
    obtain rfl : s = t := by simpa [Starting.run] using hr
    rw [h.taken] at ht
    cases ht
  | append_singleton es e ih =>
    obtain ⟨u,hu,hstep⟩ := Starting.run_concat.mp hr
    obtain ⟨hsound,htaken⟩ := Starting.Sound.run h hu
    -- the call was taken before the last event, or is the last event
    have hold : u.taken = some a → ∃ es1 es2 v, es ++ [e] = es1 ++ .call a :: es2 ∧
        s.run g data isFile es1 = some v ∧ ∀ b, StartEvent.call b ∈ es1 → ¬b.Acceptable := by
      intro hua
      obtain ⟨es1,es2,v,rfl,hv,hno⟩ := ih hu hua
      exact ⟨es1,es2 ++ [e],v,by simp,hv,hno⟩
    cases e with
    | write => exact hold ((hsound.write hstep).2.symm.trans ht)
    | call b =>
      by_cases hnew : u.taken = none ∧ b.Acceptable
      · rw [(hsound.call_taken hnew.1 hnew.2 hstep).2] at ht
        obtain rfl := Option.some.inj ht
        refine ⟨es,[],u,rfl,hu,fun c hc ha => ?_⟩
        have hsome := htaken.mpr ⟨c,hc,ha⟩
        rw [hnew.1] at hsome
        cases hsome
      · rw [not_and_or] at hnew
        rw [hsound.call_refused (hnew.imp_left Option.isSome_iff_ne_none.mpr) hstep] at ht
        exact hold ht

theorem Starting.Took.stores {g : Globals} {s t : Starting} {a : StartResponseArgs} (h : s.Took g t a)
    (hparser : t.client.httpParser = s.client.httpParser) (hfit : StatusFits a.statusBytes) :
    t.client.Stores a ∧ ∃ tail,
      t.world.sent <+: s.world.sent ++ (a.opening g s.client.httpParser.httpMinor ++ tail) := by
  have hline : t.client.httpStatus =
      some (statusLine s.client.httpParser.httpMinor a.statusBytes) := by
    obtain ⟨n,hn,h⟩ := h.httpStatus
    exact h.trans ((createStatus_take hn _).mpr hfit)
  refine ⟨⟨h.headers,h.statusCode,by rw [hline,hparser]⟩,?_⟩
  obtain ⟨tail,htail⟩ := h.sent
  refine ⟨tail,?_⟩
  have hopen : a.opening g s.client.httpParser.httpMinor =
      statusLines g t.client ++ (emitted (a.headers.getD [])).flatMap headerLine := by
    rw [StartResponseArgs.opening,statusLines,hline]
  rw [hopen]
  exact (List.prefix_append _ _).trans htail

/-- The calls of `start_response` go as they should exactly when none with `exc_info` comes between one
that was taken and the first byte, none after it has a status that is no string, and the status that
is taken is not too long. -/
theorem prescribed_iff {g : Globals} {data : Option Bytes} {isFile : Option ℕ} {s : Starting}
    (h : s.Initial) (es : List StartEvent) : Prescribed g data isFile s es ↔
      ¬Replacing g data isFile s es ∧ ¬Mistyped g data isFile s es ∧
        FirstFits g data isFile s es := by
  constructor
  · intro hp
    refine ⟨?_,?_,?_⟩
    · rintro ⟨es1,a,es2,t,hes,hr,hb,hsent,hexc,hstr⟩
      obtain ⟨hsound,htaken⟩ := Starting.Sound.run h hr
      have hsome : t.client.headers.isSome := hsound.headers_isSome.trans (htaken.mpr hb)
      obtain ⟨e,hcall,hgiven⟩ := responseObjectCall_of_headers hsome a
      obtain rfl := hgiven.mpr ⟨hexc,hstr⟩
      exact hp.only es1 a es2 t hes hr hexc hcall hsent
    · rintro ⟨es1,a,es2,t,hes,hr,hsent,hexc,hother⟩
      have hcall := hp.reraises es1 a es2 t hes hr hsent hexc
      simp [responseObjectCall,hother] at hcall
    · intro es1 a es2 t hes hr hno ha
      obtain ⟨hsound,htaken⟩ := Starting.Sound.run h hr
      have hnone : t.taken = none := by
        rw [← Option.not_isSome_iff_eq_none,htaken]
        rintro ⟨b,hb,hacc⟩
        exact hno b hb hacc
      obtain ⟨code,n,-,-,hcall⟩ := responseObjectCall_acceptable (hsound.idle hnone).1 ha
      have hstep : ∃ t', t.step g data isFile (.call a) = some t' := by
        simp only [Starting.step,hcall]
        exact ⟨_,rfl⟩
      obtain ⟨t',hstep⟩ := hstep
      obtain ⟨hsound',htaken'⟩ := hsound.call_taken hnone ha hstep
      have hhead := hp.head (es1 ++ [.call a]) es2 t' (by simp [hes])
        (Starting.run_concat.mpr ⟨t,hr,hstep⟩)
      rw [htaken'] at hhead
      obtain ⟨m,hm,hline⟩ := (hsound'.took a htaken').httpStatus
      rw [hhead.1.httpStatus,hsound'.httpParser] at hline
      exact (createStatus_take hm _).mp hline.symm
  · rintro ⟨hrep,htyped,hfits⟩
    refine ⟨?_,?_,?_,?_,?_⟩
    · intro es1 a es2 t hes hr ht _
      obtain ⟨hsound,-⟩ := Starting.Sound.run h hr
      obtain ⟨e,hcall,-⟩ := responseObjectCall_of_headers (hsound.headers_isSome.trans ht) a
      exact ⟨e,hcall⟩
    · intro es1 a es2 t hes hr hsent hexc ha
      obtain ⟨hsound,htaken⟩ := Starting.Sound.run h hr
      have hstr : a.status ≠ .other := by
        obtain ⟨str,-,-,hstr,-⟩ := ha
        simp [hstr]
      have hno : ∀ b, StartEvent.call b ∈ es1 → ¬b.Acceptable := fun b hb hacc =>
        hrep ⟨es1,a,es2,t,hes,hr,⟨b,hb,hacc⟩,hsent,hexc,hstr⟩
      have hnone : t.taken = none := by
        rw [← Option.not_isSome_iff_eq_none,htaken]
        rintro ⟨b,hb,hacc⟩
        exact hno b hb hacc
      obtain ⟨code,n,hcode,hn,hcall⟩ := responseObjectCall_acceptable (hsound.idle hnone).1 ha
      exact ⟨_,hcall,rfl,hcode,(createStatus_take hn _).mpr (hfits es1 a es2 t hes hr hno ha)⟩
    · intro es1 a es2 t hes hr hsent hexc
      obtain ⟨hsound,-⟩ := Starting.Sound.run h hr
      have htaken : t.taken.isSome := by
        rw [Option.isSome_iff_ne_none]
        exact fun hnone => hsent (hsound.idle hnone).2.2
      obtain ⟨e,hcall,hgiven⟩ := responseObjectCall_of_headers (hsound.headers_isSome.trans htaken) a
      obtain rfl := hgiven.mpr ⟨hexc,fun hother => htyped ⟨es1,a,es2,t,hes,hr,hsent,hexc,hother⟩⟩
      exact hcall
    · intro es1 a es2 t hes hr hexc hcall hsent
      obtain ⟨hsound,htaken⟩ := Starting.Sound.run h hr
      -- only on a client with headers is the given exception raised
      obtain ⟨hsome,hstr⟩ := headers_of_given hcall
      rw [hsound.headers_isSome,htaken] at hsome
      exact hrep ⟨es1,a,es2,t,hes,hr,hsome,hsent,hexc,hstr⟩
    · intro es1 es2 t hes hr
      obtain ⟨hsound,-⟩ := Starting.Sound.run h hr
      cases ht : t.taken with
      | none => exact (hsound.idle ht).2.2
      | some a =>
        obtain ⟨es3,es4,u,rfl,hu,hno⟩ := Starting.taken_first h hr ht
        have hfit := hfits es3 a (es4 ++ es2) u (by simp [hes]) hu hno (hsound.took a ht).acceptable
        exact (hsound.took a ht).stores hsound.httpParser hfit

/-- `"500 Oops"`. -/
def oopsStatus : List ℕ := [53,48,48,32,79,111,112,115]

def okCall : StartResponseArgs where
  status := .str okStatus
  headers := some []

/-- The call of an application that reports an error. -/
def oopsCall : StartResponseArgs where
  status := .str oopsStatus
  headers := some []
  excInfo := true

theorem okCall_acceptable : okCall.Acceptable :=
  ⟨okStatus,[],200,rfl,rfl,by decide,copied_of_lt (by decide),by decide +kernel⟩

/-- A response that starts, on a socket that takes everything. -/
def startedFresh : Starting where
  client := {}
  world := { outcomes := [.count 1000] }

/-- A call, a head that is sent, and a call with `exc_info` after it. -/
theorem prescribed_sent : Prescribed {} none none startedFresh [.call okCall,.write,.call oopsCall] := by
  refine (prescribed_iff ⟨rfl,rfl,rfl,rfl,rfl⟩ _).mpr ⟨?_,?_,?_⟩
  · rintro ⟨es1,a,es2,t,hes,hr,⟨b,hb,-⟩,hsent,-⟩
    rcases es1 with _ | ⟨e1,_ | ⟨e2,_ | ⟨e3,es1⟩⟩⟩
    · simp at hb
    · simp at hes
    · obtain ⟨rfl,rfl,-⟩ : .call okCall = e1 ∧ .write = e2 ∧ _ := by simpa using hes
      have hout : (startedFresh.run {} none none [.call okCall,.write]).map
          (fun t => t.world.sent == []) = some false := by decide +kernel
      rw [hr] at hout
      simp [hsent,startedFresh] at hout
    · simp at hes
  · rintro ⟨es1,a,es2,t,hes,-,-,-,hother⟩
    have hall : ∀ b, StartEvent.call b ∈ [.call okCall,.write,.call oopsCall] → b.status ≠ .other := by
      simp [okCall,oopsCall]
    exact hall a (by rw [hes]; simp) hother
  · intro es1 a es2 t hes hr hno ha
    cases es1 with
    | nil =>
      obtain ⟨rfl,-⟩ : okCall = a ∧ _ := by simpa using hes
      unfold StatusFits
      decide
    | cons e es1 =>
      obtain ⟨rfl,-⟩ : .call okCall = e ∧ _ := by simpa using hes
      exact absurd okCall_acceptable (hno okCall (by simp))

/-- The call of an application with a status that is none. -/
def illCall : StartResponseArgs where
  status := .str [111,111,112,115]
  headers := some []
  excInfo := true

/-- A second call with `exc_info` raises its exception before anything is sent, whatever its status
is. -/
theorem not_prescribed : ¬Prescribed {} none none startedFresh [.call okCall,.call oopsCall] ∧
    ¬Prescribed {} none none startedFresh [.call okCall,.call illCall] := by
  have hrun : ∃ t, startedFresh.run {} none none [.call okCall] = some t ∧
      t.world.sent = startedFresh.world.sent ∧ responseObjectCall t.client oopsCall = .raised .given ∧
      responseObjectCall t.client illCall = .raised .given :=
    ⟨_,rfl,by decide +kernel,by decide +kernel,by decide +kernel⟩
  obtain ⟨t,hr,hsent,hoops,hill⟩ := hrun
  exact ⟨fun h => h.only [.call okCall] oopsCall [] t rfl hr rfl hoops hsent,
    fun h => h.only [.call okCall] illCall [] t rfl hr rfl hill hsent⟩

end Meinheld
