import Meinheld.Head

/-! Runs of a response from `response_start` to the end of the loop of `app_handler`. -/
namespace Meinheld

/-- A client whose response has not been started: as `new_client_t` or `clean_client` leaves it,
but for the status and headers of `start_response`. -/
structure Client.Fresh (c : Client) : Prop where
  headerDone : c.headerDone = false
  chunkedResponse : c.chunkedResponse = false
  contentLengthSet : c.contentLengthSet = false
  contentLength : c.contentLength = 0
  writeBytes : c.writeBytes = 0
  responseIter : c.responseIter = none

/-- What `app_handler` has when the application has returned and `response_closed` is not set: its
client and the response. -/
structure Answer where
  client : Client
  response : Response
  fresh : client.Fresh
  notClosed : client.responseClosed = false

/-- The client `response_start` gets. -/
def Answer.start (a : Answer) : Client := { a.client with response := some a.response }

def Answer.headers (a : Answer) : List HeaderItem := a.client.headers.getD []

/-- The body bytes that go out with the head. -/
def Answer.first (a : Answer) : Option Bytes :=
  if a.client.statusCode = 304 then none
  else match a.response.kind with
    | .iter (.bytes d :: _) => some d
    | _ => none

/-- The items after the first, when `response_start` iterates. -/
def Answer.items (a : Answer) : Option (List Item) :=
  if a.client.statusCode = 304 then none
  else match a.response.kind with
    | .iter items => some items.tail
    | _ => none

/-- The size of the file whose length the server declares. -/
def Answer.fileSize (a : Answer) : Option ℕ :=
  if a.client.statusCode = 304 then none
  else match a.response.kind with
    | .file size _ => some size
    | _ => none

/-- The client `write_headers` gets. -/
def Answer.starting (a : Answer) : Client := { a.start with responseIter := a.items }

/-- The head of the response. -/
def Answer.head (g : Globals) (a : Answer) : Bytes :=
  headBytes g a.starting a.headers a.first a.fileSize

theorem head_pos (g : Globals) (a : Answer) : 0 < (a.head g).length := by
  simp [Answer.head,headBytes]

/-- The client once the head is built. -/
def Answer.headed (a : Answer) : Client := headClient a.starting a.headers a.first a.fileSize

/-- `write_headers` accepts the headers of the application. -/
def Answer.Accepted (g : Globals) (a : Answer) : Prop :=
  ∃ hs c b, a.client.headers = some hs ∧ buildHead g a.starting hs a.first a.fileSize = .ok c b

theorem cleanClient_fresh (c : Client) : (cleanClient c).Fresh := ⟨rfl,rfl,rfl,rfl,rfl,rfl⟩

theorem newClientT_fresh (port : ℕ) : (newClientT port).Fresh := ⟨rfl,rfl,rfl,rfl,rfl,rfl⟩

/-- All that is stored when the bytes of a status are taken. -/
theorem takeStatus_returned {c c' : Client} {hs : List HeaderItem} {bytes : Bytes}
    (h : takeStatus c hs bytes = .returned c') : ∃ code n, n ∈ byteLen bytes ∧
      readStatus bytes = .ok code ∧ (cstr bytes).length < statusRoom n ∧ c' = { c with
        statusCode := code
        headers := some hs
        httpStatus := createStatus (bytes.take n) c.httpParser.httpMinor } := by
  unfold takeStatus at h
  split at h
  · cases h
  next n hn =>
    split at h
    · cases h
    next hroom =>
      split at h
      · cases h
      next code hcode =>
        exact ⟨code,n,hn,hcode,by omega,(CallResult.returned.inj h).symm⟩

/-- All a call of `start_response` changes. -/
theorem responseObjectCall_returned {c c' : Client} {a : StartResponseArgs}
    (h : responseObjectCall c a = .returned c') :
    ∃ code hs line, c' = { c with statusCode := code, headers := some hs, httpStatus := line } := by
  obtain ⟨status,headers,excInfo⟩ := a
  cases status with
  | other => simp [responseObjectCall] at h
  | str s =>
    cases hh : c.headers with
    | some hs => cases excInfo <;> simp [responseObjectCall,hh] at h
    | none =>
      cases headers with
      | none => simp [responseObjectCall,hh] at h
      | some hs =>
        cases hb : wsgiToBytes (.str s) with
        | none => simp [responseObjectCall,hh,hb] at h
        | some bytes =>
          simp only [responseObjectCall,hh,hb,Option.isSome_none,Bool.false_eq_true,false_and,
            if_false] at h
          obtain ⟨code,n,-,-,-,rfl⟩ := takeStatus_returned h
          exact ⟨code,hs,_,rfl⟩

/-- The calls of `start_response` leave a client fresh. -/
theorem appCalls_fresh {as : List StartResponseArgs} {c c' : Client} {w w' : World}
    (hc : c.Fresh) (h : appCalls as c w = .ret c' w') : c'.Fresh := by
  induction as generalizing c with
  | nil =>
    simp only [appCalls,Action.pure_apply,Run.ret.injEq] at h
    exact h.1 ▸ hc
  | cons a as ih =>
    rw [appCalls] at h
    cases hcall : responseObjectCall c a with
    | raised =>
      simp only [hcall] at h
      exact ih hc h
    | returned c1 =>
      simp only [hcall] at h
      obtain ⟨code,hs,line,rfl⟩ := responseObjectCall_returned hcall
      have hc1 : Client.Fresh { c with statusCode := code, headers := some hs, httpStatus := line } :=
        ⟨hc.1,hc.2,hc.3,hc.4,hc.5,hc.6⟩
      exact ih hc1 h
    | crash => simp [hcall,die] at h

/-- The calls of `start_response` do not look at the world. -/
theorem appCalls_cases (as : List StartResponseArgs) (c : Client) :
    (∃ c', ∀ w, appCalls as c w = .ret c' w) ∨ ∀ w, appCalls as c w = .stop .crash w := by
  induction as generalizing c with
  | nil => exact .inl ⟨c,fun _ => rfl⟩
  | cons x as ih =>
    cases hcall : responseObjectCall c x with
    | raised => simpa only [appCalls,hcall] using ih c
    | returned c1 => simpa only [appCalls,hcall] using ih c1
    | crash =>
      right
      intro w
      simp only [appCalls,hcall]
      rfl

/-! Results of `writev` and what is left of them. -/

def Outcome.fatal : Outcome → Bool
  | .error _ => true
  | _ => false

theorem writevBucketLoop_suffix {os : List Outcome} {b : WriteBucket} {w w' : World}
    {r : ResponseStatus × WriteBucket} (h : writevBucketLoop os b w = .ret r w') :
    w'.outcomes <:+ os := by
  induction os generalizing b w with
  | nil => simp [writevBucketLoop] at h
  | cons o os ih =>
    simp only [writevBucketLoop] at h
    split at h
    · simp at h
    · cases o with
      | count n =>
        simp only at h
        split at h
        · exact (ih h).trans (List.suffix_cons _ _)
        · simp only [Run.ret.injEq] at h
          exact h.2 ▸ List.suffix_cons _ _
      | eagain =>
        simp only [Run.ret.injEq] at h
        exact h.2 ▸ List.suffix_cons _ _
      | error epipe =>
        simp only [Run.ret.injEq] at h
        exact h.2 ▸ List.suffix_cons _ _

theorem writevBucket_suffix {b : WriteBucket} {w w' : World}
    {r : ResponseStatus × WriteBucket} (h : writevBucket b w = .ret r w') :
    w'.outcomes <:+ w.outcomes := writevBucketLoop_suffix h

/-- A call of `writev_bucket` that is not `OK` has met `EAGAIN` or an error. -/
theorem writevBucketLoop_cause {os : List Outcome} {b b' : WriteBucket} {w w' : World}
    {s : ResponseStatus} (h : writevBucketLoop os b w = .ret (s,b') w') :
    s = .OK ∨ (s = .SUSPEND ∧ Outcome.eagain ∈ os) ∨ (s = .ERROR ∧ ∃ o ∈ os, o.fatal) := by
  induction os generalizing b w with
  | nil => simp [writevBucketLoop] at h
  | cons o os ih =>
    simp only [writevBucketLoop] at h
    split at h
    · simp at h
    · cases o with
      | count n =>
        simp only at h
        split at h
        · rcases ih h with h1 | ⟨h1,h2⟩ | ⟨h1,o,h2,h3⟩
          · exact .inl h1
          · exact .inr (.inl ⟨h1,List.mem_cons_of_mem _ h2⟩)
          · exact .inr (.inr ⟨h1,o,List.mem_cons_of_mem _ h2,h3⟩)
        · simp only [Run.ret.injEq,Prod.mk.injEq] at h
          exact .inl h.1.1.symm
      | eagain =>
        simp only [Run.ret.injEq,Prod.mk.injEq] at h
        exact .inr (.inl ⟨h.1.1.symm,by simp⟩)
      | error epipe =>
        simp only [Run.ret.injEq,Prod.mk.injEq] at h
        exact .inr (.inr ⟨h.1.1.symm,.error epipe,by simp,rfl⟩)

theorem writevBucket_cause {b b' : WriteBucket} {w w' : World} {s : ResponseStatus}
    (h : writevBucket b w = .ret (s,b') w') :
    s = .OK ∨ (s = .SUSPEND ∧ Outcome.eagain ∈ w.outcomes) ∨
      (s = .ERROR ∧ ∃ o ∈ w.outcomes, o.fatal) := writevBucketLoop_cause h

/-! The head and what goes out with it. -/

/-- The bytes of the first item as they follow the head. -/
def firstBytes (c : Client) : Option Bytes → Bytes
  | some d => if c.chunkedResponse then hex d.length ++ CRLF ++ d ++ CRLF else d
  | none => []

theorem setFirstBodyData_bytes (c : Client) (b : WriteBucket) (data : Option Bytes) :
    (setFirstBodyData c b data).bytes = b.bytes ++ firstBytes c data := by
  cases data with
  | none => simp [setFirstBodyData,firstBytes]
  | some d => cases h : c.chunkedResponse <;> simp [setFirstBodyData,firstBytes,h,getChunkData]

theorem setFirstBodyData_counted {c : Client} {b : WriteBucket} (data : Option Bytes)
    (h : b.Counted) : (setFirstBodyData c b data).Counted := by
  cases data with
  | none => exact h
  | some d =>
    cases hc : c.chunkedResponse
    · simpa [setFirstBodyData,hc] using set2bucket_counted d true h
    · simpa [setFirstBodyData,hc] using setChunkedData_counted (getChunkData d.length) d h

theorem WriteBucket.Counted.enough {b : WriteBucket} (h : b.Counted)
    (hlt : b.bytes.length < 2 ^ 32) : b.Enough := by
  rw [WriteBucket.Enough,h.total,Nat.mod_eq_of_lt hlt]

theorem WriteBucket.Counted.not_dangles {b : WriteBucket} (h : b.Counted) : b.dangles = false := by
  simp [WriteBucket.dangles,h.freed]

/-- The bucket `write_headers` writes. -/
def Answer.firstBucket (g : Globals) (a : Answer) : Option WriteBucket :=
  a.client.headers.bind fun hs =>
    match buildHead g a.starting hs a.first a.fileSize with
    | .ok c b => some (setFirstBodyData c b a.first)
    | _ => none

/-- The bucket with the head when the headers are accepted. -/
structure HeadBucket (g : Globals) (a : Answer) (b : WriteBucket) : Prop where
  bytes : b.bytes = a.head g
  counted : b.Counted
  plain : b.Plain
  built : a.firstBucket g = some (setFirstBodyData a.headed b a.first)

/-- With its headers accepted, a response starts with its head. -/
theorem writeHeaders_accepted {g : Globals} {a : Answer} (h : a.Accepted g) :
    ∃ b, HeadBucket g a b ∧
      writeHeaders g a.starting a.first a.fileSize = writeHead a.headed b a.first := by
  obtain ⟨hs,c,b,hhs,hb⟩ := h
  have hheaders : a.headers = hs := by simp [Answer.headers,hhs]
  obtain ⟨hadds,rfl⟩ := buildHead_ok hb
  refine ⟨b,⟨?_,hadds.counted (newWriteBucket_counted _),hadds.plain (by simp [WriteBucket.Plain,
    newWriteBucket]),?_⟩,?_⟩
  · rw [hadds.bytes,newWriteBucket_bytes,List.nil_append,Answer.head,hheaders]
  · simp only [Answer.firstBucket,hhs,Option.bind_some,hb,Answer.headed,hheaders]
  · have hdone : a.starting.headerDone = false := a.fresh.headerDone
    have hstart : a.starting.headers = some hs := hhs
    simp only [writeHeaders,hdone,Bool.false_eq_true,if_false,hstart,hb,Answer.headed,hheaders]

/-- Without its headers accepted, a response gets no further than `write_headers`. -/
theorem writeHeaders_rejected {g : Globals} {a : Answer} (h : ¬a.Accepted g) :
    (∃ c, writeHeaders g a.starting a.first a.fileSize = pure (.ERROR,c)) ∨
      writeHeaders g a.starting a.first a.fileSize = die .crash := by
  have hdone : a.starting.headerDone = false := a.fresh.headerDone
  have hstart : a.starting.headers = a.client.headers := rfl
  cases hhs : a.client.headers with
  | none =>
    exact .inl ⟨a.starting,by simp [writeHeaders,hdone,hstart,hhs]⟩
  | some hs =>
    cases hb : buildHead g a.starting hs a.first a.fileSize with
    | error c => exact .inl ⟨c,by simp [writeHeaders,hdone,hstart,hhs,hb]⟩
    | crash => exact .inr (by simp [writeHeaders,hdone,hstart,hhs,hb])
    | ok c b => exact absurd ⟨hs,c,b,hhs,hb⟩ h

/-- `write_headers` on its bucket: the head is out, or on its way, or the socket failed. -/
theorem writeHead_cases {c c' : Client} {b : WriteBucket} {data : Option Bytes} {w w' : World}
    {s : ResponseStatus} (h : writeHead c b data w = .ret (s,c') w') : w'.outcomes <:+ w.outcomes ∧
    ((s = .OK ∧ (∃ p, Part (setFirstBodyData c b data).Enough (setFirstBodyData c b data).bytes p ∧
      w'.sent = w.sent ++ p) ∧ c' = { c with
        headerDone := true
        bucket := none
        writeBytes := c.writeBytes + (data.map List.length).getD 0 }) ∨
    (s = .SUSPEND ∧ ∃ k b', Suspended (setFirstBodyData c b data) b' k ∧
      w'.sent = w.sent ++ (setFirstBodyData c b data).bytes.take k ∧
      c' = { c with bucket := some b' }) ∨
    (s = .ERROR ∧ ∃ o ∈ w.outcomes, o.fatal)) := by
  obtain ⟨⟨s1,b1⟩,v,hv,h⟩ := Action.bind_eq_ret.mp h
  have hres := writevBucket_result hv
  refine ⟨?_,?_⟩
  · have hsuf := writevBucket_suffix hv
    cases s1 <;>
      simp only [Action.pure_apply,Run.ret.injEq] at h <;> exact h.2 ▸ hsuf
  cases s1 with
  | OK =>
    simp only [Action.pure_apply,Run.ret.injEq,Prod.mk.injEq] at h
    obtain ⟨⟨rfl,rfl⟩,rfl⟩ := h
    cases hres with
    | ok p hp hsent _ => exact .inl ⟨rfl,⟨p,hp,hsent⟩,rfl⟩
  | SUSPEND =>
    simp only [Action.pure_apply,Run.ret.injEq,Prod.mk.injEq] at h
    obtain ⟨⟨rfl,rfl⟩,rfl⟩ := h
    cases hres with
    | suspend k hsent hsus => exact .inr (.inl ⟨rfl,k,b1,hsus,hsent,rfl⟩)
  | ERROR =>
    simp only [Action.pure_apply,Run.ret.injEq,Prod.mk.injEq] at h
    obtain ⟨⟨rfl,rfl⟩,rfl⟩ := h
    rcases writevBucket_cause hv with h1 | ⟨h1,_⟩ | ⟨_,h1⟩
    · simp at h1
    · simp at h1
    · exact .inr (.inr ⟨rfl,h1⟩)

/-- The client once the head has been written without a suspension. -/
def Answer.direct (a : Answer) : Client := { a.headed with
  headerDone := true
  bucket := none
  writeBytes := a.headed.writeBytes + (a.first.map List.length).getD 0 }

/-- What goes out with the head, the head included. -/
def Answer.opening (g : Globals) (a : Answer) : Bytes := a.head g ++ firstBytes a.headed a.first

/-- The bucket of the head with the first item. -/
structure Opening (g : Globals) (a : Answer) (b : WriteBucket) : Prop where
  bytes : b.bytes = a.opening g
  counted : b.Counted

theorem HeadBucket.opening {g : Globals} {a : Answer} {b : WriteBucket} (h : HeadBucket g a b) :
    Opening g a (setFirstBodyData a.headed b a.first) :=
  ⟨by rw [setFirstBodyData_bytes,h.bytes,Answer.opening],setFirstBodyData_counted _ h.counted⟩

/-- One `writev` that takes at least what the counter of the first bucket says ends it. -/
theorem writeHead_count {g : Globals} {a : Answer} {b : WriteBucket} (hb : HeadBucket g a b)
    {n : ℕ} {os : List Outcome} {w : World} (hw : w.outcomes = .count n :: os)
    (hn : (a.opening g).length % 2 ^ 32 ≤ ((a.opening g).take (n + 1)).length) :
    writeHead a.headed b a.first w = .ret (.OK,a.direct)
      { w with outcomes := os, sent := w.sent ++ (a.opening g).take (n + 1) } := by
  have hop := hb.opening
  have hv := writevBucket_count hop.counted.not_dangles hw
    (.inr (by rw [hop.counted.total,hop.bytes]; exact hn))
  simp only [writeHead,Action.bind_apply,hv,hop.bytes,Action.pure_apply]
  rfl

/-- A head that is not taken at once waits. -/
theorem writeHead_eagain {g : Globals} {a : Answer} {b : WriteBucket} (hb : HeadBucket g a b)
    {os : List Outcome} {w : World} (hw : w.outcomes = .eagain :: os) :
    writeHead a.headed b a.first w =
      .ret (.SUSPEND,{ a.headed with bucket := some (setFirstBodyData a.headed b a.first) })
        { w with outcomes := os } := by
  have hv := writevBucket_eagain hb.opening.counted.not_dangles hw
  simp only [writeHead,Action.bind_apply,hv,Action.pure_apply]

/-- Building the head touches only the framing of the client. -/
theorem headed_eq (a : Answer) : a.headed = { a.starting with
    chunkedResponse := a.headed.chunkedResponse
    contentLengthSet := a.headed.contentLengthSet
    contentLength := a.headed.contentLength } := by
  simp [Answer.headed,headClient,withLength_eq]

theorem headed_chunkedResponse (a : Answer) : a.headed.chunkedResponse =
    choosesChunked (a.starting.withLength (appLength a.headers)) a.first := by
  have hfresh : a.starting.chunkedResponse = false := a.fresh.chunkedResponse
  simp [Answer.headed,headClient,withLength_eq,hfresh]

theorem fileSize_of_first {a : Answer} (h : a.first.isSome) : a.fileSize = none := by
  revert h
  unfold Answer.first Answer.fileSize
  split
  · simp
  · cases a.response.kind <;> simp

/-- A chunked response has a first item and no length. -/
theorem headed_of_chunked {a : Answer} (h : a.headed.chunkedResponse = true) :
    a.first.isSome ∧ a.headed.contentLengthSet = false := by
  rw [headed_chunkedResponse] at h
  simp only [choosesChunked,Bool.and_eq_true,Bool.not_eq_true'] at h
  obtain ⟨⟨⟨_,hfirst⟩,hset⟩,_⟩ := h
  refine ⟨hfirst,?_⟩
  simpa [Answer.headed,headClient,fileSize_of_first hfirst,withLength_eq] using hset

/-! The ends of a response. -/

/-- `close_response` sends nothing, and what it does depends on the client alone; when it fails it
has been called. -/
theorem closeResponse_client (c : Client) : ∃ s closed, (s = .OK ∨ s = .ERROR ∧ closed = true) ∧
    ∀ w, ∃ n, closeResponse c w =
      .ret (s,{ c with responseClosed := closed }) { w with closeCalls := n } := by
  have hcases : (∀ w, closeResponse c w = .ret (.OK,c) w) ∨ ∃ s, (s = .OK ∨ s = .ERROR) ∧
      ∀ w, closeResponse c w = .ret (s,{ c with responseClosed := true })
        { w with closeCalls := w.closeCalls + 1 } := by
    unfold closeResponse
    cases c.response with
    | none => exact .inl fun _ => rfl
    | some r =>
      by_cases hc : !c.responseClosed ∧ r.hasClose
      · refine .inr ⟨if r.closeRaises then .ERROR else .OK,?_,fun _ => by simp only [if_pos hc]⟩
        cases r.closeRaises <;> simp
      · exact .inl fun _ => by simp only [if_neg hc]
  rcases hcases with h | ⟨s,hs,h⟩
  · exact ⟨.OK,c.responseClosed,.inl rfl,fun w => ⟨w.closeCalls,h w⟩⟩
  · exact ⟨s,true,hs.imp id (⟨·,rfl⟩),fun w => ⟨w.closeCalls + 1,h w⟩⟩

theorem closeResponse_spec (c : Client) (w : World) : ∃ s closed n,
    closeResponse c w = .ret (s,{ c with responseClosed := closed }) { w with closeCalls := n } ∧
      (s = .OK ∨ s = .ERROR ∧ closed = true) := by
  obtain ⟨s,closed,hs,h⟩ := closeResponse_client c
  obtain ⟨n,hn⟩ := h w
  exact ⟨s,closed,n,hn,hs⟩

theorem appLoop_of_ne {s : ResponseStatus} (hs : s ≠ .SUSPEND) (fuel : ℕ) (c : Client) (w : World) :
    appLoop fuel s c w = .ret (s,c) w := by
  cases s with
  | OK => cases fuel <;> rfl
  | ERROR => cases fuel <;> rfl
  | SUSPEND => exact absurd rfl hs

/-- A response that is not suspended ends with `response_start`. -/
theorem writeResponse_of_start {g : Globals} {c c' : Client} {w w' : World} {s : ResponseStatus}
    (h : responseStart g c w = .ret (s,c') w') (hs : s ≠ .SUSPEND) :
    writeResponse g c w = .ret (s,c') w' := by
  simp only [writeResponse,Action.bind_apply,h]
  exact appLoop_of_ne hs _ _ _

theorem releaseItem_of_none {r : Response} {c : Client} (h : c.bucket = none) :
    releaseItem r c = c := by
  simp only [releaseItem,h,Option.map_none]
  rw [← h]

/-- What `response_start` does with an iterable that gives bytes first. -/
theorem responseStart_iter {g : Globals} {a : Answer} {d : Bytes} {items : List Item}
    (h304 : a.client.statusCode ≠ 304) (hk : a.response.kind = .iter (.bytes d :: items)) :
    responseStart g a.start = (do
      let s ← writeHeaders g a.starting a.first a.fileSize
      let c := releaseItem a.response s.2
      if s.1 = .OK then processWrite c else pure (s.1,c)) := by
  have hresp : a.start.response = some a.response := rfl
  have h304' : a.start.statusCode ≠ 304 := h304
  have hfirst : a.first = some d := by simp [Answer.first,h304,hk]
  have hfile : a.fileSize = none := by simp [Answer.fileSize,h304,hk]
  have hst : a.starting = { a.start with responseIter := some items } := by
    simp [Answer.starting,Answer.items,h304,hk]
  have hstart : responseStart g a.start = (startResponseWrite g a.start a.response >>= fun s =>
      if s.1 = .OK then processWrite s.2 else pure s) := by
    simp only [responseStart,hresp,if_neg h304',hk]
  rw [hstart,hfirst,hfile,hst,startResponseWrite,hk]
  exact Action.bind_assoc _ _ _

theorem responseStart_iter_nil {g : Globals} {a : Answer}
    (h304 : a.client.statusCode ≠ 304) (hk : a.response.kind = .iter []) :
    responseStart g a.start = (do
      let s ← writeHeaders g a.starting a.first a.fileSize
      if s.1 = .OK then processWrite s.2 else pure s) := by
  have hresp : a.start.response = some a.response := rfl
  have h304' : a.start.statusCode ≠ 304 := h304
  have hfirst : a.first = none := by simp [Answer.first,h304,hk]
  have hfile : a.fileSize = none := by simp [Answer.fileSize,h304,hk]
  have hst : a.starting = { a.start with responseIter := some [] } := by
    simp [Answer.starting,Answer.items,h304,hk]
  have hstart : responseStart g a.start = (startResponseWrite g a.start a.response >>= fun s =>
      if s.1 = .OK then processWrite s.2 else pure s) := by
    simp only [responseStart,hresp,if_neg h304',hk]
  rw [hstart,hfirst,hfile,hst,startResponseWrite,hk]

theorem responseStart_file {g : Globals} {a : Answer} {size : ℕ} {rest : Bytes}
    (h304 : a.client.statusCode ≠ 304) (hk : a.response.kind = .file size rest) :
    responseStart g a.start = (do
      let s ← writeHeaders g a.starting a.first a.fileSize
      let c := if s.2.contentLengthSet then s.2
        else { s.2 with contentLengthSet := true, contentLength := intToSize size }
      if s.1 = .OK then processSendfile c rest else pure (s.1,c)) := by
  have hresp : a.start.response = some a.response := rfl
  have h304' : a.start.statusCode ≠ 304 := h304
  have hfirst : a.first = none := by simp [Answer.first,h304,hk]
  have hfile : a.fileSize = some size := by simp [Answer.fileSize,h304,hk]
  have hst : a.starting = a.start := by
    simp only [Answer.starting,Answer.items,h304,hk,if_false]
    rw [← show a.start.responseIter = none from a.fresh.responseIter]
  have hstart : responseStart g a.start = (startResponseFile g a.start size >>= fun s =>
      if s.1 = .OK then processSendfile s.2 rest else pure s) := by
    simp only [responseStart,hresp,if_neg h304',hk]
  rw [hstart,hfirst,hfile,hst,startResponseFile]
  exact Action.bind_assoc _ _ _

theorem responseStart_304 {g : Globals} {a : Answer} (h304 : a.client.statusCode = 304) :
    responseStart g a.start = writeHeaders g a.starting a.first a.fileSize := by
  have hresp : a.start.response = some a.response := rfl
  have h304' : a.start.statusCode = 304 := h304
  have hfirst : a.first = none := by simp [Answer.first,h304]
  have hfile : a.fileSize = none := by simp [Answer.fileSize,h304]
  have hst : a.starting = a.start := by
    simp only [Answer.starting,Answer.items,h304,if_true]
    rw [← show a.start.responseIter = none from a.fresh.responseIter]
  simp only [responseStart,hresp,if_pos h304',hfirst,hfile,hst]

theorem headed_responseIter (a : Answer) : a.headed.responseIter = a.items := by
  rw [headed_eq]
  rfl

theorem headed_response (a : Answer) : a.headed.response = some a.response := by
  rw [headed_eq]
  rfl

theorem headed_contentLengthSet {a : Answer} {size : ℕ} (h : a.fileSize = some size) :
    a.headed.contentLengthSet = true := by
  simp [Answer.headed,headClient,withLength_eq,h]

theorem processRest_direct {a : Answer} {size : ℕ} {rest : Bytes} (hk : a.response.kind = .file size rest) :
    processRest a.direct = processSendfile a.direct rest := by
  have hr : a.direct.response = some a.response := headed_response a
  simp only [processRest,hr,hk]

theorem processRest_direct_iter {a : Answer} {items : List Item} (hk : a.response.kind = .iter items) :
    processRest a.direct = processWrite a.direct := by
  have hr : a.direct.response = some a.response := headed_response a
  simp only [processRest,hr,hk]

/-- The response does not begin with something that is no bytes. -/
def Answer.Startable (a : Answer) : Prop := a.client.statusCode = 304 ∨
  match a.response.kind with
  | .notIterable => False
  | .file _ _ => True
  | .iter items => ∀ i ∈ items.head?, ∃ d, i = .bytes d

/-- Whether the first item may be freed while the head waits. -/
def Answer.releases (a : Answer) : Bool := a.first.isSome && !a.response.keepsItem

/-- What decides how an error ends is the same. -/
structure SameFlags (c c' : Client) : Prop where
  keepAlive : c'.keepAlive = c.keepAlive
  headerDone : c'.headerDone = c.headerDone
  responseClosed : c'.responseClosed = c.responseClosed
  response : c'.response = c.response

/-- What `response_start` does after `write_headers`. -/
structure AfterHead (g : Globals) (a : Answer)
    (f : ResponseStatus × Client → Action (ResponseStatus × Client)) : Prop where
  start : responseStart g a.start = writeHeaders g a.starting a.first a.fileSize >>= f
  ok : f (.OK,a.direct) =
    if a.client.statusCode = 304 then pure (.OK,a.direct) else processRest a.direct
  suspend : ∀ b : WriteBucket, b.freed = false → f (.SUSPEND,{ a.headed with bucket := some b }) =
    pure (.SUSPEND,{ a.headed with bucket := some { b with freed := a.releases } })
  error : ∀ c, ∃ c', f (.ERROR,c) = pure (.ERROR,c') ∧ SameFlags c c'

theorem exists_afterHead (g : Globals) {a : Answer} (h : a.Startable) : ∃ f, AfterHead g a f := by
  by_cases h304 : a.client.statusCode = 304
  · refine ⟨fun s => pure s,?_,by rw [if_pos h304],fun b hb => ?_,fun c => ⟨c,rfl,⟨rfl,rfl,rfl,rfl⟩⟩⟩
    · rw [responseStart_304 h304,Action.bind_pure]
    · simp only [Answer.releases,Answer.first,h304,if_true,Option.isSome_none,Bool.false_and]
      rw [← hb]
  · replace h := h.resolve_left h304
    cases hk : a.response.kind with
    | notIterable => simp [hk] at h
    | file size rest =>
      have hset : a.headed.contentLengthSet = true :=
        headed_contentLengthSet (show a.fileSize = some size by simp [Answer.fileSize,h304,hk])
      refine ⟨_,responseStart_file h304 hk,?_,fun b hb => ?_,fun c => ⟨_,rfl,?_⟩⟩
      · have hset' : a.direct.contentLengthSet = true := hset
        simp only [if_neg h304,hset',if_true,processRest_direct hk]
      · simp only [hset,if_true,reduceCtorEq,if_false,Answer.releases,Answer.first,h304,hk,
          Option.isSome_none,Bool.false_and]
        rw [← hb]
      · simp only
        split <;> exact ⟨rfl,rfl,rfl,rfl⟩
    | iter items =>
      rcases items with _ | ⟨i,items⟩
      · refine ⟨_,responseStart_iter_nil h304 hk,?_,fun b hb => ?_,fun c => ⟨_,rfl,⟨rfl,rfl,rfl,rfl⟩⟩⟩
        · simp only [if_neg h304,if_true,processRest_direct_iter hk]
        · simp only [reduceCtorEq,if_false,Answer.releases,Answer.first,h304,hk,
            Option.isSome_none,Bool.false_and]
          rw [← hb]
      · obtain ⟨d,rfl⟩ : ∃ d, i = .bytes d := by simpa [hk] using h
        refine ⟨_,responseStart_iter h304 hk,?_,fun b hb => ?_,fun c => ⟨_,rfl,⟨rfl,rfl,rfl,rfl⟩⟩⟩
        · have hrel : releaseItem a.response a.direct = a.direct := releaseItem_of_none rfl
          simp only [if_neg h304,if_true,hrel,processRest_direct_iter hk]
        · simp only [reduceCtorEq,if_false,releaseItem,Option.map_some,Answer.releases,Answer.first,
            h304,hk,Option.isSome_some,Bool.true_and]

end Meinheld
