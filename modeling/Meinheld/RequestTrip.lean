import Meinheld.BodyFidelity
import Meinheld.HeadRules
import Meinheld.HeaderLines

/-! Requests from the bytes a client sends to the requests of the server's queue. -/
namespace Meinheld

/-! ### The environ -/

/-- What a request target leaves in an environ is the same for every environ. -/
theorem setPathLoop_uniform (g : Globals) (n : ℕ) (s t : Bytes) (hs : s.length ≤ n) :
    ∃ (q : Option Bytes) (out : Bytes), ∀ env, setPathLoop g env s t =
      (q.elim env fun v => env.set (ascii "QUERY_STRING") v,out) := by
  have hquery : ∀ b : Bytes, ∃ q : Option Bytes, ∀ env, setQuery env b =
      q.elim env fun v => env.set (ascii "QUERY_STRING") v := by
    intro b
    by_cases h : querySlen b > 1
    · exact ⟨some (cstr (b.take (querySlen b - 1))),fun env => if_pos h⟩
    · exact ⟨none,fun env => if_neg h⟩
  induction n generalizing s t with
  | zero =>
    obtain rfl := List.length_eq_zero_iff.mp (Nat.le_zero.mp hs)
    exact ⟨none,t,fun env => rfl⟩
  | succ n ih =>
    -- a byte of the path that ends neither it nor the target
    have hstep : ∀ (c : Byte) (rest : Bytes), rest.length ≤ n → (∀ env, setPathLoop g env (c :: rest) t =
        if c = '?'.toUInt8 then (setQuery env (rest ++ [g.beyond]),t)
        else if c = '#'.toUInt8 then (env,t)
        else setPathLoop g env rest (t ++ [c])) →
        ∃ (q : Option Bytes) (out : Bytes), ∀ env, setPathLoop g env (c :: rest) t =
          (q.elim env fun v => env.set (ascii "QUERY_STRING") v,out) := by
      intro c rest hrest h
      by_cases h1 : c = '?'.toUInt8
      · obtain ⟨q,hq⟩ := hquery (rest ++ [g.beyond])
        exact ⟨q,t,fun env => by rw [h,if_pos h1,hq]⟩
      by_cases h2 : c = '#'.toUInt8
      · exact ⟨none,t,fun env => by rw [h,if_neg h1,if_pos h2]; rfl⟩
      obtain ⟨q,out,hq⟩ := ih rest (t ++ [c]) hrest
      exact ⟨q,out,fun env => by rw [h,if_neg h1,if_neg h2,hq]⟩
    rcases s with _ | ⟨c,_ | ⟨c1,_ | ⟨c2,rest⟩⟩⟩
    · exact ⟨none,t,fun env => rfl⟩
    · exact hstep c [] (Nat.zero_le n) fun env => by rw [setPathLoop]; simp
    · simp only [List.length_cons,List.length_nil] at hs
      exact hstep c [c1] (by simp only [List.length_cons,List.length_nil]; omega)
        fun env => by rw [setPathLoop]; simp
    · simp only [List.length_cons] at hs
      by_cases hp : c = '%'.toUInt8
      · obtain ⟨q,out,hq⟩ := ih rest (t ++ [unescape c1 c2]) (by omega)
        exact ⟨q,out,fun env => by rw [setPathLoop,if_pos hp,hq]⟩
      · exact hstep c (c1 :: c2 :: rest) (by simp only [List.length_cons]; omega)
          fun env => by rw [setPathLoop,if_neg hp]

theorem get?_setPath (g : Globals) (env : Environ) (buf : Bytes) {k : Bytes}
    (hk : k = ascii "PATH_INFO" ∨ k = ascii "QUERY_STRING" ∧ env.get? k = none) :
    (setPath g env buf).get? k = (setPath g [] buf).get? k := by
  obtain ⟨q,out,h⟩ := setPathLoop_uniform g buf.length buf [] le_rfl
  unfold setPath
  rw [h,h]
  simp only
  obtain rfl | ⟨rfl,henv⟩ := hk
  · rw [Environ.get?_set_self,Environ.get?_set_self]
  · rw [Environ.get?_set_of_ne _ _ (by decide),Environ.get?_set_of_ne _ _ (by decide)]
    cases q with
    | none => exact henv
    | some v => simp only [Option.elim_some,Environ.get?_set_self]

def PlainKey (k : Bytes) : Prop :=
  k.take 5 ≠ ascii "HTTP_" ∧ k ≠ ascii "CONTENT_TYPE" ∧ k ≠ ascii "CONTENT_LENGTH" ∧
    k ≠ ascii "REQUEST_METHOD"

theorem PlainKey.ne_header {k : Bytes} (h : PlainKey k) (s : Bytes) : k ≠ headerKey s := by
  rintro rfl
  exact h.1 rfl

theorem get?_finishEnv {k : Bytes} (h : PlainKey k) (p : HttpParser) (env : Environ) :
    (finishEnv p env).get? k = env.get? k := by
  obtain ⟨-,-,t3⟩ := get?_replaceEnvKey env
    (show ascii "HTTP_CONTENT_TYPE" ≠ ascii "CONTENT_TYPE" by decide)
  obtain ⟨-,-,l3⟩ := get?_replaceEnvKey (replaceEnvKey env (ascii "HTTP_CONTENT_TYPE")
    (ascii "CONTENT_TYPE")) (show ascii "HTTP_CONTENT_LENGTH" ≠ ascii "CONTENT_LENGTH" by decide)
  obtain ⟨-,h1,h2,h3⟩ := id h
  unfold finishEnv
  rw [Environ.get?_set_of_ne _ _ h3,l3 k (h.ne_header (ascii "CONTENT_LENGTH")) h2,
    t3 k (h.ne_header (ascii "CONTENT_TYPE")) h1]

theorem get?_mergeHeaders_plain {k : Bytes} (h : PlainKey k) (env : Environ) (entries : List (Bytes × Bytes))
    (he : ∀ e ∈ entries, ∃ s, e.1 = headerKey s) : (mergeHeaders env entries).get? k = env.get? k := by
  induction entries generalizing env with
  | nil => rfl
  | cons e entries ih =>
    obtain ⟨⟨s,hs⟩,he⟩ := List.forall_mem_cons.mp he
    rw [show mergeHeaders env (e :: entries) = mergeHeaders (mergeHeader env e.1 (cstr e.2)) entries from
      rfl,ih _ he,get?_mergeHeader,if_neg (hs ▸ h.ne_header s)]

/-- The environ of a request: what the client has sent, and what is known of the connection. -/
structure EnvironOf (g : Globals) (c : Client) (method : HttpMethod) (major minor : ℕ) (target : Bytes)
    (entries : List (Bytes × Bytes)) (env : Environ) : Prop where
  method : env.get? (ascii "REQUEST_METHOD") = some (requestMethod method)
  protocol : env.get? (ascii "SERVER_PROTOCOL") = some
    (if major = 1 ∧ minor = 1 then ascii "HTTP/1.1" else ascii "HTTP/1.0")
  target : ∀ k, k = ascii "PATH_INFO" ∨ k = ascii "QUERY_STRING" →
    env.get? k = (setPath g [] target).get? k
  header : ∀ s, headerKey s ≠ ascii "HTTP_CONTENT_TYPE" → headerKey s ≠ ascii "HTTP_CONTENT_LENGTH" →
    env.get? (headerKey s) = merged none (valuesOf (headerKey s) entries)
  contentType : env.get? (ascii "CONTENT_TYPE") =
    merged none (valuesOf (ascii "HTTP_CONTENT_TYPE") entries)
  contentLength : env.get? (ascii "CONTENT_LENGTH") =
    merged none (valuesOf (ascii "HTTP_CONTENT_LENGTH") entries)
  renamed : env.get? (ascii "HTTP_CONTENT_TYPE") = none ∧ env.get? (ascii "HTTP_CONTENT_LENGTH") = none
  connection : ∀ k, PlainKey k → k ≠ ascii "SERVER_PROTOCOL" → k ≠ ascii "PATH_INFO" →
    k ≠ ascii "QUERY_STRING" → env.get? k = (newEnviron g c).get? k

/-- A request that has its request line and its header lines. -/
structure Headed (g : Globals) (c : Client) (p : HttpParser) (target : Bytes)
    (entries : List (Bytes × Bytes)) (r : Request) : Prop where
  environ : EnvironOf g c p.method p.httpMajor p.httpMinor target entries r.environ
  method : r.method = p.method
  bodyLength : r.bodyLength = headersContentLength p
  body : r.body = .none
  bodyReaded : r.bodyReaded = 0
  badRequestCode : r.badRequestCode = 0

theorem PlainKey.connection : PlainKey (ascii "SERVER_PROTOCOL") ∧ PlainKey (ascii "PATH_INFO") ∧
    PlainKey (ascii "QUERY_STRING") := by
  unfold PlainKey
  decide +kernel

theorem get?_headersComplete {g : Globals} {p : HttpParser} {req : Request}
    (hf : ∀ f ∈ req.field, ∃ s, f = headerKey s) (hp : headersContentLength p ≤ g.maxContentLength)
    {k : Bytes} (hk : PlainKey k) :
    (headersComplete g p req).2.environ.get? k = (requestLineEnv g p req).get? k := by
  unfold headersComplete
  rw [if_neg (not_lt.mpr hp)]
  simp only
  rw [get?_finishEnv hk,lastHeader,addHeader]
  simp only
  split
  next f v hfield hvalue =>
    obtain ⟨s,rfl⟩ := hf f hfield
    simp only [Option.getD_some]
    rw [get?_mergeHeader,if_neg (hk.ne_header s)]
  · rfl

/-- Lines before the end of the head. -/
def Lined (g : Globals) (c : Client) (b : Buffer) (req : Request) : Prop :=
  ∃ entries : List (Bytes × Bytes), (∀ e ∈ entries, ∃ s, e.1 = headerKey s) ∧
    (∀ f ∈ req.field, ∃ s, f = headerKey s) ∧ req.environ = mergeHeaders (newEnviron g c) entries ∧
    req.path = some b ∧ req.body = .none ∧ req.bodyReaded = 0 ∧ req.badRequestCode = 0

theorem lined_linesCalls {g : Globals} {c : Client} {b : Buffer} {lines : List CutLine}
    (hin : ∀ l ∈ lines, l.Within) (hnum : lines.length ≤ LIMIT_REQUEST_FIELDS + 1) :
    ∃ req', headerCalls (lines.flatMap CutLine.calls) { environ := newEnviron g c, path := some b } =
      some (true,req') ∧ Lined g c b req' := by
  have hkeys : ∀ ls : List CutLine, ∀ e ∈ ls.map CutLine.entry, ∃ s, e.1 = headerKey s := by
    intro ls e he
    obtain ⟨l,-,rfl⟩ := List.mem_map.mp he
    exact ⟨_,rfl⟩
  rcases List.eq_nil_or_concat lines with rfl | ⟨ls,l,rfl⟩
  · exact ⟨_,rfl,[],by simp,by simp,rfl,rfl,rfl,rfl,rfl⟩
  · rw [List.concat_eq_append] at hin hnum ⊢
    rw [List.length_append,List.length_singleton] at hnum
    refine ⟨_,linesCalls_ok ⟨rfl,rfl,rfl,rfl⟩ hin (by omega),ls.map CutLine.entry,hkeys ls,?_,rfl,rfl,rfl,
      rfl,rfl⟩
    intro f hf
    obtain rfl : l.entry.1 = f := by simpa [Request.after] using hf
    exact ⟨_,rfl⟩

/-- What the request line leaves. -/
theorem Lined.plain {g : Globals} {c : Client} {b : Buffer} {req : Request} (h : Lined g c b req)
    {p : HttpParser} (hp : headersContentLength p ≤ g.maxContentLength) :
    ((headersComplete g p req).2.environ.get? (ascii "SERVER_PROTOCOL") = some
      (if p.httpMajor = 1 ∧ p.httpMinor = 1 then ascii "HTTP/1.1" else ascii "HTTP/1.0")) ∧
    (∀ k, k = ascii "PATH_INFO" ∨ k = ascii "QUERY_STRING" →
      (headersComplete g p req).2.environ.get? k = (setPath g [] b.buf).get? k) ∧
    ∀ k, PlainKey k → k ≠ ascii "SERVER_PROTOCOL" → k ≠ ascii "PATH_INFO" →
      k ≠ ascii "QUERY_STRING" →
      (headersComplete g p req).2.environ.get? k = (newEnviron g c).get? k := by
  obtain ⟨entries,he,hf,henv,hpath,-⟩ := h
  obtain ⟨k1,k2,k3⟩ := PlainKey.connection
  have hline : requestLineEnv g p req = setPath g (req.environ.set (ascii "SERVER_PROTOCOL")
      (if p.httpMajor = 1 ∧ p.httpMinor = 1 then ascii "HTTP/1.1" else ascii "HTTP/1.0")) b.buf := by
    rw [requestLineEnv,hpath]
  refine ⟨?_,?_,?_⟩
  · rw [get?_headersComplete hf hp k1,hline,get?_setPath_of_ne g _ _ (by decide) (by decide),
      Environ.get?_set_self]
  · rintro k (rfl | rfl)
    · rw [get?_headersComplete hf hp k2,hline,get?_setPath g _ _ (.inl rfl)]
    · rw [get?_headersComplete hf hp k3,hline,get?_setPath g _ _ (.inr ⟨rfl,?_⟩)]
      rw [Environ.get?_set_of_ne _ _ (by decide),henv,get?_mergeHeaders_plain k3 _ _ he]
      rfl
  · intro k hk h1 h2 h3
    rw [get?_headersComplete hf hp hk,get?_requestLineEnv g p req h1 h2 h3,henv,
      get?_mergeHeaders_plain hk _ _ he]

theorem headersComplete_rest {g : Globals} {p : HttpParser}
    (hp : headersContentLength p ≤ g.maxContentLength) (req : Request) :
    (headersComplete g p req).2.method = p.method ∧
      (headersComplete g p req).2.bodyLength = headersContentLength p ∧
      (headersComplete g p req).2.body = req.body ∧
      (headersComplete g p req).2.bodyReaded = req.bodyReaded ∧
      (headersComplete g p req).2.badRequestCode = req.badRequestCode := by
  unfold headersComplete
  rw [if_neg (not_lt.mpr hp)]
  simp only [lastHeader,addHeader,true_and]
  split <;> exact ⟨rfl,rfl,rfl⟩

/-- The two keys that are renamed, and the others. -/
theorem get?_finishEnv_header (p : HttpParser) {env : Environ}
    (htype : env.get? (ascii "CONTENT_TYPE") = none)
    (hlength : env.get? (ascii "CONTENT_LENGTH") = none) :
    (∀ s, headerKey s ≠ ascii "HTTP_CONTENT_TYPE" → headerKey s ≠ ascii "HTTP_CONTENT_LENGTH" →
      (finishEnv p env).get? (headerKey s) = env.get? (headerKey s)) ∧
    (finishEnv p env).get? (ascii "CONTENT_TYPE") = env.get? (ascii "HTTP_CONTENT_TYPE") ∧
    (finishEnv p env).get? (ascii "CONTENT_LENGTH") = env.get? (ascii "HTTP_CONTENT_LENGTH") ∧
    (finishEnv p env).get? (ascii "HTTP_CONTENT_TYPE") = none ∧
    (finishEnv p env).get? (ascii "HTTP_CONTENT_LENGTH") = none := by
  obtain ⟨t1,t2,t3⟩ := get?_replaceEnvKey env
    (show ascii "HTTP_CONTENT_TYPE" ≠ ascii "CONTENT_TYPE" by decide)
  obtain ⟨l1,l2,l3⟩ := get?_replaceEnvKey (replaceEnvKey env (ascii "HTTP_CONTENT_TYPE")
    (ascii "CONTENT_TYPE")) (show ascii "HTTP_CONTENT_LENGTH" ≠ ascii "CONTENT_LENGTH" by decide)
  have hset : ∀ k, k ≠ ascii "REQUEST_METHOD" → (finishEnv p env).get? k = (replaceEnvKey (replaceEnvKey env
      (ascii "HTTP_CONTENT_TYPE") (ascii "CONTENT_TYPE")) (ascii "HTTP_CONTENT_LENGTH")
      (ascii "CONTENT_LENGTH")).get? k := fun k hk => Environ.get?_set_of_ne _ _ hk
  refine ⟨fun s h1 h2 => ?_,?_,?_,?_,?_⟩
  · rw [hset _ (headerKey_ne (by decide)),l3 _ h2 (headerKey_ne (by decide)),
      t3 _ h1 (headerKey_ne (by decide))]
  · rw [hset _ (by decide),l3 _ (by decide) (by decide),t2,htype,Option.or_none]
  · rw [hset _ (by decide),l2,t3 _ (by decide) (by decide),t3 _ (by decide) (by decide),hlength,
      Option.or_none]
  · rw [hset _ (by decide),l3 _ (by decide) (by decide),t1]
  · rw [hset _ (by decide),l1]

/-- The lines of a head, and its end. -/
theorem headersComplete_headed {g : Globals} {p : HttpParser}
    (hp : headersContentLength p ≤ g.maxContentLength) (c : Client) (b : Buffer) {lines : List CutLine}
    (hin : ∀ l ∈ lines, l.Within) (h0 : ∀ l ∈ lines, 0 ∉ l.valueBytes)
    (hnum : lines.length ≤ LIMIT_REQUEST_FIELDS + 1) :
    ∃ req' r, headerCalls (lines.flatMap CutLine.calls) { environ := newEnviron g c, path := some b } =
        some (true,req') ∧ headersComplete g p req' = (true,r) ∧
      Headed g c p b.buf (lines.map CutLine.entry) r := by
  obtain ⟨req',hcalls,hlined⟩ := lined_linesCalls (g := g) (c := c) (b := b) hin hnum
  have hnew : Request.Bare { environ := newEnviron g c, path := some b } := ⟨rfl,rfl,rfl,rfl⟩
  obtain ⟨req1,env,hcalls1,hok,henv,hget⟩ := headersComplete_entries hp hnew hin h0 hnum
  obtain rfl : req' = req1 := by simpa using hcalls.symm.trans hcalls1
  obtain ⟨hprotocol,htarget,hconn⟩ := hlined.plain hp
  have hkey : ∀ s, env.get? (headerKey s) =
      merged none (valuesOf (headerKey s) (lines.map CutLine.entry)) := by
    intro s
    rw [hget _ (headerKey_ne (by decide)) (headerKey_ne (by decide)) (headerKey_ne (by decide)),
      newEnviron_headerKey]
  have hnone : ∀ k, k.take 5 ≠ ascii "HTTP_" → k ≠ ascii "SERVER_PROTOCOL" → k ≠ ascii "PATH_INFO" →
      k ≠ ascii "QUERY_STRING" → (newEnviron g c).get? k = none → env.get? k = none := by
    intro k h5 h1 h2 h3 hnew
    rw [hget k h1 h2 h3,valuesOf_not_header h5,hnew]
    rfl
  obtain ⟨hother,htype,hlength,hrenamed⟩ := get?_finishEnv_header p
    (hnone _ (by decide) (by decide) (by decide) (by decide) rfl)
    (hnone _ (by decide) (by decide) (by decide) (by decide) rfl)
  obtain ⟨entries,-,-,-,-,hbody,hreaded,hcode⟩ := hlined
  obtain ⟨h1,h2,h3,h4,h5⟩ := headersComplete_rest hp req'
  refine ⟨req',_,hcalls,Prod.ext hok rfl,⟨?_,hprotocol,htarget,?_,?_,?_,?_,hconn⟩,h1,h2,
    h3.trans hbody,h4.trans hreaded,h5.trans hcode⟩
  · rw [henv,finishEnv,Environ.get?_set_self]
  · intro s h1 h2
    rw [henv,hother s h1 h2,hkey]
  · rw [henv,htype]
    exact hkey (ascii "CONTENT_TYPE")
  · rw [henv,hlength]
    exact hkey (ascii "CONTENT_LENGTH")
  · rw [henv]
    exact hrenamed

/-! ### The calls of a head -/

def HeaderCall.callout : HeaderCall → Callout
  | .field buf => .headerField buf
  | .value buf => .headerValue buf

def FieldLine.cut (l : FieldLine) : CutLine := { first := l.name, value := [l.value] }

theorem FieldLine.calls_cut (ls : List FieldLine) : ls.flatMap FieldLine.calls =
    ((ls.map FieldLine.cut).flatMap CutLine.calls).map HeaderCall.callout := by
  induction ls with
  | nil => rfl
  | cons l ls ih =>
    rw [List.flatMap_cons,ih]
    simp [FieldLine.calls,FieldLine.cut,CutLine.calls,HeaderCall.callout]

theorem onCurrentReq_some {c : Client} {req s : Request} {f : Request → Option (Bool × Request)}
    (hc : c.currentReq = some req) (hf : f req = some (true,s)) :
    onCurrentReq c f = (true,{ c with currentReq := some s }) :=
  onCurrentReq_true.mpr ⟨req,s,hc,hf,rfl⟩

theorem replay_one {σ : Type} {cb : Settings σ} {call : Callout} {d e : σ} (h : call.run cb d = (true,e))
    (cs : List Callout) : replay cb (call :: cs) d = replay cb cs e := by
  simp only [replay,h]

theorem replay_headerCalls (g : Globals) {hs : List HeaderCall} {c : Client} {req req' : Request}
    (hc : c.currentReq = some req) (h : headerCalls hs req = some (true,req')) :
    replay (settings g) (hs.map HeaderCall.callout) c = some { c with currentReq := some req' } := by
  induction hs generalizing c req with
  | nil =>
    cases h
    rw [← hc]
    rfl
  | cons a as ih =>
    rw [headerCalls] at h
    split at h
    next req1 ha =>
      have hrun : a.callout.run (settings g) c = (true,{ c with currentReq := some req1 }) := by
        cases a with
        | field buf => exact onCurrentReq_some hc ha
        | value buf => exact onCurrentReq_some hc ha
      rw [List.map_cons,replay_one hrun,ih rfl h]
    next hno => exact absurd h (hno req')

/-- The bytes of the body. -/
def MessageBody.data : MessageBody → Bytes
  | .none => []
  | .sized data => data
  | .chunked cs _ _ => cs.flatMap Chunk.data

def MessageBody.trailer : MessageBody → List FieldLine
  | .chunked _ _ trailer => trailer
  | _ => []

/-- The limits of the server on what a client sends, without a trailer. -/
structure WithinLimits (g : Globals) (m : HttpMessage) : Prop where
  target_le : m.head.target.length ≤ LIMIT_PATH
  name_le : ∀ l ∈ m.head.lines, (getHttpHeaderKey l.name).length ≤ LIMIT_REQUEST_FIELD_SIZE
  value_le : ∀ l ∈ m.head.lines, l.value.length ≤ LIMIT_REQUEST_FIELD_SIZE
  value_text : ∀ l ∈ m.head.lines, 0 ∉ l.value
  lines_le : m.head.lines.length ≤ LIMIT_REQUEST_FIELDS + 1
  data_le : m.body.data.length ≤ g.maxContentLength
  buffer_le : m.body.data.length ≤ LIMIT_MAX
  tmpfile : g.clientBodyBufferSize < m.body.data.length → g.tmpfile
  trailer_eq : m.body.trailer = []

/-- The entries of the header lines. -/
def RequestHead.entries (h : RequestHead) : List (Bytes × Bytes) :=
  h.lines.map fun l => (getHttpHeaderKey l.name,l.value)

/-- What the callbacks make of a head. -/
theorem replay_head {g : Globals} {m : HttpMessage} (hm : WithinLimits g m) (v : HeadView)
    (hv : headersContentLength v.parser ≤ g.maxContentLength) (c : Client) :
    ∃ r, replay (settings g) (m.head.fieldCalls ++ [.headersComplete v]) c = some { c with
        requestQueue := c.queue
        currentReq := some r
        complete := false
        keepAlive := httpShouldKeepAlive v.parser } ∧
      Headed g c v.parser m.head.target m.head.entries r := by
  obtain ⟨b,hurl,hbuf⟩ : ∃ b : Buffer, urlCb m.head.target { environ := newEnviron g c } =
      some (true,{ environ := newEnviron g c, path := some b }) ∧ b.buf = m.head.target := by
    have hw := write2buf_ok (b := newBuffer 1024 LIMIT_PATH) (c := m.head.target) (by decide)
      (by simpa [newBuffer,Buffer.len,LIMIT_PATH] using hm.target_le)
    exact ⟨_,urlCb_true.mpr ⟨congrArg Prod.fst hw,rfl⟩,congrArg (fun r => r.2.buf) hw⟩
  have hcut : ∀ l ∈ m.head.lines.map FieldLine.cut, l.Within ∧ 0 ∉ l.valueBytes := by
    intro l hl
    obtain ⟨x,hx,rfl⟩ := List.mem_map.mp hl
    refine ⟨⟨by simp [FieldLine.cut],?_,?_⟩,?_⟩
    · simpa [FieldLine.cut,CutLine.entry,CutLine.nameBytes] using hm.name_le x hx
    · simpa [FieldLine.cut,CutLine.entry,CutLine.valueBytes] using hm.value_le x hx
    · simpa [FieldLine.cut,CutLine.valueBytes] using hm.value_text x hx
  obtain ⟨req',r,hcalls,hdone,hheaded⟩ := headersComplete_headed hv c b
    (fun l hl => (hcut l hl).1) (fun l hl => (hcut l hl).2) (by simpa using hm.lines_le)
  have hentries : (m.head.lines.map FieldLine.cut).map CutLine.entry = m.head.entries := by
    simp [RequestHead.entries,FieldLine.cut,CutLine.entry,CutLine.nameBytes,CutLine.valueBytes,
      Function.comp_def]
  rw [hbuf,hentries] at hheaded
  refine ⟨r,?_,hheaded⟩
  have h1 : (Callout.messageBegin).run (settings g) c = (true,{ c with
      requestQueue := c.queue
      currentReq := some { environ := newEnviron g c }
      complete := false }) := rfl
  have h2 : (Callout.url m.head.target).run (settings g) { c with
      requestQueue := c.queue
      currentReq := some { environ := newEnviron g c }
      complete := false } = (true,{ c with
      requestQueue := c.queue
      currentReq := some { environ := newEnviron g c, path := some b }
      complete := false }) := onCurrentReq_some rfl hurl
  have h3 := replay_headerCalls g (c := { c with
      requestQueue := c.queue
      currentReq := some { environ := newEnviron g c, path := some b }
      complete := false }) rfl hcalls
  have h4 : (Callout.headersComplete v).run (settings g) { c with
      requestQueue := c.queue
      currentReq := some req'
      complete := false } = (true,{ c with
      requestQueue := c.queue
      currentReq := some r
      complete := false
      keepAlive := httpShouldKeepAlive v.parser }) :=
    @onCurrentReq_some { c with
      requestQueue := c.queue
      currentReq := some req'
      complete := false
      keepAlive := httpShouldKeepAlive v.parser } req' r
      (fun req => some (headersComplete g v.parser req)) rfl (congrArg some hdone)
  rw [RequestHead.fieldCalls,List.cons_append,List.cons_append,replay_one h1,replay_one h2,replay_append,
    FieldLine.calls_cut,h3,Option.bind_some,replay_one h4]
  rfl

/-! ### The calls of a body -/

/-- A request with the bytes of a body so far. -/
structure BodySoFar (g : Globals) (r : Request) (bytes : Bytes) (s : Request) : Prop where
  holds : s.Holds g bytes
  rest : s = { r with body := s.body, bodyReaded := bytes.length }

theorem replay_bodyParts {g : Globals} {flags : Flags} {r : Request} {ds : List Bytes} {bytes : Bytes}
    {s : Request} (hs : BodySoFar g r bytes s) (hmax : bytes.length + ds.flatten.length ≤ g.maxContentLength)
    (hbuf : ds.flatten.length ≤ LIMIT_MAX) (hsmall : r.bodyLength ≤ LIMIT_MAX)
    (htmp : g.clientBodyBufferSize < r.bodyLength → g.tmpfile)
    (hlen : ds ≠ [] → r.bodyLength = 0 ∧ flags.chunked ∨
      r.bodyLength ≠ 0 ∧ bytes.length + ds.flatten.length ≤ r.bodyLength) {c : Client}
    (hc : c.currentReq = some s) :
    ∃ s', replay (settings g) (ds.map (Callout.body flags)) c = some { c with currentReq := some s' } ∧
      BodySoFar g r (bytes ++ ds.flatten) s' := by
  induction ds generalizing bytes s c with
  | nil =>
    refine ⟨s,?_,by simpa using hs⟩
    rw [← hc]
    rfl
  | cons d ds ih =>
    replace hlen := hlen (List.cons_ne_nil d ds)
    rw [List.flatten_cons,List.length_append] at hmax hbuf hlen
    have hmax31 : LIMIT_MAX < 2 ^ 31 := by decide
    have hlength : s.bodyLength = r.bodyLength := by rw [hs.rest]
    have hlen' : s.bodyLength = 0 ∧ (HttpParser.flags { flags := flags }).chunked ∨
        s.bodyLength ≠ 0 ∧ bytes.length + d.length ≤ s.bodyLength := by
      rw [hlength]
      exact hlen.imp id fun h => ⟨h.1,by omega⟩
    obtain ⟨hover,-⟩ | ⟨hlt,ht,-⟩ | ⟨s1,hcb,hl1,hholds⟩ :=
      @Request.Holds.bodyCb_cases g { flags := flags } d bytes s hs.holds (by omega) hlen'
    · omega
    · rw [htmp (hlength ▸ hlt)] at ht
      cases ht
    · have hstep : BodySoFar g r (bytes ++ d) s1 := by
        obtain ⟨-,-,hwrite⟩ := bodyCb_true.mp hcb
        obtain ⟨-,hrest⟩ := writeBody_some hwrite
        refine ⟨?_,?_⟩
        · obtain ⟨h,-⟩ | ⟨-,hbig,-⟩ := hholds
          · exact h
          · omega
        · rw [hrest,hs.rest]
          simp
      have hrun : (Callout.body flags d).run (settings g) c = (true,{ c with currentReq := some s1 }) :=
        onCurrentReq_some hc hcb
      obtain ⟨s',hrep,hs'⟩ := ih hstep (by rw [List.length_append]; omega) (by omega)
        (fun _ => hlen.imp id fun h => ⟨h.1,by rw [List.length_append]; omega⟩)
        (c := { c with currentReq := some s1 }) rfl
      refine ⟨s',?_,?_⟩
      · rw [List.map_cons,replay_one hrun,hrep]
      · rwa [List.flatten_cons,← List.append_assoc]

/-! ### Messages -/

/-- The request of a message. -/
structure RequestOf (g : Globals) (c : Client) (m : HttpMessage) (r : Request) : Prop where
  environ : EnvironOf g c m.head.method m.head.major m.head.minor m.head.target m.head.entries r.environ
  method : r.method = m.head.method
  body : r.body.content.getD [] = m.body.data
  bodyReaded : r.bodyReaded = m.body.data.length
  badRequestCode : r.badRequestCode = 0

/-- All that an environ has of a client is the port. -/
theorem RequestOf.congr {g : Globals} {c c' : Client} {m : HttpMessage} {r : Request}
    (h : RequestOf g c m r) (hc : c'.remotePort = c.remotePort) : RequestOf g c' m r := by
  have hnew : newEnviron g c' = newEnviron g c := by rw [newEnviron,newEnviron,hc]
  refine ⟨?_,h.method,h.body,h.bodyReaded,h.badRequestCode⟩
  obtain ⟨h1,h2,h3,h4,h5,h6,h7,h8⟩ := h.environ
  exact ⟨h1,h2,h3,h4,h5,h6,h7,by rwa [hnew]⟩

def MessageBody.parts : MessageBody → List Bytes
  | .none => []
  | .sized data => [data]
  | .chunked cs _ _ => cs.map Chunk.data

theorem MessageBody.calls_parts {b : MessageBody} (hb : b.trailer = []) (F : Framing) :
    b.calls F = b.parts.map (Callout.body F.flags) ++ [.messageComplete false] := by
  cases b with
  | none => rfl
  | sized data => rfl
  | chunked cs last trailer =>
    obtain rfl : trailer = [] := hb
    simp [MessageBody.calls,MessageBody.parts,Function.comp_def]

theorem MessageBody.flatten_parts (b : MessageBody) : b.parts.flatten = b.data := by
  cases b with
  | none => rfl
  | sized data => exact List.append_nil data
  | chunked cs last trailer => exact List.flatMap_def.symm

def MessageBody.announced : MessageBody → ℕ
  | .sized data => data.length
  | _ => 0

theorem headersContentLength_fits {m : HttpMessage} {n : ℕ} {F : Framing} (hF : m.head.passed n = some F)
    (v : HeadView) (hv : v.contentLength = F.contentLength) :
    headersContentLength v.parser = m.body.announced := by
  have hfits := m.body_fits n F hF
  rw [headersContentLength,show v.parser.contentLength = F.contentLength from hv]
  cases hb : m.body with
  | none =>
    rw [hb] at hfits
    obtain ⟨-,h | h⟩ := hfits
    · rw [h]
      rfl
    · rw [h]
      rfl
  | sized data =>
    rw [hb] at hfits
    obtain ⟨-,h,-,hne⟩ := hfits
    rw [h,if_pos hne]
    rfl
  | chunked cs last trailer =>
    rw [hb] at hfits
    obtain ⟨hsaid,hpass⟩ := passed_eq_some.mp hF
    obtain ⟨-,h,-⟩ | ⟨c,s,k,-,-,-,-,-,hset⟩ := hsaid.length
    · rw [h]
      rfl
    · exact absurd ⟨hset,hfits⟩ hpass.1

/-- What the callbacks make of a message. -/
theorem replay_message {g : Globals} {m : HttpMessage} (hm : WithinLimits g m) {n : ℕ} {d : Delivery}
    (hd : m.read n = some d) (c : Client) :
    ∃ r, replay (settings g) d.calls c = some { c with
        requestQueue := c.queue
        currentReq := some r
        complete := true
        upgrade := false
        keepAlive := d.keepAlive } ∧
      RequestOf g c m r := by
  obtain ⟨F,hF,hd⟩ := Option.bind_eq_some_iff.mp hd
  obtain ⟨G,hG,rfl⟩ := Option.map_eq_some_iff.mp hd
  let v : HeadView := ⟨m.head.method,m.head.major,m.head.minor,F.flags,F.contentLength⟩
  have hlength := headersContentLength_fits hF v rfl
  have hann : m.body.announced = 0 ∨ m.body.announced = m.body.data.length := by
    cases m.body with
    | sized data => exact .inr rfl
    | none => exact .inl rfl
    | chunked cs last trailer => exact .inl rfl
  have hmax := hm.data_le
  have hbuf := hm.buffer_le
  obtain ⟨r,hhead,hr⟩ := replay_head hm v (by omega) c
  have hbodyLength : r.bodyLength = m.body.announced := hr.bodyLength.trans hlength
  have hstart : BodySoFar g r [] r := by
    refine ⟨⟨hr.bodyReaded,Nat.zero_le _,?_⟩,?_⟩
    · rw [hr.body]
    · rw [List.length_nil,← hr.bodyReaded]
  have hlen : m.body.parts ≠ [] → r.bodyLength = 0 ∧ F.flags.chunked ∨
      r.bodyLength ≠ 0 ∧ ([] : Bytes).length + m.body.parts.flatten.length ≤ r.bodyLength := by
    intro hne
    rw [m.body.flatten_parts,hbodyLength]
    have hfits := m.body_fits n F hF
    cases hb : m.body with
    | none =>
      rw [hb] at hne
      exact absurd rfl hne
    | sized data =>
      rw [hb] at hfits
      exact .inr ⟨by simpa [MessageBody.announced] using hfits.2.2.1,by
        simp [MessageBody.announced,MessageBody.data]⟩
    | chunked cs last trailer =>
      rw [hb] at hfits
      exact .inl ⟨rfl,hfits⟩
  obtain ⟨s,hbody,hs⟩ := @replay_bodyParts g F.flags r m.body.parts [] r hstart
    (by rw [m.body.flatten_parts,List.length_nil]; omega) (by rwa [m.body.flatten_parts])
    (by omega) (fun h => hm.tmpfile (by omega)) hlen
    { c with
      requestQueue := c.queue
      currentReq := some r
      complete := false
      keepAlive := httpShouldKeepAlive v.parser } rfl
  rw [List.nil_append,m.body.flatten_parts] at hs
  have hkeep : httpShouldKeepAlive v.parser = m.head.keepAlive G.flags := by
    have hflags : G.flags.connectionClose = F.flags.connectionClose ∧
        G.flags.connectionKeepAlive = F.flags.connectionKeepAlive := by
      have htr := hm.trailer_eq
      cases hb : m.body with
      | none =>
        rw [hb] at hG
        cases hG
        exact ⟨rfl,rfl⟩
      | sized data =>
        rw [hb] at hG
        cases hG
        exact ⟨rfl,rfl⟩
      | chunked cs last trailer =>
        rw [hb] at hG htr
        obtain rfl : trailer = [] := htr
        cases hG
        exact ⟨rfl,rfl⟩
    rw [httpShouldKeepAlive,RequestHead.keepAlive,hflags.1,hflags.2]
    rfl
  refine ⟨s,?_,?_,?_,?_,hs.holds.readed,?_⟩
  · rw [m.body.calls_parts hm.trailer_eq,List.append_cons,replay_append,hhead,Option.bind_some,
      replay_append,hbody,Option.bind_some,hkeep]
    rfl
  · rw [hs.rest]
    exact hr.environ
  · rw [hs.rest]
    exact hr.method
  · refine (hs.holds.content ?_).mpr fun _ => hbuf
    have hsame : s.bodyLength = r.bodyLength := by rw [hs.rest]
    rw [hsame,hbodyLength]
    exact .inr (hann.imp id Eq.symm)
  · rw [hs.rest]
    exact hr.badRequestCode

/-- What the callbacks make of some messages. -/
theorem replay_messages {g : Globals} {ms : List HttpMessage} (hms : ∀ m ∈ ms, WithinLimits g m)
    {keepAlive : Bool} {n : ℕ} {d : Delivery} (hd : deliver keepAlive n ms = some d) (c : Client) :
    ∃ rs c', replay (settings g) d.calls c = some c' ∧ List.Forall₂ (RequestOf g c) ms rs ∧
      c'.queue = c.queue ++ rs ∧
      (ms ≠ [] → c'.complete ∧ c'.upgrade = false ∧ c'.keepAlive = d.keepAlive ∧
        ∃ r, c'.currentReq = some r ∧ r.badRequestCode = 0) ∧
      c' = { c with
        requestQueue := c'.requestQueue
        currentReq := c'.currentReq
        complete := c'.complete
        upgrade := c'.upgrade
        keepAlive := c'.keepAlive } := by
  induction ms generalizing keepAlive n d c with
  | nil =>
    cases hd
    exact ⟨[],c,rfl,.nil,(List.append_nil _).symm,fun h => absurd rfl h,rfl⟩
  | cons m ms ih =>
    obtain ⟨hm,hms⟩ := List.forall_mem_cons.mp hms
    rw [deliver] at hd
    split at hd
    next hk =>
      obtain ⟨d1,hd1,hd⟩ := Option.bind_eq_some_iff.mp hd
      obtain ⟨e,he,rfl⟩ := Option.map_eq_some_iff.mp hd
      obtain ⟨r,hrun,hr⟩ := replay_message hm hd1 c
      obtain ⟨rs,c',hrest,hrs,hqueue,hend,heq⟩ := ih hms he { c with
        requestQueue := c.queue
        currentReq := some r
        complete := true
        upgrade := false
        keepAlive := d1.keepAlive }
      refine ⟨r :: rs,c',?_,.cons hr (hrs.imp fun m r h => h.congr rfl),?_,fun _ => ?_,heq⟩
      · rw [replay_append,hrun,Option.bind_some,hrest]
      · rw [hqueue]
        simp [Client.queue]
      · cases ms with
        | nil =>
          cases he
          cases hrest
          exact ⟨rfl,rfl,rfl,r,rfl,hr.badRequestCode⟩
        | cons m' ms => exact hend (List.cons_ne_nil m' ms)
    · cases hd

/-- Requests sent one after the other on a connection are queued in that order, each with the environ
and the body of what was sent. -/
theorem requests_read {g : Globals} {ms : List HttpMessage} (hne : ms ≠ [])
    (hms : ∀ m ∈ ms, WithinLimits g m) {c : Client} (hp : c.httpParser.state = .sStartReq)
    (he : c.httpParser.httpErrno = .OK) (hu : c.httpParser.upgrade = false) (hc : c.aborted = false)
    (hn : Room c.httpParser.nread ms) {d : Delivery}
    (hd : deliver true c.httpParser.setContentLength ms = some d) :
    ∃ rs, List.Forall₂ (RequestOf g c) ms rs ∧ ∃ c', c'.queue = c.queue ++ rs ∧
      c'.keepAlive = d.keepAlive ∧ ∀ w,
        readRequest g c (.data (ms.flatMap HttpMessage.text)) w = .ret (.finish,c') w := by
  have htext : ms.flatMap HttpMessage.text ≠ [] := by
    cases ms with
    | nil => exact absurd rfl hne
    | cons m ms =>
      obtain ⟨b,s,hb,-⟩ := m.head.text_cons
      simp [HttpMessage.text,hb]
  have htrace := @trace_messages ms c.httpParser true hp hu hn
  rw [hd] at htrace
  generalize ht : trace c.httpParser none (ms.flatMap HttpMessage.text) = o at htrace
  cases htrace with
  | @some t _ hbetween =>
    obtain ⟨rs,c',hrep,hrs,hqueue,hend,heq⟩ := replay_messages hms hd { c with complete := false }
    obtain ⟨hcomplete,hup,hkeep,r,hr,hcode⟩ := hend hne
    have hrun := executeLoop_trace (settings_views g) ht (hbetween.calls ▸ hrep) 0 []
    rw [List.append_nil,hbetween.mark,Nat.zero_add] at hrun
    have hparse : executeParse g c (ms.flatMap HttpMessage.text) =
        ({ c' with httpParser := t.parser },((ms.flatMap HttpMessage.text).length : ℤ)) := by
      rw [executeParse,httpParserExecute_start (settings g) hp he _ htext,hrun]
      rfl
    refine ⟨rs,hrs.imp fun m r h => h.congr rfl,{ c' with httpParser := t.parser },hqueue,hkeep,
      fun w => ?_⟩
    have halive : c'.aborted = false := by
      rw [heq]
      exact hc
    rw [readRequest,parseHttpRequest,hparse]
    simp only [halive,parsedRequest,hr,hup,hcode,parserFinish,hcomplete]
    simp

def pairText : Bytes :=
  ascii "POST /a HTTP/1.1\r\nTransfer-Encoding: Chunked\r\n\r\n2;x\r\nhi\r\n0\r\n\r\n" ++
    ascii "GET /c?d HTTP/1.0\r\n\r\n"

/-- Two requests, the first one with a chunk. -/
theorem requests_read_pair : ∃ r1 r2 c', readRequest {} (idleClient 80 true) (.data pairText) ⟨[],[],0⟩ =
      .ret (.finish,c') ⟨[],[],0⟩ ∧ c'.queue = [r1,r2] ∧ r1.body.content.getD [] = ascii "hi" ∧
      r2.environ.get? (ascii "PATH_INFO") = some (ascii "/c") ∧
      r2.environ.get? (ascii "QUERY_STRING") = some (ascii "d") := by
  let coding : FieldLine := ⟨ascii "Transfer-Encoding",ascii " ",ascii "Chunked",by decide,
    by decide +kernel,by decide +kernel,by decide +kernel,by decide +kernel⟩
  let h1 : RequestHead := {
    method := .POST
    word := ascii "POST"
    target := ascii "/a"
    majorText := ascii "1"
    minorText := ascii "1"
    major := 1
    minor := 1
    lines := [coding]
    word_spelled := by decide +kernel
    target_end := by decide +kernel
    major_eq := by decide +kernel
    major_first := by decide +kernel
    minor_eq := by decide +kernel }
  let h2 : RequestHead := {
    method := .GET
    word := ascii "GET"
    target := ascii "/c?d"
    majorText := ascii "1"
    minorText := ascii "0"
    major := 1
    minor := 0
    lines := []
    word_spelled := by decide +kernel
    target_end := by decide +kernel
    major_eq := by decide +kernel
    major_first := by decide +kernel
    minor_eq := by decide +kernel }
  let chunk : Chunk := ⟨ascii "hi",⟨ascii "2",ascii ";x",by decide +kernel,by decide +kernel,
    by decide +kernel,by decide +kernel⟩,by decide⟩
  let last : SizeLine 0 := ⟨ascii "0",[],by decide +kernel,by decide +kernel,by decide +kernel,
    by decide +kernel⟩
  let m1 : HttpMessage := ⟨h1,.chunked [chunk] last [],
    fits_chunked ⟨coding,by simp [h1],by decide +kernel⟩ _ _ _,by decide +kernel⟩
  let m2 : HttpMessage := ⟨h2,.none,fits_none (by decide +kernel) (by simp [h2]),by decide +kernel⟩
  have htext : [m1,m2].flatMap HttpMessage.text = pairText := by decide +kernel
  have hm1 : WithinLimits {} m1 := ⟨by decide,by decide +kernel,by decide +kernel,by decide +kernel,
    by decide +kernel,by decide +kernel,by decide +kernel,fun _ => rfl,rfl⟩
  have hm2 : WithinLimits {} m2 := ⟨by decide,by decide +kernel,by decide +kernel,by decide +kernel,
    by decide +kernel,by decide +kernel,by decide +kernel,fun _ => rfl,rfl⟩
  have hd : (deliver true 0 [m1,m2]).isSome := by decide +kernel
  obtain ⟨d,hd⟩ := Option.isSome_iff_exists.mp hd
  obtain ⟨rs,hrs,c',hqueue,-,hread⟩ := @requests_read {} [m1,m2] (by simp)
    (List.forall_mem_cons.mpr ⟨hm1,List.forall_mem_cons.mpr ⟨hm2,by simp⟩⟩) (idleClient 80 true)
    rfl rfl rfl rfl ⟨by decide +kernel,by decide +kernel,trivial⟩ d hd
  rw [htext] at hread
  cases hrs with
  | @cons _ r1 _ _ hr1 hrs =>
    cases hrs with
    | @cons _ r2 _ _ hr2 hrs =>
      cases hrs
      refine ⟨r1,r2,c',hread _,hqueue,hr1.body,?_,?_⟩
      · rw [hr2.environ.target _ (.inl rfl)]
        decide +kernel
      · rw [hr2.environ.target _ (.inr rfl)]
        decide +kernel

end Meinheld
