import Meinheld.Client

/-! `response.c`: from `start_response` to the last byte of a response. A run is driven by the list
of results the system calls on the socket will have. -/
namespace Meinheld

/-- The result of a `writev`, a `write` or a `sendfile`: `count n` accepts `n + 1` bytes, or what
it is given when that is less. -/
inductive Outcome
  | eagain
  | count (n : ℕ)
  | error (epipe : Bool)
  deriving DecidableEq, Repr

/-- What surrounds a client: the results to come, the bytes the socket has accepted, and how often
`close` of the response object was called. -/
structure World where
  outcomes : List Outcome
  sent : Bytes := []
  closeCalls : ℕ := 0
  deriving DecidableEq, Repr

/-- Why a run has no result: its outcomes are used up, the process died on a null pointer, or
memory was used that had been freed. -/
inductive Stop
  | pending | crash | dangling
  deriving DecidableEq, Repr

inductive Run (α : Type)
  | ret (a : α) (w : World)
  | stop (s : Stop) (w : World)
  deriving DecidableEq, Repr

abbrev Action (α : Type) := World → Run α

def Action.bind {α β : Type} (x : Action α) (f : α → Action β) : Action β := fun w =>
  match x w with
  | .ret a w' => f a w'
  | .stop s w' => .stop s w'

instance : Monad Action where
  pure a := fun w => .ret a w
  bind := Action.bind

@[simp] theorem Action.pure_apply {α : Type} (a : α) (w : World) :
    (pure a : Action α) w = .ret a w := rfl

theorem Action.bind_apply {α β : Type} (x : Action α) (f : α → Action β) (w : World) :
    (x >>= f) w = match x w with
      | .ret a w' => f a w'
      | .stop s w' => .stop s w' := rfl

/-- A sequence returns when both parts do. -/
theorem Action.bind_eq_ret {α β : Type} {x : Action α} {f : α → Action β} {b : β} {w w' : World} :
    (x >>= f) w = .ret b w' ↔ ∃ a v, x w = .ret a v ∧ f a v = .ret b w' := by
  rw [Action.bind_apply]
  cases h : x w <;> simp

theorem Action.bind_assoc {α β γ : Type} (x : Action α) (f : α → Action β) (h : β → Action γ) :
    (x >>= f) >>= h = x >>= fun a => f a >>= h := by
  funext w
  simp only [Action.bind_apply]
  cases x w <;> rfl

theorem Action.bind_pure {α : Type} (x : Action α) : (x >>= fun a => pure a) = x := by
  funext w
  simp only [Action.bind_apply]
  cases x w <;> rfl

theorem Action.pure_bind {α β : Type} (a : α) (f : α → Action β) : (pure a >>= f) = f a := rfl

def die {α : Type} (s : Stop) : Action α := fun w => .stop s w

/-- The bytes `data` are accepted by the socket. -/
def World.send (w : World) (data : Bytes) : World := { w with sent := w.sent ++ data }

inductive ResponseStatus
  | OK | SUSPEND | ERROR
  deriving DecidableEq, Repr

def SERVER : Bytes := ascii "meinheld/1.0.2"

/-- `H_MSG_400` to `H_MSG_503`, and `H_MSG_500` for every other status. -/
def errorHead : ℕ → Bytes
  | 400 => ascii "HTTP/1.0 400 Bad Request\r\nContent-Type: text/html\r\nServer: " ++ SERVER ++
      CRLF ++ CRLF
  | 408 => ascii "HTTP/1.0 408 Request Timeout\r\nContent-Type: text/html\r\nServer: " ++ SERVER ++
      CRLF ++ CRLF
  | 411 => ascii "HTTP/1.0 411 Length Required\r\nContent-Type: text/html\r\nServer: " ++ SERVER ++
      CRLF ++ CRLF
  | 413 => ascii "HTTP/1.0 413 Request Entity Too Large\r\nContent-Type: text/html\r\nServer: " ++
      SERVER ++ CRLF ++ CRLF
  | 417 => ascii "HTTP/1.1 417 Expectation Failed\r\nContent-Type: text/html\r\nServer: " ++
      SERVER ++ CRLF ++ CRLF
  | 503 => ascii "HTTP/1.0 503 Service Unavailable\r\nContent-Type: text/html\r\nServer: " ++
      SERVER ++ CRLF ++ CRLF
  | _ => ascii "HTTP/1.0 500 Internal Server Error\r\nContent-Type: text/html\r\nServer:  " ++
      SERVER ++ CRLF ++ CRLF

/-- `MSG_400` to `MSG_503` after their heads. -/
def errorBody : ℕ → Bytes
  | 400 => ascii "<html><head><title>Bad Request</title></head><body><p>Bad Request.</p></body></html>"
  | 408 => ascii ("<html><head><title>Request Timeout</title></head><body><p>Request " ++
      "Timeout.</p></body></html>")
  | 411 => ascii ("<html><head><title>Length Required</title></head><body><p>Length " ++
      "Required.</p></body></html>")
  | 413 => ascii ("<html><head><title>Request Entity Too Large</title></head><body><p>Request " ++
      "Entity Too Large.</p></body></html>")
  | 417 => ascii ("<html><head><title>Expectation Failed</title></head><body><p>Expectation " ++
      "Failed.</p></body></html>")
  | 503 => ascii ("<html><head><title>Service Unavailable</title></head><body><p>Service " ++
      "Unavailable.</p></body></html>")
  | _ => ascii ("<html><head><title>500 Internal Server Error</title></head><body><h1>Internal " ++
      "Server Error</h1><p>The server encountered an internal error and was unable to complete " ++
      "your request.  Either the server is overloaded or there is an error in the " ++
      "application.</p></body></html>")

/-- `wsgi_to_bytes` in Python 3; `none` is NULL with an exception. -/
def wsgiToBytes : PyObj → Option Bytes
  | .str s => if s.all (· < 256) then some (s.map UInt8.ofNat) else none
  | .other => none

/-- The loop of `blocking_write`, on the results to come. -/
def blockingWriteLoop : List Outcome → Client → Bytes → Action Client
  | _, c, [], w => .ret c w
  | [], _, _ :: _, w => .stop .pending w
  | o :: os, c, b :: data, w =>
    let w := { w with outcomes := os }
    match o with
    | .eagain => blockingWriteLoop os c (b :: data) w
    | .error true =>
      .ret { c with keepAlive := false, statusCode := 500, headerDone := true, responseClosed := true } w
    | .error false => .ret { c with keepAlive := false } w
    | .count n =>
      let r := (b :: data).take (n + 1)
      blockingWriteLoop os { c with writeBytes := c.writeBytes + r.length }
        ((b :: data).drop (n + 1)) (w.send r)

def blockingWrite (c : Client) (data : Bytes) : Action Client := fun w =>
  blockingWriteLoop w.outcomes c data w

/-- `send_error_page`; `shutdown(fd, SHUT_RD)` is left out. -/
def sendErrorPage (c : Client) : Action Client :=
  if c.headerDone ∨ c.responseClosed then pure c
  else do
    let head := errorHead c.statusCode
    let c ← blockingWrite c (head ++ errorBody c.statusCode)
    pure { c with
      writeBytes := (c.writeBytes + (2 ^ 64 - head.length)) % 2 ^ 64
      keepAlive := false
      headerDone := true
      responseClosed := true }

def newWriteBucket (cnt : ℕ) : WriteBucket := { iovSize := cnt }

def set2bucket (b : WriteBucket) (buf : Bytes) (item : Bool := false) : WriteBucket :=
  { b with
    iov := b.iov ++ [⟨buf,item⟩]
    total := (b.total + buf.length) % 2 ^ 32
    totalSize := (b.totalSize + buf.length) % 2 ^ 32 }

def setChunkedData (b : WriteBucket) (lendata data : Bytes) : WriteBucket :=
  set2bucket (set2bucket (set2bucket (set2bucket b lendata) CRLF) data true) CRLF

def setLastChunkedData (b : WriteBucket) : WriteBucket :=
  set2bucket (set2bucket (set2bucket b (ascii "0")) CRLF) CRLF

/-- `add_header` of the response. -/
def addResponseHeader (b : WriteBucket) (key val : Bytes) : WriteBucket :=
  set2bucket (set2bucket (set2bucket (set2bucket b key) (ascii ": ")) val) CRLF

/-- The bytes a bucket still has to write. -/
def WriteBucket.bytes (b : WriteBucket) : Bytes := b.iov.flatMap (·.base)

/-- Whether the bucket points into freed memory. -/
def WriteBucket.dangles (b : WriteBucket) : Bool := b.freed && b.iov.any fun v => v.item && v.base ≠ []

/-- The loop of `writev_bucket` that takes the `w` bytes written off the iovecs. -/
def advance : ℕ → List Iovec → List Iovec
  | _, [] => []
  | w, v :: vs =>
    if w > v.base.length then { v with base := [] } :: advance (w - v.base.length) vs
    else { v with base := v.base.drop w } :: vs

/-- What that loop leaves of its `w`. -/
def advanceLeft : ℕ → List Iovec → ℕ
  | w, [] => w
  | w, v :: vs => if w > v.base.length then advanceLeft (w - v.base.length) vs else w

/-- `writev_bucket`, on the results to come. What is subtracted from `total` is the `w` the loop has
left, not all that was written. -/
def writevBucketLoop : List Outcome → WriteBucket → Action (ResponseStatus × WriteBucket)
  | [], _, w => .stop .pending w
  | o :: os, b, w =>
    let w := { w with outcomes := os }
    if b.dangles then .stop .dangling w
    else match o with
      | .eagain => .ret (.SUSPEND,b) w
      | .error _ => .ret (.ERROR,b) w
      | .count n =>
        let r := b.bytes.take (n + 1)
        if r.length ≠ 0 ∧ b.total > r.length then
          writevBucketLoop os
            { b with
              iov := advance r.length b.iov
              total := b.total - advanceLeft r.length b.iov } (w.send r)
        else .ret (.OK,{ b with sended := true }) (w.send r)

def writevBucket (b : WriteBucket) : Action (ResponseStatus × WriteBucket) := fun w =>
  writevBucketLoop w.outcomes b w

/-- `set_file_content_length`, for a file of the size `fstat` gives. -/
def setFileContentLength (size : ℕ) (c : Client) (b : WriteBucket) : Client × WriteBucket :=
  ({ c with contentLengthSet := true, contentLength := size },
    addResponseHeader b (ascii "Content-Length") (decimal size))

def isspace (c : Byte) : Bool := c = SP || 9 ≤ c && c ≤ 13

/-- The digits `strtol` reads, added to `n`, and what follows them. -/
def strtolDigits : ℕ → Bytes → ℕ × Bytes
  | n, [] => (n,[])
  | n, c :: s => if isNum c then strtolDigits (n * 10 + (c.toNat - 48)) s else (n,c :: s)

/-- The sign `strtol` reads. -/
def strtolSign : Bytes → Bool × Bytes
  | [] => (false,[])
  | c :: s =>
    if c = '-'.toUInt8 then (true,s) else if c = '+'.toUInt8 then (false,s) else (false,c :: s)

/-- `strtol(s, &end, 10)`: the value with the rest after it, `none` for `ERANGE`. -/
def strtol (s : Bytes) : Option ℤ × Bytes :=
  let sign := strtolSign (s.dropWhile isspace)
  match sign.2 with
  | [] => (some 0,s)
  | c :: _ =>
    if !isNum c then (some 0,s)
    else
      let d := strtolDigits 0 sign.2
      let l : ℤ := if sign.1 then -d.1 else d.1
      (if -2 ^ 63 ≤ l ∧ l < 2 ^ 63 then some l else none,d.2)

/-- The length `add_all_headers` takes from a `Content-Length` value; `none` is its
"invalid content length". -/
def contentLengthValue (value : Bytes) : Option ℕ :=
  let r := strtol (cstr value)
  match r.1 with
  | some l => if r.2 ≠ [] ∨ l < 0 then none else some l.toNat
  | none => none

/-- How `add_all_headers` ends: -1, the death of the process, or 1. -/
inductive HeadersResult
  | error (c : Client)
  | crash
  | ok (c : Client) (b : WriteBucket)
  deriving DecidableEq, Repr

/-- One header whose name and value are bytes; `none` is a `goto error`. -/
def addOneHeader (c : Client) (b : WriteBucket) (name value : Bytes) :
    Option (Client × WriteBucket) :=
  if (cstr name).contains ':'.toUInt8 then none
  else if (cstr name).contains LF ∨ (cstr value).contains LF then none
  else if strcasecmp name (ascii "Server") ∨ strcasecmp name (ascii "Date") then some (c,b)
  else if !c.contentLengthSet ∧ strcasecmp name (ascii "Content-Length") then
    (contentLengthValue value).map fun l =>
      ({ c with contentLengthSet := true, contentLength := l },addResponseHeader b name value)
  else some (c,addResponseHeader b name value)

/-- `add_all_headers`. `PyBytes_AsStringAndSize` dereferences the NULL of `wsgi_to_bytes`. -/
def addAllHeaders : List HeaderItem → Client → WriteBucket → HeadersResult
  | [], c, b => .ok c b
  | .tuple [obj1,obj2] :: hs, c, b =>
    match wsgiToBytes obj1,wsgiToBytes obj2 with
    | some name,some value =>
      match addOneHeader c b name value with
      | some r => addAllHeaders hs r.1 r.2
      | none => .error c
    | _,_ => .crash
  | _ :: _, c, _ => .error c

def addStatusLine (g : Globals) (c : Client) (b : WriteBucket) : WriteBucket :=
  match c.httpStatus with
  | some value =>
    addResponseHeader (addResponseHeader (set2bucket b value) (ascii "Server") SERVER)
      (ascii "Date") g.httpTime
  | none => b

def getChunkData (datalen : ℕ) : Bytes := hex datalen

def setFirstBodyData (c : Client) (b : WriteBucket) : Option Bytes → WriteBucket
  | some data =>
    if c.chunkedResponse then setChunkedData b (getChunkData data.length) data
    else set2bucket b data true
  | none => b

def isNoBody (c : Client) : Bool :=
  (match c.currentReq with
    | some req => req.method == .HEAD
    | none => false) ||
  c.statusCode < 200 || c.statusCode == 204 || c.statusCode == 304

/-- `write_headers` chooses the chunked coding. -/
def chunkedHeader (c : Client) (data : Option Bytes) (b : WriteBucket) : Client × WriteBucket :=
  if !isNoBody c ∧ data.isSome ∧ !c.contentLengthSet ∧ c.httpParser.httpMinor = 1 then
    ({ c with chunkedResponse := true },
      addResponseHeader b (ascii "Transfer-Encoding") (ascii "chunked"))
  else (c,b)

/-- `write_headers` declares the size of a file, which `isFile` holds. -/
def fileHeader (c : Client) (isFile : Option ℕ) (b : WriteBucket) : Client × WriteBucket :=
  match isFile with
  | some size => if c.contentLengthSet then (c,b) else setFileContentLength size c b
  | none => (c,b)

/-- The `Connection` header. -/
def connectionValue (c : Client) : Bytes :=
  if c.statusCode = 101 then ascii "upgrade"
  else if c.keepAlive then ascii "Keep-Alive" else ascii "close"

/-- The bucket `write_headers` builds, the empty line included. -/
def buildHead (g : Globals) (c : Client) (headers : List HeaderItem) (data : Option Bytes)
    (isFile : Option ℕ) : HeadersResult :=
  match addAllHeaders headers c (addStatusLine g c (newWriteBucket (headers.length * 4 + 42))) with
  | .ok c b =>
    let r := chunkedHeader c data b
    let r := fileHeader r.1 isFile r.2
    .ok r.1 (set2bucket (addResponseHeader r.2 (ascii "Connection") (connectionValue r.1)) CRLF)
  | r => r

/-- The end of `write_headers`: the bucket is written. -/
def writeHead (c : Client) (b : WriteBucket) (data : Option Bytes) :
    Action (ResponseStatus × Client) := do
  let r ← writevBucket (setFirstBodyData c b data)
  match r.1 with
  | .SUSPEND => pure (.SUSPEND,{ c with bucket := some r.2 })
  | .ERROR => pure (.ERROR,{ c with headerDone := true, bucket := none })
  | .OK => pure (.OK,{ c with
      headerDone := true
      bucket := none
      writeBytes := c.writeBytes + (data.map List.length).getD 0 })

def writeHeaders (g : Globals) (c : Client) (data : Option Bytes) (isFile : Option ℕ) :
    Action (ResponseStatus × Client) :=
  if c.headerDone then pure (.OK,c)
  else match c.headers with
    | none => pure (.ERROR,c)
    | some headers =>
      match buildHead g c headers data isFile with
      | .error c => pure (.ERROR,c)
      | .crash => die .crash
      | .ok c b => writeHead c b data

def closeResponse (c : Client) : Action (ResponseStatus × Client) := fun w =>
  match c.response with
  | some r =>
    if !c.responseClosed ∧ r.hasClose then
      .ret (if r.closeRaises then .ERROR else .OK,{ c with responseClosed := true })
        { w with closeCalls := w.closeCalls + 1 }
    else .ret (.OK,c) w
  | none => .ret (.OK,c) w

/-- `write_sendfile` passes `content_length` on as an `int`; `sendfile` answers a negative one with
`EINVAL`, whatever the socket is like. -/
def sendfileRefuses (contentLength : ℕ) : Bool := decide (2 ^ 31 ≤ contentLength % 2 ^ 32)

/-- The number of bytes `sendfile` may transfer: `content_length` through an `int`, and at most what
Linux transfers at once. -/
def sendfileCount (contentLength : ℕ) : ℕ :=
  if sendfileRefuses contentLength then 0 else min (contentLength % 2 ^ 32) 0x7ffff000

/-- The loop of `process_sendfile`, on the results to come; `rest` is the file from the offset of its
descriptor on, which stays where it is when the loop is left. -/
def sendfileLoop : List Outcome → Bytes → Client → Action (ResponseStatus × Client × Bytes)
  | [], rest, c, w =>
    if c.contentLength > c.writeBytes then
      if sendfileRefuses c.contentLength then
        .ret (.ERROR,{ c with keepAlive := false, statusCode := 500 },rest) w
      else .stop .pending w
    else .ret (.OK,c,rest) w
  | o :: os, rest, c, w =>
    if c.contentLength > c.writeBytes then
      if sendfileRefuses c.contentLength then
        .ret (.ERROR,{ c with keepAlive := false, statusCode := 500 },rest) w
      else
        let w := { w with outcomes := os }
        match o with
        | .eagain => .ret (.SUSPEND,c,rest) w
        | .error _ => .ret (.ERROR,{ c with keepAlive := false, statusCode := 500 },rest) w
        | .count n =>
          let r := rest.take (min (n + 1) (sendfileCount c.contentLength))
          sendfileLoop os (rest.drop r.length) { c with writeBytes := c.writeBytes + r.length }
            (w.send r)
    else .ret (.OK,c,rest) w

theorem sendfileLoop_done {c : Client} (h : c.contentLength ≤ c.writeBytes) (os : List Outcome)
    (rest : Bytes) (w : World) : sendfileLoop os rest c w = .ret (.OK,c,rest) w := by
  cases os <;> rw [sendfileLoop,if_neg (not_lt.mpr h)]

theorem sendfileLoop_refused {c : Client} (h : c.writeBytes < c.contentLength)
    (hr : sendfileRefuses c.contentLength = true) (os : List Outcome) (rest : Bytes) (w : World) :
    sendfileLoop os rest c w =
      .ret (.ERROR,{ c with keepAlive := false, statusCode := 500 },rest) w := by
  cases os <;> rw [sendfileLoop,if_pos h,if_pos hr]

theorem sendfileLoop_nil {c : Client} (h : c.writeBytes < c.contentLength)
    (hr : sendfileRefuses c.contentLength = false) (rest : Bytes) (w : World) :
    sendfileLoop [] rest c w = .stop .pending w := by
  rw [sendfileLoop,if_pos h,hr]
  rfl

theorem sendfileLoop_cons {c : Client} (h : c.writeBytes < c.contentLength)
    (hr : sendfileRefuses c.contentLength = false) (o : Outcome) (os : List Outcome) (rest : Bytes)
    (w : World) : sendfileLoop (o :: os) rest c w =
      match o with
      | .eagain => .ret (.SUSPEND,c,rest) { w with outcomes := os }
      | .error _ => .ret (.ERROR,{ c with keepAlive := false, statusCode := 500 },rest)
          { w with outcomes := os }
      | .count n =>
        let r := rest.take (min (n + 1) (sendfileCount c.contentLength))
        sendfileLoop os (rest.drop r.length) { c with writeBytes := c.writeBytes + r.length }
          (World.send { w with outcomes := os } r) := by
  rw [sendfileLoop,if_pos h,hr]
  rfl

/-- How the loop comes to return: with all sent, with a length that is refused, or after a first
result. -/
theorem sendfileLoop_ret {os : List Outcome} {rest rest' : Bytes} {c c' : Client} {w w' : World}
    {s : ResponseStatus} (h : sendfileLoop os rest c w = .ret (s,c',rest') w') :
    (c.contentLength ≤ c.writeBytes ∧ s = .OK ∧ c' = c ∧ rest' = rest ∧ w' = w) ∨
    (c.writeBytes < c.contentLength ∧ sendfileRefuses c.contentLength = true ∧ s = .ERROR ∧
      c' = { c with keepAlive := false, statusCode := 500 } ∧ rest' = rest ∧ w' = w) ∨
    (c.writeBytes < c.contentLength ∧ sendfileRefuses c.contentLength = false ∧
      ∃ o os', os = o :: os') := by
  rcases Nat.lt_or_ge c.writeBytes c.contentLength with hlt | hle
  · cases hr : sendfileRefuses c.contentLength with
    | true =>
      rw [sendfileLoop_refused hlt hr] at h
      simp only [Run.ret.injEq,Prod.mk.injEq] at h
      obtain ⟨⟨rfl,rfl,rfl⟩,rfl⟩ := h
      exact .inr (.inl ⟨hlt,rfl,rfl,rfl,rfl,rfl⟩)
    | false =>
      cases os with
      | nil =>
        rw [sendfileLoop_nil hlt hr] at h
        cases h
      | cons o os => exact .inr (.inr ⟨hlt,rfl,o,os,rfl⟩)
  · rw [sendfileLoop_done hle] at h
    simp only [Run.ret.injEq,Prod.mk.injEq] at h
    obtain ⟨⟨rfl,rfl,rfl⟩,rfl⟩ := h
    exact .inl ⟨hle,rfl,rfl,rfl,rfl⟩

/-- The ways through one turn of the loop. -/
theorem sendfileLoop_cases {P : Run (ResponseStatus × Client × Bytes) → Prop} {os : List Outcome}
    {rest : Bytes} {c : Client} {w : World}
    (done : c.contentLength ≤ c.writeBytes → P (.ret (.OK,c,rest) w))
    (refused : c.writeBytes < c.contentLength → sendfileRefuses c.contentLength = true →
      P (.ret (.ERROR,{ c with keepAlive := false, statusCode := 500 },rest) w))
    (pending : os = [] → P (.stop .pending w))
    (turn : c.writeBytes < c.contentLength → sendfileRefuses c.contentLength = false →
      ∀ o os', os = o :: os' → P (sendfileLoop (o :: os') rest c w)) :
    P (sendfileLoop os rest c w) := by
  rcases Nat.lt_or_ge c.writeBytes c.contentLength with hlt | hle
  · cases hr : sendfileRefuses c.contentLength with
    | true =>
      rw [sendfileLoop_refused hlt hr]
      exact refused hlt hr
    | false =>
      cases os with
      | nil =>
        rw [sendfileLoop_nil hlt hr]
        exact pending rfl
      | cons o os => exact turn hlt hr o os rfl
  · rw [sendfileLoop_done hle]
    exact done hle

/-- The response after some bytes of its file have been sent. -/
def Response.seek (r : Response) (rest : Bytes) : Response :=
  match r.kind with
  | .file size _ => { r with kind := .file size rest }
  | _ => r

def processSendfile (c : Client) (rest : Bytes) : Action (ResponseStatus × Client) := do
  let r ← fun w => sendfileLoop w.outcomes rest c w
  let c := { r.2.1 with response := r.2.1.response.map (·.seek r.2.2) }
  match r.1 with
  | .OK => closeResponse c
  | s => pure (s,c)

/-- The bucket `process_write` makes for an item. -/
def itemBucket (c : Client) (buf : Bytes) : WriteBucket :=
  if c.chunkedResponse then setChunkedData (newWriteBucket 4) (getChunkData buf.length) buf
  else set2bucket (newWriteBucket 1) buf true

/-- The `while` loop of `process_write`; `OK` is the end of the items or the `break`. -/
def processItems : List Item → Client → Action (ResponseStatus × Client)
  | [], c => pure (.OK,{ c with responseIter := some [] })
  | .raise :: _, c => pure (.ERROR,{ c with responseIter := some [] })
  | .other :: items, c => pure (.ERROR,{ c with responseIter := some items, statusCode := 500 })
  | .bytes buf :: items, c => do
    let r ← writevBucket (itemBucket c buf)
    let c := { c with responseIter := some items }
    match r.1 with
    | .OK =>
      let c := { c with writeBytes := c.writeBytes + buf.length }
      if c.contentLengthSet ∧ c.contentLength ≤ c.writeBytes then pure (.OK,c)
      else processItems items c
    | s => pure (s,{ c with bucket := some r.2 })

/-- `process_write` after its loop. What `writev_bucket` returns for the last chunk is not looked
at. -/
def finishWrite (r : ResponseStatus × Client) : Action (ResponseStatus × Client) :=
  match r.1 with
  | .OK =>
    if r.2.chunkedResponse then do
      let _ ← writevBucket (setLastChunkedData (newWriteBucket 3))
      closeResponse r.2
    else closeResponse r.2
  | s => pure (s,r.2)

def processWrite (c : Client) : Action (ResponseStatus × Client) :=
  match c.responseIter with
  | none => pure (.OK,c)
  | some items => processItems items c >>= finishWrite

/-- The end of `process_body`, where `CheckFileWrapper` chooses the rest of the response. -/
def processRest (c : Client) : Action (ResponseStatus × Client) :=
  match c.response with
  | none => die .crash
  | some r =>
    match r.kind with
    | .file _ rest => processSendfile c rest
    | _ => processWrite c

def processBody (c : Client) : Action (ResponseStatus × Client) :=
  match c.bucket with
  | none => processRest c
  | some b => do
    let r ← writevBucket b
    match r.1 with
    | .OK => processRest { c with writeBytes := c.writeBytes + r.2.totalSize, bucket := none }
    | .ERROR => pure (.ERROR,{ c with bucket := none })
    | .SUSPEND => pure (.SUSPEND,{ c with bucket := some r.2 })

/-- `start_response_file`. After an error of `write_headers` the length is set all the same. -/
def startResponseFile (g : Globals) (c : Client) (size : ℕ) : Action (ResponseStatus × Client) := do
  let r ← writeHeaders g c none (some size)
  pure (r.1,if r.2.contentLengthSet then r.2
    else { r.2 with contentLengthSet := true, contentLength := intToSize size })

/-- `Py_DECREF(item)` on the first item. -/
def releaseItem (r : Response) (c : Client) : Client :=
  { c with bucket := c.bucket.map fun b => { b with freed := !r.keepsItem } }

def startResponseWrite (g : Globals) (c : Client) (r : Response) :
    Action (ResponseStatus × Client) :=
  match r.kind with
  | .iter [] => writeHeaders g { c with responseIter := some [] } none none
  | .iter (.bytes buf :: items) => do
    let s ← writeHeaders g { c with responseIter := some items } (some buf) none
    pure (s.1,releaseItem r s.2)
  | .iter (_ :: items) => pure (.ERROR,{ c with responseIter := some items })
  | _ => pure (.ERROR,c)

def responseStart (g : Globals) (c : Client) : Action (ResponseStatus × Client) :=
  match c.response with
  | none => die .crash
  | some r =>
    if c.statusCode = 304 then writeHeaders g c none none
    else match r.kind with
      | .file size rest => do
        let s ← startResponseFile g c size
        if s.1 = .OK then processSendfile s.2 rest else pure s
      | _ => do
        let s ← startResponseWrite g c r
        if s.1 = .OK then processWrite s.2 else pure s

/-- `create_status`; `none` when the buffer's limit is passed. -/
def createStatus (bytes : Bytes) (httpMinor : ℕ) : Option Bytes :=
  let r1 := write2buf (newBuffer 256 0) (if httpMinor = 1 then ascii "HTTP/1.1 " else ascii "HTTP/1.0 ")
  let r2 := write2buf r1.2 bytes
  let r3 := write2buf r2.2 CRLF
  if r1.1 = .WRITE_OK ∧ r2.1 = .WRITE_OK ∧ r3.1 = .WRITE_OK then some r3.2.buf else none

/-- The exceptions a call of `start_response` leaves: the one `exc_info` holds, the two kinds it makes
itself, and the one Python makes of a NULL without an exception. -/
inductive StartError
  | given | typeError | valueError | systemError
  deriving DecidableEq, Repr

/-- What `start_response` reads before the first blank of a status, through `strtol` and an `int`. -/
def readStatus (bytes : Bytes) : Except StartError ℕ :=
  let line := cstr bytes
  if line = [] then .error .valueError
  else
    let r := strtol (line.takeWhile (· ≠ SP))
    match r.1 with
    | none => .error .typeError
    | some l =>
      let code := Int.bmod l (2 ^ 32)
      if r.2 ≠ [] then .error .typeError
      else if code < 100 ∨ code > 999 then .error .valueError
      else .ok code.toNat

/-- The status code of a status string; `none` is one of the errors. -/
def statusCodeOf (bytes : Bytes) : Option ℕ := (readStatus bytes).toOption

/-- The length of a status, which `start_response` keeps in an `int`; `none` is a negative one. -/
def byteLen (bytes : Bytes) : Option ℕ :=
  let n := bytes.length % 2 ^ 32
  if n < 2 ^ 31 then some n else none

/-- The bytes that `PyMem_Malloc(sizeof(char *) * bytelen)` gives for the copy of a status. -/
def statusRoom (bytelen : ℕ) : ℕ := max (8 * bytelen) 1

/-- The arguments of a `start_response` call; `headers` is `none` when it is no list. -/
structure StartResponseArgs where
  status : PyObj
  headers : Option (List HeaderItem)
  excInfo : Bool := false
  deriving DecidableEq, Repr

inductive CallResult
  | raised (e : StartError)
  | returned (c : Client)
  | crash
  deriving DecidableEq, Repr

/-- `ResponseObject_call` once it has the bytes of the status: it copies them, reads the code and
stores the call. For a negative length `PyMem_Malloc` gives NULL, and no exception is set; `strcpy`
copies the NUL as well. -/
def takeStatus (c : Client) (headers : List HeaderItem) (bytes : Bytes) : CallResult :=
  match byteLen bytes with
  | none => .raised .systemError
  | some n =>
    if statusRoom n < (cstr bytes).length + 1 then .crash
    else match readStatus bytes with
      | .error e => .raised e
      | .ok code => .returned { c with
          statusCode := code
          headers := some headers
          httpStatus := createStatus (bytes.take n) c.httpParser.httpMinor }

/-- `ResponseObject_call`, on the client `self->cli` points to. -/
def responseObjectCall (c : Client) (a : StartResponseArgs) : CallResult :=
  match a.status with
  | .other => .raised .typeError
  | .str s =>
    if c.headers.isSome ∧ a.excInfo then .raised .given
    else if c.headers.isSome then .raised .typeError
    else match a.headers with
      | none => .raised .typeError
      | some headers =>
        match wsgiToBytes (.str s) with
        | none => .crash
        | some bytes => takeStatus c headers bytes

end Meinheld
