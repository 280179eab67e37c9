import Meinheld.HttpRequestParser
import Meinheld.Response

/-! The part of `server.c` that reads a connection, hands its requests to the application and
ends its responses. -/
namespace Meinheld

/-- What the application returns. -/
inductive AppResult
  | raise
  | none
  | ret (r : Response)
  deriving DecidableEq, Repr

/-- One call of the application: its `start_response` calls in order, what it does with
`set_closed`, and what it returns. -/
structure AppRun where
  calls : List StartResponseArgs := []
  setClosed : Option Bool := .none
  result : AppResult
  deriving DecidableEq, Repr

/-- `clean_client`; the access log is left out. -/
def cleanClient (c : Client) : Client :=
  { c with
    httpStatus := none
    headers := none
    responseIter := none
    response := none
    currentReq := none
    headerDone := false
    responseClosed := false
    chunkedResponse := false
    contentLengthSet := false
    contentLength := 0
    writeBytes := 0 }

/-- The `start_response` calls of an application; it goes on when one raises. -/
def appCalls : List StartResponseArgs → Client → Action Client
  | [], c => pure c
  | a :: as, c =>
    match responseObjectCall c a with
    | .raised _ => appCalls as c
    | .returned c => appCalls as c
    | .crash => die .crash

/-- The label `error` of `app_handler`, up to `close_client`. -/
def appError (c : Client) : Action Client := do
  let r ← closeResponse { c with statusCode := 500 }
  sendErrorPage r.2

/-- The `while` loop of `app_handler` in the greenlet build: after a suspend it goes on when the
socket is writable. Each turn uses up an outcome. -/
def appLoop : ℕ → ResponseStatus → Client → Action (ResponseStatus × Client)
  | 0, .SUSPEND, _ => die .pending
  | fuel + 1, .SUSPEND, c => do
    let r ← processBody c
    appLoop fuel r.1 r.2
  | _, s, c => pure (s,c)

/-- `response_start` and the loop after it. -/
def writeResponse (g : Globals) (c : Client) : Action (ResponseStatus × Client) := fun w =>
  (do
    let s ← responseStart g c
    appLoop (w.outcomes.length + 1) s.1 s.2) w

/-- `app_handler` once the application has returned a response, up to `close_client`. -/
def respond (g : Globals) (c : Client) : Action Client := do
  let r ← writeResponse g c
  match r.1 with
  | .ERROR => appError r.2
  | _ => do
    let r ← closeResponse r.2
    pure r.2

/-- `app_handler`, up to `close_client`. -/
def appHandler (g : Globals) (app : AppRun) (c : Client) : Action Client := do
  let c ← appCalls app.calls c
  let c := { c with responseClosed := app.setClosed.getD c.responseClosed }
  match app.result with
  | .raise | .none => appError c
  | .ret r =>
    let c := { c with response := some r }
    if c.responseClosed then pure c else respond g c

/-- Whether a text starts with `100-continue`, in any case. -/
def expectsContinue (val : Bytes) : Bool := (val.take 12).map tolower == ascii "100-continue"

/-- `check_http_expect`, up to `close_client`; `false` is -1. -/
def checkHttpExpect (c : Client) : Action (Bool × Client) := fun w =>
  if c.httpParser.httpMinor = 1 then
    match c.currentReq.bind (·.environ.get? (ascii "HTTP_EXPECT")) with
    | none => .ret (true,c) w
    | some val =>
      if expectsContinue val then
        match w.outcomes with
        | [] => .stop .pending w
        | .count n :: os =>
          .ret (true,c)
            ({ w with outcomes := os }.send ((ascii "HTTP/1.1 100 Continue\r\n\r\n").take (n + 1)))
        | _ :: os =>
          (do let c ← sendErrorPage { c with keepAlive := false, statusCode := 500 }
              pure (false,c)) { w with outcomes := os }
      else
        (do let c ← sendErrorPage { c with keepAlive := false, statusCode := 417 }
            pure (false,c)) w
  else .ret (true,c) w

/-- `prepare_call_wsgi` after `set_current_request`, up to `close_client`. -/
def prepareCallWsgi (g : Globals) (c : Client) : Action (Bool × Client) := do
  let r ← checkHttpExpect c
  if r.1 then pure (true,{ r.2 with keepAlive := r.2.keepAlive && g.isKeepAlive }) else pure r

/-- What the head of the queue is put through by `check_status_code`, `prepare_call_wsgi` and
`call_wsgi_handler`, up to `close_client`; the flag says whether the application was called. -/
def handleRequest (g : Globals) (req : Request) (app : AppRun) (c : Client) :
    Action (Bool × Client) := do
  let c := { c with currentReq := some req }
  if req.badRequestCode > 200 then
    let c ← sendErrorPage { c with statusCode := req.badRequestCode }
    pure (false,c)
  else do
    let r ← prepareCallWsgi g c
    if r.1 then do
      let c ← appHandler g app r.2
      pure (true,c)
    else pure r

/-- `close_client`, up to the next request of the queue. -/
def closeClient (c : Client) : Action Client := do
  let r ← if c.responseClosed then pure (.OK,c) else closeResponse c
  pure (cleanClient r.2)

/-- One request of the queue as it was answered: the bytes the socket took for it, and whether the
application was called. -/
structure Served where
  bytes : Bytes
  dispatched : Bool
  deriving DecidableEq, Repr

/-- An action with the bytes it sends. -/
def tracked {α : Type} (x : Action α) : Action (Bytes × α) := fun w =>
  match x w with
  | .ret a w' => .ret (w'.sent.drop w.sent.length,a) w'
  | .stop s w' => .stop s w'

/-- One turn of the recursion of `close_client`: a request is handled and its client closed. -/
def serveOne (g : Globals) (req : Request) (app : AppRun) (c : Client) : Action (Served × Client) := do
  let r ← tracked do
    let r ← handleRequest g req app c
    let c ← closeClient r.2
    pure (r.1,c)
  pure (⟨r.1,r.2.1⟩,r.2.2)

/-- The recursion of `close_client` through the queue, each request with what the application
does when it is called for it. -/
def serve (g : Globals) : List (Request × AppRun) → Client → Action (List Served × Client)
  | [], c => pure ([],c)
  | (req,app) :: queue, c => do
    let r ← serveOne g req app { c with requestQueue := queue.map (·.1) }
    let s ← serve g queue r.2
    pure (r.1 :: s.1,s.2)

/-- How `read_request` leaves the connection: 0, 1 or -1. -/
inductive ReadEnd
  | pending | finish | closed
  deriving DecidableEq, Repr

/-- `set_bad_request_code`, on the tail of the queue. -/
def setBadRequestCode (c : Client) (statusCode : ℕ) : Client :=
  { c with currentReq := c.currentReq.map fun req => { req with badRequestCode := statusCode } }

def setReadError (c : Client) (statusCode : ℕ) : Action (ReadEnd × Client) :=
  let c := { c with keepAlive := false }
  let statusCode := if statusCode = 0 then 400 else statusCode
  if c.queue ≠ [] then pure (.finish,setBadRequestCode c statusCode)
  else do
    let c ← if c.complete then pure c else sendErrorPage { c with statusCode := statusCode }
    let c ← closeClient c
    pure (.closed,c)

def compareKey (env : Environ) (key compare : Bytes) : Bool :=
  match env.get? key with
  | some val => strcasecmp val compare
  | none => false

def checkWebsocket (env : Environ) : Bool :=
  (env.get? (ascii "HTTP_SEC_WEBSOCKET_KEY")).isSome &&
    compareKey env (ascii "HTTP_SEC_WEBSOCKET_VERSION") (ascii "13")

def parseNewProtocol (env : Environ) : Bool :=
  compareKey env (ascii "HTTP_UPGRADE") (ascii "websocket") && checkWebsocket env

/-- `parser_finish`, at the end of `parse_http_request`. -/
def parserFinish (c : Client) : Action (ReadEnd × Client) :=
  pure (if c.complete then .finish else .pending,c)

/-- What `parse_http_request` decides from the result of `execute_parse`. -/
def parsedRequest (r : ℕ) (c : Client) (nread : ℤ) : Action (ReadEnd × Client) :=
  match c.currentReq with
  | none => if c.upgrade then die .crash else setReadError c 400
  | some req =>
    if c.upgrade then
      if parseNewProtocol req.environ then parserFinish c else setReadError c req.badRequestCode
    else if nread ≠ r ∨ req.badRequestCode > 0 then setReadError c req.badRequestCode
    else parserFinish c

def parseHttpRequest (g : Globals) (c : Client) (buf : Bytes) : Action (ReadEnd × Client) :=
  let r := executeParse g c buf
  if r.1.aborted then die .crash else parsedRequest buf.length r.1 r.2

/-- What `read` gives. -/
inductive ReadResult
  | data (buf : Bytes)
  | eof
  | eagain
  | error (econnreset : Bool)
  deriving DecidableEq, Repr

def readRequest (g : Globals) (c : Client) : ReadResult → Action (ReadEnd × Client)
  | .data buf => parseHttpRequest g c buf
  | .eof => setReadError c 503
  | .eagain => pure (.pending,c)
  | .error econnreset => setReadError { c with
      keepAlive := false
      headerDone := c.headerDone || econnreset
      responseClosed := c.responseClosed || econnreset } 500

def readTimeout (c : Client) : Action (ReadEnd × Client) := setReadError c 408

end Meinheld
