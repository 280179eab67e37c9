import Meinheld.Client

/-! `http_request_parser.c`: the callbacks that turn what the parser finds into requests with
their environ. -/
namespace Meinheld

def LIMIT_PATH : ℕ := 1024 * 8
def LIMIT_REQUEST_FIELDS : ℕ := 128
def LIMIT_REQUEST_FIELD_SIZE : ℕ := 1024 * 8

/-- `new_environ`, its string entries. -/
def newEnviron (g : Globals) (c : Client) : Environ :=
  [(ascii "wsgi.url_scheme",ascii "http"),
   (ascii "SCRIPT_NAME",[]),
   (ascii "SERVER_NAME",g.serverName),
   (ascii "SERVER_PORT",decimal g.serverPort),
   (ascii "REMOTE_ADDR",cstr g.inetNtoa),
   (ascii "REMOTE_PORT",decimal c.remotePort)]

/-- `hex2int`, on a byte as a signed `char`. -/
def hex2int (c : Byte) : ℤ :=
  let i := signed (toupper c) - 48
  if i > 9 then i - 65 + 57 + 1 else i

/-- The `char` made of the two bytes after a `%`. -/
def unescape (c1 c2 : Byte) : Byte := UInt8.ofNat ((hex2int c1 * 16 + hex2int c2) % 256).toNat

def urldecode : Bytes → Bytes
  | [] => []
  | [c] => [c]
  | [c,d] => [c,d]
  | c :: c1 :: c2 :: rest =>
    if c = '%'.toUInt8 then unescape c1 c2 :: urldecode rest else c :: urldecode (c1 :: c2 :: rest)

/-- The loop of `set_query`: the value of `slen`. -/
def querySlen : Bytes → ℕ
  | [] => 0
  | c :: rest => if c = '#'.toUInt8 then 1 else querySlen rest + 1

/-- `set_query`, on the `len` bytes it reads from `buf`. -/
def setQuery (env : Environ) (buf : Bytes) : Environ :=
  let slen := querySlen buf
  if slen > 1 then env.set (ascii "QUERY_STRING") (cstr (buf.take (slen - 1))) else env

/-- The loop of `set_path`; `t` is what it has written so far. It counts the `?` into the length
it hands to `set_query`, which so reads the byte after the path. -/
def setPathLoop (g : Globals) (env : Environ) : Bytes → Bytes → Environ × Bytes
  | c :: c1 :: c2 :: rest, t =>
    if c = '%'.toUInt8 then setPathLoop g env rest (t ++ [unescape c1 c2])
    else if c = '?'.toUInt8 then (setQuery env (c1 :: c2 :: rest ++ [g.beyond]),t)
    else if c = '#'.toUInt8 then (env,t)
    else setPathLoop g env (c1 :: c2 :: rest) (t ++ [c])
  | c :: rest, t =>
    if c = '?'.toUInt8 then (setQuery env (rest ++ [g.beyond]),t)
    else if c = '#'.toUInt8 then (env,t)
    else setPathLoop g env rest (t ++ [c])
  | [], t => (env,t)

def setPath (g : Globals) (env : Environ) (buf : Bytes) : Environ :=
  let r := setPathLoop g env buf []
  r.1.set (ascii "PATH_INFO") (urldecode r.2)

/-- One byte of a header name in `get_http_header_key` and in `key_upper`. -/
def keyUpper (c : Byte) : Byte := if c = '-'.toUInt8 then '_'.toUInt8 else toupper c

def getHttpHeaderKey (s : Bytes) : Bytes := ascii "HTTP_" ++ s.map keyUpper

def replaceEnvKey (env : Environ) (oldKey newKey : Bytes) : Environ :=
  match env.get? oldKey with
  | some value => (env.del oldKey).set newKey value
  | none => env

/-- `write_body`, with `write_body2file` and `write_body2mem`; `none` is a write to the null
`FILE`. -/
def writeBody (req : Request) (buf : Bytes) : Option Request :=
  match req.body with
  | .tmpfile none => none
  | .tmpfile (some content) => some { req with
      body := .tmpfile (some (content ++ buf))
      bodyReaded := req.bodyReaded + buf.length }
  | .buffer b => some { req with
      body := .buffer (write2buf b buf).2
      bodyReaded := req.bodyReaded + buf.length }
  | .none => none

/-- The merge of a repeated header. `tmp == v` compares objects: CPython keeps one object for
each string of at most one latin-1 character. -/
def mergeHeader (env : Environ) (field v : Bytes) : Environ :=
  match env.get? field with
  | none => env.set field v
  | some tmp => if tmp = v ∧ v.length ≤ 1 then env else env.set field (tmp ++ ascii ", " ++ v)

/-- `add_header` in Python 3; `none` is its failed assertion. -/
def addHeader (req : Request) : Option Request :=
  match req.field,req.value with
  | some field,some value => some { req with
      environ := mergeHeader req.environ field (cstr value)
      field := none
      value := none
      numHeaders := req.numHeaders + 1 }
  | _,_ => none

def checkFieldName (s : Bytes) : Bool := s.all fun c => signed c ≤ 127

/-- A callback's `req->bad_request_code = code; return -1`. -/
def Request.bad (req : Request) (code : ℕ) : Bool × Request :=
  (false,{ req with badRequestCode := code })

/-- The process dies. -/
def Client.abort (c : Client) : Bool × Client := (false,{ c with aborted := true })

/-- A callback that works on `get_current_request(p)`; `none` is the death of the process. -/
def onCurrentReq (c : Client) (f : Request → Option (Bool × Request)) : Bool × Client :=
  match c.currentReq.bind f with
  | some r => (r.1,{ c with currentReq := some r.2 })
  | none => c.abort

def messageBeginCb (g : Globals) (c : Client) : Bool × Client :=
  (true,{ c with
    requestQueue := c.queue
    currentReq := some { environ := newEnviron g c }
    complete := false })

/-- The key after another piece of a name. -/
def nextField (field : Option Bytes) (buf : Bytes) : Bytes :=
  match field with
  | none => getHttpHeaderKey buf
  | some f => f ++ buf.map keyUpper

/-- The second half of `header_field_cb`, which stores the name. -/
def storeField (req : Request) (buf : Bytes) : Bool × Request :=
  if !checkFieldName buf then req.bad 400
  else if (nextField req.field buf).length > LIMIT_REQUEST_FIELD_SIZE then req.bad 400
  else (true,{ req with field := some (nextField req.field buf), lastHeaderElement := .FIELD })

def headerFieldCb (buf : Bytes) (req : Request) : Option (Bool × Request) :=
  if req.lastHeaderElement ≠ .FIELD then
    if LIMIT_REQUEST_FIELDS ≤ req.numHeaders then some (req.bad 400)
    else (addHeader req).map fun req => storeField req buf
  else some (storeField req buf)

def headerValueCb (buf : Bytes) (req : Request) : Option (Bool × Request) :=
  let obj := req.value.getD [] ++ buf
  if obj.length > LIMIT_REQUEST_FIELD_SIZE then some (req.bad 400)
  else some (true,{ req with value := some obj, lastHeaderElement := .VALUE })

def urlCb (buf : Bytes) (req : Request) : Option (Bool × Request) :=
  let r := write2buf (req.path.getD (newBuffer 1024 LIMIT_PATH)) buf
  let req := { req with path := some r.2 }
  match r.1 with
  | .MEMORY_ERROR => some (req.bad 500)
  | .LIMIT_OVER => some (req.bad 400)
  | .WRITE_OK => some (true,req)

/-- The body a request starts when its first bytes arrive. -/
def newBody (g : Globals) (req : Request) : Body :=
  if req.bodyLength > g.clientBodyBufferSize then .tmpfile (if g.tmpfile then some [] else none)
  else .buffer (newBuffer req.bodyLength 0)

def bodyCb (g : Globals) (p : HttpParser) (buf : Bytes) (req : Request) :
    Option (Bool × Request) :=
  if g.maxContentLength < req.bodyReaded + buf.length then some (req.bad 413)
  else if req.body = .none then
    if req.bodyLength = 0 ∧ !p.flags.chunked then some (req.bad 411)
    else (writeBody { req with body := newBody g req } buf).map (true,·)
  else (writeBody req buf).map (true,·)

/-- The `switch` of `headers_complete_cb`: the methods it does not name become `GET`. -/
def requestMethod : HttpMethod → Bytes
  | .SEARCH | .MSEARCH | .NOTIFY | .SUBSCRIBE | .UNSUBSCRIBE | .PURGE => ascii "GET"
  | m => methodStrings m

/-- The environ entries of `headers_complete_cb` before the last header. -/
def requestLineEnv (g : Globals) (p : HttpParser) (req : Request) : Environ :=
  let env := req.environ.set (ascii "SERVER_PROTOCOL")
    (if p.httpMajor = 1 ∧ p.httpMinor = 1 then ascii "HTTP/1.1" else ascii "HTTP/1.0")
  match req.path with
  | some path => setPath g env path.buf
  | none => env.set (ascii "PATH_INFO") []

/-- `if (req->field && req->value) add_header(req)`. -/
def lastHeader (req : Request) : Request := (addHeader req).getD req

/-- The environ entries of `headers_complete_cb` after the last header. -/
def finishEnv (p : HttpParser) (env : Environ) : Environ :=
  let env := replaceEnvKey env (ascii "HTTP_CONTENT_TYPE") (ascii "CONTENT_TYPE")
  let env := replaceEnvKey env (ascii "HTTP_CONTENT_LENGTH") (ascii "CONTENT_LENGTH")
  env.set (ascii "REQUEST_METHOD") (requestMethod p.method)

/-- What `headers_complete_cb` takes for the length of the body. -/
def headersContentLength (p : HttpParser) : ℕ :=
  if p.contentLength ≠ ULLONG_MAX then p.contentLength else 0

/-- What `headers_complete_cb` does to the request. -/
def headersComplete (g : Globals) (p : HttpParser) (req : Request) : Bool × Request :=
  if g.maxContentLength < headersContentLength p then req.bad 413
  else
    let req := lastHeader { req with environ := requestLineEnv g p req, path := none }
    (true,{ req with
      environ := finishEnv p req.environ
      method := p.method
      bodyLength := headersContentLength p
      pyclient := true })

def headersCompleteCb (g : Globals) (p : HttpParser) (c : Client) : Bool × Client :=
  onCurrentReq { c with keepAlive := httpShouldKeepAlive p }
    fun req => some (headersComplete g p req)

def messageCompleteCb (p : HttpParser) (c : Client) : Bool × Client :=
  (true,{ c with complete := true, upgrade := p.upgrade })

/-- The static `settings`. -/
def settings (g : Globals) : Settings Client where
  onNotify
    | .messageBegin,_,c => messageBeginCb g c
    | .headersComplete,p,c => headersCompleteCb g p c
    | .messageComplete,p,c => messageCompleteCb p c
  onData
    | .headerField,_,buf,c => onCurrentReq c (headerFieldCb buf)
    | .headerValue,_,buf,c => onCurrentReq c (headerValueCb buf)
    | .url,_,buf,c => onCurrentReq c (urlCb buf)
    | .body,p,buf,c => onCurrentReq c (bodyCb g p buf)

def executeParse (g : Globals) (c : Client) (data : Bytes) : Client × ℤ :=
  let r := httpParserExecute (settings g) c.httpParser { c with complete := false } data
  ({ r.2.1 with httpParser := r.1 },r.2.2)

end Meinheld
