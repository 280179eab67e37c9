import Meinheld.Bytes

/-! The bundled `http_parser.c` in strict mode, for parsers of type `HTTP_REQUEST`.
One byte is processed by `step`, which names the callbacks to run in order; the callbacks are
run by `httpParserExecute`. The `s_res_*` states belong to responses and are left out. -/
namespace Meinheld

inductive HttpMethod
  | DELETE | GET | HEAD | POST | PUT | CONNECT | OPTIONS | TRACE | COPY | LOCK | MKCOL | MOVE
  | PROPFIND | PROPPATCH | SEARCH | UNLOCK | REPORT | MKACTIVITY | CHECKOUT | MERGE | MSEARCH
  | NOTIFY | SUBSCRIBE | UNSUBSCRIBE | PATCH | PURGE
  deriving DecidableEq, Repr

/-- `method_strings`; the `#string` of `M - SEARCH` keeps the blanks. -/
def methodStrings : HttpMethod → Bytes
  | .DELETE => ascii "DELETE" | .GET => ascii "GET" | .HEAD => ascii "HEAD"
  | .POST => ascii "POST" | .PUT => ascii "PUT" | .CONNECT => ascii "CONNECT"
  | .OPTIONS => ascii "OPTIONS" | .TRACE => ascii "TRACE" | .COPY => ascii "COPY"
  | .LOCK => ascii "LOCK" | .MKCOL => ascii "MKCOL" | .MOVE => ascii "MOVE"
  | .PROPFIND => ascii "PROPFIND" | .PROPPATCH => ascii "PROPPATCH"
  | .SEARCH => ascii "SEARCH" | .UNLOCK => ascii "UNLOCK" | .REPORT => ascii "REPORT"
  | .MKACTIVITY => ascii "MKACTIVITY" | .CHECKOUT => ascii "CHECKOUT"
  | .MERGE => ascii "MERGE" | .MSEARCH => ascii "M - SEARCH" | .NOTIFY => ascii "NOTIFY"
  | .SUBSCRIBE => ascii "SUBSCRIBE" | .UNSUBSCRIBE => ascii "UNSUBSCRIBE"
  | .PATCH => ascii "PATCH" | .PURGE => ascii "PURGE"

/-- `enum state`, in its order. -/
inductive State
  | sDead | sStartReq | sReqMethod | sReqSpacesBeforeUrl | sReqSchema | sReqSchemaSlash
  | sReqSchemaSlashSlash | sReqServerStart | sReqServer | sReqServerWithAt | sReqPath
  | sReqQueryStringStart | sReqQueryString | sReqFragmentStart | sReqFragment | sReqHttpStart
  | sReqHttpH | sReqHttpHT | sReqHttpHTT | sReqHttpHTTP | sReqFirstHttpMajor | sReqHttpMajor
  | sReqFirstHttpMinor | sReqHttpMinor | sReqLineAlmostDone | sHeaderFieldStart | sHeaderField
  | sHeaderValueStart | sHeaderValue | sHeaderValueLws | sHeaderAlmostDone | sChunkSizeStart
  | sChunkSize | sChunkParameters | sChunkSizeAlmostDone | sHeadersAlmostDone | sHeadersDone
  | sChunkData | sChunkDataAlmostDone | sChunkDataDone | sBodyIdentity | sMessageDone
  deriving DecidableEq, Repr

/-- `PARSING_HEADER(state)`: every state up to `s_headers_done`. -/
def parsingHeader : State → Bool
  | .sChunkData | .sChunkDataAlmostDone | .sChunkDataDone | .sBodyIdentity | .sMessageDone => false
  | _ => true

/-- `enum header_states`. -/
inductive HeaderState
  | hGeneral | hC | hCO | hCON | hMatchingConnection | hMatchingProxyConnection
  | hMatchingContentLength | hMatchingTransferEncoding | hMatchingUpgrade | hConnection
  | hContentLength | hTransferEncoding | hUpgrade | hMatchingTransferEncodingChunked
  | hMatchingConnectionKeepAlive | hMatchingConnectionClose | hTransferEncodingChunked
  | hConnectionKeepAlive | hConnectionClose
  deriving DecidableEq, Repr

/-- The `HPE_*` codes a request parser can set. -/
inductive HttpErrno
  | OK | CB_message_begin | CB_url | CB_header_field | CB_header_value | CB_headers_complete
  | CB_body | CB_message_complete | INVALID_EOF_STATE | HEADER_OVERFLOW | CLOSED_CONNECTION
  | INVALID_VERSION | INVALID_METHOD | INVALID_URL | LF_EXPECTED | INVALID_HEADER_TOKEN
  | INVALID_CONTENT_LENGTH | INVALID_CHUNK_SIZE | INVALID_CONSTANT | STRICT | UNKNOWN
  deriving DecidableEq, Repr

/-- The bits of `flags`. `F_SKIPBODY` is set only when `on_headers_complete` returns 1,
which no callback of the repository does. -/
structure Flags where
  chunked : Bool := false
  connectionKeepAlive : Bool := false
  connectionClose : Bool := false
  trailing : Bool := false
  upgrade : Bool := false
  deriving DecidableEq, Repr

/-- `struct http_parser`; a parser made by `http_parser_init` is the default value. -/
structure HttpParser where
  flags : Flags := {}
  state : State := .sStartReq
  headerState : HeaderState := .hGeneral
  index : ℕ := 0
  nread : ℕ := 0
  contentLength : ℕ := 0
  setContentLength : ℕ := 0
  httpMajor : ℕ := 0
  httpMinor : ℕ := 0
  method : HttpMethod := .DELETE
  httpErrno : HttpErrno := .OK
  upgrade : Bool := false
  deriving DecidableEq, Repr

def HTTP_MAX_HEADER_SIZE : ℕ := 80 * 1024
def ULLONG_MAX : ℕ := 2 ^ 64 - 1

/-- The `tokens` table: lower case letters for letters, 0 for what is no token. -/
def token (c : Byte) : Byte :=
  if 'A'.toUInt8 ≤ c && c ≤ 'Z'.toUInt8 then c + 32
  else if 'a'.toUInt8 ≤ c && c ≤ 'z'.toUInt8 || isNum c || (ascii "!#$%&'*+-.^_`|~").contains c then c
  else 0

/-- The `unhex` table, `none` for -1. It has 128 initialisers, and 0 behind them. -/
def unhex (c : Byte) : Option ℕ :=
  if isNum c then some (c.toNat - 48)
  else if 'A'.toUInt8 ≤ c && c ≤ 'F'.toUInt8 then some (c.toNat - 55)
  else if 'a'.toUInt8 ≤ c && c ≤ 'f'.toUInt8 then some (c.toNat - 87)
  else if 0x80 ≤ c then some 0
  else none

/-- `IS_URL_CHAR(c)`, from `normal_url_char` with `T(v)` = 0. -/
def isUrlChar (c : Byte) : Bool :=
  33 ≤ c && c ≤ 126 && c != '#'.toUInt8 && c != '?'.toUInt8

/-- `IS_USERINFO_CHAR(c)`. -/
def isUserinfoChar (c : Byte) : Bool :=
  isAlpha c || isNum c || (ascii "-_.!~*'()%;:&=+$,").contains c

def parseUrlChar (s : State) (ch : Byte) : State :=
  if ch = SP ∨ ch = CR ∨ ch = LF ∨ ch = TAB ∨ ch = 12 then .sDead
  else match s with
  | .sReqSpacesBeforeUrl =>
    if ch = '/'.toUInt8 ∨ ch = '*'.toUInt8 then .sReqPath
    else if isAlpha ch then .sReqSchema else .sDead
  | .sReqSchema => if isAlpha ch then s else if ch = ':'.toUInt8 then .sReqSchemaSlash else .sDead
  | .sReqSchemaSlash => if ch = '/'.toUInt8 then .sReqSchemaSlashSlash else .sDead
  | .sReqSchemaSlashSlash => if ch = '/'.toUInt8 then .sReqServerStart else .sDead
  | .sReqServerWithAt | .sReqServerStart | .sReqServer =>
    if s = .sReqServerWithAt ∧ ch = '@'.toUInt8 then .sDead
    else if ch = '/'.toUInt8 then .sReqPath
    else if ch = '?'.toUInt8 then .sReqQueryStringStart
    else if ch = '@'.toUInt8 then .sReqServerWithAt
    else if isUserinfoChar ch ∨ ch = '['.toUInt8 ∨ ch = ']'.toUInt8 then .sReqServer
    else .sDead
  | .sReqPath =>
    if isUrlChar ch then s
    else if ch = '?'.toUInt8 then .sReqQueryStringStart
    else if ch = '#'.toUInt8 then .sReqFragmentStart else .sDead
  | .sReqQueryStringStart | .sReqQueryString =>
    if isUrlChar ch ∨ ch = '?'.toUInt8 then .sReqQueryString
    else if ch = '#'.toUInt8 then .sReqFragmentStart else .sDead
  | .sReqFragmentStart =>
    if isUrlChar ch ∨ ch = '?'.toUInt8 then .sReqFragment
    else if ch = '#'.toUInt8 then s else .sDead
  | .sReqFragment =>
    if isUrlChar ch ∨ ch = '?'.toUInt8 ∨ ch = '#'.toUInt8 then s else .sDead
  | _ => .sDead

/-- `http_should_keep_alive`; `http_message_needs_eof` is 0 for a request. -/
def httpShouldKeepAlive (p : HttpParser) : Bool :=
  if p.httpMajor > 0 ∧ p.httpMinor > 0 then !p.flags.connectionClose
  else p.flags.connectionKeepAlive

/-- `NEW_MESSAGE()` in strict mode. -/
def newMessage (p : HttpParser) : State := if httpShouldKeepAlive p then .sStartReq else .sDead

/-- The data callbacks, each with its mark. -/
inductive Mark
  | headerField | headerValue | url | body
  deriving DecidableEq, Repr

inductive Notify
  | messageBegin | headersComplete | messageComplete
  deriving DecidableEq, Repr

/-- What a byte asks for: set a mark, run a data callback on the marked bytes (with the current
byte when `incl`), run a notify callback. `p` is the parser the callback sees, `adv` what the
macro adds to `p - data` when the callback fails. -/
inductive Act
  | mark (m : Mark)
  | data (m : Mark) (incl : Bool) (adv : ℕ) (p : HttpParser)
  | notify (n : Notify) (adv : ℕ) (p : HttpParser)
  deriving DecidableEq, Repr

abbrev callbackData (m : Mark) (p : HttpParser) : Act := .data m false 1 p
abbrev callbackDataNoadvance (m : Mark) (p : HttpParser) : Act := .data m false 0 p
abbrev callbackNotify (n : Notify) (p : HttpParser) : Act := .notify n 1 p

/-- How the `switch` leaves for one byte: `break`, `return (p - data) + 1` of an upgrade,
`return -1`, or `goto error`. -/
inductive Step
  | next (acts : List Act) (p : HttpParser)
  | stop (acts : List Act) (p : HttpParser)
  | bail (p : HttpParser)
  | error (p : HttpParser)
  deriving DecidableEq, Repr

/-- `SET_ERRNO(e); goto error;` -/
def setErrno (p : HttpParser) (e : HttpErrno) : Step := .error { p with httpErrno := e }

/-- Callbacks that ran before the code fell through to `s`. -/
def Step.after (as : List Act) : Step → Step
  | .next bs p => .next (as ++ bs) p
  | .stop bs p => .stop (as ++ bs) p
  | .bail p => .bail p
  | .error p => .error p

/-- The end of a message: `state = NEW_MESSAGE(); CALLBACK_NOTIFY(message_complete)`. -/
def messageDone (p : HttpParser) : Step :=
  let q := { p with state := newMessage p }
  .next [callbackNotify .messageComplete q] q

/-- `case s_headers_done`. -/
def stepHeadersDone (p : HttpParser) (ch : Byte) : Step :=
  if ch ≠ LF then setErrno p .STRICT
  else
    let p := { p with nread := 0 }
    if p.upgrade then
      let q := { p with state := newMessage p }
      .stop [callbackNotify .messageComplete q] q
    else if p.flags.chunked then .next [] { p with state := .sChunkSizeStart }
    else if p.contentLength = 0 then messageDone p
    else if p.contentLength ≠ ULLONG_MAX then .next [] { p with state := .sBodyIdentity }
    else messageDone p

/-- `case s_headers_almost_done`. -/
def stepHeadersAlmostDone (p : HttpParser) (ch : Byte) : Step :=
  if ch ≠ LF then setErrno p .STRICT
  else if p.flags.trailing then messageDone p
  else
    let q := { p with
      state := .sHeadersDone
      upgrade := p.flags.upgrade || p.method == .CONNECT }
    if q.setContentLength = 1 ∧ q.flags.chunked then .bail q
    else (stepHeadersDone q ch).after [.notify .headersComplete 0 q]

/-- `case s_header_field_start`. -/
def stepHeaderFieldStart (p : HttpParser) (ch : Byte) : Step :=
  if ch = CR then .next [] { p with state := .sHeadersAlmostDone }
  else if ch = LF then stepHeadersAlmostDone { p with state := .sHeadersAlmostDone } ch
  else
    let c := token ch
    if c = 0 then setErrno p .INVALID_HEADER_TOKEN
    else .next [.mark .headerField] { p with
      index := 0
      state := .sHeaderField
      headerState :=
        if c = 'c'.toUInt8 then .hC
        else if c = 'p'.toUInt8 then .hMatchingProxyConnection
        else if c = 't'.toUInt8 then .hMatchingTransferEncoding
        else if c = 'u'.toUInt8 then .hMatchingUpgrade
        else .hGeneral }

/-- The matchers of header names and values: `index` counts the bytes of `target` seen, `c` is
the byte as the matcher compares it, and the whole of `target` leads to `done`. -/
def matchNext (target : Bytes) (done : HeaderState) (c : Byte) (p : HttpParser) : HttpParser :=
  let i := p.index + 1
  { p with
    index := i
    headerState :=
      if i > target.length ∨ c ≠ target.getD i 0 then .hGeneral
      else if i = target.length - 1 then done
      else p.headerState }

/-- The `switch (parser->header_state)` of `s_header_field`, on a token. -/
def headerFieldToken (p : HttpParser) (ch : Byte) : HttpParser :=
  let c := token ch
  match p.headerState with
  | .hGeneral => p
  | .hC =>
    { p with index := p.index + 1, headerState := if c = 'o'.toUInt8 then .hCO else .hGeneral }
  | .hCO =>
    { p with index := p.index + 1, headerState := if c = 'n'.toUInt8 then .hCON else .hGeneral }
  | .hCON => { p with
      index := p.index + 1
      headerState :=
        if c = 'n'.toUInt8 then .hMatchingConnection
        else if c = 't'.toUInt8 then .hMatchingContentLength
        else .hGeneral }
  | .hMatchingConnection => matchNext (ascii "connection") .hConnection c p
  | .hMatchingProxyConnection => matchNext (ascii "proxy-connection") .hConnection c p
  | .hMatchingContentLength => matchNext (ascii "content-length") .hContentLength c p
  -- the one matcher that compares the byte as it came, not in lower case
  | .hMatchingTransferEncoding => matchNext (ascii "Transfer-Encoding") .hTransferEncoding ch p
  | .hMatchingUpgrade => matchNext (ascii "upgrade") .hUpgrade c p
  | .hConnection | .hContentLength | .hTransferEncoding | .hUpgrade =>
    if ch ≠ SP then { p with headerState := .hGeneral } else p
  | _ => p

/-- `case s_header_field`. -/
def stepHeaderField (p : HttpParser) (ch : Byte) : Step :=
  if token ch ≠ 0 then .next [] (headerFieldToken p ch)
  else if ch = ':'.toUInt8 then
    let q := { p with state := .sHeaderValueStart }
    .next [callbackData .headerField q] q
  else if ch = CR then
    let q := { p with state := .sHeaderAlmostDone }
    .next [callbackData .headerField q] q
  else if ch = LF then
    let q := { p with state := .sHeaderFieldStart }
    .next [callbackData .headerField q] q
  else setErrno p .INVALID_HEADER_TOKEN

/-- The `switch` of `s_header_value_start` on the first byte of a value; `none` is an
invalid content length. -/
def headerValueFirst (p : HttpParser) (ch : Byte) : Option HttpParser :=
  let c := lower ch
  match p.headerState with
  | .hUpgrade =>
    some { p with flags := { p.flags with upgrade := true }, headerState := .hGeneral }
  | .hTransferEncoding => some { p with
      headerState := if c = 'c'.toUInt8 then .hMatchingTransferEncodingChunked else .hGeneral }
  | .hContentLength =>
    if !isNum ch then none
    else if p.setContentLength > 0 then none
    else some { p with contentLength := ch.toNat - 48, setContentLength := 1 }
  | .hConnection => some { p with
      headerState :=
        if c = 'k'.toUInt8 then .hMatchingConnectionKeepAlive
        else if c = 'c'.toUInt8 then .hMatchingConnectionClose
        else .hGeneral }
  | _ => some { p with headerState := .hGeneral }

/-- `case s_header_value_start`. -/
def stepHeaderValueStart (p : HttpParser) (ch : Byte) : Step :=
  if ch = SP ∨ ch = TAB then .next [] p
  else
    let p := { p with state := .sHeaderValue, index := 0 }
    if ch = CR then
      let q := { p with headerState := .hGeneral, state := .sHeaderAlmostDone }
      .next [.mark .headerValue,callbackData .headerValue q] q
    else if ch = LF then
      let q := { p with state := .sHeaderFieldStart }
      .next [.mark .headerValue,callbackData .headerValue q] q
    else match headerValueFirst p ch with
      | some q => .next [.mark .headerValue] q
      | none => setErrno p .INVALID_CONTENT_LENGTH

/-- `case s_header_almost_done`. -/
def stepHeaderAlmostDone (p : HttpParser) (ch : Byte) : Step :=
  if ch ≠ LF then setErrno p .STRICT
  else .next [] { p with
    state := .sHeaderValueLws
    flags := match p.headerState with
      | .hConnectionKeepAlive => { p.flags with connectionKeepAlive := true }
      | .hConnectionClose => { p.flags with connectionClose := true }
      | .hTransferEncodingChunked => { p.flags with chunked := true }
      | _ => p.flags }

/-- Accumulate one digit in 64 bits; `none` is the code's overflow test. -/
def pushDigit (base : ℕ) (n d : ℕ) : Option ℕ :=
  let t := (n * base + d) % 2 ^ 64
  if t < n ∨ t = ULLONG_MAX then none else some t

/-- The `switch` of `s_header_value` on a byte of a value. -/
def headerValueNext (p : HttpParser) (ch : Byte) : Option HttpParser :=
  let c := lower ch
  match p.headerState with
  | .hContentLength =>
    if ch = SP then some p
    else if !isNum ch then none
    else (pushDigit 10 p.contentLength (ch.toNat - 48)).map fun t => { p with contentLength := t }
  -- compares the byte as it came
  | .hMatchingTransferEncodingChunked =>
    some (matchNext (ascii "chunked") .hTransferEncodingChunked ch p)
  | .hMatchingConnectionKeepAlive =>
    some (matchNext (ascii "keep-alive") .hConnectionKeepAlive c p)
  | .hMatchingConnectionClose => some (matchNext (ascii "close") .hConnectionClose c p)
  | .hTransferEncodingChunked | .hConnectionKeepAlive | .hConnectionClose =>
    if ch ≠ SP then some { p with headerState := .hGeneral } else some p
  | _ => some { p with headerState := .hGeneral }

/-- `case s_header_value`. -/
def stepHeaderValue (p : HttpParser) (ch : Byte) : Step :=
  if ch = CR then
    let q := { p with state := .sHeaderAlmostDone }
    .next [callbackData .headerValue q] q
  else if ch = LF then
    let q := { p with state := .sHeaderAlmostDone }
    (stepHeaderAlmostDone q ch).after [callbackDataNoadvance .headerValue q]
  else match headerValueNext p ch with
    | some q => .next [] q
    | none => setErrno p .INVALID_CONTENT_LENGTH

/-- `case s_start_req`. -/
def stepStartReq (p : HttpParser) (ch : Byte) : Step :=
  if ch = CR ∨ ch = LF then .next [] p
  else
    let p := { p with flags := {}, contentLength := ULLONG_MAX }
    let start (m : HttpMethod) : Step :=
      let q := { p with method := m, index := 1, state := .sReqMethod }
      .next [callbackNotify .messageBegin q] q
    if ch = 'C'.toUInt8 then start .CONNECT
    else if ch = 'D'.toUInt8 then start .DELETE
    else if ch = 'G'.toUInt8 then start .GET
    else if ch = 'H'.toUInt8 then start .HEAD
    else if ch = 'L'.toUInt8 then start .LOCK
    else if ch = 'M'.toUInt8 then start .MKCOL
    else if ch = 'N'.toUInt8 then start .NOTIFY
    else if ch = 'O'.toUInt8 then start .OPTIONS
    else if ch = 'P'.toUInt8 then start .POST
    else if ch = 'R'.toUInt8 then start .REPORT
    else if ch = 'S'.toUInt8 then start .SUBSCRIBE
    else if ch = 'T'.toUInt8 then start .TRACE
    else if ch = 'U'.toUInt8 then start .UNLOCK
    else setErrno p .INVALID_METHOD

/-- The method a mismatching byte turns the current one into; `none` is an invalid method.
At index 2 any byte passes unless the method is one of those handled before. -/
def methodSwitch (m : HttpMethod) (index : ℕ) (ch : Byte) : Option HttpMethod :=
  if m = .CONNECT then
    if index = 1 ∧ ch = 'H'.toUInt8 then some .CHECKOUT
    else if index = 2 ∧ ch = 'P'.toUInt8 then some .COPY
    else none
  else if m = .MKCOL then
    if index = 1 ∧ ch = 'O'.toUInt8 then some .MOVE
    else if index = 1 ∧ ch = 'E'.toUInt8 then some .MERGE
    else if index = 1 ∧ ch = '-'.toUInt8 then some .MSEARCH
    else if index = 2 ∧ ch = 'A'.toUInt8 then some .MKACTIVITY
    else none
  else if m = .SUBSCRIBE then
    if index = 1 ∧ ch = 'E'.toUInt8 then some .SEARCH else none
  else if index = 1 ∧ m = .POST then
    if ch = 'R'.toUInt8 then some .PROPFIND
    else if ch = 'U'.toUInt8 then some .PUT
    else if ch = 'A'.toUInt8 then some .PATCH
    else none
  else if index = 2 then
    if m = .PUT ∧ ch = 'R'.toUInt8 then some .PURGE
    else if m = .UNLOCK ∧ ch = 'S'.toUInt8 then some .UNSUBSCRIBE
    else some m
  else if index = 4 ∧ m = .PROPFIND ∧ ch = 'P'.toUInt8 then some .PROPPATCH
  else none

/-- `case s_req_method`. -/
def stepReqMethod (p : HttpParser) (ch : Byte) : Step :=
  if ch = 0 then setErrno p .INVALID_METHOD
  else
    let matcher := (methodStrings p.method).getD p.index 0
    if ch = SP ∧ matcher = 0 then
      .next [] { p with state := .sReqSpacesBeforeUrl, index := p.index + 1 }
    else if ch = matcher then .next [] { p with index := p.index + 1 }
    else match methodSwitch p.method p.index ch with
      | some m => .next [] { p with method := m, index := p.index + 1 }
      | none => setErrno p .UNKNOWN

/-- `parser->state = parse_url_char(parser->state, ch)`, with its error. -/
def urlByte (as : List Act) (p : HttpParser) (ch : Byte) : Step :=
  let q := { p with state := parseUrlChar p.state ch }
  if q.state = .sDead then setErrno q .INVALID_URL else .next as q

/-- `case s_req_spaces_before_url`. -/
def stepReqSpacesBeforeUrl (p : HttpParser) (ch : Byte) : Step :=
  if ch = SP then .next [] p
  else urlByte [.mark .url]
    (if p.method = .CONNECT then { p with state := .sReqServerStart } else p) ch

/-- `case s_req_server` to `case s_req_fragment`, where the URL may end. -/
def stepUrl (p : HttpParser) (ch : Byte) : Step :=
  if ch = SP then
    let q := { p with state := .sReqHttpStart }
    .next [callbackData .url q] q
  else if ch = CR ∨ ch = LF then
    let q := { p with
      httpMajor := 0
      httpMinor := 9
      state := if ch = CR then .sReqLineAlmostDone else .sHeaderFieldStart }
    .next [callbackData .url q] q
  else urlByte [] p ch

/-- The states that expect one byte: `STRICT_CHECK(ch != expected)`. -/
def strictNext (p : HttpParser) (ch expected : Byte) (s : State) : Step :=
  if ch ≠ expected then setErrno p .STRICT else .next [] { p with state := s }

/-- `case s_req_http_start`. -/
def stepReqHttpStart (p : HttpParser) (ch : Byte) : Step :=
  if ch = 'H'.toUInt8 then .next [] { p with state := .sReqHttpH }
  else if ch = SP then .next [] p
  else setErrno p .INVALID_CONSTANT

/-- `case s_req_first_http_major`. -/
def stepReqFirstHttpMajor (p : HttpParser) (ch : Byte) : Step :=
  if ch < '1'.toUInt8 ∨ ch > '9'.toUInt8 then setErrno p .INVALID_VERSION
  else .next [] { p with httpMajor := ch.toNat - 48, state := .sReqHttpMajor }

/-- `case s_req_http_major`. -/
def stepReqHttpMajor (p : HttpParser) (ch : Byte) : Step :=
  if ch = '.'.toUInt8 then .next [] { p with state := .sReqFirstHttpMinor }
  else if !isNum ch then setErrno p .INVALID_VERSION
  else
    let q := { p with httpMajor := p.httpMajor * 10 + (ch.toNat - 48) }
    if q.httpMajor > 999 then setErrno q .INVALID_VERSION else .next [] q

/-- `case s_req_first_http_minor`. -/
def stepReqFirstHttpMinor (p : HttpParser) (ch : Byte) : Step :=
  if !isNum ch then setErrno p .INVALID_VERSION
  else .next [] { p with httpMinor := ch.toNat - 48, state := .sReqHttpMinor }

/-- `case s_req_http_minor`. -/
def stepReqHttpMinor (p : HttpParser) (ch : Byte) : Step :=
  if ch = CR then .next [] { p with state := .sReqLineAlmostDone }
  else if ch = LF then .next [] { p with state := .sHeaderFieldStart }
  else if !isNum ch then setErrno p .INVALID_VERSION
  else
    let q := { p with httpMinor := p.httpMinor * 10 + (ch.toNat - 48) }
    if q.httpMinor > 999 then setErrno q .INVALID_VERSION else .next [] q

/-- `case s_header_value_lws`. -/
def stepHeaderValueLws (p : HttpParser) (ch : Byte) : Step :=
  if ch = SP ∨ ch = TAB then .next [] { p with state := .sHeaderValueStart }
  else stepHeaderFieldStart { p with state := .sHeaderFieldStart } ch

/-- `case s_body_identity`, byte by byte: the block of `to_read` bytes is one mark, and its last
byte is seen again by `s_message_done`. -/
def stepBodyIdentity (p : HttpParser) : Step :=
  let p := { p with contentLength := p.contentLength - 1 }
  if p.contentLength = 0 then
    let q := { p with state := .sMessageDone }
    (messageDone q).after [.mark .body,.data .body true 0 q]
  else .next [.mark .body] p

/-- `case s_chunk_size_start`. -/
def stepChunkSizeStart (p : HttpParser) (ch : Byte) : Step :=
  match unhex ch with
  | none => setErrno p .INVALID_CHUNK_SIZE
  | some v => .next [] { p with contentLength := v, state := .sChunkSize }

/-- `case s_chunk_size`. -/
def stepChunkSize (p : HttpParser) (ch : Byte) : Step :=
  if ch = CR then .next [] { p with state := .sChunkSizeAlmostDone }
  else match unhex ch with
    | none =>
      if ch = ';'.toUInt8 ∨ ch = SP then .next [] { p with state := .sChunkParameters }
      else setErrno p .INVALID_CHUNK_SIZE
    | some v =>
      match pushDigit 16 p.contentLength v with
      | none => setErrno p .INVALID_CONTENT_LENGTH
      | some t => .next [] { p with contentLength := t }

/-- `case s_chunk_parameters`. -/
def stepChunkParameters (p : HttpParser) (ch : Byte) : Step :=
  if ch = CR then .next [] { p with state := .sChunkSizeAlmostDone } else .next [] p

/-- `case s_chunk_size_almost_done`. -/
def stepChunkSizeAlmostDone (p : HttpParser) (ch : Byte) : Step :=
  if ch ≠ LF then setErrno p .STRICT
  else
    let p := { p with nread := 0 }
    if p.contentLength = 0 then .next [] { p with
      flags := { p.flags with trailing := true }
      state := .sHeaderFieldStart }
    else .next [] { p with state := .sChunkData }

/-- `case s_chunk_data`, byte by byte. -/
def stepChunkData (p : HttpParser) : Step :=
  let p := { p with contentLength := p.contentLength - 1 }
  .next [.mark .body]
    (if p.contentLength = 0 then { p with state := .sChunkDataAlmostDone } else p)

/-- `case s_chunk_data_almost_done`. -/
def stepChunkDataAlmostDone (p : HttpParser) (ch : Byte) : Step :=
  if ch ≠ CR then setErrno p .STRICT
  else
    let q := { p with state := .sChunkDataDone }
    .next [callbackData .body q] q

/-- `case s_chunk_data_done`. -/
def stepChunkDataDone (p : HttpParser) (ch : Byte) : Step :=
  if ch ≠ LF then setErrno p .STRICT
  else .next [] { p with nread := 0, state := .sChunkSizeStart }

/-- The `switch (parser->state)`. -/
def stepState (p : HttpParser) (ch : Byte) : Step :=
  match p.state with
  | .sDead => if ch = CR ∨ ch = LF then .next [] p else setErrno p .CLOSED_CONNECTION
  | .sStartReq => stepStartReq p ch
  | .sReqMethod => stepReqMethod p ch
  | .sReqSpacesBeforeUrl => stepReqSpacesBeforeUrl p ch
  | .sReqSchema | .sReqSchemaSlash | .sReqSchemaSlashSlash | .sReqServerStart =>
    if ch = SP ∨ ch = CR ∨ ch = LF then setErrno p .INVALID_URL else urlByte [] p ch
  | .sReqServer | .sReqServerWithAt | .sReqPath | .sReqQueryStringStart | .sReqQueryString
  | .sReqFragmentStart | .sReqFragment => stepUrl p ch
  | .sReqHttpStart => stepReqHttpStart p ch
  | .sReqHttpH => strictNext p ch 'T'.toUInt8 .sReqHttpHT
  | .sReqHttpHT => strictNext p ch 'T'.toUInt8 .sReqHttpHTT
  | .sReqHttpHTT => strictNext p ch 'P'.toUInt8 .sReqHttpHTTP
  | .sReqHttpHTTP => strictNext p ch '/'.toUInt8 .sReqFirstHttpMajor
  | .sReqFirstHttpMajor => stepReqFirstHttpMajor p ch
  | .sReqHttpMajor => stepReqHttpMajor p ch
  | .sReqFirstHttpMinor => stepReqFirstHttpMinor p ch
  | .sReqHttpMinor => stepReqHttpMinor p ch
  | .sReqLineAlmostDone =>
    if ch ≠ LF then setErrno p .LF_EXPECTED else .next [] { p with state := .sHeaderFieldStart }
  | .sHeaderFieldStart => stepHeaderFieldStart p ch
  | .sHeaderField => stepHeaderField p ch
  | .sHeaderValueStart => stepHeaderValueStart p ch
  | .sHeaderValue => stepHeaderValue p ch
  | .sHeaderAlmostDone => stepHeaderAlmostDone p ch
  | .sHeaderValueLws => stepHeaderValueLws p ch
  | .sHeadersAlmostDone => stepHeadersAlmostDone p ch
  | .sHeadersDone => stepHeadersDone p ch
  | .sBodyIdentity => stepBodyIdentity p
  | .sMessageDone => messageDone p
  | .sChunkSizeStart => stepChunkSizeStart p ch
  | .sChunkSize => stepChunkSize p ch
  | .sChunkParameters => stepChunkParameters p ch
  | .sChunkSizeAlmostDone => stepChunkSizeAlmostDone p ch
  | .sChunkData => stepChunkData p
  | .sChunkDataAlmostDone => stepChunkDataAlmostDone p ch
  | .sChunkDataDone => stepChunkDataDone p ch

/-- One turn of the `for` loop, the header size check included. -/
def step (p : HttpParser) (ch : Byte) : Step :=
  if parsingHeader p.state then
    let p := { p with nread := p.nread + 1 }
    if p.nread > HTTP_MAX_HEADER_SIZE then setErrno p .HEADER_OVERFLOW else stepState p ch
  else stepState p ch

/-- `http_parser_settings`: each callback reads the parser and the data behind `parser->data`,
and says whether it returned 0. -/
structure Settings (σ : Type) where
  onNotify : Notify → HttpParser → σ → Bool × σ
  onData : Mark → HttpParser → Bytes → σ → Bool × σ

def notifyErrno : Notify → HttpErrno
  | .messageBegin => .CB_message_begin
  | .headersComplete => .CB_headers_complete
  | .messageComplete => .CB_message_complete

def dataErrno : Mark → HttpErrno
  | .headerField => .CB_header_field
  | .headerValue => .CB_header_value
  | .url => .CB_url
  | .body => .CB_body

/-- The data behind the parser and the bytes since the mark, when one is set: at most one of
the four marks of the source is set at a time. -/
structure Marked (σ : Type) where
  data : σ
  mark : Option (Mark × Bytes) := none

/-- The callbacks of one byte, in order. A callback that fails gives the parser it left and the
amount to add to `p - data`. -/
def runActs {σ : Type} (cb : Settings σ) (ch : Byte) : List Act → Marked σ →
    Except (HttpParser × σ × ℕ) (Marked σ)
  | [], m => .ok m
  | .mark k :: as, m => runActs cb ch as { m with mark := m.mark.or (some (k,[])) }
  | .data k incl adv p :: as, m =>
    match m.mark with
    | none => runActs cb ch as m
    | some (_,buf) =>
      match cb.onData k p (if incl then buf ++ [ch] else buf) m.data with
      | (true,d) => runActs cb ch as { data := d }
      | (false,d) => .error ({ p with httpErrno := dataErrno k },d,adv)
  | .notify n adv p :: as, m =>
    match cb.onNotify n p m.data with
    | (true,d) => runActs cb ch as { m with data := d }
    | (false,d) => .error ({ p with httpErrno := notifyErrno n },d,adv)

/-- The marked bytes grow by the byte just seen. -/
def Marked.push {σ : Type} (m : Marked σ) (ch : Byte) : Marked σ :=
  { m with mark := m.mark.map fun kb => (kb.1,kb.2 ++ [ch]) }

/-- The callbacks for the mark left over when the buffer ends. -/
def flushMark {σ : Type} (cb : Settings σ) (p : HttpParser) (m : Marked σ) : HttpParser × σ :=
  match m.mark with
  | none => (p,m.data)
  | some (k,buf) =>
    match cb.onData k p buf m.data with
    | (true,d) => (p,d)
    | (false,d) => ({ p with httpErrno := dataErrno k },d)

/-- The `for` loop of `http_parser_execute`, `pos` being `p - data`. -/
def executeLoop {σ : Type} (cb : Settings σ) :
    HttpParser → Marked σ → ℕ → Bytes → HttpParser × σ × ℤ
  | p, m, pos, [] =>
    let r := flushMark cb p m
    (r.1,r.2,pos)
  | p, m, pos, ch :: rest =>
    match step p ch with
    | .error q => (q,m.data,pos)
    | .bail q => (q,m.data,-1)
    | .stop acts q =>
      match runActs cb ch acts m with
      | .ok m' => (q,m'.data,(pos + 1 : ℕ))
      | .error (e,d,adv) => (e,d,(pos + adv : ℕ))
    | .next acts q =>
      match runActs cb ch acts m with
      | .ok m' => executeLoop cb q (m'.push ch) (pos + 1) rest
      | .error (e,d,adv) => (e,d,(pos + adv : ℕ))

/-- The marks set on entry, from the state the last buffer ended in. -/
def entryMark : State → Option (Mark × Bytes)
  | .sHeaderField => some (.headerField,[])
  | .sHeaderValue => some (.headerValue,[])
  | .sReqPath | .sReqSchema | .sReqSchemaSlash | .sReqSchemaSlashSlash | .sReqServerStart
  | .sReqServer | .sReqServerWithAt | .sReqQueryStringStart | .sReqQueryString
  | .sReqFragmentStart | .sReqFragment => some (.url,[])
  | _ => none

/-- `http_parser_execute`: the parser and the data it leaves, and the value returned (as the
`int` the caller keeps it in). -/
def httpParserExecute {σ : Type} (cb : Settings σ) (p : HttpParser) (d : σ) (data : Bytes) :
    HttpParser × σ × ℤ :=
  if p.httpErrno ≠ .OK then (p,d,0)
  else if data = [] then
    match p.state with
    | .sDead | .sStartReq => (p,d,0)
    | _ => ({ p with httpErrno := .INVALID_EOF_STATE },d,1)
  else executeLoop cb p { data := d, mark := entryMark p.state } 0 data

variable {σ : Type} {cb : Settings σ} {I : σ → Prop}

/-- The data the callbacks of one byte leave, whether one of them failed or not. -/
def actsData : Except (HttpParser × σ × ℕ) (Marked σ) → σ
  | .ok m => m.data
  | .error r => r.2.1

/-- Whatever the callbacks keep is kept by the callbacks of one byte. -/
theorem runActs_invariant (hn : ∀ n p d, I d → I (cb.onNotify n p d).2)
    (hd : ∀ k p buf d, I d → I (cb.onData k p buf d).2) (ch : Byte) (as : List Act)
    (m : Marked σ) (h : I m.data) : I (actsData (runActs cb ch as m)) := by
  induction as generalizing m with
  | nil => exact h
  | cons a as ih =>
    cases a with
    | mark k => exact ih _ h
    | data k incl adv p =>
      simp only [runActs]
      split
      · exact ih _ h
      next buf _ =>
        have hI := hd k p (if incl then buf ++ [ch] else buf) m.data h
        split
        next d hr => exact ih _ (by simpa [hr] using hI)
        next d hr => simpa [hr,actsData] using hI
    | notify n adv p =>
      simp only [runActs]
      have hI := hn n p m.data h
      split
      next d hr => exact ih _ (by simpa [hr] using hI)
      next d hr => simpa [hr,actsData] using hI

theorem flushMark_invariant (hd : ∀ k p buf d, I d → I (cb.onData k p buf d).2) (p : HttpParser)
    (m : Marked σ) (h : I m.data) : I (flushMark cb p m).2 := by
  unfold flushMark
  split
  · exact h
  next k buf _ =>
    have hI := hd k p buf m.data h
    split
    next d hr => simpa [hr] using hI
    next d hr => simpa [hr] using hI

theorem executeLoop_invariant (hn : ∀ n p d, I d → I (cb.onNotify n p d).2)
    (hd : ∀ k p buf d, I d → I (cb.onData k p buf d).2) (p : HttpParser) (m : Marked σ) (pos : ℕ)
    (data : Bytes) (h : I m.data) : I (executeLoop cb p m pos data).2.1 := by
  induction data generalizing p m pos with
  | nil => exact flushMark_invariant hd p m h
  | cons ch rest ih =>
    simp only [executeLoop]
    split
    · exact h
    · exact h
    next acts q _ =>
      have hI := runActs_invariant hn hd ch acts m h
      split
      next m' hr => simpa [hr,actsData] using hI
      next e d adv hr => simpa [hr,actsData] using hI
    next acts q _ =>
      have hI := runActs_invariant hn hd ch acts m h
      split
      next m' hr =>
        rw [hr] at hI
        exact ih _ _ _ hI
      next e d adv hr => simpa [hr,actsData] using hI

/-- Whatever every callback keeps, `http_parser_execute` keeps. -/
theorem httpParserExecute_invariant (hn : ∀ n p d, I d → I (cb.onNotify n p d).2)
    (hd : ∀ k p buf d, I d → I (cb.onData k p buf d).2) (p : HttpParser) (d : σ) (data : Bytes)
    (h : I d) : I (httpParserExecute cb p d data).2.1 := by
  unfold httpParserExecute
  split
  · exact h
  · split
    · split <;> exact h
    · exact executeLoop_invariant hn hd _ _ _ _ h

end Meinheld
