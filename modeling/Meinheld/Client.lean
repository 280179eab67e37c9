import Meinheld.Buffer
import Meinheld.HttpParser

/-! The data the server keeps: settings, requests with their queue, write buckets and
`client_t`. -/
namespace Meinheld

/-- A Python object where the code expects a `str`: the code points of one, or something else. -/
inductive PyObj
  | str (s : List ℕ)
  | other
  deriving DecidableEq, Repr

/-- An element of the list of headers given to `start_response`. -/
inductive HeaderItem
  | tuple (xs : List PyObj)
  | other
  deriving DecidableEq, Repr

/-- What `next` gives on the iterator of a response. -/
inductive Item
  | bytes (b : Bytes)
  | other
  | raise
  deriving DecidableEq, Repr

/-- What the application returned: an iterable, a file wrapper around a file with a descriptor
(with its `st_size` and the bytes from the offset of the descriptor on), or neither. -/
inductive ResponseKind
  | iter (items : List Item)
  | file (size : ℕ) (rest : Bytes)
  | notIterable
  deriving DecidableEq, Repr

/-- The response object. `keepsItem` says that somebody else holds a reference to the first item
once the iterator has given it. -/
structure Response where
  kind : ResponseKind
  hasClose : Bool := false
  closeRaises : Bool := false
  keepsItem : Bool := true
  deriving DecidableEq, Repr

/-- The settings and statics the code reads. -/
structure Globals where
  maxContentLength : ℕ := 1024 * 1024 * 16
  clientBodyBufferSize : ℕ := 1024 * 500
  isKeepAlive : Bool := false
  serverName : Bytes := ascii "0.0.0.0"
  serverPort : ℕ := 8000
  httpTime : Bytes := ascii "Thu, 01 Jan 1970 00:00:00 GMT"
  /-- The one static buffer `inet_ntoa` returns. -/
  inetNtoa : Bytes := []
  /-- Whether `tmpfile()` gives a file. -/
  tmpfile : Bool := true
  /-- The byte in memory after the bytes of a path buffer. -/
  beyond : Byte := 0
  maxContentLength_pos : 0 < maxContentLength := by decide
  maxContentLength_lt : maxContentLength < 2 ^ 31 := by decide
  clientBodyBufferSize_pos : 0 < clientBodyBufferSize := by decide
  clientBodyBufferSize_lt : clientBodyBufferSize < 2 ^ 31 := by decide
  httpTime_length : httpTime.length = 29 := by decide

/-- The settings before any setter has been called. -/
def Globals.initial : Globals := {}

/-- The entries of an environ whose keys and values are strings, as latin-1 bytes. -/
abbrev Environ := List (Bytes × Bytes)

/-- `PyDict_GetItem`. -/
def Environ.get? (e : Environ) (k : Bytes) : Option Bytes := e.lookup k

/-- `PyDict_SetItem`. -/
def Environ.set (e : Environ) (k v : Bytes) : Environ :=
  match e with
  | [] => [(k,v)]
  | (k',v') :: e' => if k' = k then (k,v) :: e' else (k',v') :: Environ.set e' k v

/-- `PyDict_DelItem`. -/
def Environ.del (e : Environ) (k : Bytes) : Environ := e.filter (·.1 ≠ k)

@[simp] theorem Environ.get?_set_self (e : Environ) (k v : Bytes) :
    (e.set k v).get? k = some v := by
  induction e with
  | nil => simp [Environ.set,Environ.get?]
  | cons kv e ih =>
    obtain ⟨k1,v1⟩ := kv
    by_cases hk : k1 = k
    · simp [Environ.set,Environ.get?,hk]
    · simpa [Environ.set,Environ.get?,hk,List.lookup_cons,beq_false_of_ne (Ne.symm hk)] using ih

theorem Environ.get?_set_of_ne (e : Environ) {k k' : Bytes} (v : Bytes) (h : k ≠ k') :
    (e.set k' v).get? k = e.get? k := by
  induction e with
  | nil => simp [Environ.set,Environ.get?,List.lookup_cons,beq_false_of_ne h]
  | cons kv e ih =>
    obtain ⟨k1,v1⟩ := kv
    by_cases hk : k1 = k'
    · simp [Environ.set,Environ.get?,hk,List.lookup_cons,beq_false_of_ne h]
    · simp only [Environ.get?] at ih
      simp [Environ.set,Environ.get?,hk,List.lookup_cons,ih]

theorem Environ.get?_del_of_ne (e : Environ) {k k' : Bytes} (h : k ≠ k') :
    (e.del k').get? k = e.get? k := by
  induction e with
  | nil => rfl
  | cons kv e ih =>
    obtain ⟨k1,v1⟩ := kv
    simp only [Environ.get?,Environ.del] at ih ⊢
    by_cases hk : k1 = k'
    · simpa [hk,List.lookup_cons,beq_false_of_ne h] using ih
    · cases hb : k == k1 with
      | true => simp [hk,List.lookup_cons,hb]
      | false => simpa [hk,List.lookup_cons,hb] using ih

inductive FieldType
  | FIELD | VALUE
  deriving DecidableEq, Repr

/-- `body` with `body_type`; a temporary file that could not be made is `tmpfile none`. -/
inductive Body
  | none
  | tmpfile (content : Option Bytes)
  | buffer (b : Buffer)
  deriving DecidableEq, Repr

/-- `request`, the default being what `memset` leaves (0 is `HTTP_DELETE`). `pyclient` says that
the environ holds the `ClientObject`. -/
structure Request where
  path : Option Buffer := none
  numHeaders : ℕ := 0
  lastHeaderElement : FieldType := .FIELD
  environ : Environ := []
  pyclient : Bool := false
  method : HttpMethod := .DELETE
  bodyLength : ℕ := 0
  bodyReaded : ℕ := 0
  badRequestCode : ℕ := 0
  body : Body := .none
  field : Option Bytes := none
  value : Option Bytes := none
  deriving DecidableEq, Repr

/-- An iovec. `item` marks memory that belongs to the item of the application. -/
structure Iovec where
  base : Bytes
  item : Bool := false
  deriving DecidableEq, Repr

/-- `write_bucket`, with `total` and `total_size` of 32 bits; `freed` says that the item the
bucket points into has been released. -/
structure WriteBucket where
  iov : List Iovec := []
  iovSize : ℕ
  total : ℕ := 0
  totalSize : ℕ := 0
  sended : Bool := false
  freed : Bool := false
  deriving DecidableEq, Repr

/-- `client_t`, the default being what `memset` leaves. While a connection is read, `current_req`
is also the tail of the queue; `requestQueue` holds the requests before it. `aborted` says that
the process has died in a failed assertion or on a null pointer. -/
structure Client where
  remotePort : ℕ := 0
  keepAlive : Bool := false
  upgrade : Bool := false
  currentReq : Option Request := none
  requestQueue : List Request := []
  complete : Bool := false
  httpParser : HttpParser := {}
  statusCode : ℕ := 0
  httpStatus : Option Bytes := none
  headers : Option (List HeaderItem) := none
  headerDone : Bool := false
  response : Option Response := none
  responseIter : Option (List Item) := none
  chunkedResponse : Bool := false
  contentLengthSet : Bool := false
  contentLength : ℕ := 0
  writeBytes : ℕ := 0
  bucket : Option WriteBucket := none
  responseClosed : Bool := false
  aborted : Bool := false
  deriving DecidableEq, Repr

/-- `new_client_t`; the address is the static buffer of `inet_ntoa`, so only the port is kept. -/
def newClientT (remotePort : ℕ) : Client := { remotePort := remotePort, complete := true }

/-- The requests of the queue, from head to tail. -/
def Client.queue (c : Client) : List Request := c.requestQueue ++ c.currentReq.toList

end Meinheld
