import Meinheld.HeaderLines
import Meinheld.Quoting
import Meinheld.RemoteAddress
import Meinheld.Splitting

/-! `mlogging.py` with `set_log_value`: the line of the access log, and what can be read back
from it. -/
namespace Meinheld

/-! ### What `clean_client` adds to an environ -/

/-- What `cache_time_update` leaves in `http_log_time`; the offset from GMT is in minutes. -/
def Tm.httpLogTime (t : Tm) (gmtoff : ℤ) : Bytes :=
  twoDigits t.mday ++ ascii "/" ++ ascii (months t.mon) ++ ascii "/" ++ decimal t.year ++ ascii ":" ++
    twoDigits t.hour ++ ascii ":" ++ twoDigits t.min ++ ascii ":" ++ twoDigits t.sec ++ ascii " " ++
    (if gmtoff < 0 then ascii "-" else ascii "+") ++ twoDigits (gmtoff.natAbs / 60) ++
    twoDigits (gmtoff.natAbs % 60)

/-- An unsigned 64-bit value given to `PyLong_FromLong`. -/
def asLong (n : ℕ) : ℤ := Int.bmod n (2 ^ 64)

/-- An environ for the log: its strings, and the numbers of `set_log_value`. -/
structure LogEnviron where
  strings : Environ
  statusCode : Option ℤ := none
  bytesSent : Option ℤ := none
  requestTime : Option ℤ := none

def setLogValue (c : Client) (environ : Environ) (deltaMsec : ℕ) (t : Tm) (gmtoff : ℤ) :
    LogEnviron where
  strings := environ.set (ascii "LOCAL_TIME") (t.httpLogTime gmtoff)
  statusCode := some c.statusCode
  bytesSent := some (asLong c.writeBytes)
  requestTime := some (asLong deltaMsec)

/-! ### `Logger.access` -/

/-- `os.getpid()`, and `str(n / 100)`, the text of a float. -/
structure Process where
  pid : ℕ
  hundredths : ℤ → Bytes

/-- `str` of an `int`. -/
def strInt (n : ℤ) : Bytes := if n < 0 then ascii "-" ++ decimal n.natAbs else decimal n.natAbs

/-- One character of `str.lower()`, on latin-1. -/
def strLower (c : Byte) : Byte :=
  if 'A'.toUInt8 ≤ c ∧ c ≤ 'Z'.toUInt8 ∨ 0xC0 ≤ c ∧ c ≤ 0xDE ∧ c ≠ 0xD7 then c + 32 else c

namespace LogEnviron

/-- `environ.get(k, d)`. -/
def get (e : LogEnviron) (k d : String) : Bytes := (e.strings.get? (ascii k)).getD (ascii d)

/-- The text of `r`. -/
def requestLine (e : LogEnviron) : Bytes :=
  e.get "REQUEST_METHOD" "-" ++ ascii " " ++ e.get "PATH_INFO" "-" ++ ascii " " ++
    e.get "SERVER_PROTOCOL" "HTTP/1.0"

/-- The first entries of `atoms`. -/
def baseAtoms (e : LogEnviron) (p : Process) : Environ :=
  [(ascii "h",e.get "REMOTE_ADDR" "-"),
   (ascii "l",ascii "-"),
   (ascii "u",ascii "-"),
   (ascii "t",e.get "LOCAL_TIME" "-"),
   (ascii "r",e.requestLine),
   (ascii "s",(e.statusCode.map strInt).getD (ascii "-")),
   (ascii "b",(e.bytesSent.map strInt).getD (ascii "-")),
   (ascii "f",e.get "HTTP_REFERER" "-"),
   (ascii "a",e.get "HTTP_USER_AGENT" "-"),
   (ascii "T",p.hundredths (e.requestTime.getD 1)),
   (ascii "D",strInt (e.requestTime.getD 1)),
   (ascii "p",ascii "<" ++ decimal p.pid ++ ascii ">")]

/-- `"{%s}i" % k[5:].lower()`. -/
def headerAtom (k : Bytes) : Bytes := ascii "\x7b" ++ (k.drop 5).map strLower ++ ascii "\x7di"

/-- `atoms`, with those of the request headers. -/
def atoms (e : LogEnviron) (p : Process) : Environ :=
  (e.strings.filter fun kv => (ascii "HTTP_").isPrefixOf kv.1).foldl
    (fun atoms kv => atoms.set (headerAtom kv.1) kv.2) (e.baseAtoms p)

end LogEnviron

/-- `value.replace('"', '\\"')`. -/
def escapeQuotes (value : Bytes) : Bytes := Quoting.escape '"'.toUInt8 '\\'.toUInt8 value

/-- `SafeAtoms(atoms)`. -/
def safeAtoms (atoms : Environ) : Environ := atoms.map (Prod.map id escapeQuotes)

/-- `SafeAtoms.__getitem__`. -/
def safeAtomsItem (self : Environ) (k : Bytes) : Bytes :=
  if (ascii "\x7b").isPrefixOf k then (self.get? (k.map strLower)).getD (ascii "-")
  else (self.get? k).getD (ascii "-")

/-- A piece of a format: text, or `%(k)s`. -/
inductive Piece
  | text (s : String)
  | atom (k : String)

/-- `format % safe_atoms`. -/
def Piece.format (self : Environ) : Piece → Bytes
  | .text s => ascii s
  | .atom k => safeAtomsItem self (ascii k)

/-- `Logger.access_log_format`. -/
def accessLogFormat : List Piece :=
  [.text "\"",.atom "h",.text " ",.atom "l",.text " ",.atom "u",.text " [",.atom "t",.text "] \"",
   .atom "r",.text "\" ",.atom "s",.text " ",.atom "b",.text " \"",.atom "f",.text "\" \"",.atom "a",
   .text "\""]

/-- The message of `Logger.access`. -/
def access (p : Process) (e : LogEnviron) : Bytes :=
  accessLogFormat.flatMap (Piece.format (safeAtoms (e.atoms p)))

/-! ### What can be read back -/

/-- Text without a line break. -/
def SingleLine (s : Bytes) : Prop := ∀ c ∈ s, c ≠ LF ∧ c ≠ CR

instance decidableSingleLine (s : Bytes) : Decidable (SingleLine s) :=
  List.decidableBAll (p := fun c => c ≠ LF ∧ c ≠ CR) s

/-- The fields between the quotes of a line: the request line, the referer and the user agent are
the third, the fifth and the seventh, as the line starts with a quote. -/
def quotedFields (line : Bytes) : Option (List Bytes) :=
  (Quoting.readFields '"'.toUInt8 '\\'.toUInt8 7 line).map fun fs => [2,4,6].filterMap (fs[·]?)

structure Unambiguous (e : LogEnviron) (line : Bytes) : Prop where
  single : SingleLine line
  fields : quotedFields line =
    some [e.requestLine,e.get "HTTP_REFERER" "-",e.get "HTTP_USER_AGENT" "-"]

/-! ### The environs of requests -/

/-- The environs the parser's callbacks can make. -/
inductive Environ.Built : Environ → Prop
  | begin (g : Globals) (c : Client) (a : Byte × Byte × Byte × Byte) (h : g.inetNtoa = inetNtoa a) :
    Built (newEnviron g c)
  | header {e : Environ} {field : Bytes} (h : Built e) (hfield : ascii "HTTP_" <+: field) (v : Bytes) :
    Built (mergeHeader e field v)
  | requestLine {req : Request} (h : Built req.environ) (g : Globals) (p : HttpParser) :
    Built (requestLineEnv g p req)
  | finish {e : Environ} (h : Built e) (p : HttpParser) : Built (finishEnv p e)

theorem singleLine_append {s t : Bytes} : SingleLine (s ++ t) ↔ SingleLine s ∧ SingleLine t :=
  List.forall_mem_append

theorem singleLine_decimal (n : ℕ) : SingleLine (decimal n) := by
  intro c hc
  have hdigit := isNum_of_mem_decimal hc
  constructor
  · rintro rfl
    exact absurd hdigit (by decide)
  · rintro rfl
    exact absurd hdigit (by decide)

theorem singleLine_twoDigits (n : ℕ) : SingleLine (twoDigits n) := by
  unfold twoDigits
  split
  · exact singleLine_append.mpr ⟨by decide,singleLine_decimal n⟩
  · exact singleLine_decimal n

theorem singleLine_strInt (n : ℤ) : SingleLine (strInt n) := by
  unfold strInt
  split
  · exact singleLine_append.mpr ⟨by decide,singleLine_decimal _⟩
  · exact singleLine_decimal _

theorem singleLine_inetNtoa (a : Byte × Byte × Byte × Byte) : SingleLine (inetNtoa a) := by
  have hdot : SingleLine (ascii ".") := by decide
  simp only [inetNtoa,singleLine_append,singleLine_decimal,hdot,and_self]

theorem Tm.singleLine_httpLogTime (t : Tm) (gmtoff : ℤ) : SingleLine (t.httpLogTime gmtoff) := by
  have hmonths : ∀ m, SingleLine (ascii (months m)) := by decide
  have hsign : SingleLine (if gmtoff < 0 then ascii "-" else ascii "+") := by
    split <;> decide
  have htext : SingleLine (ascii "/") ∧ SingleLine (ascii ":") ∧ SingleLine (ascii " ") := by decide
  simp only [httpLogTime,singleLine_append,singleLine_twoDigits,singleLine_decimal,hmonths,hsign,htext,
    and_self]

/-- What the entries made by the server itself are like. -/
structure Environ.Served (e : Environ) : Prop where
  addr : ∀ v ∈ e.get? (ascii "REMOTE_ADDR"), SingleLine v
  method : ∀ v ∈ e.get? (ascii "REQUEST_METHOD"), SingleLine v
  protocol : ∀ v ∈ e.get? (ascii "SERVER_PROTOCOL"), v = ascii "HTTP/1.1" ∨ v = ascii "HTTP/1.0"

/-- Only these three entries matter. -/
theorem Environ.Served.congr {e e' : Environ} (h : e.Served)
    (ha : e'.get? (ascii "REMOTE_ADDR") = e.get? (ascii "REMOTE_ADDR"))
    (hm : e'.get? (ascii "REQUEST_METHOD") = e.get? (ascii "REQUEST_METHOD"))
    (hp : e'.get? (ascii "SERVER_PROTOCOL") = e.get? (ascii "SERVER_PROTOCOL")) : e'.Served :=
  ⟨ha ▸ h.addr,hm ▸ h.method,hp ▸ h.protocol⟩

theorem Environ.Built.served {e : Environ} (h : e.Built) : e.Served := by
  induction h with
  | begin g c a h =>
    have haddr : (newEnviron g c).get? (ascii "REMOTE_ADDR") = some (cstr g.inetNtoa) := rfl
    have hmethod : (newEnviron g c).get? (ascii "REQUEST_METHOD") = none := rfl
    have hprotocol : (newEnviron g c).get? (ascii "SERVER_PROTOCOL") = none := rfl
    refine ⟨?_,by simp [hmethod],by simp [hprotocol]⟩
    intro v hv
    rw [haddr,h,cstr_inetNtoa] at hv
    obtain rfl := Option.some.inj hv
    exact singleLine_inetNtoa a
  | @header e field h hfield v ih =>
    have hkey : ∀ k, ¬ascii "HTTP_" <+: k → (mergeHeader e field v).get? k = e.get? k := by
      intro k hk
      rw [get?_mergeHeader,if_neg]
      rintro rfl
      exact hk hfield
    exact ih.congr (hkey _ (by decide)) (hkey _ (by decide)) (hkey _ (by decide))
  | @requestLine req h g p ih =>
    refine ⟨?_,?_,?_⟩
    · rw [get?_requestLineEnv g p req (by decide) (by decide) (by decide)]
      exact ih.addr
    · rw [get?_requestLineEnv g p req (by decide) (by decide) (by decide)]
      exact ih.method
    · have hprotocol : (requestLineEnv g p req).get? (ascii "SERVER_PROTOCOL") = some
          (if p.httpMajor = 1 ∧ p.httpMinor = 1 then ascii "HTTP/1.1" else ascii "HTTP/1.0") := by
        unfold requestLineEnv
        simp only
        cases req.path with
        | none => rw [Environ.get?_set_of_ne _ _ (by decide),Environ.get?_set_self]
        | some path => rw [get?_setPath_of_ne g _ _ (by decide) (by decide),Environ.get?_set_self]
      intro v hv
      rw [hprotocol,Option.mem_some_iff] at hv
      subst hv
      split
      · exact .inl rfl
      · exact .inr rfl
  | @finish e h p ih =>
    have hkey : ∀ k, k ≠ ascii "HTTP_CONTENT_TYPE" → k ≠ ascii "CONTENT_TYPE" →
        k ≠ ascii "HTTP_CONTENT_LENGTH" → k ≠ ascii "CONTENT_LENGTH" → k ≠ ascii "REQUEST_METHOD" →
        (finishEnv p e).get? k = e.get? k := by
      intro k h1 h2 h3 h4 h5
      unfold finishEnv
      rw [Environ.get?_set_of_ne _ _ h5,(get?_replaceEnvKey _ (by decide)).2.2 k h3 h4,
        (get?_replaceEnvKey _ (by decide)).2.2 k h1 h2]
    have hmethods : ∀ m, SingleLine (requestMethod m) := fun m => by cases m <;> decide
    refine ⟨?_,?_,?_⟩
    · rw [hkey _ (by decide) (by decide) (by decide) (by decide) (by decide)]
      exact ih.addr
    · intro v hv
      unfold finishEnv at hv
      rw [Environ.get?_set_self,Option.mem_some_iff] at hv
      subst hv
      exact hmethods p.method
    · rw [hkey _ (by decide) (by decide) (by decide) (by decide) (by decide)]
      exact ih.protocol

/-! ### The parser makes such environs -/

/-- What a callback that works on the current request does to its environ. -/
def KeepsBuilt (f : Request → Option (Bool × Request)) : Prop :=
  ∀ req r, FieldPrefixed req → req.environ.Built → f req = some r → r.2.environ.Built

theorem addHeader_built {req r : Request} (hf : FieldPrefixed req) (h : req.environ.Built)
    (hr : addHeader req = some r) : r.environ.Built := by
  unfold addHeader at hr
  split at hr
  next field value hfield _ =>
    obtain rfl := Option.some.inj hr
    exact h.header (hf field hfield) _
  next => simp at hr

theorem storeField_environ (req : Request) (buf : Bytes) :
    (storeField req buf).2.environ = req.environ := by
  unfold storeField Request.bad
  split_ifs <;> rfl

theorem headerFieldCb_built (buf : Bytes) : KeepsBuilt (headerFieldCb buf) := by
  intro req r hf h hr
  unfold headerFieldCb at hr
  split_ifs at hr
  · obtain rfl := Option.some.inj hr
    exact h
  · obtain ⟨req',hadd,rfl⟩ := Option.map_eq_some_iff.mp hr
    rw [storeField_environ]
    exact addHeader_built hf h hadd
  · obtain rfl := Option.some.inj hr
    rwa [storeField_environ]

theorem headerValueCb_built (buf : Bytes) : KeepsBuilt (headerValueCb buf) := by
  intro req r hf h hr
  simp only [headerValueCb] at hr
  split_ifs at hr <;> obtain rfl := Option.some.inj hr <;> exact h

theorem urlCb_built (buf : Bytes) : KeepsBuilt (urlCb buf) := by
  intro req r hf h hr
  simp only [urlCb] at hr
  split at hr <;> obtain rfl := Option.some.inj hr <;> exact h

theorem writeBody_environ {req r : Request} {buf : Bytes} (h : writeBody req buf = some r) :
    r.environ = req.environ := by
  unfold writeBody at h
  cases hb : req.body with
  | none => simp [hb] at h
  | buffer b =>
    rw [hb] at h
    obtain rfl := Option.some.inj h
    rfl
  | tmpfile content =>
    cases content with
    | none => simp [hb] at h
    | some content =>
      rw [hb] at h
      obtain rfl := Option.some.inj h
      rfl

theorem bodyCb_built (g : Globals) (p : HttpParser) (buf : Bytes) : KeepsBuilt (bodyCb g p buf) := by
  intro req r hf h hr
  unfold bodyCb at hr
  split_ifs at hr
  · obtain rfl := Option.some.inj hr
    exact h
  · obtain rfl := Option.some.inj hr
    exact h
  · obtain ⟨req',hb,rfl⟩ := Option.map_eq_some_iff.mp hr
    rwa [writeBody_environ hb]
  · obtain ⟨req',hb,rfl⟩ := Option.map_eq_some_iff.mp hr
    rwa [writeBody_environ hb]

theorem headersComplete_built (g : Globals) (p : HttpParser) :
    KeepsBuilt fun req => some (headersComplete g p req) := by
  intro req r hf h hr
  obtain rfl := Option.some.inj hr
  unfold headersComplete
  split
  · exact h
  · refine Environ.Built.finish ?_ p
    unfold lastHeader
    cases hadd : addHeader { req with environ := requestLineEnv g p req, path := none } with
    | none => exact h.requestLine g p
    | some req' =>
      exact @addHeader_built { req with environ := requestLineEnv g p req, path := none } _ hf
        (h.requestLine g p) hadd

/-- The environs of a client's requests. -/
structure EnvironsBuilt (c : Client) : Prop where
  built : ∀ req ∈ c.queue, req.environ.Built
  field : ∀ req, c.currentReq = some req → FieldPrefixed req

theorem onCurrentReq_built {c : Client} {f : Request → Option (Bool × Request)} (hf : KeepsBuilt f)
    (hr : KeepsRemote f) (h : EnvironsBuilt c) : EnvironsBuilt (onCurrentReq c f).2 := by
  unfold onCurrentReq
  cases hbind : c.currentReq.bind f with
  | none => exact ⟨h.built,h.field⟩
  | some r =>
    obtain ⟨req,hreq,hfr⟩ := Option.bind_eq_some_iff.mp hbind
    refine ⟨?_,?_⟩
    · intro req' hreq'
      rcases List.mem_append.mp hreq' with hold | hnew
      · exact h.built req' (List.mem_append_left _ hold)
      · obtain rfl := List.mem_singleton.mp hnew
        exact hf req r (h.field req hreq) (h.built req (by simp [Client.queue,hreq])) hfr
    · rintro req' hreq'
      obtain rfl := Option.some.inj hreq'
      exact (hr req r (h.field req hreq) hfr).2

theorem messageBeginCb_built {g : Globals} {c : Client} {a : Byte × Byte × Byte × Byte}
    (ha : g.inetNtoa = inetNtoa a) (h : EnvironsBuilt c) : EnvironsBuilt (messageBeginCb g c).2 := by
  refine ⟨?_,?_⟩
  · intro req hreq
    rcases List.mem_append.mp hreq with hold | hnew
    · exact h.built req hold
    · obtain rfl := List.mem_singleton.mp hnew
      exact .begin g c a ha
  · rintro req hreq
    obtain rfl := Option.some.inj hreq
    simp [FieldPrefixed]

/-- Whatever bytes the parser is given, the requests it makes have such environs. -/
theorem executeParse_built {g : Globals} {c : Client} {a : Byte × Byte × Byte × Byte}
    (ha : g.inetNtoa = inetNtoa a) (h : EnvironsBuilt c) (data : Bytes) :
    EnvironsBuilt (executeParse g c data).1 := by
  have hrun := @httpParserExecute_invariant _ (settings g) EnvironsBuilt
    (fun n p d hd => by
      cases n with
      | messageBegin => exact messageBeginCb_built ha hd
      | headersComplete =>
        exact onCurrentReq_built (headersComplete_built g p) (headersComplete_keepsRemote g p)
          ⟨hd.built,hd.field⟩
      | messageComplete => exact ⟨hd.built,hd.field⟩)
    (fun k p buf d hd => by
      cases k with
      | headerField => exact onCurrentReq_built (headerFieldCb_built buf) (headerFieldCb_keepsRemote buf) hd
      | headerValue => exact onCurrentReq_built (headerValueCb_built buf) (headerValueCb_keepsRemote buf) hd
      | url => exact onCurrentReq_built (urlCb_built buf) (urlCb_keepsRemote buf) hd
      | body => exact onCurrentReq_built (bodyCb_built g p buf) (bodyCb_keepsRemote g p buf) hd)
    c.httpParser { c with complete := false } data ⟨h.built,h.field⟩
  exact ⟨hrun.built,hrun.field⟩

/-! ### The line -/

namespace LogEnviron

theorem get?_atoms (e : LogEnviron) (p : Process) {k : Bytes} (hk : ¬ascii "\x7b" <+: k) :
    (e.atoms p).get? k = (e.baseAtoms p).get? k := by
  unfold atoms
  generalize e.strings.filter _ = headers
  generalize e.baseAtoms p = atoms
  induction headers generalizing atoms with
  | nil => rfl
  | cons kv headers ih =>
    rw [List.foldl_cons,ih]
    apply Environ.get?_set_of_ne
    rintro rfl
    exact hk (List.prefix_append _ _)

theorem get?_safeAtoms (atoms : Environ) (k : Bytes) :
    (safeAtoms atoms).get? k = (atoms.get? k).map escapeQuotes := by
  induction atoms with
  | nil => rfl
  | cons kv atoms ih =>
    simp only [safeAtoms,Environ.get?] at ih ⊢
    rw [List.map_cons,List.lookup_cons,List.lookup_cons,ih]
    cases h : k == kv.1 <;> simp [h]

theorem format_atom (e : LogEnviron) (p : Process) {k : String} {v : Bytes}
    (hk : ¬ascii "\x7b" <+: ascii k) (hv : (e.baseAtoms p).get? (ascii k) = some v) :
    Piece.format (safeAtoms (e.atoms p)) (.atom k) = escapeQuotes v := by
  have hpre : (ascii "\x7b").isPrefixOf (ascii k) = false := by
    rw [Bool.eq_false_iff]
    exact fun h => hk (List.isPrefixOf_iff_prefix.mp h)
  simp only [Piece.format,safeAtomsItem]
  rw [hpre,if_neg (by simp),get?_safeAtoms,get?_atoms e p hk,hv]
  rfl

/-- What stands between the first two quotes of a line, and between the request line and the
referer. -/
def clientText (e : LogEnviron) : Bytes :=
  e.get "REMOTE_ADDR" "-" ++ ascii " - - [" ++ e.get "LOCAL_TIME" "-" ++ ascii "] "

def countText (e : LogEnviron) : Bytes :=
  ascii " " ++ (e.statusCode.map strInt).getD (ascii "-") ++ ascii " " ++
    (e.bytesSent.map strInt).getD (ascii "-") ++ ascii " "

end LogEnviron

/-- The line is seven fields, each ended by a quote. -/
theorem access_eq (p : Process) (e : LogEnviron) : access p e =
    [[],e.clientText,e.requestLine,e.countText,e.get "HTTP_REFERER" "-",ascii " ",
      e.get "HTTP_USER_AGENT" "-"].flatMap fun v => escapeQuotes v ++ ascii "\"" := by
  have htext : ∀ s ∈ ["-"," "," - - [","] "], escapeQuotes (ascii s) = ascii s := by
    intro s hs
    apply Quoting.escape_eq_self
    revert hs s
    decide
  simp only [List.forall_mem_cons] at htext
  obtain ⟨hdash,hspace,hopen,hclose,-⟩ := htext
  have happend : ∀ v w, escapeQuotes (v ++ w) = escapeQuotes v ++ escapeQuotes w :=
    Quoting.escape_append
  unfold access accessLogFormat
  simp only [List.flatMap_cons,List.flatMap_nil]
  rw [e.format_atom p (by decide) rfl,e.format_atom p (by decide) rfl,e.format_atom p (by decide) rfl,
    e.format_atom p (by decide) rfl,e.format_atom p (by decide) rfl,e.format_atom p (by decide) rfl,
    e.format_atom p (by decide) rfl,e.format_atom p (by decide) rfl,e.format_atom p (by decide) rfl]
  simp only [LogEnviron.clientText,LogEnviron.countText,happend,hdash,hspace,hopen,hclose]
  have hnil : escapeQuotes [] = [] := rfl
  -- the texts of the format, cut at the quotes
  have h1 : ascii "] \"" = ascii "] " ++ ascii "\"" := rfl
  have h2 : ascii "\" " = ascii "\"" ++ ascii " " := rfl
  have h3 : ascii " \"" = ascii " " ++ ascii "\"" := rfl
  have h4 : ascii "\" \"" = ascii "\"" ++ (ascii " " ++ ascii "\"") := rfl
  have h5 : ascii " - - [" = ascii " " ++ (ascii "-" ++ (ascii " " ++ (ascii "-" ++ ascii " ["))) := rfl
  simp only [Piece.format,hnil,h1,h2,h3,h4,h5,List.append_assoc,List.append_nil,List.nil_append]

theorem singleLine_escapeQuotes (v : Bytes) : SingleLine (escapeQuotes v) ↔ SingleLine v := by
  have hbreak : ∀ c : Byte, c = LF ∨ c = CR → (c ∈ escapeQuotes v ↔ c ∈ v) := by
    rintro c (rfl | rfl) <;> exact Quoting.mem_escape (by decide)
  constructor
  · intro h c hc
    constructor
    · rintro rfl
      exact (h _ ((hbreak LF (.inl rfl)).mpr hc)).1 rfl
    · rintro rfl
      exact (h _ ((hbreak CR (.inr rfl)).mpr hc)).2 rfl
  · intro h c hc
    constructor
    · rintro rfl
      exact (h _ ((hbreak LF (.inl rfl)).mp hc)).1 rfl
    · rintro rfl
      exact (h _ ((hbreak CR (.inr rfl)).mp hc)).2 rfl

/-- A text that can stand at the end of a quoted field. -/
def EndsField (v : Bytes) : Prop := v.getLast? ≠ some '\\'.toUInt8

instance decidableEndsField (v : Bytes) : Decidable (EndsField v) :=
  inferInstanceAs (Decidable (v.getLast? ≠ _))

theorem endsField_append (v : Bytes) {w : Bytes} (hw : w ≠ []) (h : EndsField w) : EndsField (v ++ w) := by
  rwa [EndsField,List.getLast?_append_of_ne_nil v hw]

/-- The fields come back exactly when neither header ends in a backslash. -/
theorem quotedFields_iff (p : Process) {e : LogEnviron} (hr : EndsField e.requestLine) :
    quotedFields (access p e) = some [e.requestLine,e.get "HTTP_REFERER" "-",e.get "HTTP_USER_AGENT" "-"] ↔
      EndsField (e.get "HTTP_REFERER" "-") ∧ EndsField (e.get "HTTP_USER_AGENT" "-") := by
  have hqe : '"'.toUInt8 ≠ '\\'.toUInt8 := by decide
  have hread : ∀ {v : Bytes} (_ : EndsField v) (n : ℕ) (s : Bytes),
      Quoting.readFields '"'.toUInt8 '\\'.toUInt8 (n + 1) (escapeQuotes v ++ (ascii "\"" ++ s)) =
        (Quoting.readFields '"'.toUInt8 '\\'.toUInt8 n s).map (v :: ·) :=
    fun hv n s => Quoting.readFields_cons hqe hv n
  have hclient : EndsField e.clientText := endsField_append _ (by decide) (by decide)
  have hcount : EndsField e.countText := endsField_append _ (by decide) (by decide)
  rw [access_eq]
  simp only [List.flatMap_cons,List.flatMap_nil,List.append_assoc]
  rw [quotedFields,hread (by decide),hread hclient,hread hr,hread hcount]
  by_cases hf : EndsField (e.get "HTTP_REFERER" "-")
  · rw [hread hf,hread (by decide)]
    by_cases ha : EndsField (e.get "HTTP_USER_AGENT" "-")
    · rw [hread ha]
      exact iff_of_true rfl ⟨hf,ha⟩
    · refine iff_of_false (fun hfields => ?_) fun h => ha h.2
      simp only [Option.map_map,Option.map_eq_some_iff] at hfields
      obtain ⟨fs,hfs,hpick⟩ := hfields
      obtain ⟨x,xs,rfl,hne⟩ := Quoting.readFields_head_ne hqe (not_not.mp ha) hfs
      exact hne (List.cons.inj (List.cons.inj (List.cons.inj hpick).2).2).1
  · refine iff_of_false (fun hfields => ?_) fun h => hf h.1
    simp only [Option.map_map,Option.map_eq_some_iff] at hfields
    obtain ⟨fs,hfs,hpick⟩ := hfields
    obtain ⟨x,xs,rfl,hne⟩ := Quoting.readFields_head_ne hqe (not_not.mp hf) hfs
    exact hne (List.cons.inj (List.cons.inj hpick).2).1

theorem singleLine_access (p : Process) (e : LogEnviron) : SingleLine (access p e) ↔
    SingleLine (e.get "REMOTE_ADDR" "-") ∧ SingleLine (e.get "LOCAL_TIME" "-") ∧
      SingleLine e.requestLine ∧ SingleLine (e.get "HTTP_REFERER" "-") ∧
        SingleLine (e.get "HTTP_USER_AGENT" "-") := by
  have hint : ∀ n : Option ℤ, SingleLine ((n.map strInt).getD (ascii "-")) := by
    intro n
    cases n with
    | none => exact show SingleLine (ascii "-") by decide
    | some n => exact singleLine_strInt n
  have htext : SingleLine [] ∧ SingleLine (ascii " ") ∧ SingleLine (ascii "\"") ∧
      SingleLine (ascii " - - [") ∧ SingleLine (ascii "] ") := by decide
  rw [access_eq]
  simp only [List.flatMap_cons,List.flatMap_nil,singleLine_append,singleLine_escapeQuotes,htext,
    LogEnviron.clientText,LogEnviron.countText,hint,and_true,true_and,and_assoc]

/-- A line is unambiguous exactly when the path, the referer and the user agent have no line break,
and neither header ends in a backslash. -/
theorem access_unambiguous_iff {environ : Environ} (h : environ.Built) (c : Client) (deltaMsec : ℕ)
    (t : Tm) (gmtoff : ℤ) (p : Process) :
    let e := setLogValue c environ deltaMsec t gmtoff
    Unambiguous e (access p e) ↔
      SingleLine (e.get "PATH_INFO" "-") ∧
        (SingleLine (e.get "HTTP_REFERER" "-") ∧ EndsField (e.get "HTTP_REFERER" "-")) ∧
        (SingleLine (e.get "HTTP_USER_AGENT" "-") ∧ EndsField (e.get "HTTP_USER_AGENT" "-")) := by
  intro e
  have hserved := h.served
  have hkey : ∀ k d : String, ascii k ≠ ascii "LOCAL_TIME" →
      e.get k d = (environ.get? (ascii k)).getD (ascii d) := by
    intro k d hk
    change ((environ.set _ _).get? _).getD _ = _
    rw [Environ.get?_set_of_ne _ _ hk]
  have haddr : SingleLine (e.get "REMOTE_ADDR" "-") := by
    rw [hkey _ _ (by decide)]
    cases ha : environ.get? (ascii "REMOTE_ADDR") with
    | none => exact show SingleLine (ascii "-") by decide
    | some v => exact hserved.addr v ha
  have htime : SingleLine (e.get "LOCAL_TIME" "-") := by
    change SingleLine (((environ.set _ _).get? _).getD _)
    rw [Environ.get?_set_self]
    exact t.singleLine_httpLogTime gmtoff
  have hmethod : SingleLine (e.get "REQUEST_METHOD" "-") := by
    rw [hkey _ _ (by decide)]
    cases hm : environ.get? (ascii "REQUEST_METHOD") with
    | none => exact show SingleLine (ascii "-") by decide
    | some v => exact hserved.method v hm
  have hprotocol : e.get "SERVER_PROTOCOL" "HTTP/1.0" = ascii "HTTP/1.1" ∨
      e.get "SERVER_PROTOCOL" "HTTP/1.0" = ascii "HTTP/1.0" := by
    rw [hkey _ _ (by decide)]
    cases hp : environ.get? (ascii "SERVER_PROTOCOL") with
    | none => exact .inr rfl
    | some v => exact hserved.protocol v hp
  clear_value e
  have hline : EndsField e.requestLine := by
    apply endsField_append
    · rcases hprotocol with hp | hp <;> rw [hp] <;> decide
    · rcases hprotocol with hp | hp <;> rw [hp] <;> decide
  have hsingle : SingleLine e.requestLine ↔ SingleLine (e.get "PATH_INFO" "-") := by
    have hspace : SingleLine (ascii " ") := by decide
    have hversion : SingleLine (e.get "SERVER_PROTOCOL" "HTTP/1.0") := by
      rcases hprotocol with hp | hp <;> rw [hp] <;> decide
    simp only [LogEnviron.requestLine,singleLine_append,hmethod,hspace,hversion,true_and,and_true]
  have hunambiguous : Unambiguous e (access p e) ↔ SingleLine (access p e) ∧
      quotedFields (access p e) =
        some [e.requestLine,e.get "HTTP_REFERER" "-",e.get "HTTP_USER_AGENT" "-"] :=
    ⟨fun hu => ⟨hu.single,hu.fields⟩,fun hu => ⟨hu.1,hu.2⟩⟩
  rw [hunambiguous,singleLine_access,quotedFields_iff p hline,hsingle]
  constructor
  · rintro ⟨⟨-,-,hpath,hf,ha⟩,hf',ha'⟩
    exact ⟨hpath,⟨hf,hf'⟩,ha,ha'⟩
  · rintro ⟨hpath,⟨hf,hf'⟩,ha,ha'⟩
    exact ⟨⟨haddr,htime,hpath,hf,ha⟩,hf',ha'⟩

def loopback : Globals := { Globals.initial with inetNtoa := inetNtoa (127,0,0,1) }

/-- What is logged for an environ can be read back. -/
def Logged (environ : Environ) : Prop :=
  let e := setLogValue { statusCode := 200 } environ 0 epoch 0
  Unambiguous e (access ⟨1,fun _ => []⟩ e)

theorem access_unambiguous_referer :
    Logged (mergeHeader (newEnviron loopback {}) (ascii "HTTP_REFERER") (ascii "\"/\"")) :=
  (access_unambiguous_iff (.header (.begin loopback {} (127,0,0,1) rfl) (by decide) _) _ 0 epoch 0 _).mpr
    ⟨by decide,by decide,by decide⟩

/-- The environ of a request for a path. -/
def pathEnviron (path : Bytes) : Environ :=
  requestLineEnv loopback {}
    { environ := newEnviron loopback {}, path := some (write2buf (newBuffer 1024 LIMIT_PATH) path).2 }

/-- The environ of a request with one header. -/
def headerEnviron (field value : Bytes) : Environ := mergeHeader (newEnviron loopback {}) field value

/-- An escaped line feed in the path is a second line, and a backslash at the end of the user agent
takes the last quote away. -/
theorem access_not_unambiguous :
    ((pathEnviron (ascii "/%0A")).Built ∧ ¬Logged (pathEnviron (ascii "/%0A"))) ∧
    (headerEnviron (ascii "HTTP_USER_AGENT") (ascii "\\")).Built ∧
      ¬Logged (headerEnviron (ascii "HTTP_USER_AGENT") (ascii "\\")) := by
  have hbegin := Environ.Built.begin loopback {} (127,0,0,1) rfl
  refine ⟨⟨hbegin.requestLine _ _,fun h => ?_⟩,hbegin.header (by decide) _,fun h => ?_⟩
  · have hline := ((singleLine_access _ _).mp h.single).2.2.1
    revert hline
    decide +kernel
  · have hends := ((quotedFields_iff _ (by decide)).mp h.fields).2
    revert hends
    decide

end Meinheld
