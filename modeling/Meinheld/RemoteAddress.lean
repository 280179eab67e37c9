import Meinheld.Server
import Meinheld.Transition

/-! Connections of one server process: whose address ends up in the environ of a request. -/
namespace Meinheld

/-- What `accept` returns in `client_addr`. -/
structure Peer where
  addr : Byte × Byte × Byte × Byte
  port : ℕ
  deriving DecidableEq, Repr

def inetNtoa (a : Byte × Byte × Byte × Byte) : Bytes :=
  decimal a.1.toNat ++ ascii "." ++ decimal a.2.1.toNat ++ ascii "." ++ decimal a.2.2.1.toNat ++
    ascii "." ++ decimal a.2.2.2.toNat

theorem cstr_inetNtoa (a : Byte × Byte × Byte × Byte) : cstr (inetNtoa a) = inetNtoa a := by
  apply cstr_eq_self
  have hdot : (0 : Byte) ∉ ascii "." := by decide
  simp [inetNtoa,zero_not_mem_decimal,hdot]

/-- An open connection with its client, which is read or has its requests served. -/
structure Conn where
  peer : Peer
  client : Client
  serving : Bool := false

structure Net where
  g : Globals
  conns : ℕ → Option Conn := fun _ => none

def Net.set (n : Net) (fd : ℕ) (c : Option Conn) : Net :=
  { n with conns := Function.update n.conns fd c }

/-- `read_callback` on a connection, and the read of `accept_callback`. -/
def readConn (n : Net) (fd : ℕ) (conn : Conn) (r : ReadResult) (w : World) : Option Net :=
  match readRequest n.g conn.client r w with
  | .ret (.pending,c) _ => some (n.set fd (some { conn with client := c }))
  | .ret (.finish,c) _ => some (n.set fd (some { conn with client := c, serving := true }))
  | .ret (.closed,_) _ => some (n.set fd none)
  | .stop _ _ => none

inductive NetEvent
  /-- `accept` gives a connection, which is read at once. -/
  | accept (fd : ℕ) (peer : Peer) (r : ReadResult) (w : World)
  /-- A connection is readable, or its peer has closed it. -/
  | read (fd : ℕ) (r : ReadResult) (w : World)
  /-- A connection waited too long. -/
  | timeout (fd : ℕ) (w : World)
  /-- The last response on a connection has ended; it is kept alive or closed. -/
  | served (fd : ℕ) (keepAlive : Bool)

/-- One event of the server; `none` when it cannot happen. -/
def netStep (n : Net) : NetEvent → Option Net
  | .accept fd peer r w =>
    if (n.conns fd).isSome then none
    else
      -- `inet_ntoa` writes its static buffer, which every client then points to
      let n := { n with g := { n.g with inetNtoa := inetNtoa peer.addr } }
      readConn n fd ⟨peer,newClientT peer.port,false⟩ r w
  | .read fd r w => do
    let conn ← n.conns fd
    if conn.serving then none else readConn n fd conn r w
  | .timeout fd w => do
    let conn ← n.conns fd
    if conn.serving then none
    else match readTimeout conn.client w with
      | .ret (.finish,c) _ => some (n.set fd (some { conn with client := c, serving := true }))
      | .ret (_,_) _ => some (n.set fd none)
      | .stop _ _ => none
  | .served fd keepAlive => do
    let conn ← n.conns fd
    if !conn.serving then none
    else if keepAlive then
      some (n.set fd (some { conn with
        client := { newClientT conn.client.remotePort with keepAlive := true }
        serving := false }))
    else some (n.set fd none)

/-- The two entries of an environ that say where the request came from. -/
def Environ.remote (e : Environ) : Option Bytes × Option Bytes :=
  (e.get? (ascii "REMOTE_ADDR"),e.get? (ascii "REMOTE_PORT"))

/-- The key of a header starts with `HTTP_`. -/
def FieldPrefixed (req : Request) : Prop := ∀ f, req.field = some f → ascii "HTTP_" <+: f

theorem remote_set (e : Environ) {k : Bytes} (v : Bytes) (ha : ascii "REMOTE_ADDR" ≠ k)
    (hp : ascii "REMOTE_PORT" ≠ k) : Environ.remote (e.set k v) = e.remote := by
  simp [Environ.remote,Environ.get?_set_of_ne e v ha,Environ.get?_set_of_ne e v hp]

theorem remote_set_field (e : Environ) {f : Bytes} (v : Bytes) (hf : ascii "HTTP_" <+: f) :
    Environ.remote (e.set f v) = e.remote := by
  apply remote_set
  · rintro rfl
    revert hf
    decide
  · rintro rfl
    revert hf
    decide

theorem remote_mergeHeader (e : Environ) {f : Bytes} (v : Bytes) (hf : ascii "HTTP_" <+: f) :
    Environ.remote (mergeHeader e f v) = e.remote := by
  unfold mergeHeader
  split
  · exact remote_set_field e v hf
  · split
    · rfl
    · exact remote_set_field e _ hf

theorem remote_replaceEnvKey (e : Environ) {k k' : Bytes} (ha : ascii "REMOTE_ADDR" ≠ k)
    (hp : ascii "REMOTE_PORT" ≠ k) (ha' : ascii "REMOTE_ADDR" ≠ k')
    (hp' : ascii "REMOTE_PORT" ≠ k') : Environ.remote (replaceEnvKey e k k') = e.remote := by
  unfold replaceEnvKey
  split
  · rw [remote_set _ _ ha' hp']
    simp [Environ.remote,Environ.get?_del_of_ne e ha,Environ.get?_del_of_ne e hp]
  · rfl

theorem remote_setPath (g : Globals) (e : Environ) (buf : Bytes) :
    Environ.remote (setPath g e buf) = e.remote := by
  have hq : ∀ s, Environ.remote (setQuery e s) = e.remote := by
    intro s
    unfold setQuery
    dsimp only
    split
    · exact remote_set e _ (by decide) (by decide)
    · rfl
  have hloop : ∀ s t, Environ.remote (setPathLoop g e s t).1 = e.remote := by
    intro s t
    fun_induction setPathLoop g e s t <;> simp_all
  rw [setPath,remote_set _ _ (by decide) (by decide),hloop]

theorem remote_addHeader {req req' : Request} (hf : FieldPrefixed req)
    (h : addHeader req = some req') :
    req'.environ.remote = req.environ.remote ∧ FieldPrefixed req' := by
  unfold addHeader at h
  split at h
  next field value hfield _ =>
    obtain rfl := Option.some.inj h
    exact ⟨remote_mergeHeader _ _ (hf field hfield),by simp [FieldPrefixed]⟩
  next => simp at h

/-- What every callback that works on the current request does to it. -/
def KeepsRemote (f : Request → Option (Bool × Request)) : Prop :=
  ∀ req r, FieldPrefixed req → f req = some r →
    r.2.environ.remote = req.environ.remote ∧ FieldPrefixed r.2

theorem storeField_keepsRemote (req : Request) (buf : Bytes) (hf : FieldPrefixed req) :
    (storeField req buf).2.environ.remote = req.environ.remote ∧
      FieldPrefixed (storeField req buf).2 := by
  unfold storeField Request.bad
  split
  · exact ⟨rfl,hf⟩
  · split
    · exact ⟨rfl,hf⟩
    · refine ⟨rfl,fun f hfield => ?_⟩
      obtain rfl := Option.some.inj hfield
      unfold nextField
      split
      · exact List.prefix_append _ _
      next f hreq => exact (hf f hreq).trans (List.prefix_append _ _)

theorem headerFieldCb_keepsRemote (buf : Bytes) : KeepsRemote (headerFieldCb buf) := by
  intro req r hf hr
  unfold headerFieldCb at hr
  split at hr
  · split at hr
    · obtain rfl := Option.some.inj hr
      exact ⟨rfl,hf⟩
    · obtain ⟨req',hadd,rfl⟩ := Option.map_eq_some_iff.mp hr
      obtain ⟨h1,h2⟩ := remote_addHeader hf hadd
      obtain ⟨h3,h4⟩ := storeField_keepsRemote req' buf h2
      exact ⟨h3.trans h1,h4⟩
  · obtain rfl := Option.some.inj hr
    exact storeField_keepsRemote req buf hf

theorem headerValueCb_keepsRemote (buf : Bytes) : KeepsRemote (headerValueCb buf) := by
  intro req r hf hr
  simp only [headerValueCb] at hr
  split at hr <;> obtain rfl := Option.some.inj hr <;> exact ⟨rfl,hf⟩

theorem urlCb_keepsRemote (buf : Bytes) : KeepsRemote (urlCb buf) := by
  intro req r hf hr
  simp only [urlCb] at hr
  split at hr <;> obtain rfl := Option.some.inj hr <;> exact ⟨rfl,hf⟩

theorem bodyCb_keepsRemote (g : Globals) (p : HttpParser) (buf : Bytes) :
    KeepsRemote (bodyCb g p buf) := by
  have hw : ∀ req req' : Request, FieldPrefixed req → writeBody req buf = some req' →
      req'.environ.remote = req.environ.remote ∧ FieldPrefixed req' := by
    intro req req' hf h
    unfold writeBody at h
    split at h <;> first | (obtain rfl := Option.some.inj h; exact ⟨rfl,hf⟩) | simp at h
  intro req r hf hr
  unfold bodyCb at hr
  split at hr
  · obtain rfl := Option.some.inj hr
    exact ⟨rfl,hf⟩
  · split at hr
    · split at hr
      · obtain rfl := Option.some.inj hr
        exact ⟨rfl,hf⟩
      · obtain ⟨req',hb,rfl⟩ := Option.map_eq_some_iff.mp hr
        exact hw { req with body := newBody g req } req' hf hb
    · obtain ⟨req',hb,rfl⟩ := Option.map_eq_some_iff.mp hr
      exact hw req req' hf hb

theorem remote_lastHeader {req : Request} (hf : FieldPrefixed req) :
    (lastHeader req).environ.remote = req.environ.remote ∧ FieldPrefixed (lastHeader req) := by
  unfold lastHeader
  cases hadd : addHeader req with
  | none => exact ⟨rfl,hf⟩
  | some req' => exact remote_addHeader hf hadd

theorem remote_requestLineEnv (g : Globals) (p : HttpParser) (req : Request) :
    (requestLineEnv g p req).remote = req.environ.remote := by
  unfold requestLineEnv
  dsimp only
  split
  · rw [remote_setPath,remote_set _ _ (by decide) (by decide)]
  · rw [remote_set _ _ (by decide) (by decide),remote_set _ _ (by decide) (by decide)]

theorem remote_finishEnv (p : HttpParser) (e : Environ) :
    (finishEnv p e).remote = e.remote := by
  unfold finishEnv
  rw [remote_set _ _ (by decide) (by decide),
    remote_replaceEnvKey _ (by decide) (by decide) (by decide) (by decide),
    remote_replaceEnvKey _ (by decide) (by decide) (by decide) (by decide)]

theorem headersComplete_keepsRemote (g : Globals) (p : HttpParser) :
    KeepsRemote fun req => some (headersComplete g p req) := by
  intro req r hf hr
  obtain rfl := Option.some.inj hr
  unfold headersComplete
  split
  · exact ⟨rfl,hf⟩
  · have hl := @remote_lastHeader { req with environ := requestLineEnv g p req, path := none } hf
    exact ⟨(remote_finishEnv p _).trans (hl.1.trans (remote_requestLineEnv g p req)),hl.2⟩

/-- The entries a message begun now gets. -/
def Client.remote (g : Globals) (c : Client) : Option Bytes × Option Bytes :=
  (some (cstr g.inetNtoa),some (decimal c.remotePort))

/-- The peers' entries of the queued requests, from head to tail. -/
def Client.remotes (c : Client) : List (Option Bytes × Option Bytes) :=
  c.queue.map (·.environ.remote)

/-- Since `c0` some messages have begun, and the entries of the earlier ones are as they were. -/
structure RemotesGrown (g : Globals) (c0 c : Client) : Prop where
  port : c.remotePort = c0.remotePort
  remotes : ∃ k, c.remotes = c0.remotes ++ List.replicate k (c0.remote g)
  field : ∀ req, c.currentReq = some req → FieldPrefixed req

theorem onCurrentReq_grown {g : Globals} {c0 c : Client} {f : Request → Option (Bool × Request)}
    (hf : KeepsRemote f) (h : RemotesGrown g c0 c) : RemotesGrown g c0 (onCurrentReq c f).2 := by
  unfold onCurrentReq
  split
  next r hr =>
    obtain ⟨req,hreq,hfr⟩ := Option.bind_eq_some_iff.mp hr
    obtain ⟨h1,h2⟩ := hf req r (h.field req hreq) hfr
    refine ⟨h.port,?_,?_⟩
    · obtain ⟨k,hk⟩ := h.remotes
      refine ⟨k,?_⟩
      rw [← hk]
      simp [Client.remotes,Client.queue,hreq,h1]
    · rintro req' hreq'
      obtain rfl := Option.some.inj hreq'
      exact h2
  next => exact ⟨h.port,h.remotes,h.field⟩

theorem messageBeginCb_grown {g : Globals} {c0 c : Client} (h : RemotesGrown g c0 c) :
    RemotesGrown g c0 (messageBeginCb g c).2 := by
  refine ⟨h.port,?_,?_⟩
  · obtain ⟨k,hk⟩ := h.remotes
    refine ⟨k + 1,?_⟩
    have hnew : (newEnviron g c).remote = c0.remote g := by
      simp only [Client.remote,← h.port]
      rfl
    rw [List.replicate_succ',← List.append_assoc,← hk]
    simp [messageBeginCb,Client.remotes,Client.queue,hnew]
  · rintro req hreq
    obtain rfl := Option.some.inj hreq
    simp [FieldPrefixed]

theorem executeParse_grown (g : Globals) (c : Client) (data : Bytes)
    (hc : ∀ req, c.currentReq = some req → FieldPrefixed req) :
    RemotesGrown g c (executeParse g c data).1 := by
  have h0 : RemotesGrown g c { c with complete := false } :=
    ⟨rfl,⟨0,by simp [Client.remotes,Client.queue]⟩,hc⟩
  have h := @httpParserExecute_invariant _ (settings g) (RemotesGrown g c)
    (fun n p d hd => by
      cases n with
      | messageBegin => exact messageBeginCb_grown hd
      | headersComplete =>
        exact onCurrentReq_grown (headersComplete_keepsRemote g p) ⟨hd.port,hd.remotes,hd.field⟩
      | messageComplete => exact ⟨hd.port,hd.remotes,hd.field⟩)
    (fun k p buf d hd => by
      cases k with
      | headerField => exact onCurrentReq_grown (headerFieldCb_keepsRemote buf) hd
      | headerValue => exact onCurrentReq_grown (headerValueCb_keepsRemote buf) hd
      | url => exact onCurrentReq_grown (urlCb_keepsRemote buf) hd
      | body => exact onCurrentReq_grown (bodyCb_keepsRemote g p buf) hd)
    c.httpParser { c with complete := false } data h0
  exact ⟨h.port,h.remotes,h.field⟩

/-- The queue is the same, but for error codes. -/
structure SameRemotes (c c' : Client) : Prop where
  port : c'.remotePort = c.remotePort
  remotes : c'.remotes = c.remotes
  field : (∀ req, c.currentReq = some req → FieldPrefixed req) →
    ∀ req, c'.currentReq = some req → FieldPrefixed req

theorem setReadError_remotes {c c' : Client} {code : ℕ} {e : ReadEnd} {w w' : World}
    (h : setReadError c code w = .ret (e,c') w') :
    (e = .finish ∧ SameRemotes c c') ∨ (e = .closed ∧ c.queue = []) := by
  unfold setReadError at h
  dsimp only at h
  split at h
  · obtain ⟨⟨rfl,rfl⟩,-⟩ : (ReadEnd.finish = e ∧ _ = c') ∧ w = w' := by
      simpa using h
    refine .inl ⟨rfl,rfl,?_,?_⟩
    · cases hq : c.currentReq <;>
        simp [Client.remotes,Client.queue,setBadRequestCode,hq]
    · intro hf req hreq
      obtain ⟨req0,h0,rfl⟩ := Option.map_eq_some_iff.mp hreq
      exact hf req0 h0
  next hq =>
    simp only [ne_eq,Decidable.not_not] at hq
    refine .inr ⟨?_,hq⟩
    split at h <;>
    · obtain ⟨c1,w1,-,h⟩ := Action.bind_eq_ret.mp h
      obtain ⟨c2,w2,-,h⟩ := Action.bind_eq_ret.mp h
      simp only [Action.pure_apply,Run.ret.injEq,Prod.mk.injEq] at h
      exact h.1.1.symm

theorem parsedRequest_remotes {c c' : Client} {r : ℕ} {nread : ℤ} {e : ReadEnd} {w w' : World}
    (h : parsedRequest r c nread w = .ret (e,c') w') :
    (e ≠ .closed ∧ SameRemotes c c') ∨ (e = .closed ∧ c.queue = []) := by
  have herr : ∀ code, setReadError c code w = .ret (e,c') w' →
      (e ≠ .closed ∧ SameRemotes c c') ∨ (e = .closed ∧ c.queue = []) := by
    intro code hc
    rcases setReadError_remotes hc with ⟨rfl,hs⟩ | hs
    · exact .inl ⟨by simp,hs⟩
    · exact .inr hs
  have hdone : parserFinish c w = .ret (e,c') w' → (e ≠ .closed ∧ SameRemotes c c') ∨ (e = .closed ∧ c.queue = []) := by
    intro hd
    simp only [parserFinish,Action.pure_apply,Run.ret.injEq,Prod.mk.injEq] at hd
    obtain ⟨⟨rfl,rfl⟩,-⟩ := hd
    exact .inl ⟨by split <;> simp,rfl,rfl,id⟩
  unfold parsedRequest at h
  cases hq : c.currentReq with
  | none =>
    simp only [hq] at h
    split at h
    · simp [die] at h
    · exact herr _ h
  | some req =>
    simp only [hq] at h
    split at h
    · split at h
      · exact hdone h
      · exact herr _ h
    · split at h
      · exact herr _ h
      · exact hdone h

/-- The client a read works on once its bytes are parsed. -/
def parsedClient (g : Globals) (c : Client) : ReadResult → Client
  | .data buf => (executeParse g c buf).1
  | _ => c

theorem readRequest_remotes {g : Globals} {c c' : Client} {r : ReadResult} {e : ReadEnd}
    {w w' : World} (h : readRequest g c r w = .ret (e,c') w') :
    (e ≠ .closed ∧ SameRemotes (parsedClient g c r) c') ∨
      (e = .closed ∧ (parsedClient g c r).queue = []) := by
  have herr : ∀ k code, SameRemotes c k → k.queue = c.queue →
      setReadError k code w = .ret (e,c') w' →
      (e ≠ .closed ∧ SameRemotes c c') ∨ (e = .closed ∧ c.queue = []) := by
    intro k code hk hq hc
    rcases setReadError_remotes hc with ⟨rfl,hs⟩ | ⟨he,hs⟩
    · exact .inl ⟨by simp,hs.port.trans hk.port,hs.remotes.trans hk.remotes,
        fun hf => hs.field (hk.field hf)⟩
    · exact .inr ⟨he,hq ▸ hs⟩
  cases r with
  | data buf =>
    simp only [readRequest,parseHttpRequest] at h
    split at h
    · simp [die] at h
    · exact parsedRequest_remotes h
  | eof => exact herr c 503 ⟨rfl,rfl,id⟩ rfl h
  | eagain =>
    simp only [readRequest,Action.pure_apply,Run.ret.injEq,Prod.mk.injEq] at h
    obtain ⟨⟨rfl,rfl⟩,-⟩ := h
    exact .inl ⟨by simp,rfl,rfl,id⟩
  | error econnreset =>
    refine herr { c with
      keepAlive := false
      headerDone := c.headerDone || econnreset
      responseClosed := c.responseClosed || econnreset } 500 ⟨rfl,rfl,id⟩ rfl h

/-- The entries a request from this peer should have. -/
def Peer.remote (p : Peer) : Option Bytes × Option Bytes :=
  (some (inetNtoa p.addr),some (decimal p.port))

/-- Every request that arrived on the connection carries the address and port of its peer. -/
def Conn.Right (conn : Conn) : Prop := ∀ r ∈ conn.client.remotes, r = conn.peer.remote

/-- Every request of every connection carries the address and port of its peer. -/
def Net.Right (n : Net) : Prop := ∀ fd conn, n.conns fd = some conn → conn.Right

/-- A read that begins a message on a connection finds that connection's address in the static
buffer of `inet_ntoa`: no other peer was accepted since, or one with the same address. -/
def BeginsWithOwnAddress (n : Net) : NetEvent → Prop
  | .read fd r _ => ∀ conn, n.conns fd = some conn →
      cstr n.g.inetNtoa = inetNtoa conn.peer.addr ∨
        (parsedClient n.g conn.client r).queue.length = conn.client.queue.length
  | _ => True

structure Conn.Wf (conn : Conn) : Prop where
  port : conn.client.remotePort = conn.peer.port
  field : ∀ req, conn.client.currentReq = some req → FieldPrefixed req

def Net.Wf (n : Net) : Prop := ∀ fd conn, n.conns fd = some conn → conn.Wf

theorem length_remotes (c : Client) : c.remotes.length = c.queue.length := by
  simp [Client.remotes]

theorem parsedClient_grown (g : Globals) (c : Client) (r : ReadResult)
    (hc : ∀ req, c.currentReq = some req → FieldPrefixed req) :
    RemotesGrown g c (parsedClient g c r) := by
  cases r with
  | data buf => exact executeParse_grown g c buf hc
  | _ => exact ⟨rfl,⟨0,by simp [parsedClient]⟩,hc⟩

/-- Messages that began in between are right exactly when there are none or the address is. -/
theorem RemotesGrown.right_iff {g : Globals} {c0 c : Client} {p : Peer} (h : RemotesGrown g c0 c)
    (hport : c0.remotePort = p.port) (h0 : ∀ r ∈ c0.remotes, r = p.remote) :
    (∀ r ∈ c.remotes, r = p.remote) ↔
      cstr g.inetNtoa = inetNtoa p.addr ∨ c.queue.length = c0.queue.length := by
  obtain ⟨k,hk⟩ := h.remotes
  have hlen : c.queue.length = c0.queue.length + k := by
    rw [← length_remotes,← length_remotes,hk]
    simp
  have hnew : c0.remote g = p.remote ↔ cstr g.inetNtoa = inetNtoa p.addr := by
    simp [Client.remote,Peer.remote,hport]
  cases k with
  | zero => simpa [hk,hlen] using h0
  | succ k =>
    have hne : c.queue.length ≠ c0.queue.length := by omega
    rw [hk,← hnew]
    constructor
    · intro hall
      exact .inl (hall _ (by simp))
    · rintro (heq | heq) r hr
      · rcases List.mem_append.mp hr with hr | hr
        · exact h0 r hr
        · exact (List.eq_of_mem_replicate hr).trans heq
      · exact absurd heq hne

/-- What a read makes of a connection, `none` when it is closed. -/
structure ReadOutcome (g : Globals) (conn : Conn) (r : ReadResult) (o : Option Conn) : Prop where
  wf : ∀ conn', o = some conn' → conn'.Wf
  right : conn.Right → ((∀ conn', o = some conn' → conn'.Right) ↔
    cstr g.inetNtoa = inetNtoa conn.peer.addr ∨
      (parsedClient g conn.client r).queue.length = conn.client.queue.length)

theorem readOutcome_open {g : Globals} {conn : Conn} {r : ReadResult} {c : Client}
    (serving : Bool) (hwf : conn.Wf) (hs : SameRemotes (parsedClient g conn.client r) c) :
    ReadOutcome g conn r (some { conn with client := c, serving := serving }) := by
  have hgrown := parsedClient_grown g conn.client r hwf.field
  constructor
  · rintro conn' hconn'
    obtain rfl := Option.some.inj hconn'
    exact ⟨hs.port.trans (hgrown.port.trans hwf.port),hs.field hgrown.field⟩
  · intro hright
    rw [← hgrown.right_iff hwf.port hright,← hs.remotes]
    simp [Conn.Right]

theorem readOutcome_closed {g : Globals} {conn : Conn} {r : ReadResult} (hwf : conn.Wf)
    (hq : (parsedClient g conn.client r).queue = []) : ReadOutcome g conn r none := by
  refine ⟨by simp,fun _ => ?_⟩
  obtain ⟨k,hk⟩ := (parsedClient_grown g conn.client r hwf.field).remotes
  have hlen := congrArg List.length hk
  simp only [List.length_append,length_remotes,hq,List.length_nil] at hlen
  simp only [reduceCtorEq,false_implies,implies_true,hq,List.length_nil,true_iff]
  exact .inr (by omega)

theorem readConn_spec {n n' : Net} {fd : ℕ} {conn : Conn} {r : ReadResult} {w : World}
    (hwf : conn.Wf) (h : readConn n fd conn r w = some n') :
    ∃ o, n' = n.set fd o ∧ ReadOutcome n.g conn r o := by
  unfold readConn at h
  split at h
  next c' w' hr =>
    rcases readRequest_remotes hr with ⟨-,hs⟩ | ⟨he,-⟩
    · exact ⟨_,(Option.some.inj h).symm,readOutcome_open conn.serving hwf hs⟩
    · simp at he
  next c' w' hr =>
    rcases readRequest_remotes hr with ⟨-,hs⟩ | ⟨he,-⟩
    · exact ⟨_,(Option.some.inj h).symm,readOutcome_open true hwf hs⟩
    · simp at he
  next c' w' hr =>
    rcases readRequest_remotes hr with ⟨he,-⟩ | ⟨-,hq⟩
    · simp at he
    · exact ⟨_,(Option.some.inj h).symm,readOutcome_closed hwf hq⟩
  next => simp at h

theorem Net.set_wf {n : Net} {fd : ℕ} {o : Option Conn} (hn : n.Wf)
    (ho : ∀ conn, o = some conn → conn.Wf) : (n.set fd o).Wf := by
  intro fd' conn hconn
  by_cases hfd : fd' = fd
  · subst hfd
    exact ho conn (by simpa [Net.set] using hconn)
  · exact hn fd' conn (by simpa [Net.set,hfd] using hconn)

theorem Net.set_right_iff {n : Net} (fd : ℕ) (o : Option Conn) (hn : n.Right) :
    (n.set fd o).Right ↔ ∀ conn, o = some conn → conn.Right := by
  constructor
  · intro h conn ho
    exact h fd conn (by simp [Net.set,ho])
  · intro h fd' conn hconn
    by_cases hfd : fd' = fd
    · subst hfd
      exact h conn (by simpa [Net.set] using hconn)
    · exact hn fd' conn (by simpa [Net.set,hfd] using hconn)

/-- What an event does to the connections: one of them changes, and stays right exactly under the
condition. -/
structure NetOutcome (n : Net) (e : NetEvent) (n' : Net) (fd : ℕ) (o : Option Conn) : Prop where
  conns : n'.conns = (n.set fd o).conns
  wf : ∀ conn, o = some conn → conn.Wf
  right : n.Right → ((∀ conn, o = some conn → conn.Right) ↔ BeginsWithOwnAddress n e)

theorem accept_outcome {n n' : Net} {fd : ℕ} {peer : Peer} {r : ReadResult} {w : World}
    (h : netStep n (.accept fd peer r w) = some n') :
    ∃ o, NetOutcome n (.accept fd peer r w) n' fd o := by
  simp only [netStep] at h
  split at h
  · simp at h
  · have hwf : Conn.Wf ⟨peer,newClientT peer.port,false⟩ := ⟨rfl,by simp [newClientT]⟩
    obtain ⟨o,rfl,ho⟩ := readConn_spec hwf h
    have hright : Conn.Right ⟨peer,newClientT peer.port,false⟩ := by
      simp [Conn.Right,Client.remotes,Client.queue,newClientT]
    refine ⟨o,rfl,ho.wf,fun _ => ?_⟩
    simp only [ho.right hright,cstr_inetNtoa,true_or,BeginsWithOwnAddress]

theorem read_outcome {n n' : Net} {fd : ℕ} {r : ReadResult} {w : World} (hn : n.Wf)
    (h : netStep n (.read fd r w) = some n') : ∃ o, NetOutcome n (.read fd r w) n' fd o := by
  simp only [netStep,Option.bind_eq_bind,Option.bind_eq_some_iff] at h
  obtain ⟨conn,hconn,h⟩ := h
  split at h
  · simp at h
  · obtain ⟨o,rfl,ho⟩ := readConn_spec (hn fd conn hconn) h
    refine ⟨o,rfl,ho.wf,fun hright => ?_⟩
    rw [ho.right (hright fd conn hconn)]
    simp [BeginsWithOwnAddress,hconn]

theorem timeout_outcome {n n' : Net} {fd : ℕ} {w : World} (hn : n.Wf)
    (h : netStep n (.timeout fd w) = some n') : ∃ o, NetOutcome n (.timeout fd w) n' fd o := by
  simp only [netStep,Option.bind_eq_bind,Option.bind_eq_some_iff] at h
  obtain ⟨conn,hconn,h⟩ := h
  split at h
  · simp at h
  · split at h
    next c' w' hr =>
      rcases setReadError_remotes hr with ⟨-,hs⟩ | ⟨he,-⟩
      · obtain rfl := Option.some.inj h
        refine ⟨_,rfl,?_,fun hright => ?_⟩
        · rintro conn' hconn'
          obtain rfl := Option.some.inj hconn'
          have hwf := hn fd conn hconn
          exact ⟨hs.port.trans hwf.port,hs.field hwf.field⟩
        · have h0 := hright fd conn hconn
          simpa [BeginsWithOwnAddress,Conn.Right,hs.remotes] using h0
      · simp at he
    next =>
      obtain rfl := Option.some.inj h
      exact ⟨none,rfl,by simp,fun _ => by simp [BeginsWithOwnAddress]⟩
    next => simp at h

theorem served_outcome {n n' : Net} {fd : ℕ} {keepAlive : Bool} (hn : n.Wf)
    (h : netStep n (.served fd keepAlive) = some n') :
    ∃ o, NetOutcome n (.served fd keepAlive) n' fd o := by
  simp only [netStep,Option.bind_eq_bind,Option.bind_eq_some_iff] at h
  obtain ⟨conn,hconn,h⟩ := h
  split at h
  · simp at h
  · split at h
    · obtain rfl := Option.some.inj h
      refine ⟨_,rfl,?_,fun _ => ?_⟩
      · rintro conn' hconn'
        obtain rfl := Option.some.inj hconn'
        exact ⟨(hn fd conn hconn).port,by simp [newClientT]⟩
      · simp [BeginsWithOwnAddress,Conn.Right,Client.remotes,Client.queue,newClientT]
    · obtain rfl := Option.some.inj h
      exact ⟨none,rfl,by simp,fun _ => by simp [BeginsWithOwnAddress]⟩

theorem netStep_outcome {n n' : Net} {e : NetEvent} (hn : n.Wf) (h : netStep n e = some n') :
    ∃ fd o, NetOutcome n e n' fd o := by
  cases e with
  | accept fd peer r w => exact ⟨fd,accept_outcome h⟩
  | read fd r w => exact ⟨fd,read_outcome hn h⟩
  | timeout fd w => exact ⟨fd,timeout_outcome hn h⟩
  | served fd keepAlive => exact ⟨fd,served_outcome hn h⟩

theorem netStep_wf {n n' : Net} {e : NetEvent} (hn : n.Wf) (h : netStep n e = some n') : n'.Wf := by
  obtain ⟨fd,o,ho⟩ := netStep_outcome hn h
  intro fd' conn hconn
  exact Net.set_wf hn ho.wf fd' conn (ho.conns ▸ hconn)

theorem netStep_right_iff {n n' : Net} {e : NetEvent} (hn : n.Wf) (hr : n.Right)
    (h : netStep n e = some n') : n'.Right ↔ BeginsWithOwnAddress n e := by
  obtain ⟨fd,o,ho⟩ := netStep_outcome hn h
  rw [← ho.right hr,← Net.set_right_iff fd o hr]
  simp only [Net.Right,ho.conns]

/-- The requests of every connection carry their own peer's address throughout a run exactly when
every read that begins a message finds that address in the buffer of `inet_ntoa`. -/
theorem remote_addr_right_iff (g : Globals) (es : List NetEvent) :
    Transition.Always netStep Net.Right { g := g } es ↔
      Transition.Meets netStep BeginsWithOwnAddress { g := g } es :=
  Transition.always_iff_meets (fun _ _ _ hn h => netStep_wf hn h)
    (fun _ _ _ hn hr h => netStep_right_iff hn hr h) (fun fd conn h => by simp at h)
    (fun fd conn h => by simp at h) es

/-- A connection is accepted and stays silent, another peer is accepted, and then the first sends a
request: its environ names the second peer. -/
theorem remote_addr_not_always_right :
    ¬ ∀ g es, Transition.Always netStep Net.Right { g := g } es := by
  intro h
  have hrun := h {} [.accept 5 ⟨(10,0,0,1),40000⟩ .eagain ⟨[],[],0⟩,
    .accept 6 ⟨(10,0,0,2),40001⟩ .eagain ⟨[],[],0⟩,
    .read 5 (.data (ascii "GET / HTTP/1.1\r\n\r\n")) ⟨[],[],0⟩]
  have h3 := ((hrun.2 _ rfl).2 _ rfl).2 _ rfl
  have hconn := h3 5 _ rfl _ (List.mem_cons_self)
  revert hconn
  decide

end Meinheld
