import Meinheld.LineTally

/-! The bytes of the body, from the socket to `wsgi.input`. -/
namespace Meinheld

/-! ### The calls of `body_cb` -/

/-- In `write2buf` the room `buf->buf_size - buf->len - 1` wraps around. -/
def Buffer.wraps (b : Buffer) (c : Bytes) : Bool :=
  let size := b.grow (b.len + c.length)
  size ≤ b.len + c.length && size ≤ b.len

structure BodyCall where
  parser : HttpParser
  buf : Bytes
  req : Request
  deriving DecidableEq, Repr

/-- The call finds its body object, and writes where there is room. -/
def BodyCall.safe (g : Globals) (call : BodyCall) : Bool :=
  match bodyCb g call.parser call.buf call.req with
  | none => false
  | some (false,_) => true
  | some (true,_) =>
    match openBody g call.req with
    | .buffer b => !b.wraps call.buf
    | _ => true

/-- A client with the calls of `body_cb` so far. -/
structure Intake where
  client : Client
  calls : List BodyCall := []
  deriving DecidableEq, Repr

/-- The `settings` with the calls of `body_cb`. -/
def noting (g : Globals) : Settings Intake where
  onNotify n p l :=
    let r := (settings g).onNotify n p l.client
    (r.1,{ l with client := r.2 })
  onData k p buf l :=
    let r := (settings g).onData k p buf l.client
    (r.1,{
      client := r.2
      calls := match k with
        | .body => l.calls ++ l.client.currentReq.toList.map fun req => ⟨p,buf,req⟩
        | _ => l.calls })

theorem noting_over (g : Globals) : (noting g).Over (settings g) Intake.client where
  notify _ _ _ := rfl
  data _ _ _ _ := rfl

/-- A read, up to its error handling. -/
def Intake.read (g : Globals) (l : Intake) (data : Bytes) : Intake :=
  let r := httpParserExecute (noting g) l.client.httpParser
    { l with client := l.client.entering } data
  { r.2.1 with client := { r.2.1.client with httpParser := r.1 } }

/-- What the last of the reads leaves. -/
structure Reception where
  answer : Run (ReadEnd × Client)
  last : Intake
  deriving DecidableEq, Repr

/-- Reads of pieces, up to the one that leaves no request pending. -/
def Intake.receive (g : Globals) : Intake → List Bytes → Reception
  | l, [] => ⟨.ret (.pending,l.client) ⟨[],[],0⟩,l⟩
  | l, data :: rest =>
    match parseHttpRequest g l.client data ⟨[],[],0⟩ with
    | .ret (.pending,_) _ => (l.read g data).receive g rest
    | answer => ⟨answer,l.read g data⟩

/-- What is asked of the reception of a request with that body. -/
structure Faithful (g : Globals) (body : Bytes) (r : Reception) : Prop where
  dispatched : ∀ c w req, r.answer = .ret (.finish,c) w → c.currentReq = some req →
    req.badRequestCode = 0 → req.body.content.getD [] = body ∧ body.length ≤ g.maxContentLength
  tooLong : g.maxContentLength < body.length → ∃ c w req,
    r.answer = .ret (.finish,c) w ∧ c.currentReq = some req ∧ req.badRequestCode = 413
  safe : ∀ call ∈ r.last.calls, call.safe g

/-- When there is room for a body of that declared length, 0 for none: a temporary file where one
is needed, and no more than the limit of a buffer where not. -/
def Admits (g : Globals) (length : ℕ) (body : Bytes) : Prop :=
  length ≤ g.maxContentLength → body.length ≤ g.maxContentLength →
    (body ≠ [] → g.clientBodyBufferSize < length → g.tmpfile) ∧
      (length ≤ g.clientBodyBufferSize → body.length ≤ LIMIT_MAX)

/-! ### The body object -/

/-- A buffer made for `length` bytes that has been given `bytes`. -/
def Buffer.Keeps (b : Buffer) (length : ℕ) (bytes : Bytes) : Prop :=
  b.limit = LIMIT_MAX ∧
    (b.bufSize ≤ LIMIT_MAX + 1 ∧ b.len ≤ LIMIT_MAX ∧ (bytes.length ≤ LIMIT_MAX → b.buf = bytes) ∨
      b.bufSize = length ∧ LIMIT_MAX + 1 < length ∧ b.buf = bytes ∧ bytes.length < length)

/-- The body of a request that has been given `bytes`. -/
structure Request.Holds (g : Globals) (req : Request) (bytes : Bytes) : Prop where
  readed : req.bodyReaded = bytes.length
  max : bytes.length ≤ g.maxContentLength
  body : match req.body with
    | .none => bytes = []
    | .tmpfile content => g.clientBodyBufferSize < req.bodyLength ∧ g.tmpfile ∧ content = some bytes
    | .buffer b => req.bodyLength ≤ g.clientBodyBufferSize ∧ b.Keeps req.bodyLength bytes

theorem intToSize_over {n : ℕ} (h : n < 2 ^ 32) (h1 : 2 ^ 31 ≤ n) : LIMIT_MAX < intToSize n := by
  have hl : LIMIT_MAX < 2 ^ 31 := by decide
  unfold intToSize
  rw [Nat.mod_eq_of_lt h]
  simp only
  split <;> omega

theorem intToSize_eq {n : ℕ} (h : n < 2 ^ 31) : intToSize n = n := by
  unfold intToSize
  rw [Nat.mod_eq_of_lt (by omega)]
  simp only
  rw [if_pos h]

/-- The size of a small buffer after a write: larger than what it has to hold, unless that is over
the limit. -/
theorem Buffer.grow_small {b : Buffer} {n : ℕ} (hl : b.limit = LIMIT_MAX)
    (hs : b.bufSize ≤ LIMIT_MAX + 1) (hn : n < 2 ^ 32 - 1) :
    n < b.grow n ∧ b.grow n ≤ LIMIT_MAX + 1 ∨ LIMIT_MAX < n ∧ b.grow n = LIMIT_MAX + 1 := by
  have hmax : LIMIT_MAX + 1 < 2 ^ 31 := by decide
  unfold Buffer.grow
  simp only [hl]
  split
  next hge =>
    split
    next h2 =>
      by_cases h31 : n + 1 < 2 ^ 31
      · rw [intToSize_eq h31]
        split <;> omega
      · have := intToSize_over (n := n + 1) (by omega) (by omega)
        rw [if_pos (by omega)]
        omega
    next h2 => split <;> omega
  next hge => omega

/-- A write to a small buffer. -/
theorem Buffer.Keeps.write_small {b : Buffer} {length : ℕ} {bytes c : Bytes}
    (hl : b.limit = LIMIT_MAX) (hs : b.bufSize ≤ LIMIT_MAX + 1) (hlen : b.len ≤ LIMIT_MAX)
    (hb : bytes.length ≤ LIMIT_MAX → b.buf = bytes) (hc : c.length < 2 ^ 31) :
    b.wraps c = false ∧ (write2buf b c).2.Keeps length (bytes ++ c) := by
  have hmax : LIMIT_MAX + 1 < 2 ^ 31 := by decide
  have hgrow := b.grow_small hl hs (n := b.len + c.length) (by omega)
  constructor
  · unfold Buffer.wraps
    simp only [Bool.and_eq_false_iff,decide_eq_false_iff_not]
    omega
  · unfold write2buf
    simp only
    split
    next hge =>
      refine ⟨hl,.inl ⟨?_,?_,?_⟩⟩
      · simp only
        omega
      · simp only [Buffer.len,List.length_append,List.length_take]
        have := hlen
        unfold Buffer.len at this hgrow
        omega
      · intro hn
        rw [List.length_append] at hn
        have := congrArg List.length (hb (by omega))
        unfold Buffer.len at *
        omega
    next hge =>
      refine ⟨hl,.inl ⟨?_,?_,?_⟩⟩
      · simp only
        omega
      · simp only [Buffer.len,List.length_append]
        unfold Buffer.len at *
        omega
      · intro hn
        rw [List.length_append] at hn
        simp only
        rw [hb (by omega)]

/-- A write, of bytes within the declared length where that is large. -/
theorem Buffer.Keeps.write {b : Buffer} {length : ℕ} {bytes c : Bytes} (h : b.Keeps length bytes)
    (hc : c.length < 2 ^ 31) (hlen : length = 0 ∨ bytes.length + c.length ≤ length) :
    (write2buf b c).2.Keeps length (bytes ++ c) ∧ b.wraps c = false ∨
      b.wraps c ∧ LIMIT_MAX < length ∧ bytes.length + c.length = length := by
  obtain ⟨hl,⟨hs,hblen,hb⟩ | ⟨hs,hbig,hb,hlt⟩⟩ := h
  · obtain ⟨hw,hk⟩ := Buffer.Keeps.write_small hl hs hblen hb hc
    exact .inl ⟨hk,hw⟩
  · have hn : b.len = bytes.length := congrArg List.length hb
    have hle : bytes.length + c.length ≤ length := by omega
    rcases Nat.lt_or_ge (bytes.length + c.length) length with hfit | hfull
    · have hgrow : b.grow (b.len + c.length) = length := by
        unfold Buffer.grow
        rw [if_neg (by omega),hs]
      refine .inl ⟨?_,?_⟩
      · unfold write2buf
        simp only [hgrow]
        rw [if_neg (by omega)]
        refine ⟨hl,.inr ⟨rfl,hbig,by rw [hb],?_⟩⟩
        rwa [List.length_append]
      · unfold Buffer.wraps
        simp only [hgrow,Bool.and_eq_false_iff,decide_eq_false_iff_not]
        omega
    · have hgrow : b.grow (b.len + c.length) = LIMIT_MAX + 1 := by
        have hdouble : ¬b.bufSize * 2 ≤ b.len + c.length := by omega
        unfold Buffer.grow
        simp only [hl,if_neg hdouble]
        rw [if_pos (by omega),if_pos (by omega)]
      rcases Nat.lt_or_ge b.len (LIMIT_MAX + 1) with hroom | hroom
      · refine .inl ⟨?_,?_⟩
        · unfold write2buf
          simp only [hgrow]
          rw [if_pos (by omega)]
          refine ⟨hl,.inl ⟨le_rfl,?_,?_⟩⟩
          · simp only [Buffer.len,List.length_append,List.length_take]
            unfold Buffer.len at hroom hn
            omega
          · intro hn'
            rw [List.length_append] at hn'
            omega
        · unfold Buffer.wraps
          simp only [hgrow,Bool.and_eq_false_iff,decide_eq_false_iff_not]
          omega
      · refine .inr ⟨?_,by omega,by omega⟩
        unfold Buffer.wraps
        simp only [hgrow,Bool.and_eq_true,decide_eq_true_eq]
        omega

theorem newBody_holds {g : Globals} {r : Request} {b : Buffer} (h : newBody g r = .buffer b) :
    r.bodyLength ≤ g.clientBodyBufferSize ∧ b.Keeps r.bodyLength [] := by
  unfold newBody at h
  split at h
  · cases h
  next hle =>
    cases h
    refine ⟨Nat.not_lt.mp hle,rfl,?_⟩
    simp only [newBuffer,Buffer.len,List.length_nil,true_and]
    have h0 : LIMIT_MAX + 1 = 1073741825 := rfl
    rcases Nat.lt_or_ge (LIMIT_MAX + 1) r.bodyLength with hbig | hsmall
    · exact .inr ⟨hbig,by omega⟩
    · exact .inl ⟨hsmall,by omega,fun _ => trivial⟩

/-- The body object that `body_cb` writes to. -/
theorem Request.Holds.openBody {g : Globals} {r : Request} {bytes : Bytes} (h : r.Holds g bytes) :
    (g.clientBodyBufferSize < r.bodyLength ∧ g.tmpfile = false ∧ openBody g r = .tmpfile none) ∨
      (g.clientBodyBufferSize < r.bodyLength ∧ g.tmpfile ∧ openBody g r = .tmpfile (some bytes)) ∨
      ∃ b, r.bodyLength ≤ g.clientBodyBufferSize ∧ b.Keeps r.bodyLength bytes ∧
        openBody g r = .buffer b := by
  have hbody := h.body
  unfold Meinheld.openBody
  cases hr : r.body with
  | none =>
    rw [hr] at hbody
    simp only at hbody
    subst hbody
    rw [if_pos rfl]
    cases hn : newBody g r with
    | none =>
      unfold newBody at hn
      split at hn <;> cases hn
    | tmpfile content =>
      unfold newBody at hn
      split at hn
      next hlt =>
        cases ht : g.tmpfile with
        | true =>
          rw [ht] at hn
          cases hn
          exact .inr (.inl ⟨hlt,rfl,rfl⟩)
        | false =>
          rw [ht] at hn
          cases hn
          exact .inl ⟨hlt,rfl,rfl⟩
      · cases hn
    | buffer b =>
      obtain ⟨hle,hk⟩ := newBody_holds hn
      exact .inr (.inr ⟨b,hle,hk,rfl⟩)
  | tmpfile content =>
    rw [hr] at hbody
    obtain ⟨hlt,ht,rfl⟩ := hbody
    exact .inr (.inl ⟨hlt,ht,if_neg (by simp)⟩)
  | buffer b =>
    rw [hr] at hbody
    exact .inr (.inr ⟨b,hbody.1,hbody.2,if_neg (by simp)⟩)

theorem bodyCb_eq {g : Globals} {p : HttpParser} {buf : Bytes} {r : Request}
    (hroom : r.bodyReaded + buf.length ≤ g.maxContentLength)
    (hlen : r.bodyLength ≠ 0 ∨ p.flags.chunked) :
    bodyCb g p buf r = (writeBody { r with body := openBody g r } buf).map (true,·) := by
  unfold bodyCb openBody
  rw [if_neg (Nat.not_lt.mpr hroom)]
  split
  · rw [if_neg]
    rintro ⟨h0,hc⟩
    rcases hlen with h | h
    · exact h h0
    · rw [h] at hc
      cases hc
  · rfl

/-- A call of `body_cb`, within the declared length where there is one: the running total is too
large, there is no temporary file, or the bytes are written. -/
theorem Request.Holds.bodyCb_cases {g : Globals} {p : HttpParser} {buf bytes : Bytes} {r : Request}
    (hr : r.Holds g bytes) (hbuf : buf.length < 2 ^ 31)
    (hlen : r.bodyLength = 0 ∧ p.flags.chunked ∨
      r.bodyLength ≠ 0 ∧ bytes.length + buf.length ≤ r.bodyLength) :
    (g.maxContentLength < bytes.length + buf.length ∧ bodyCb g p buf r = some (r.bad 413)) ∨
      (g.clientBodyBufferSize < r.bodyLength ∧ g.tmpfile = false ∧ bodyCb g p buf r = none) ∨
      ∃ s, bodyCb g p buf r = some (true,s) ∧ s.bodyLength = r.bodyLength ∧
        (s.Holds g (bytes ++ buf) ∧ (BodyCall.mk p buf r).safe g ∨
          (BodyCall.mk p buf r).safe g = false ∧ LIMIT_MAX < r.bodyLength ∧
            r.bodyLength ≤ g.clientBodyBufferSize ∧ bytes.length + buf.length = r.bodyLength) := by
  have hreaded := hr.readed
  rcases Nat.lt_or_ge g.maxContentLength (bytes.length + buf.length) with hover | hroom
  · refine .inl ⟨hover,?_⟩
    unfold bodyCb
    rw [hreaded,if_pos hover]
  have hcb := bodyCb_eq (p := p) (r := r) (by rwa [hreaded])
    (hlen.elim (fun h => .inr h.2) fun h => .inl h.1)
  right
  obtain ⟨hlt,ht,hopen⟩ | ⟨hlt,ht,hopen⟩ | ⟨b,hle,hk,hopen⟩ := hr.openBody
  · rw [hopen] at hcb
    exact .inl ⟨hlt,ht,hcb⟩
  · rw [hopen] at hcb
    refine .inr ⟨_,hcb,rfl,.inl ⟨⟨?_,?_,hlt,ht,rfl⟩,?_⟩⟩
    · rw [List.length_append]
      exact congrArg (· + buf.length) hreaded
    · rwa [List.length_append]
    · unfold BodyCall.safe
      simp only [hcb,writeBody,Option.map_some,hopen]
  · rw [hopen] at hcb
    refine .inr ⟨_,hcb,rfl,?_⟩
    have hsafe : (BodyCall.mk p buf r).safe g = !b.wraps buf := by
      unfold BodyCall.safe
      simp only [hcb,writeBody,Option.map_some,hopen]
    rw [hsafe]
    obtain ⟨hk',hw⟩ | ⟨hw,hbig,hfull⟩ :=
      hk.write hbuf (hlen.elim (fun h => .inl h.1) fun h => .inr h.2)
    · refine .inl ⟨⟨?_,?_,hle,hk'⟩,by simp [hw]⟩
      · rw [List.length_append]
        exact congrArg (· + buf.length) hreaded
      · rwa [List.length_append]
    · exact .inr ⟨by simp [hw],hbig,hle,hfull⟩

/-! ### The callbacks on lines -/

def Request.bodyPart (r : Request) : Body × ℕ × ℕ := (r.body,r.bodyReaded,r.bodyLength)

theorem addHeader_bodyPart {r s : Request} (h : addHeader r = some s) : s.bodyPart = r.bodyPart := by
  unfold addHeader at h
  split at h
  · cases h
    rfl
  · cases h

theorem onData_bodyPart {g : Globals} {k : Mark} (hk : k ≠ .body) {p : HttpParser} {buf : Bytes}
    {c e : Client} (h : (settings g).onData k p buf c = (true,e)) :
    e.currentReq.map Request.bodyPart = c.currentReq.map Request.bodyPart := by
  have hone : ∀ {f : Request → Option (Bool × Request)}, onCurrentReq c f = (true,e) →
      (∀ r s, f r = some (true,s) → s.bodyPart = r.bodyPart) →
      e.currentReq.map Request.bodyPart = c.currentReq.map Request.bodyPart := by
    intro f h hf
    obtain ⟨r,s,hr,hs,rfl⟩ := onCurrentReq_true.mp h
    rw [hr]
    exact congrArg some (hf r s hs)
  cases k with
  | headerField =>
    refine hone h fun r s hs => ?_
    obtain ⟨-,hstore⟩ | ⟨-,-,r',hadd,hstore⟩ := headerFieldCb_true.mp hs
    · obtain ⟨-,-,rfl⟩ := storeField_true.mp hstore
      rfl
    · obtain ⟨-,-,rfl⟩ := storeField_true.mp hstore
      have hpart := addHeader_bodyPart hadd
      exact hpart
  | headerValue =>
    refine hone h fun r s hs => ?_
    obtain ⟨-,rfl⟩ := headerValueCb_true.mp hs
    rfl
  | url =>
    refine hone h fun r s hs => ?_
    obtain ⟨-,rfl⟩ := urlCb_true.mp hs
    rfl
  | body => exact absurd rfl hk

/-- What a run of such callbacks leaves. -/
structure Calmed (c : Client) (calls : List BodyCall) (l : Intake) : Prop where
  reading : l.client.Reading
  calls : l.calls = calls
  part : l.client.currentReq.map Request.bodyPart = c.currentReq.map Request.bodyPart

theorem Act.isField.keeps {g : Globals} {a : Act} (ha : a.isField) (c : Client)
    (calls : List BodyCall) : a.Keeps (noting g) (Calmed c calls)
      (fun l => l.client.Refused ∧ l.client.upgrade = false ∧ l.calls = calls) := by
  cases a with
  | mark k => trivial
  | notify n adv p => cases ha
  | data k incl adv p =>
    have hk : k ≠ .body := by simpa [Act.isField] using ha
    rintro buf l ⟨hread,hcalls,hpart⟩
    have hsame : ((noting g).onData k p buf l).2.calls = calls := by
      cases k with
      | body => exact absurd rfl hk
      | _ => exact hcalls
    constructor
    · intro e he
      obtain ⟨h1,rfl⟩ := Prod.mk.inj he
      have hok : (settings g).onData k p buf l.client =
          (true,((settings g).onData k p buf l.client).2) := Prod.ext h1 rfl
      exact ⟨onData_reading hread hok,hsame,(onData_bodyPart hk hok).trans hpart⟩
    · intro e he
      obtain ⟨h1,rfl⟩ := Prod.mk.inj he
      have hok : (settings g).onData k p buf l.client =
          (false,((settings g).onData k p buf l.client).2) := Prod.ext h1 rfl
      have hup : ((settings g).onData k p buf l.client).2.upgrade = l.client.upgrade := by
        cases k <;> exact onCurrentReq_upgrade l.client
      exact ⟨onData_refused hk hok,hup.trans hread.upgrade,hsame⟩

theorem runActs_field_errno {σ : Type} {cb : Settings σ} {ch : Byte} {as : List Act} {m : Marked σ}
    {r : HttpParser × σ × ℕ} (ha : ∀ a ∈ as, a.isField) (h : runActs cb ch as m = .error r) :
    r.1.httpErrno.ofHeader := by
  induction as generalizing m with
  | nil => cases h
  | cons a as ih =>
    obtain ⟨ha,has⟩ := List.forall_mem_cons.mp ha
    cases a with
    | mark k => exact ih has h
    | notify n adv p => cases ha
    | data k incl adv p =>
      simp only [runActs] at h
      split at h
      · exact ih has h
      · split at h
        · exact ih has h
        · cases h
          cases k with
          | body => cases ha
          | _ => rfl

/-! ### One message -/

/-- The bytes of the body that are marked and not yet handed over. -/
def Marked.pending {σ : Type} (m : Marked σ) : Bytes :=
  match m.mark with
  | some (.body,buf) => buf
  | _ => []

/-- What the lines of a message come to: those of its head, and all of them, are refused. -/
structure Verdict where
  head : Bool
  all : Bool
  deriving DecidableEq, Repr

/-- Where a body of that declared length is, with so many bytes of it taken. -/
inductive Place (p : HttpParser) (length : ℕ) : ℕ → Prop
  | identity {n} : p.state = .sBodyIdentity → 0 < p.contentLength → n + p.contentLength = length →
      Place p length n
  | chunks {n} : p.state ≠ .sBodyIdentity → p.state.coded → p.flags.chunked → length = 0 →
      Place p length n
  | trailer {n} : p.state.coded = false → p.flags.trailing → p.state ≠ .sStartReq → length = 0 →
      Place p length n

/-- How far a message with that declared length and that body is. -/
inductive Stage (g : Globals) (v : Verdict) (length : ℕ) (body : Bytes) (p : HttpParser) (t : Tally)
    (m : Marked Intake) (rest : Bytes) : Prop
  | head : p.state.coded = false → p.flags.trailing = false → (p.state ≠ .sStartReq → p.Sized) →
      (Tally.ofHead p t rest).refused = v.head → declaredLength p rest = length →
      payload p rest = body → (∀ r, m.data.client.currentReq = some r → r.body = .none ∧ r.bodyReaded = 0) →
      (p.state ≠ .sStartReq → m.data.client.currentReq.isSome) → Stage g v length body p t m rest
  | body {r bytes} : v.head = false →
      m.data.client.currentReq = some r → r.Holds g bytes → r.bodyLength = length →
      length ≤ g.maxContentLength → (length = 0 ∨ body.length = length) → p.upgrade = false →
      body = bytes ++ m.pending ++ payload p rest →
      Place p length (bytes.length + m.pending.length) → Stage g v length body p t m rest

/-- What holds between two bytes. -/
structure Received (g : Globals) (v : Verdict) (length : ℕ) (body : Bytes) (p : HttpParser) (t : Tally)
    (m : Marked Intake) (rest : Bytes) : Prop where
  fits : m.Fits p.state
  rests : p.state.rests
  errno : p.httpErrno = .OK
  reading : m.data.client.Reading
  whole : wholeMessage p rest
  safe : ∀ call ∈ m.data.calls, call.safe g
  tallied : Tallied t p ⟨m.data.client,m.mark⟩
  total : (Tally.total p t rest).refused = v.all
  stage : Stage g v length body p t m rest

/-- A reception that has ended before the message is complete, or gone wrong. -/
inductive CutOff (g : Globals) (v : Verdict) (length : ℕ) (body : Bytes) (l : Intake) : Prop
  | refused : l.client.Refused → l.client.upgrade = false → (∀ call ∈ l.calls, call.safe g) →
      (v.head ∨ v.head = false ∧ v.all ∧ length = 0 ∧ body.length ≤ g.maxContentLength) →
      CutOff g v length body l
  | tooLong {r} : v.head = false → l.client.aborted = false → l.client.upgrade = false →
      l.client.currentReq = some r → r.badRequestCode = 413 →
      g.maxContentLength < length ∨ g.maxContentLength < body.length →
      (∀ call ∈ l.calls, call.safe g) → CutOff g v length body l
  | broken {call} : v.head = false → length ≠ 0 → (l.client.aborted ∨ l.client.complete) →
      ¬Admits g length body → call ∈ l.calls → call.safe g = false → CutOff g v length body l

/-- A message that is complete. -/
structure Complete (g : Globals) (v : Verdict) (length : ℕ) (body : Bytes) (l : Intake) : Prop where
  head : v.head = false
  all : v.all = false
  aborted : l.client.aborted = false
  complete : l.client.complete
  safe : ∀ call ∈ l.calls, call.safe g
  request : ∃ r, l.client.currentReq = some r ∧ r.badRequestCode = 0 ∧ r.Holds g body ∧
    (body = [] ∨ r.bodyLength = length ∧ length ≤ g.maxContentLength ∧ l.client.upgrade = false ∧
      (length = 0 ∨ body.length = length))

theorem State.coded_of_data {s : State} (h : s.data) : s.coded := by
  cases s <;> first | rfl | cases h

theorem State.rests_of_coded {s : State} (h : s.coded) : s.rests := by
  cases s <;> first | rfl | cases h

theorem payload_next {p q : HttpParser} {ch : Byte} {acts : List Act} (h : step p ch = .next acts q)
    (rest : Bytes) : payload p (ch :: rest) = (if p.state.data then [ch] else []) ++ payload q rest := by
  simp only [payload,h,Step.parser]

theorem payload_next_of_not_data {p q : HttpParser} {ch : Byte} {acts : List Act}
    (h : step p ch = .next acts q) (hp : p.state.data = false) (rest : Bytes) :
    payload p (ch :: rest) = payload q rest := by
  rw [payload_next h,hp]
  rfl

theorem State.data_of_not_coded {s : State} (h : s.coded = false) : s.data = false := by
  cases s <;> first | rfl | cases h

theorem declaredLength_next {p q : HttpParser} {ch : Byte} {acts : List Act}
    (h : step p ch = .next acts q) (ha : acts.findSome? Act.headParser = none) (rest : Bytes) :
    declaredLength p (ch :: rest) = declaredLength q rest := by
  simp only [declaredLength,h,Step.headParser,ha,Step.parser]

/-- Out of the body no byte of it is pending. -/
theorem Marked.Fits.pending {σ : Type} {m : Marked σ} {s : State} (h : m.Fits s)
    (hs : s.coded = false) : m.pending = [] := by
  obtain ⟨d,_ | ⟨k,buf⟩⟩ := m
  · rfl
  · cases k with
    | body =>
      have hk : s.mark = some .body := h
      cases s <;> first | exact absurd hs (by decide) | exact absurd hk (by decide)
    | _ => rfl

theorem Request.Holds.of_bodyPart {g : Globals} {r s : Request} {bytes : Bytes} (h : r.Holds g bytes)
    (hs : s.bodyPart = r.bodyPart) : s.Holds g bytes := by
  obtain ⟨h1,h2,h3⟩ := h
  simp only [Request.bodyPart,Prod.mk.injEq] at hs
  obtain ⟨hb,hn,hl⟩ := hs
  refine ⟨hn.trans h1,h2,?_⟩
  rw [hb,hl]
  exact h3

/-- The body with a declared length is of that length. -/
theorem length_payload_identity {p : HttpParser} {s : Bytes} (hp : p.state = .sBodyIdentity)
    (h0 : 0 < p.contentLength) (h : wholeMessage p s) : (payload p s).length = p.contentLength := by
  induction s generalizing p with
  | nil => cases h
  | cons ch rest ih =>
    have hstep : step p ch = stepBodyIdentity p := by
      unfold step stepState
      simp [hp,parsingHeader]
    have hdata : p.state.data := by rw [hp]; rfl
    by_cases h1 : p.contentLength = 1
    · have hcomp : (step p ch).completes := by
        rw [hstep]
        simp [stepBodyIdentity,h1,Step.completes,messageDone,Act.completes,Step.after]
      obtain ⟨-,rfl⟩ | ⟨acts,q,hs,hno,-⟩ := wholeMessage_cons h
      · simp [payload,hdata,h1]
      · rw [hs] at hcomp
        rw [show acts.any Act.completes = true from hcomp] at hno
        cases hno
    · have hq : stepBodyIdentity p =
          .next [.mark .body] { p with contentLength := p.contentLength - 1 } := by
        unfold stepBodyIdentity
        simp only
        rw [if_neg (by omega)]
      rw [hq] at hstep
      obtain ⟨hcomp,-⟩ | ⟨acts,q,hs,-,hrest⟩ := wholeMessage_cons h
      · rw [hstep] at hcomp
        cases hcomp
      · obtain ⟨rfl,rfl⟩ := Step.next.inj (hstep.symm.trans hs)
        rw [payload_next hstep,hdata]
        simp only [if_true,List.length_append,List.length_singleton]
        rw [ih (p := { p with contentLength := p.contentLength - 1 }) hp (by simp only; omega) hrest]
        simp only
        omega

def Goes (g : Globals) (v : Verdict) (length : ℕ) (body : Bytes) (ch : Byte) (m : Marked Intake)
    (acts : List Act) (q : HttpParser) (t : Tally) (rest : Bytes) : Prop :=
  (∃ m', runActs (noting g) ch acts m = .ok m' ∧ m'.data.client.Reading ∧
    (∀ call ∈ m'.data.calls, call.safe g) ∧ q.state.rests ∧
      ((m'.push ch).Fits q.state → Stage g v length body q t (m'.push ch) rest)) ∨
    ∃ r, runActs (noting g) ch acts m = .error r ∧ CutOff g v length body r.2.1

theorem payload_trailer {p : HttpParser} {s : Bytes} (hp : p.state.coded = false) (hr : p.state.rests)
    (ht : p.flags.trailing) (hs : p.state ≠ .sStartReq) (h : wholeMessage p s) : payload p s = [] := by
  induction s generalizing p with
  | nil => rfl
  | cons ch rest ih =>
    obtain ⟨-,rfl⟩ | ⟨acts,q,hstep,hcomp,hrest⟩ := wholeMessage_cons h
    · simp [payload,State.data_of_not_coded hp]
    · rw [payload_next_of_not_data hstep (State.data_of_not_coded hp)]
      have hturn := step_turns hr ch
      rw [hstep] at hturn
      cases hturn with
      | begins h1 => exact absurd h1 hs
      | field _ h2 h3 _ h5 _ h7 => exact ih h2 h3 (h5.trans ht) (fun h0 => hs (h7.mp h0)) hrest
      | headDone _ h2 | noBody _ h2 => rw [ht] at h2; cases h2
      | byte h1 => rw [State.coded_of_data h1] at hp; cases hp
      | coding h1 => rw [hp] at h1; cases h1
      | lastByte h1 => rw [h1] at hp; cases hp
      | trailerDone => simp [Act.completes] at hcomp

theorem not_behind {p : HttpParser} (hp : p.state.coded = false) (hr : p.state.rests)
    (ht : p.flags.trailing = false) : p.behind = false := by
  unfold HttpParser.behind
  rw [ht]
  generalize p.state = s at hp hr
  cases s <;> first | rfl | exact absurd hp (by decide) | exact absurd hr (by decide)

theorem behind_of_coded {p : HttpParser} (hp : p.state.coded) : p.behind := by
  unfold HttpParser.behind
  generalize p.state = s at hp
  cases s <;> first | exact Bool.or_true _ | exact absurd hp (by decide)

section Bytes

variable {g : Globals} {v : Verdict} {length : ℕ} {body : Bytes} {p q : HttpParser} {t : Tally}
  {m : Marked Intake} {ch : Byte} {acts : List Act} {rest : Bytes}

theorem received_begins (h : Received g v length body p t m (ch :: rest))
    (hs : step p ch = .next [callbackNotify .messageBegin q] q) (hp : p.state = .sStartReq)
    (hq : q.state = .sReqMethod) (ht : q.flags.trailing = false) (hz : q.Sized) :
    Goes g v length body ch m [callbackNotify .messageBegin q] q (t.next p ch) rest := by
  have hcoded : p.state.coded = false := by rw [hp]; rfl
  refine .inl ⟨_,rfl,⟨rfl,h.reading.upgrade,h.reading.aborted,fun r hr => by cases hr; rfl⟩,h.safe,
    by rw [hq]; rfl,fun _ => ?_⟩
  cases h.stage with
  | head _ htr _ hv hlen hbody _ _ =>
    refine .head (by rw [hq]; rfl) ht (fun _ => hz) ?_ ?_ ?_ (fun r hr => ?_) fun _ => rfl
    · rw [← hv,Tally.ofHead_next (not_behind hcoded h.rests htr),hs]
      rfl
    · rw [← hlen,declaredLength_next hs rfl]
    · rw [← hbody,payload_next_of_not_data hs (State.data_of_not_coded hcoded)]
    · cases hr
      exact ⟨rfl,rfl⟩
  | body _ _ _ _ _ _ _ _ hplace =>
    cases hplace with
    | identity h1 _ _ => rw [hp] at h1; cases h1
    | chunks _ h1 _ _ => rw [hcoded] at h1; cases h1
    | trailer _ _ h1 _ => exact absurd hp h1

/-- The tally of a byte that is taken, with the calls of `body_cb`. -/
theorem Received.tallied_step (h : Received g v length body p t m (ch :: rest))
    (hs : Meinheld.step p ch = .next acts q) :
    (∀ m', runActs (noting g) ch acts m = .ok m' →
        Tallied (t.next p ch) q ⟨(m'.push ch).data.client,(m'.push ch).mark⟩) ∧
      ∀ x, runActs (noting g) ch acts m = .error x → x.1.httpErrno.ofHeader →
        (t.next p ch).refused := by
  obtain ⟨hok,hfail⟩ := Meinheld.tallied_step (g := g) hs h.fits h.tallied
  have hover := runActs_over (noting_over g) ch acts m.data m.mark
  constructor
  · intro m' hm'
    rw [hm'] at hover
    exact hok _ hover
  · intro x hx
    rw [hx] at hover
    exact hfail _ hover

theorem Received.total_next (h : Received g v length body p t m (ch :: rest))
    (hs : Meinheld.step p ch = .next acts q) : (Tally.total q (t.next p ch) rest).refused = v.all := by
  rw [← h.total,Tally.total,hs]
  rfl

/-- A line is refused. -/
theorem Received.refused (h : Received g v length body p t m rest) (hp : p.state.coded = false)
    (ht : (Tally.total p t rest).refused) (hh : p.behind = false → (Tally.ofHead p t rest).refused) :
    v.head ∨ v.head = false ∧ v.all ∧ length = 0 ∧ body.length ≤ g.maxContentLength := by
  cases h.stage with
  | head _ htr _ hv => exact .inl (hv ▸ hh (not_behind hp h.rests htr))
  | @body r bytes hv _ hholds _ _ _ _ hbody hplace =>
    cases hplace with
    | identity h1 _ _ => rw [h1] at hp; cases hp
    | chunks _ h1 _ _ => rw [hp] at h1; cases h1
    | trailer _ htr hne h0 =>
      refine .inr ⟨hv,h.total ▸ ht,h0,?_⟩
      rw [hbody,h.fits.pending hp,payload_trailer hp h.rests htr hne h.whole]
      simpa using hholds.max

theorem received_field (h : Received g v length body p t m (ch :: rest)) (hs : step p ch = .next acts q)
    (hp : p.state.coded = false) (hq : q.state.coded = false) (hr : q.state.rests)
    (ha : ∀ a ∈ acts, a.isField) (ht : q.flags.trailing = p.flags.trailing)
    (hu : q.upgrade = p.upgrade) (hstart : q.state = .sStartReq ↔ p.state = .sStartReq)
    (hz : p.Sized → q.Sized) : Goes g v length body ch m acts q (t.next p ch) rest := by
  obtain ⟨hok,hfail⟩ := Act.Keeps.run ch
    (fun a haa => Act.isField.keeps (g := g) (ha a haa) m.data.client m.data.calls) (m := m)
    ⟨h.reading,rfl,rfl⟩
  cases hrun : runActs (noting g) ch acts m with
  | error r =>
    obtain ⟨hf,hup,hc⟩ := hfail r hrun
    have href := h.tallied_step hs |>.2 r hrun (runActs_field_errno ha hrun)
    refine .inr ⟨r,hrun,.refused hf hup (hc ▸ h.safe) (h.refused hp ?_ fun hb => ?_)⟩
    · rw [Tally.total]
      exact Tally.total_refused href _ rest
    · rw [Tally.ofHead_next hb]
      exact Tally.ofHead_refused href _ rest
  | ok m' =>
    obtain ⟨hread,hcalls,hpart⟩ := hok m' hrun
    refine .inl ⟨m',hrun,hread,hcalls ▸ h.safe,hr,fun hfit => ?_⟩
    have hdata := State.data_of_not_coded hp
    cases h.stage with
    | head _ htr hsized hv hlen hbody hcur hsome =>
      refine .head hq (ht.trans htr) (fun hne => hz (hsized fun h0 => hne (hstart.mpr h0))) ?_ ?_ ?_
        (fun r hr => ?_) fun hne => ?_
      · rw [← hv,Tally.ofHead_next (not_behind hp h.rests htr),hs]
        rfl
      · rw [← hlen,declaredLength_next hs]
        refine List.findSome?_eq_none_iff.mpr fun a haa => ?_
        have hfield := ha a haa
        cases a with
        | notify n adv r => cases hfield
        | _ => rfl
      · rw [← hbody,payload_next_of_not_data hs hdata]
      · rw [show m'.data.client.currentReq = some r from hr] at hpart
        obtain ⟨r0,hr0,hpart⟩ := Option.map_eq_some_iff.mp hpart.symm
        obtain ⟨h1,h2⟩ := hcur r0 hr0
        simp only [Request.bodyPart,Prod.mk.injEq] at hpart
        exact ⟨hpart.1.symm.trans h1,hpart.2.1.symm.trans h2⟩
      · have h1 := hsome fun h0 => hne (hstart.mpr h0)
        have h2 := congrArg Option.isSome hpart
        rw [Option.isSome_map,Option.isSome_map] at h2
        exact h2.trans h1
    | @body r bytes hv hr hholds hl hmax hlen hup hbody hplace =>
      rw [hr] at hpart
      obtain ⟨s,hs',hpart⟩ := Option.map_eq_some_iff.mp hpart
      obtain ⟨htr,hne,h0⟩ : q.flags.trailing ∧ p.state ≠ .sStartReq ∧ length = 0 := by
        cases hplace with
        | identity h1 _ _ => rw [h1] at hp; cases hp
        | chunks _ h1 _ _ => rw [hp] at h1; cases h1
        | trailer _ h1 h2 h3 => exact ⟨by rw [ht]; exact h1,h2,h3⟩
      have hl' : s.bodyLength = r.bodyLength := by
        simp only [Request.bodyPart,Prod.mk.injEq] at hpart
        exact hpart.2.2
      refine .body hv hs' (hholds.of_bodyPart hpart) (hl'.trans hl) hmax hlen (hu.trans hup) ?_
        (.trailer hq htr (fun h0 => hne (hstart.mp h0)) h0)
      rw [hbody,h.fits.pending hp,hfit.pending hq,payload_next_of_not_data hs hdata]

theorem headersCompleteCb_cases {c : Client} {r : Request} (hr : c.currentReq = some r) :
    (g.maxContentLength < headersContentLength p ∧ headersCompleteCb g p c =
        (false,{ c with keepAlive := httpShouldKeepAlive p, currentReq := some (r.bad 413).2 })) ∨
      (headersContentLength p ≤ g.maxContentLength ∧ ∃ s, headersCompleteCb g p c =
        (true,{ c with keepAlive := httpShouldKeepAlive p, currentReq := some s }) ∧
          s.body = r.body ∧ s.bodyReaded = r.bodyReaded ∧ s.bodyLength = headersContentLength p) := by
  unfold headersCompleteCb onCurrentReq
  simp only [hr,Option.bind_some]
  unfold headersComplete
  split
  next h => exact .inl ⟨h,rfl⟩
  next h =>
    have hkeep := lastHeader_keeps { r with environ := requestLineEnv g p r, path := none }
    exact .inr ⟨Nat.not_lt.mp h,_,rfl,hkeep.2.1,hkeep.2.2,rfl⟩

theorem Received.notify_head (h : Received g v length body p t m (ch :: rest))
    (hs : Meinheld.step p ch = .next acts q ∨ Meinheld.step p ch = .stop acts q)
    (ha : ∀ a ∈ acts, a.isNotify) (hne : acts ≠ []) : (t.next p ch).refused = false := by
  have hp : p.state.mark = none := by
    rcases hs with hs | hs
    · cases step_turn hs with
      | quiet h0 => exact h0
      | inside => exact absurd rfl hne
      | finish => exact absurd (ha _ List.mem_cons_self) id
      | start | empty | bodyByte | bodyLast => exact absurd (ha _ List.mem_cons_self) id
    · exact (step_stop hs).1
  rw [Tally.next_notify hs ha hp]
  refine h.tallied.not_refused ?_
  obtain ⟨d,_ | kb⟩ := m
  · rfl
  · have hk : p.state.mark = some kb.1 := h.fits
    rw [hp] at hk
    cases hk

theorem received_headDone {hp : HttpParser} (h : Received g v length body p t m (ch :: rest))
    (hs : step p ch = .next [.notify .headersComplete 0 hp] q) (hwhole : wholeMessage q rest)
    (hc : p.state.coded = false) (ht : p.flags.trailing = false) (hne : p.state ≠ .sStartReq)
    (hq : q.state.coded) (hu : q.upgrade = false)
    (hlen : p.Sized → if q.state = .sBodyIdentity then
        headersContentLength hp = q.contentLength ∧ 0 < q.contentLength
      else q.flags.chunked ∧ headersContentLength hp = 0) :
    Goes g v length body ch m [.notify .headersComplete 0 hp] q (t.next p ch) rest := by
  cases h.stage with
  | body _ _ _ _ _ _ _ _ hplace =>
    cases hplace with
    | identity h1 _ _ => rw [h1] at hc; cases hc
    | chunks _ h1 _ _ => rw [hc] at h1; cases h1
    | trailer _ h1 _ _ => rw [ht] at h1; cases h1
  | head _ _ hsized hv hl hbody hcur hsome =>
    obtain ⟨r,hr⟩ := Option.isSome_iff_exists.mp (hsome hne)
    obtain ⟨hnone,h0⟩ := hcur r hr
    have hhead : v.head = false := by
      rw [← hv,Tally.ofHead_next (not_behind hc h.rests ht),hs,Step.parser,
        Tally.ofHead_behind (behind_of_coded hq)]
      exact h.notify_head (.inl hs) (by simp [Act.isNotify]) (by simp)
    have hl' : length = headersContentLength hp := by
      rw [← hl]
      simp only [declaredLength,hs,Step.headParser,List.findSome?,Act.headParser]
    have hpend := h.fits.pending hc
    obtain ⟨hover,hcb⟩ | ⟨hroom,s,hcb,hb,hn,hsl⟩ := headersCompleteCb_cases (g := g) (p := hp) hr
    · have hrun : runActs (noting g) ch [.notify .headersComplete 0 hp] m =
          .error ({ hp with httpErrno := .CB_headers_complete },{ m.data with client :=
            { m.data.client with
              keepAlive := httpShouldKeepAlive hp, currentReq := some (r.bad 413).2 } },0) := by
        simp only [runActs,noting,settings,hcb]
        rfl
      exact .inr ⟨_,hrun,.tooLong hhead h.reading.aborted h.reading.upgrade rfl rfl
        (.inl (hl' ▸ hover)) h.safe⟩
    · have hread : Client.Reading { m.data.client with
          keepAlive := httpShouldKeepAlive hp, currentReq := some s } := by
        refine onNotify_reading (g := g) (n := .headersComplete) (p := hp) (c := m.data.client)
          (by simp) h.reading ?_
        exact hcb
      have hrun : runActs (noting g) ch [.notify .headersComplete 0 hp] m =
          .ok { m with data := { m.data with client :=
            { m.data.client with keepAlive := httpShouldKeepAlive hp, currentReq := some s } } } := by
        simp only [runActs,noting,settings,hcb]
      refine .inl ⟨_,hrun,hread,h.safe,State.rests_of_coded hq,fun hfit => ?_⟩
      · have hlen' := hlen (hsized hne)
        have hbody' : body = payload q rest := by
          rw [← hbody,payload_next_of_not_data hs (State.data_of_not_coded hc)]
        have hmark : Marked.pending (Marked.push { m with data := { m.data with client :=
            { m.data.client with keepAlive := httpShouldKeepAlive hp, currentReq := some s } } } ch) =
              [] := by
          obtain ⟨d,_ | ⟨k,buf⟩⟩ := m
          · rfl
          · cases k with
            | body =>
              have hk : p.state.mark = some .body := h.fits
              generalize p.state = s at hk hc
              cases s <;> first | exact absurd hc (by decide) | exact absurd hk (by decide)
            | _ => rfl
        refine .body (r := s) hhead rfl (⟨hn.trans h0,Nat.zero_le _,?_⟩ : s.Holds g []) (hsl.trans hl'.symm)
          (hl' ▸ hroom) ?_ hu ?_ ?_
        · rw [hb,hnone]
        · split at hlen'
          next hid =>
            right
            rw [hbody',length_payload_identity hid hlen'.2 hwhole,hl',hlen'.1]
          next => exact .inl (hl'.trans hlen'.2)
        · rw [hmark,hbody']
          rfl
        · rw [hmark]
          split at hlen'
          next hid => exact .identity hid hlen'.2 (by simp [hl',hlen'.1])
          next hid => exact .chunks hid hq hlen'.1 (hl'.trans hlen'.2)

theorem received_byte (h : Received g v length body p t m (ch :: rest))
    (hs : step p ch = .next [.mark .body] q) (hp : p.state.data) (hq : q.state.coded)
    (hf : q.flags = p.flags) (hu : q.upgrade = p.upgrade)
    (hid : q.state = .sBodyIdentity ↔ p.state = .sBodyIdentity)
    (hlen : 0 < p.contentLength → p.state = .sBodyIdentity →
      q.contentLength + 1 = p.contentLength ∧ 0 < q.contentLength) :
    Goes g v length body ch m [.mark .body] q (t.next p ch) rest := by
  refine .inl ⟨_,rfl,h.reading,h.safe,State.rests_of_coded hq,fun _ => ?_⟩
  have hcoded := State.coded_of_data hp
  have hpend : Marked.pending (Marked.push { m with mark := m.mark.or (some (.body,[])) } ch) =
      m.pending ++ [ch] := by
    have hk : p.state.mark = some .body := by
      generalize p.state = s at hp
      cases s <;> first | rfl | cases hp
    obtain ⟨d,_ | ⟨k,buf⟩⟩ := m
    · rfl
    · have hk' : p.state.mark = some k := h.fits
      cases hk'.symm.trans hk
      rfl
  cases h.stage with
  | head h1 _ _ _ _ _ _ _ => rw [hcoded] at h1; cases h1
  | @body r bytes hv hr hholds hl hmax hle hup hbody hplace =>
    refine .body (r := r) hv hr hholds hl hmax hle (hu.trans hup) ?_ ?_
    · rw [hpend,hbody,payload_next hs,hp]
      simp
    · rw [hpend,List.length_append]
      cases hplace with
      | identity h1 h2 h3 =>
        obtain ⟨h4,h5⟩ := hlen h2 h1
        exact .identity (hid.mpr h1) h5 (by simp only [List.length_singleton]; omega)
      | chunks h1 h2 h3 h4 => exact .chunks (fun h0 => h1 (hid.mp h0)) hq (hf ▸ h3) h4
      | trailer h1 _ _ _ => rw [hcoded] at h1; cases h1

/-- A call of `body_cb` in a message: it fails, or the bytes are written, and only the last bytes of
a body with a declared length can find no room. -/
theorem body_call {l : Intake} {r : Request} {buf bytes : Bytes} (hv : v.head = false)
    (hread : l.client.Reading)
    (hsafe : ∀ call ∈ l.calls, call.safe g) (hr : l.client.currentReq = some r)
    (hholds : r.Holds g bytes) (hl : r.bodyLength = length) (hmax : length ≤ g.maxContentLength)
    (hle : length = 0 ∨ body.length = length) (hbuf : buf.length < 2 ^ 31)
    (hbody : bytes.length + buf.length ≤ body.length)
    (hplace : length = 0 → q.flags.chunked) :
    (∃ e, (noting g).onData .body q buf l = (false,e) ∧ CutOff g v length body e) ∨
    ∃ e s, (noting g).onData .body q buf l = (true,e) ∧
      e.client = { l.client with currentReq := some s } ∧ e.client.Reading ∧
      s.bodyLength = length ∧ s.badRequestCode = 0 ∧
      (s.Holds g (bytes ++ buf) ∧ (∀ call ∈ e.calls, call.safe g) ∨
        length ≠ 0 ∧ bytes.length + buf.length = length ∧ ¬Admits g length body ∧
          ∃ call ∈ e.calls, call.safe g = false) := by
  have hlen : r.bodyLength = 0 ∧ q.flags.chunked ∨
      r.bodyLength ≠ 0 ∧ bytes.length + buf.length ≤ r.bodyLength := by
    by_cases h0 : length = 0
    · exact .inl ⟨hl.trans h0,hplace h0⟩
    · exact .inr ⟨hl ▸ h0,by omega⟩
  have hon : (noting g).onData .body q buf l = ((onCurrentReq l.client (bodyCb g q buf)).1,
      ⟨(onCurrentReq l.client (bodyCb g q buf)).2,l.calls ++ [⟨q,buf,r⟩]⟩) := by
    simp [noting,settings,hr]
  obtain ⟨hover,hcb⟩ | ⟨hlt,hno,hcb⟩ | ⟨s,hcb,hsl,hwrote⟩ := hholds.bodyCb_cases hbuf hlen
  · -- the running total
    have hc : onCurrentReq l.client (bodyCb g q buf) =
        (false,{ l.client with currentReq := some (r.bad 413).2 }) := by
      simp [onCurrentReq,hr,hcb,Request.bad]
    have hsafe' : (BodyCall.mk q buf r).safe g := by
      unfold BodyCall.safe
      simp only [hcb,Request.bad]
    rw [hc] at hon
    refine .inl ⟨_,hon,.tooLong hv hread.aborted hread.upgrade rfl rfl
      (.inr (by omega)) fun call hcall => ?_⟩
    rcases List.mem_append.mp hcall with hcall | hcall
    · exact hsafe call hcall
    · rwa [List.mem_singleton.mp hcall]
  · -- no temporary file
    have hc : onCurrentReq l.client (bodyCb g q buf) = (false,{ l.client with aborted := true }) := by
      simp [onCurrentReq,hr,hcb,Client.abort]
    have hunsafe : (BodyCall.mk q buf r).safe g = false := by
      unfold BodyCall.safe
      simp only [hcb]
    rw [hc] at hon
    refine .inl ⟨_,hon,.broken hv (by omega) (.inl rfl) ?_ (by simp) hunsafe⟩
    intro hadm
    have hfull : body.length = length := hle.resolve_left (by omega)
    have := (hadm hmax (by omega)).1 (by rintro rfl; simp at hfull; omega) (by omega)
    rw [hno] at this
    cases this
  · have hc : onCurrentReq l.client (bodyCb g q buf) =
        (true,{ l.client with currentReq := some s }) := by
      simp [onCurrentReq,hr,hcb]
    rw [hc] at hon
    have hread' : Client.Reading { l.client with currentReq := some s } :=
      onData_reading (g := g) (k := .body) (p := q) hread hc
    refine .inr ⟨_,s,hon,rfl,hread',hsl.trans hl,hread'.good s rfl,?_⟩
    obtain ⟨hh,hs⟩ | ⟨hs,hbig,hmem,hfull⟩ := hwrote
    · refine .inl ⟨hh,fun call hcall => ?_⟩
      rcases List.mem_append.mp hcall with hcall | hcall
      · exact hsafe call hcall
      · rwa [List.mem_singleton.mp hcall]
    · refine .inr ⟨by omega,hfull.trans hl,?_,⟨q,buf,r⟩,by simp,hs⟩
      intro hadm
      have hfull' : body.length = length := hle.resolve_left (by omega)
      have := (hadm hmax (by omega)).2 (by omega)
      omega

/-- Where a chunked body is after a byte of its coding. -/
theorem Place.coding {n m : ℕ} (hplace : Place p length n) (hp : p.state.coded)
    (hd : p.state.data = false) (hf : q.flags.chunked = p.flags.chunked)
    (hq : q.state.coded ∧ q.state ≠ .sBodyIdentity ∨ q.state = .sHeaderFieldStart ∧ q.flags.trailing) :
    length = 0 ∧ q.flags.chunked ∧ q.state.rests ∧ Place q length m := by
  cases hplace with
  | identity h1 _ _ => rw [h1] at hd; cases hd
  | trailer h1 _ _ _ => rw [hp] at h1; cases h1
  | chunks h1 h2 h3 h4 =>
    have hc : q.flags.chunked := by rwa [hf]
    obtain ⟨hq,hne⟩ | ⟨hq,ht⟩ := hq
    · exact ⟨h4,hc,State.rests_of_coded hq,.chunks hne hq hc h4⟩
    · exact ⟨h4,hc,by rw [hq]; rfl,.trailer (by rw [hq]; rfl) ht (by simp [hq]) h4⟩

theorem received_coding (h : Received g v length body p t m (ch :: rest)) (hs : step p ch = .next acts q)
    (hp : p.state.coded) (hd : p.state.data = false)
    (hacts : acts = [] ∧ p.state ≠ .sChunkDataAlmostDone ∨
      p.state = .sChunkDataAlmostDone ∧ acts = [callbackData .body q])
    (hf : q.flags.chunked = p.flags.chunked) (hu : q.upgrade = p.upgrade)
    (hq : q.state.coded ∧ q.state ≠ .sBodyIdentity ∨ q.state = .sHeaderFieldStart ∧ q.flags.trailing)
    (hbuf : m.length < 2 ^ 31) : Goes g v length body ch m acts q (t.next p ch) rest := by
  cases h.stage with
  | head h1 _ _ _ _ _ _ _ => rw [hp] at h1; cases h1
  | @body r bytes hv hr hholds hl hmax hle hup hbody hplace =>
    rw [payload_next_of_not_data hs hd] at hbody
    obtain ⟨h0,hc,hrests,-⟩ := hplace.coding (m := 0) hp hd hf hq
    have hnext : ∀ n, Place q length n := fun n => (hplace.coding hp hd hf hq).2.2.2
    -- nothing is pending, or no callback is run for it
    have hquiet : ∀ m' : Marked Intake, m'.data = m.data → m'.mark = none → m.pending = [] →
        Stage g v length body q (t.next p ch) (m'.push ch) rest := by
      intro m' hdata hmark hpend
      obtain ⟨d,k⟩ := m'
      subst hdata hmark
      refine .body (r := r) hv hr hholds hl hmax hle (hu.trans hup) ?_ (hnext _)
      rw [hbody,hpend]
      rfl
    obtain ⟨rfl,hne⟩ | ⟨hst,rfl⟩ := hacts
    · have hmark : m.mark = none := by
        obtain ⟨d,_ | ⟨k,buf⟩⟩ := m
        · rfl
        · have hk : p.state.mark = some k := h.fits
          generalize p.state = s at hk hp hd hne
          cases s <;> first | exact absurd hd (by decide) | exact absurd hp (by decide) |
            exact absurd rfl hne | cases hk
      refine .inl ⟨m,rfl,h.reading,h.safe,hrests,fun _ => hquiet m rfl hmark ?_⟩
      unfold Marked.pending
      rw [hmark]
    · obtain ⟨d,_ | ⟨k,buf⟩⟩ := m
      · exact .inl ⟨⟨d,none⟩,rfl,h.reading,h.safe,hrests,fun _ => hquiet ⟨d,none⟩ rfl rfl rfl⟩
      · have hk : p.state.mark = some k := h.fits
        rw [hst] at hk
        cases hk
        have hpend : Marked.pending ⟨d,some (.body,buf)⟩ = buf := rfl
        have hlen : buf.length < 2 ^ 31 := hbuf
        rw [hpend] at hbody
        obtain ⟨e,hcall,hcut⟩ | ⟨e,s,hcall,he,hread,hsl,-,hres⟩ := body_call (g := g) (q := q)
          hv h.reading h.safe hr hholds hl hmax hle hlen
          (by rw [hbody]; simp only [List.length_append]; omega) fun _ => hc
        · refine .inr ⟨({ q with httpErrno := .CB_body },e,1),?_,hcut⟩
          simp only [runActs,Bool.false_eq_true,if_false,hcall,dataErrno]
        · obtain ⟨hh,hsafe⟩ | ⟨hne,-,-⟩ := hres
          · refine .inl ⟨⟨e,none⟩,?_,hread,hsafe,hrests,fun _ => ?_⟩
            · simp only [runActs,Bool.false_eq_true,if_false,hcall]
            · refine .body (r := s) hv (by simp only [Marked.push]; rw [he]) hh hsl hmax hle
                (hu.trans hup) ?_ (hnext _)
              rw [hbody]
              simp [Marked.push,Marked.pending]
          · exact absurd h0 hne

/-- A byte within the message. -/
theorem Received.step (h : Received g v length body p t m (ch :: rest))
    (hs : Meinheld.step p ch = .next acts q) (hcomp : acts.any Act.completes = false)
    (hwhole : wholeMessage q rest) (hbuf : m.length < 2 ^ 31) :
    Goes g v length body ch m acts q (t.next p ch) rest := by
  have hturn := step_turns h.rests ch
  rw [hs] at hturn
  cases hturn with
  | begins h1 h2 h3 h4 => exact received_begins h hs h1 h2 h3 h4
  | field h1 h2 h3 h4 h5 h6 h7 h8 => exact received_field h hs h1 h2 h3 h4 h5 h6 h7 h8
  | headDone h1 h2 h3 h4 h5 h6 => exact received_headDone h hs hwhole h1 h2 h3 h4 h5 h6
  | byte h1 h2 h3 h4 h5 h6 => exact received_byte h hs h1 h2 h3 h4 h5 h6
  | coding h1 h2 h3 h4 h5 h6 => exact received_coding h hs h1 h2 h3 h4 h5 h6 hbuf
  | noBody | lastByte | trailerDone => simp [Act.completes] at hcomp

theorem payload_last (p : HttpParser) (ch : Byte) : payload p [ch] = if p.state.data then [ch] else [] :=
  List.append_nil _

def Arrives (g : Globals) (v : Verdict) (length : ℕ) (body : Bytes) (ch : Byte) (m : Marked Intake)
    (acts : List Act) : Prop :=
  (∃ m', runActs (noting g) ch acts m = .ok m' ∧
    (Complete g v length body m'.data ∨ CutOff g v length body m'.data)) ∨
    ∃ r, runActs (noting g) ch acts m = .error r ∧ CutOff g v length body r.2.1

theorem received_noBody {hp : HttpParser} (h : Received g v length body p t m [ch])
    (hs : (step p ch).headParser = some hp) (hc : p.state.coded = false)
    (ht : p.flags.trailing = false) (hne : p.state ≠ .sStartReq)
    (href : (t.next p ch).refused = false) :
    Arrives g v length body ch m [.notify .headersComplete 0 hp,callbackNotify .messageComplete q] := by
  cases h.stage with
  | body _ _ _ _ _ _ _ _ hplace =>
    cases hplace with
    | identity h1 _ _ => rw [h1] at hc; cases hc
    | chunks _ h1 _ _ => rw [hc] at h1; cases h1
    | trailer _ h1 _ _ => rw [ht] at h1; cases h1
  | head _ _ _ hv hl hbody hcur hsome =>
    obtain ⟨r,hr⟩ := Option.isSome_iff_exists.mp (hsome hne)
    obtain ⟨hnone,h0⟩ := hcur r hr
    have hhead : v.head = false := by
      rw [← hv,Tally.ofHead_next (not_behind hc h.rests ht)]
      exact href
    have hl' : length = headersContentLength hp := by
      rw [← hl]
      simp only [declaredLength,hs]
    rw [payload_last,State.data_of_not_coded hc] at hbody
    simp only [Bool.false_eq_true,if_false] at hbody
    subst hbody
    obtain ⟨hover,hcb⟩ | ⟨hroom,s,hcb,hb,hn,-⟩ := headersCompleteCb_cases (g := g) (p := hp) hr
    · have hrun : runActs (noting g) ch
          [.notify .headersComplete 0 hp,callbackNotify .messageComplete q] m =
          .error ({ hp with httpErrno := .CB_headers_complete },{ m.data with client :=
            { m.data.client with
              keepAlive := httpShouldKeepAlive hp, currentReq := some (r.bad 413).2 } },0) := by
        simp only [runActs,noting,settings,hcb]
        rfl
      exact .inr ⟨_,hrun,.tooLong hhead h.reading.aborted h.reading.upgrade rfl rfl
        (.inl (hl' ▸ hover)) h.safe⟩
    · have hread : Client.Reading { m.data.client with
          keepAlive := httpShouldKeepAlive hp, currentReq := some s } :=
        onNotify_reading (g := g) (n := .headersComplete) (p := hp) (c := m.data.client) (by simp)
          h.reading hcb
      have hrun : runActs (noting g) ch
          [.notify .headersComplete 0 hp,callbackNotify .messageComplete q] m =
          .ok { m with data := { m.data with client := (messageCompleteCb q { m.data.client with
            keepAlive := httpShouldKeepAlive hp, currentReq := some s }).2 } } := by
        simp only [runActs,noting,settings,hcb]
        rfl
      refine .inl ⟨_,hrun,.inl ⟨hhead,h.total.symm.trans href,hread.aborted,rfl,h.safe,s,rfl,
        hread.good s rfl,?_,.inl rfl⟩⟩
      refine ⟨hn.trans h0,Nat.zero_le _,?_⟩
      rw [hb,hnone]

theorem received_lastByte {r : HttpParser} (h : Received g v length body p t m [ch])
    (hp : p.state = .sBodyIdentity) (hu : q.upgrade = p.upgrade)
    (href : (t.next p ch).refused = false) (hbuf : m.length + 1 < 2 ^ 31) :
    Arrives g v length body ch m
      [.mark .body,.data .body true 0 r,callbackNotify .messageComplete q] := by
  cases h.stage with
  | head h1 _ _ _ _ _ _ _ => rw [hp] at h1; cases h1
  | @body r0 bytes hv hr hholds hl hmax hle hup hbody hplace =>
    have hpos : length ≠ 0 := by
      cases hplace with
      | identity _ h1 h2 => omega
      | chunks h1 _ _ _ => exact absurd hp h1
      | trailer h1 _ _ _ => rw [hp] at h1; cases h1
    have hmark : m.mark.or (some (.body,[])) = some (.body,m.pending) := by
      obtain ⟨d,_ | ⟨k,buf⟩⟩ := m
      · rfl
      · have hk : p.state.mark = some k := h.fits
        rw [hp] at hk
        cases hk
        rfl
    have hlen : m.pending.length ≤ m.length := by
      obtain ⟨d,_ | ⟨k,buf⟩⟩ := m
      · exact le_rfl
      · cases k with
        | body => exact le_rfl
        | _ => exact Nat.zero_le _
    rw [payload_last,hp] at hbody
    have hbody' : body = bytes ++ (m.pending ++ [ch]) := by
      rw [hbody,List.append_assoc]
      rfl
    have hall : (m.pending ++ [ch]).length < 2 ^ 31 := by
      rw [List.length_append,List.length_singleton]
      omega
    obtain ⟨e,hcall,hcut⟩ | ⟨e,s,hcall,he,hread,hsl,hcode,hres⟩ := body_call (g := g) (q := r)
      hv h.reading h.safe hr hholds hl hmax hle hall
      (by rw [hbody']; simp only [List.length_append]; omega) fun h0 => absurd h0 hpos
    · refine .inr ⟨({ r with httpErrno := .CB_body },e,0),?_,hcut⟩
      simp only [runActs,hmark,if_true,hcall,dataErrno]
    · refine .inl ⟨⟨{ e with client := (messageCompleteCb q e.client).2 },none⟩,?_,?_⟩
      · simp only [runActs,hmark,if_true,hcall]
        rfl
      · obtain ⟨hh,hsafe⟩ | ⟨-,-,hadm,call,hmem,hun⟩ := hres
        · refine .inl ⟨hv,h.total.symm.trans href,hread.aborted,rfl,hsafe,s,?_,hcode,?_,
            .inr ⟨hsl,hmax,hu.trans hup,hle⟩⟩
          · simp only [messageCompleteCb]
            rw [he]
          · rwa [hbody']
        · exact .inr (.broken hv hpos (.inr rfl) hadm hmem hun)

theorem received_trailerDone (h : Received g v length body p t m [ch]) (hc : p.state.coded = false)
    (ht : p.flags.trailing) (hu : q.upgrade = p.upgrade) (href : (t.next p ch).refused = false) :
    Arrives g v length body ch m [callbackNotify .messageComplete q] := by
  cases h.stage with
  | head _ h1 _ _ _ _ _ _ => rw [ht] at h1; cases h1
  | @body r bytes hv hr hholds hl hmax hle hup hbody hplace =>
    rw [payload_last,State.data_of_not_coded hc,h.fits.pending hc] at hbody
    simp only [Bool.false_eq_true,if_false,List.append_nil] at hbody
    refine .inl ⟨_,rfl,.inl ⟨hv,h.total.symm.trans href,h.reading.aborted,rfl,h.safe,r,hr,
      h.reading.good r hr,?_,.inr ⟨hl,hmax,hu.trans hup,hle⟩⟩⟩
    rwa [hbody]

theorem Received.last_body (h : Received g v length body p t m (ch :: rest)) {r : HttpParser}
    (hs : Meinheld.step p ch = .next [.mark .body,.data .body true 0 r,callbackNotify .messageComplete q] q) :
    (t.next p ch).refused = false := by
  obtain ⟨hp,hq⟩ : p.state.mark = some .body ∧ q.state.mark = none := by
    cases step_turn hs with
    | quiet _ ha => exact absurd (ha _ List.mem_cons_self) id
    | bodyLast hp hq => exact ⟨hp,hq⟩
  rw [Tally.next_of_step hs,hq]
  cases hr : m.data.client.currentReq with
  | none => exact (h.tallied.idle hr).2
  | some req =>
    obtain ⟨ht,-⟩ := h.tallied.current req hr
    obtain ⟨d,_ | ⟨k,buf⟩⟩ := m
    · rw [ht]
      rfl
    · cases hp.symm.trans (show p.state.mark = some k from h.fits)
      rw [ht]
      rfl

/-- The last byte of the message. -/
theorem Received.last (h : Received g v length body p t m [ch])
    (hs : Meinheld.step p ch = .next acts q ∨ Meinheld.step p ch = .stop acts q)
    (hcomp : acts.any Act.completes) (hbuf : m.length + 1 < 2 ^ 31) :
    Arrives g v length body ch m acts := by
  have hturn : BodyTurn p acts q := by
    have hturns := step_turns h.rests ch
    rcases hs with hs | hs
    · rw [hs] at hturns
      exact hturns
    · rw [hs] at hturns
      exact hturns
  cases hturn with
  | noBody h1 h2 h3 =>
    refine received_noBody h ?_ h1 h2 h3 (h.notify_head hs (by simp [Act.isNotify]) (by simp))
    rcases hs with hs | hs <;> rw [hs] <;> rfl
  | lastByte h1 _ h3 =>
    rcases hs with hs | hs
    · exact received_lastByte h h1 h3 (h.last_body hs) hbuf
    · exact absurd ((step_stop hs).2.1 (.mark .body) (by simp)) id
  | trailerDone h1 h2 _ h4 =>
    exact received_trailerDone h h1 h2 h4 (h.notify_head hs (by simp [Act.isNotify]) (by simp))
  | field _ _ _ ha =>
    obtain ⟨a,haa,hc⟩ := List.any_eq_true.mp hcomp
    have hfield := ha a haa
    cases a with
    | notify n adv r => cases hfield
    | _ => cases hc
  | coding _ _ hacts =>
    obtain ⟨rfl,-⟩ | ⟨-,rfl⟩ := hacts
    · cases hcomp
    · cases hcomp
  | begins | headDone | byte => cases hcomp

/-! ### The reads -/

theorem entryMark_pending (l : Intake) (s : State) :
    Marked.pending ⟨l,entryMark s⟩ = [] := by
  cases s <;> rfl

/-- The callbacks on lines leave the stage as it is. -/
theorem Stage.calmed {m' : Marked Intake} (h : Stage g v length body p t m rest)
    (hc : Calmed m.data.client m.data.calls m'.data) (hpend : m'.pending = m.pending) :
    Stage g v length body p t m' rest := by
  have hpart := hc.part
  cases h with
  | head h1 h2 h3 h4 h5 h6 hcur hsome =>
    refine .head h1 h2 h3 h4 h5 h6 (fun r hr => ?_) fun hne => ?_
    · rw [hr] at hpart
      obtain ⟨r0,hr0,hpart⟩ := Option.map_eq_some_iff.mp hpart.symm
      obtain ⟨h1,h2⟩ := hcur r0 hr0
      simp only [Request.bodyPart,Prod.mk.injEq] at hpart
      exact ⟨hpart.1.symm.trans h1,hpart.2.1.symm.trans h2⟩
    · have h2 := congrArg Option.isSome hpart
      rw [Option.isSome_map,Option.isSome_map] at h2
      exact h2.trans (hsome hne)
  | @body r bytes hv hr hholds hl hmax hle hup hbody hplace =>
    rw [hr] at hpart
    obtain ⟨s,hs,hpart⟩ := Option.map_eq_some_iff.mp hpart
    have hl' : s.bodyLength = r.bodyLength := by
      simp only [Request.bodyPart,Prod.mk.injEq] at hpart
      exact hpart.2.2
    exact .body hv hs (hholds.of_bodyPart hpart) (hl'.trans hl) hmax hle hup (by rw [hpend,hbody])
      (by rw [hpend]; exact hplace)

/-- The part of the body that is marked when a read ends. -/
theorem received_flush_body {d : Intake} {buf : Bytes}
    (h : Received g v length body p t ⟨d,some (.body,buf)⟩ rest) (hbuf : buf.length < 2 ^ 31) :
    (∃ e, flushMark (noting g) p ⟨d,some (.body,buf)⟩ = (p,e) ∧
      Received g v length body p t ⟨e,entryMark p.state⟩ rest) ∨
      ∃ p' e, flushMark (noting g) p ⟨d,some (.body,buf)⟩ = (p',e) ∧ CutOff g v length body e := by
  have htally := tallied_flush (g := g) h.fits h.tallied h.errno
  have hover := flushMark_over (noting_over g) p d (some (.body,buf))
  have hk : p.state.mark = some .body := h.fits
  have hcoded : p.state.coded := by
    generalize p.state = s at hk
    cases s <;> first | rfl | exact absurd hk (by decide)
  cases h.stage with
  | head h1 _ _ _ _ _ _ _ => rw [hcoded] at h1; cases h1
  | @body r bytes hv hr hholds hl hmax hle hup hbody hplace =>
    have hpend : Marked.pending ⟨d,some (.body,buf)⟩ = buf := rfl
    rw [hpend] at hbody hplace
    have hchunk : length = 0 → p.flags.chunked := by
      intro h0
      cases hplace with
      | identity _ h1 h2 => omega
      | chunks _ _ h1 _ => exact h1
      | trailer h1 _ _ _ => rw [hcoded] at h1; cases h1
    obtain ⟨e,hcall,hcut⟩ | ⟨e,s,hcall,he,hread,hsl,-,hres⟩ := body_call (g := g) (q := p)
      hv h.reading h.safe hr hholds hl hmax hle hbuf
      (by rw [hbody]; simp only [List.length_append]; omega) hchunk
    · refine .inr ⟨{ p with httpErrno := .CB_body },e,?_,hcut⟩
      simp only [flushMark,hcall,dataErrno]
    · obtain ⟨hh,hsafe⟩ | ⟨hne,hfull,-,-⟩ := hres
      · have hflush : flushMark (noting g) p ⟨d,some (.body,buf)⟩ = (p,e) := by
          simp only [flushMark,hcall]
        refine .inl ⟨e,hflush,⟨entryMark_fits e p.state,h.rests,h.errno,hread,h.whole,hsafe,?_,
          h.total,?_⟩⟩
        · rw [hover,hflush] at htally
          exact htally.1 h.errno
        refine .body (r := s) hv (by rw [he]) hh hsl hmax hle hup ?_ ?_
        · rw [entryMark_pending,hbody]
          simp
        · rw [entryMark_pending,List.length_append]
          exact hplace
      · cases hplace with
        | identity _ h1 h2 => omega
        | chunks _ _ _ h1 => exact absurd h1 hne
        | trailer h1 _ _ _ => rw [hcoded] at h1; cases h1

/-- The part of a line that is marked when a read ends. -/
theorem received_flush_field {d : Intake} {k : Mark} {buf : Bytes} (hbody : k ≠ .body)
    (h : Received g v length body p t ⟨d,some (k,buf)⟩ rest) :
    (∃ e, flushMark (noting g) p ⟨d,some (k,buf)⟩ = (p,e) ∧
      Received g v length body p t ⟨e,entryMark p.state⟩ rest) ∨
      ∃ p' e, flushMark (noting g) p ⟨d,some (k,buf)⟩ = (p',e) ∧ CutOff g v length body e := by
  have htally := tallied_flush (g := g) h.fits h.tallied h.errno
  have hover := flushMark_over (noting_over g) p d (some (k,buf))
  have hk : p.state.mark = some k := h.fits
  have hfield : (Act.data k false 0 p).isField := by simpa [Act.isField] using hbody
  obtain ⟨hok,hfail⟩ := Act.isField.keeps (g := g) hfield d.client d.calls buf d
    ⟨h.reading,rfl,rfl⟩
  cases hcall : (noting g).onData k p buf d with
  | mk b e =>
    cases b with
    | true =>
      have hc := hok e hcall
      have hflush : flushMark (noting g) p ⟨d,some (k,buf)⟩ = (p,e) := by
        simp only [flushMark,hcall]
      rw [hover,hflush] at htally
      refine .inl ⟨e,hflush,⟨entryMark_fits e p.state,h.rests,h.errno,hc.reading,h.whole,
        by rw [hc.calls]; exact h.safe,htally.1 h.errno,h.total,?_⟩⟩
      refine h.stage.calmed hc ?_
      rw [entryMark_pending]
      cases k with
      | body => exact absurd rfl hbody
      | _ => rfl
    | false =>
      obtain ⟨hf,hup,hcalls⟩ := hfail e hcall
      have hflush : flushMark (noting g) p ⟨d,some (k,buf)⟩ =
          ({ p with httpErrno := dataErrno k },e) := by
        simp only [flushMark,hcall]
      have href : t.refused := by
        rw [hover,hflush] at htally
        refine htally.2 ?_
        cases k with
        | body => exact absurd rfl hbody
        | _ => rfl
      have hcoded : p.state.coded = false := by
        generalize p.state = s at hk
        cases s <;> cases hk <;> first | rfl | exact absurd rfl hbody
      exact .inr ⟨_,e,hflush,.refused hf hup (by rw [hcalls]; exact h.safe) (h.refused hcoded
        (Tally.total_refused href p rest) fun _ => Tally.ofHead_refused href p rest)⟩

/-- The bytes that are marked when a read ends. -/
theorem received_flush (h : Received g v length body p t m rest) (hbuf : m.length < 2 ^ 31) :
    (∃ e, flushMark (noting g) p m = (p,e) ∧ Received g v length body p t ⟨e,entryMark p.state⟩ rest) ∨
      ∃ p' e, flushMark (noting g) p m = (p',e) ∧ CutOff g v length body e := by
  obtain ⟨d,_ | ⟨k,buf⟩⟩ := m
  · have hmark : entryMark p.state = none := entryMark_eq_none h.fits
    refine .inl ⟨d,rfl,?_⟩
    rw [hmark]
    exact h
  · by_cases hbody : k = .body
    · subst hbody
      exact received_flush_body h hbuf
    · exact received_flush_field hbody h

theorem runActs_length {σ : Type} {cb : Settings σ} {m m' : Marked σ}
    (h : runActs cb ch acts m = .ok m') : m'.length ≤ m.length := by
  induction acts generalizing m with
  | nil =>
    cases h
    exact le_rfl
  | cons a as ih =>
    cases a with
    | mark k =>
      refine (ih h).trans ?_
      obtain ⟨d,_ | kb⟩ := m
      · exact le_rfl
      · exact le_rfl
    | data k incl adv p =>
      simp only [runActs] at h
      split at h
      · exact ih h
      · split at h
        · exact (ih h).trans (Nat.zero_le _)
        · cases h
    | notify n adv p =>
      simp only [runActs] at h
      split at h
      next d _ => exact ih (m := { m with data := d }) h
      · cases h

/-- One read: it is cut off, or takes all the bytes, and the last of the message completes it. -/
theorem received_loop {a b : Bytes} (pos : ℕ) (h : Received g v length body p t m (a ++ b))
    (hbuf : m.length + a.length < 2 ^ 31) :
    CutOff g v length body (executeLoop (noting g) p m pos a).2.1 ∨
      ((executeLoop (noting g) p m pos a).2.2 = ((pos + a.length : ℕ) : ℤ) ∧
        ((b ≠ [] ∧ ∃ t', Received g v length body (executeLoop (noting g) p m pos a).1 t'
            ⟨(executeLoop (noting g) p m pos a).2.1,
              entryMark (executeLoop (noting g) p m pos a).1.state⟩ b) ∨
          b = [] ∧ Complete g v length body (executeLoop (noting g) p m pos a).2.1)) := by
  induction a generalizing p t m pos with
  | nil =>
    have hb : b ≠ [] := by
      rintro rfl
      cases h.whole
    simp only [executeLoop]
    obtain ⟨e,hflush,hrec⟩ | ⟨p',e,hflush,hcut⟩ := received_flush h (by simpa using hbuf)
    · rw [hflush]
      exact .inr ⟨rfl,.inl ⟨hb,t,hrec⟩⟩
    · rw [hflush]
      exact .inl hcut
  | cons ch rest ih =>
    simp only [List.length_cons] at hbuf
    obtain ⟨hcomp,hnil⟩ | ⟨acts,q,hs,hcomp,hwhole⟩ := wholeMessage_cons h.whole
    · obtain ⟨rfl,rfl⟩ := List.append_eq_nil_iff.mp hnil
      cases hs : Meinheld.step p ch with
      | error q => rw [hs] at hcomp; cases hcomp
      | bail q => rw [hs] at hcomp; cases hcomp
      | stop acts q =>
        rw [hs] at hcomp
        have harr := h.last (.inr hs) hcomp (by simpa using hbuf)
        simp only [executeLoop,hs]
        obtain ⟨m',hrun,hc | hc⟩ | ⟨r,hrun,hcut⟩ := harr
        · rw [hrun]
          exact .inr ⟨rfl,.inr ⟨trivial,hc⟩⟩
        · rw [hrun]
          exact .inl hc
        · rw [hrun]
          exact .inl hcut
      | next acts q =>
        rw [hs] at hcomp
        have harr := h.last (.inl hs) hcomp (by simpa using hbuf)
        obtain ⟨m',hrun,hc⟩ | ⟨r,hrun,hcut⟩ := harr
        · have hmark := (step_turn hs).completes_mark hcomp h.fits hrun
          simp only [executeLoop,hs,hrun,flushMark,Marked.push,hmark,Option.map_none]
          rcases hc with hc | hc
          · exact .inr ⟨rfl,.inr ⟨trivial,hc⟩⟩
          · exact .inl hc
        · simp only [executeLoop,hs,hrun]
          exact .inl hcut
    · obtain ⟨m',hrun,hread,hsafe,hrests,hstage⟩ | ⟨r,hrun,hcut⟩ :=
        h.step hs hcomp hwhole (by omega)
      · have hfit := (step_turn hs).fits h.fits hrun
        have hlen : (m'.push ch).length ≤ m.length + 1 :=
          (m'.length_push ch).trans (Nat.add_le_add_right (runActs_length hrun) 1)
        have hrest := ih (p := q) (m := m'.push ch) (pos + 1)
          ⟨hfit,hrests,(step_errno hs).trans h.errno,hread,hwhole,hsafe,(h.tallied_step hs).1 m' hrun,
            h.total_next hs,hstage hfit⟩ (by omega)
        rw [Nat.add_assoc,Nat.add_comm 1] at hrest
        simpa only [executeLoop,hs,hrun,List.length_cons] using hrest
      · simp only [executeLoop,hs,hrun]
        exact .inl hcut

end Bytes

section Reads

variable {g : Globals} {v : Verdict} {length : ℕ} {body : Bytes}

theorem Received.between {p : HttpParser} {t : Tally} {l : Intake} {k : Option (Mark × Bytes)}
    {rest : Bytes} (h : Received g v length body p t ⟨l,k⟩ rest) (q : HttpParser) :
    Received g v length body p t
      ⟨{ l with client := { l.client with httpParser := q, complete := false } },k⟩ rest where
  fits := h.fits
  rests := h.rests
  errno := h.errno
  reading := ⟨rfl,h.reading.upgrade,h.reading.aborted,h.reading.good⟩
  whole := h.whole
  safe := h.safe
  tallied := ⟨h.tallied.current,h.tallied.idle⟩
  total := h.total
  stage := by
    cases h.stage with
    | head h1 h2 h3 h4 h5 h6 h7 h8 => exact .head h1 h2 h3 h4 h5 h6 h7 h8
    | body h1 h2 h3 h4 h5 h6 h7 h8 h9 => exact .body h1 h2 h3 h4 h5 h6 h7 h8 h9

/-- The first byte of a message that is none of a line end begins the request. -/
theorem executeLoop_begun {a b : Bytes} {p : HttpParser} {c : Client} (pos : ℕ)
    (hp : p.state = .sStartReq) (ha : beginsRequest a) (h : wholeMessage p (a ++ b)) :
    (executeLoop (settings g) p ⟨c,none⟩ pos a).2.1.currentReq.isSome := by
  induction a generalizing p pos with
  | nil =>
    obtain ⟨x,hx,-⟩ := ha
    cases hx
  | cons ch rest ih =>
    by_cases hch : ch = CR ∨ ch = LF
    · obtain ⟨x,hx,hx'⟩ := ha
      have hrest : x ∈ rest := (List.mem_cons.mp hx).resolve_left fun he => hx' (he ▸ hch)
      obtain ⟨hcomp,-⟩ | ⟨acts,q,hs,-,hwhole⟩ := wholeMessage_cons h
      · obtain hs | hs := step_lineEnd hp hch <;> rw [hs] at hcomp <;> cases hcomp
      · obtain hs' | hs' := step_lineEnd hp hch
        · obtain ⟨rfl,rfl⟩ := Step.next.inj (hs'.symm.trans hs)
          simp only [executeLoop,hs]
          exact ih (pos + 1) hp ⟨x,hrest,hx'⟩ hwhole
        · rw [hs] at hs'
          cases hs'
    · have hb := step_begins hp hch
      obtain ⟨hcomp,-⟩ | ⟨acts,q,hs,-,-⟩ := wholeMessage_cons h
      · cases hs : step p ch with
        | next acts q =>
          rw [hs] at hb hcomp
          cases hb
          cases hcomp
        | stop acts q => rw [hs] at hb; cases hb
        | bail q => rw [hs] at hb; cases hb
        | error q => rw [hs] at hcomp; cases hcomp
      · rw [hs] at hb
        cases hb
        simp only [executeLoop,hs]
        exact executeLoop_invariant (I := fun c : Client => (c.currentReq.isSome : Prop))
          onNotify_current onData_current _ _ _ _ rfl

/-- A read that leaves a request pending has found nothing wrong with it. -/
theorem parsedRequest_pending {n : ℕ} {c c' : Client} {nread : ℤ} {w w' : World}
    (h : parsedRequest n c nread w = .ret (.pending,c') w') : c.complete = false ∧
      ∃ r, c.currentReq = some r ∧ (c.upgrade ∨ r.badRequestCode = 0) := by
  have herr : ∀ code, setReadError c code w ≠ .ret (.pending,c') w' := fun code he =>
    (setReadError_refuses he).1 rfl
  have hfin : parserFinish c w = .ret (.pending,c') w' → c.complete = false := by
    intro hf
    simp only [parserFinish,Action.pure_apply,Run.ret.injEq,Prod.mk.injEq] at hf
    cases hc : c.complete with
    | false => rfl
    | true =>
      rw [hc] at hf
      cases hf.1.1
  unfold parsedRequest at h
  cases hcur : c.currentReq with
  | none =>
    simp only [hcur] at h
    split at h
    · cases h
    · exact absurd h (herr _)
  | some r =>
    simp only [hcur] at h
    split at h
    next hu =>
      split at h
      · exact ⟨hfin h,r,rfl,.inl hu⟩
      · exact absurd h (herr _)
    next hu =>
      split at h
      · exact absurd h (herr _)
      next hn =>
        refine ⟨hfin h,r,rfl,.inr ?_⟩
        by_contra hne
        exact hn (.inr (Nat.pos_of_ne_zero hne))

/-- A reception that is cut off is not pending. -/
theorem CutOff.not_pending {l : Intake} (h : CutOff g v length body l)
    (hab : l.client.aborted = false) {n : ℕ} {nread : ℤ} {c' : Client} {w w' : World} :
    parsedRequest n l.client nread w ≠ .ret (.pending,c') w' := by
  intro hp
  obtain ⟨hcomp,r,hr,hup⟩ := parsedRequest_pending hp
  cases h with
  | refused hf hu _ _ =>
    obtain ha | ⟨s,hs,hcode⟩ := hf
    · rw [hab] at ha
      cases ha
    · cases hr.symm.trans hs
      rcases hup with h1 | h1
      · rw [hu] at h1
        cases h1
      · rw [h1] at hcode
        rcases hcode with h2 | h2 <;> cases h2
  | tooLong _ _ hu hs hcode _ _ =>
    cases hr.symm.trans hs
    rcases hup with h1 | h1
    · rw [hu] at h1
      cases h1
    · rw [hcode] at h1
      cases h1
  | broken _ _ hend _ _ _ =>
    rcases hend with h1 | h1
    · rw [hab] at h1
      cases h1
    · rw [hcomp] at h1
      cases h1

theorem Intake.read_eq {l : Intake} {data : Bytes} (herr : l.client.httpParser.httpErrno = .OK)
    (hdata : data ≠ []) : ∃ q e n,
      executeLoop (noting g) l.client.httpParser ⟨{ l with client := l.client.entering },
        entryMark l.client.httpParser.state⟩ 0 data = (q,e,n) ∧
      l.read g data = { e with client := { e.client with httpParser := q } } ∧
      executeParse g l.client data = ((l.read g data).client,n) := by
  have hexec : ∀ {σ : Type} (cb : Settings σ) (d : σ), httpParserExecute cb l.client.httpParser d data =
      executeLoop cb l.client.httpParser ⟨d,entryMark l.client.httpParser.state⟩ 0 data := by
    intro σ cb d
    unfold httpParserExecute
    rw [if_neg (by simp [herr]),if_neg hdata]
  have hover := executeLoop_over (noting_over g) data l.client.httpParser
    { l with client := l.client.entering } (entryMark l.client.httpParser.state) 0
  refine ⟨_,_,_,rfl,?_,?_⟩
  · unfold Intake.read
    rw [hexec]
  · unfold executeParse Intake.read
    rw [hexec,hexec]
    simp only [show { l.client with complete := false } = l.client.entering from rfl,hover]

/-- A client between two reads of a message, of which `rest` is missing. -/
def Intake.Awaits (g : Globals) (v : Verdict) (length : ℕ) (body : Bytes) (l : Intake)
    (rest : Bytes) : Prop :=
  ∃ t, Received g v length body l.client.httpParser t
    ⟨{ l with client := l.client.entering },entryMark l.client.httpParser.state⟩ rest

/-- What comes of a reception. -/
def Reception.Outcome (g : Globals) (v : Verdict) (length : ℕ) (body : Bytes) (r : Reception) : Prop :=
  ∃ n nread, r.answer = (if r.last.client.aborted then die .crash
      else parsedRequest n r.last.client nread) ⟨[],[],0⟩ ∧
    (CutOff g v length body r.last ∨ nread = n ∧ Complete g v length body r.last)

/-- One read of a message. -/
theorem Intake.Awaits.read {l : Intake} {a b : Bytes} (h : l.Awaits g v length body (a ++ b))
    (ha : a ≠ []) (hlen : a.length ≤ READ_BUF_SIZE)
    (hbegin : l.client.currentReq.isSome ∨ l.client.httpParser.state = .sStartReq ∧ beginsRequest a) :
    ∃ n, executeParse g l.client a = ((l.read g a).client,n) ∧
      (CutOff g v length body (l.read g a) ∨
        n = a.length ∧
          (b ≠ [] ∧ (l.read g a).Awaits g v length body b ∧ (l.read g a).client.Reading ∧
            (l.read g a).client.currentReq.isSome ∨
            b = [] ∧ Complete g v length body (l.read g a))) := by
  obtain ⟨t,h⟩ := h
  obtain ⟨q,e,n,hloop,hread,hexec⟩ := Intake.read_eq (g := g) h.errno ha
  have hsmall : READ_BUF_SIZE < 2 ^ 31 := by decide
  have hres := received_loop (a := a) (b := b) 0 h (by rw [entryMark_length]; omega)
  rw [hloop,Nat.zero_add] at hres
  refine ⟨n,hexec,?_⟩
  rw [hread]
  obtain hcut | ⟨hn,⟨hb,t',hrec⟩ | ⟨hb,hdone⟩⟩ := hres
  · left
    cases hcut with
    | refused h1 h2 h3 h4 => exact .refused h1 h2 h3 h4
    | tooLong h1 h2 h3 h4 h5 h6 h7 => exact .tooLong h1 h2 h3 h4 h5 h6 h7
    | broken h1 h2 h3 h4 h5 h6 => exact .broken h1 h2 h3 h4 h5 h6
  · refine .inr ⟨hn,.inl ⟨hb,⟨t',hrec.between q⟩,⟨hrec.reading.complete,hrec.reading.upgrade,
      hrec.reading.aborted,hrec.reading.good⟩,?_⟩⟩
    have hover := executeLoop_over (noting_over g) a l.client.httpParser
      { l with client := l.client.entering } (entryMark l.client.httpParser.state) 0
    rw [hloop] at hover
    have hsome : (executeLoop (settings g) l.client.httpParser ⟨l.client.entering,
        entryMark l.client.httpParser.state⟩ 0 a).2.1.currentReq.isSome := by
      rcases hbegin with hcur | ⟨hst,hbeg⟩
      · exact executeLoop_invariant (I := fun c : Client => (c.currentReq.isSome : Prop))
          onNotify_current onData_current _ _ _ _ hcur
      · rw [hst]
        exact executeLoop_begun 0 hst hbeg h.whole
    rw [hover] at hsome
    exact hsome
  · exact .inr ⟨hn,.inr ⟨hb,hdone.1,hdone.2,hdone.3,hdone.4,hdone.5,hdone.6⟩⟩

theorem Intake.receive_cons_of_pending {l : Intake} {a : Bytes} {rest : List Bytes} {c' : Client}
    {w' : World} (h : parseHttpRequest g l.client a ⟨[],[],0⟩ = .ret (.pending,c') w') :
    l.receive g (a :: rest) = (l.read g a).receive g rest := by
  simp only [Intake.receive,h]

theorem Intake.receive_cons {l : Intake} {a : Bytes} {rest : List Bytes}
    (h : ∀ c' w', parseHttpRequest g l.client a ⟨[],[],0⟩ ≠ .ret (.pending,c') w') :
    l.receive g (a :: rest) = ⟨parseHttpRequest g l.client a ⟨[],[],0⟩,l.read g a⟩ := by
  unfold Intake.receive
  cases hx : parseHttpRequest g l.client a ⟨[],[],0⟩ with
  | stop s w => rfl
  | ret r w =>
    obtain ⟨e,c⟩ := r
    cases e with
    | pending => exact absurd hx (h c w)
    | finish => rfl
    | closed => rfl

theorem Intake.Awaits.receive {pieces : List Bytes} {l : Intake}
    (h : l.Awaits g v length body pieces.flatten)
    (hne : ∀ piece ∈ pieces, piece ≠ [] ∧ piece.length ≤ READ_BUF_SIZE)
    (hbegin : l.client.currentReq.isSome ∨
      l.client.httpParser.state = .sStartReq ∧ beginsRequest (pieces.headD [])) :
    (l.receive g pieces).Outcome g v length body := by
  induction pieces generalizing l with
  | nil =>
    obtain ⟨t,h⟩ := h
    cases h.whole
  | cons a rest ih =>
    obtain ⟨⟨ha,hlen⟩,hrest⟩ := List.forall_mem_cons.mp hne
    rw [List.flatten_cons] at h
    obtain ⟨n,hexec,hres⟩ := h.read ha hlen (by simpa using hbegin)
    have hparse : parseHttpRequest g l.client a ⟨[],[],0⟩ = (if (l.read g a).client.aborted then
        die .crash else parsedRequest a.length (l.read g a).client n) ⟨[],[],0⟩ := by
      unfold parseHttpRequest
      rw [hexec]
    by_cases hpend : ∃ c' w', parseHttpRequest g l.client a ⟨[],[],0⟩ = .ret (.pending,c') w'
    · obtain ⟨c',w',hpend⟩ := hpend
      rw [Intake.receive_cons_of_pending hpend]
      rw [hparse] at hpend
      have hab : (l.read g a).client.aborted = false := by
        by_contra hab
        rw [if_pos (by simpa using hab)] at hpend
        cases hpend
      rw [hab] at hpend
      simp only [Bool.false_eq_true,if_false] at hpend
      obtain hcut | ⟨-,⟨-,haw,-,hsome⟩ | ⟨-,hdone⟩⟩ := hres
      · exact absurd hpend (hcut.not_pending hab)
      · exact ih haw hrest (.inl hsome)
      · have hcomp := (parsedRequest_pending hpend).1
        rw [hdone.complete] at hcomp
        cases hcomp
    · rw [Intake.receive_cons fun c' w' hc => hpend ⟨c',w',hc⟩]
      refine ⟨a.length,n,hparse,?_⟩
      obtain hcut | ⟨hn,⟨-,-,hread,hsome⟩ | ⟨-,hdone⟩⟩ := hres
      · exact .inl hcut
      · -- a request that is not complete is pending
        obtain ⟨r,hr⟩ := Option.isSome_iff_exists.mp hsome
        refine absurd ⟨(l.read g a).client,⟨[],[],0⟩,?_⟩ hpend
        rw [hparse,if_neg (by simp [hread.aborted]),parsedRequest_eq hr (hread.good r hr)
          (by simp [hread.upgrade,hn]),hread.complete]
        rfl
      · exact .inr ⟨hn,hdone⟩

theorem setReadError_code {c : Client} {r : Request} {code : ℕ} (w : World) (hr : c.currentReq = some r)
    (hcode : code ≠ 0) : ∃ c' req, setReadError c code w = .ret (.finish,c') w ∧
      c'.currentReq = some req ∧ req.badRequestCode = code := by
  have hq : Client.queue { c with keepAlive := false } ≠ [] := by
    simp [Client.queue,hr]
  refine ⟨setBadRequestCode { c with keepAlive := false } code,{ r with badRequestCode := code },?_,?_,rfl⟩
  · unfold setReadError
    simp only [hcode,if_false]
    rw [if_pos hq]
    rfl
  · simp [setBadRequestCode,hr]

theorem parsedRequest_code {c : Client} {r : Request} (n : ℕ) (nread : ℤ) (w : World)
    (hr : c.currentReq = some r) (hu : c.upgrade = false) (hcode : r.badRequestCode ≠ 0) :
    ∃ c' req, parsedRequest n c nread w = .ret (.finish,c') w ∧ c'.currentReq = some req ∧
      req.badRequestCode = r.badRequestCode := by
  obtain ⟨c',req,hset,hreq⟩ := setReadError_code w hr hcode
  refine ⟨c',req,?_,hreq⟩
  unfold parsedRequest
  simp only [hr,hu,Bool.false_eq_true,if_false]
  rw [if_pos (.inr (Nat.pos_of_ne_zero hcode)),hset]

theorem Client.Refused.answer {c c' : Client} {n : ℕ} {nread : ℤ} {w w' : World} {req : Request}
    (h : c.Refused) (hu : c.upgrade = false)
    (hans : (if c.aborted then die .crash else parsedRequest n c nread) w = .ret (.finish,c') w')
    (hreq : c'.currentReq = some req) : req.badRequestCode = 400 ∨ req.badRequestCode = 500 := by
  cases hab : c.aborted with
  | true =>
    rw [hab] at hans
    cases hans
  | false =>
    rw [hab,if_neg (by simp)] at hans
    obtain ha | ⟨r,hr,hcode⟩ := h
    · rw [hab] at ha
      cases ha
    · obtain ⟨c1,s,hparse,hs,hsame⟩ := parsedRequest_code n nread w hr hu (by omega)
      cases hparse.symm.trans hans
      cases hs.symm.trans hreq
      rwa [hsame]

theorem Request.Holds.content {r : Request} (h : r.Holds g body)
    (hlen : body = [] ∨ r.bodyLength = 0 ∨ body.length = r.bodyLength) :
    r.body.content.getD [] = body ↔ r.bodyLength ≤ g.clientBodyBufferSize → body.length ≤ LIMIT_MAX := by
  obtain ⟨-,-,hbody⟩ := h
  cases hr : r.body with
  | none =>
    rw [hr] at hbody
    simp only at hbody
    simp [hbody,Body.content]
  | tmpfile content =>
    rw [hr] at hbody
    obtain ⟨hlt,-,rfl⟩ := hbody
    simp only [Body.content,Option.getD_some,true_iff]
    omega
  | buffer b =>
    rw [hr] at hbody
    obtain ⟨hle,-,⟨-,hb,hbuf⟩ | ⟨-,hbig,heq,hlt⟩⟩ := hbody
    · simp only [Body.content,Option.getD_some,hle,true_imp_iff]
      refine ⟨fun heq => ?_,hbuf⟩
      rw [← heq]
      exact hb
    · rcases hlen with h0 | h0 | h0
      · subst h0
        simp [Body.content,heq]
      · omega
      · omega

/-- A reception that is cut off: a line is refused, the body is too long, or an absent file or too
small a buffer is used. -/
theorem CutOff.faithful {r : Reception} {n : ℕ} {nread : ℤ} (h : CutOff g v length body r.last)
    (hans : r.answer = (if r.last.client.aborted then die .crash
      else parsedRequest n r.last.client nread) ⟨[],[],0⟩) :
    Faithful g body r ↔ if v.head then body.length ≤ g.maxContentLength
      else length = 0 ∧ v.all ∨ Admits g length body := by
  cases h with
  | refused hf hup hsafe hv =>
    have hanswer : ∀ c w req, r.answer = .ret (.finish,c) w → c.currentReq = some req →
        req.badRequestCode = 400 ∨ req.badRequestCode = 500 := fun c w req hfin =>
      hf.answer hup (hans.symm.trans hfin)
    have hfaith : body.length ≤ g.maxContentLength → Faithful g body r := fun hmax =>
      ⟨fun c w req hfin hreq hcode => absurd (hanswer c w req hfin hreq) (by omega),
        fun hover => absurd hover (Nat.not_lt.mpr hmax),hsafe⟩
    rcases hv with hv | ⟨hv,hall,h0,hmax⟩
    · rw [if_pos hv]
      refine ⟨fun hF => ?_,hfaith⟩
      by_contra hover
      obtain ⟨c,w,req,hfin,hreq,h413⟩ := hF.tooLong (Nat.not_le.mp hover)
      have := hanswer c w req hfin hreq
      omega
    · rw [if_neg (by simp [hv])]
      exact iff_of_true (hfaith hmax) (.inl ⟨h0,hall⟩)
  | tooLong hv hab hup hreq hcode hlen hsafe =>
    rw [if_neg (by simp [hv])]
    obtain ⟨c',s,hparse,hs,h413⟩ := parsedRequest_code n nread ⟨[],[],0⟩ hreq hup
      (by rw [hcode]; decide)
    rw [hcode] at h413
    have hans' : r.answer = .ret (.finish,c') ⟨[],[],0⟩ := by
      rw [hans,if_neg (by simp [hab]),hparse]
    refine iff_of_true ⟨fun c w req hfin hreq hcode => ?_,
      fun _ => ⟨c',_,s,hans',hs,h413⟩,hsafe⟩ (.inr fun h1 h2 => ?_)
    · rw [hans'] at hfin
      cases hfin
      cases hs.symm.trans hreq
      rw [h413] at hcode
      cases hcode
    · omega
  | broken hv hne _ hadm hmem hun =>
    rw [if_neg (by simp [hv])]
    refine iff_of_false (fun hf => ?_) ?_
    · rw [hf.safe _ hmem] at hun
      cases hun
    · rintro (⟨h1,-⟩ | h1)
      · exact hne h1
      · exact hadm h1

/-- A reception of a complete message. -/
theorem Complete.faithful {r : Reception} {n : ℕ} (h : Complete g v length body r.last)
    (hans : r.answer = (if r.last.client.aborted then die .crash
      else parsedRequest n r.last.client n) ⟨[],[],0⟩) :
    Faithful g body r ↔ if v.head then body.length ≤ g.maxContentLength
      else length = 0 ∧ v.all ∨ Admits g length body := by
  obtain ⟨hhead,hall,hab,hcomp,hsafe,req,hreq,hcode,hholds,hlen⟩ := h
  have hmax := hholds.max
  have hcontent := hholds.content (by
    rcases hlen with h1 | ⟨h1,-,-,h2⟩
    · exact .inl h1
    · exact .inr (h1 ▸ h2))
  rw [hhead,hall]
  simp only [Bool.false_eq_true,if_false,and_false,false_or]
  constructor
  · intro hf hlmax _
    rcases hlen with rfl | ⟨hl,-,hup,h2⟩
    · exact ⟨fun h0 => absurd rfl h0,fun _ => Nat.zero_le _⟩
    · refine ⟨fun hne hlt => ?_,fun hle => ?_⟩
      · have hbody := hholds.body
        cases hr : req.body with
        | none =>
          rw [hr] at hbody
          exact absurd hbody hne
        | tmpfile content =>
          rw [hr] at hbody
          exact hbody.2.1
        | buffer b =>
          rw [hr,hl] at hbody
          exact absurd hlt (Nat.not_lt.mpr hbody.1)
      · refine hcontent.mp (hf.dispatched r.last.client ⟨[],[],0⟩ req ?_ hreq hcode).1 (hl ▸ hle)
        rw [hans,if_neg (by simp [hab]),parsedRequest_eq hreq hcode (by simp [hup]),if_pos hcomp]
  · intro hadm
    refine ⟨fun c w req' hfin hreq' hcode' => ⟨?_,hmax⟩,fun hover => absurd hmax (by omega),hsafe⟩
    rw [hans,if_neg (by simp [hab])] at hfin
    obtain ⟨rfl,-,-⟩ := parsedRequest_accepted hfin hreq' hcode'
    cases hreq.symm.trans hreq'
    refine hcontent.mpr fun hle => ?_
    rcases hlen with rfl | ⟨hl,hlm,-,-⟩
    · exact Nat.zero_le _
    · exact (hadm hlm hmax).2 (hl ▸ hle)

/-- What a reception comes to, by how it ends. -/
theorem Reception.Outcome.faithful {r : Reception} (h : r.Outcome g v length body) :
    Faithful g body r ↔ if v.head then body.length ≤ g.maxContentLength
      else length = 0 ∧ v.all ∨ Admits g length body := by
  obtain ⟨n,nread,hans,hcut | ⟨rfl,hdone⟩⟩ := h
  · exact hcut.faithful hans
  · exact hdone.faithful hans

end Reads

theorem idleClient_awaits {g : Globals} {port : ℕ} {keepAlive : Bool} {data : Bytes}
    (h : wholeMessage {} data) : Intake.Awaits g ⟨headRefused data,(Tally.total {} {} data).refused⟩
      (declaredLength {} data) (payload {} data) { client := idleClient port keepAlive } data :=
  ⟨{},{
    fits := .inl rfl
    rests := rfl
    errno := rfl
    reading := ⟨rfl,rfl,rfl,fun r hr => by cases hr⟩
    whole := h
    safe := fun call hcall => by cases hcall
    tallied := ⟨fun r hr => (by cases hr),fun _ => ⟨rfl,rfl⟩⟩
    total := rfl
    stage := .head rfl rfl (fun hne => absurd rfl hne) rfl rfl rfl (fun r hr => by cases hr)
      fun hne => absurd rfl hne }⟩

/-- A request arrives with its body, however it is cut: when a line of its head is refused, exactly
when the body is not over the limit, and otherwise exactly when a line of its trailer is refused or
there is room for the body. -/
theorem faithful_iff (g : Globals) (port : ℕ) (keepAlive : Bool) {data : Bytes}
    (hwhole : wholeMessage {} data) {pieces : List Bytes} (hcut : pieces.flatten = data)
    (hne : ∀ piece ∈ pieces, piece ≠ [] ∧ piece.length ≤ READ_BUF_SIZE)
    (hbegin : beginsRequest (pieces.headD [])) :
    Faithful g (payload {} data)
        (Intake.receive g { client := idleClient port keepAlive } pieces) ↔
      if headRefused data then (payload {} data).length ≤ g.maxContentLength
      else declaredLength {} data = 0 ∧ trailerRefused data ∨
        Admits g (declaredLength {} data) (payload {} data) := by
  subst hcut
  refine ((idleClient_awaits hwhole).receive hne (.inr ⟨rfl,hbegin⟩)).faithful.trans ?_
  unfold trailerRefused
  cases headRefused pieces.flatten <;> simp

def postTwo : Bytes := ascii "POST / HTTP/1.1\nContent-Length:2\n\nab"

def postChunks : List Bytes := [ascii "POST / HTTP/1.1\nTransfer-Enc",ascii "oding:chunked\n\n3\r\nab",
  ascii "c\r\n2\r\nde\r\n0\r\n\r\n"]

/-- A body of a declared length that goes to a file, and one in chunks over three reads that is kept
in memory. -/
theorem faithful_postTwo_chunks :
    Faithful { clientBodyBufferSize := 1, tmpfile := true } (payload {} postTwo)
      (Intake.receive { clientBodyBufferSize := 1, tmpfile := true }
        { client := idleClient 80 false } [postTwo]) ∧
    Faithful { maxContentLength := 5, tmpfile := false } (payload {} postChunks.flatten)
      (Intake.receive { maxContentLength := 5, tmpfile := false }
        { client := idleClient 80 true } postChunks) := by
  refine ⟨(faithful_iff _ 80 false (by decide +kernel) (by decide +kernel) (by decide +kernel)
      (by unfold beginsRequest; decide +kernel)).mpr ?_,
    (faithful_iff _ 80 true (by decide +kernel) rfl (by decide +kernel)
      (by unfold beginsRequest; decide +kernel)).mpr ?_⟩
  · rw [if_neg (by decide +kernel)]
    exact .inr fun _ _ => ⟨fun _ _ => rfl,fun _ => by decide +kernel⟩
  · rw [if_neg (by decide +kernel)]
    exact .inr fun _ _ => ⟨fun _ hlt => absurd hlt (by decide +kernel),fun _ => by decide +kernel⟩

/-- Without a temporary file the two bytes are written to none. -/
theorem not_faithful_postTwo : wholeMessage {} postTwo ∧
    ¬Faithful { clientBodyBufferSize := 1, tmpfile := false } (payload {} postTwo)
      (Intake.receive { clientBodyBufferSize := 1, tmpfile := false }
        { client := idleClient 80 false } [postTwo]) := by
  refine ⟨by decide +kernel,fun h => ?_⟩
  have hbad : (Intake.receive { clientBodyBufferSize := 1, tmpfile := false }
      { client := idleClient 80 false } [postTwo]).last.calls.all
        (BodyCall.safe { clientBodyBufferSize := 1, tmpfile := false }) = false := by decide +kernel
  rw [List.all_eq_true.mpr h.safe] at hbad
  cases hbad

end Meinheld
