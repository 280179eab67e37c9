import Meinheld.Ledgers

/-! The bytes `write_bytes` counts for a request, against the body bytes the socket has accepted for
it. -/
namespace Meinheld

/-! ### The audited response -/

/-- `writev_bucket` on a new bucket. -/
def writevAudit (b : WriteBucket) : Audited Ledger (ResponseStatus × WriteBucket) :=
  audit (writevBucket b) fun k r l => (l.take k b.iov).settle ⟨b,k⟩ false r.1

/-- `writev_bucket` on the bucket that waits. -/
def retryAudit (b : WriteBucket) : Audited Ledger (ResponseStatus × WriteBucket) :=
  audit (writevBucket b) fun k r l => (l.take k b.iov).retry k r.1

def writeHeadAudit (c : Client) (b : WriteBucket) (data : Option Bytes) :
    Audited Ledger (ResponseStatus × Client) := do
  let r ← writevAudit (setFirstBodyData c b data)
  match r.1 with
  | .SUSPEND => pure (.SUSPEND,{ c with bucket := some r.2 })
  | .ERROR => pure (.ERROR,{ c with headerDone := true, bucket := none })
  | .OK => pure (.OK,{ c with
      headerDone := true
      bucket := none
      writeBytes := c.writeBytes + (data.map List.length).getD 0 })

def writeHeadersAudit (g : Globals) (c : Client) (data : Option Bytes) (isFile : Option ℕ) :
    Audited Ledger (ResponseStatus × Client) :=
  if c.headerDone then pure (.OK,c)
  else match c.headers with
    | none => pure (.ERROR,c)
    | some headers =>
      match buildHead g c headers data isFile with
      | .error c => pure (.ERROR,c)
      | .crash => unaudited (die .crash)
      | .ok c b => writeHeadAudit c b data

/-- `process_sendfile`: all it sends is body. -/
def processSendfileAudit (c : Client) (rest : Bytes) : Audited Ledger (ResponseStatus × Client) :=
  audit (processSendfile c rest) fun k _ l => { l with body := l.body + k }

def processItemsAudit : List Item → Client → Audited Ledger (ResponseStatus × Client)
  | [], c => pure (.OK,{ c with responseIter := some [] })
  | .raise :: _, c => pure (.ERROR,{ c with responseIter := some [] })
  | .other :: items, c => pure (.ERROR,{ c with responseIter := some items, statusCode := 500 })
  | .bytes buf :: items, c => do
    let r ← writevAudit (itemBucket c buf)
    let c := { c with responseIter := some items }
    match r.1 with
    | .OK =>
      let c := { c with writeBytes := c.writeBytes + buf.length }
      if c.contentLengthSet ∧ c.contentLength ≤ c.writeBytes then pure (.OK,c)
      else processItemsAudit items c
    | s => pure (s,{ c with bucket := some r.2 })

/-- `process_write`. The last chunk holds no item. -/
def processWriteAudit (c : Client) : Audited Ledger (ResponseStatus × Client) :=
  match c.responseIter with
  | none => pure (.OK,c)
  | some items => processItemsAudit items c >>= fun r => unaudited (finishWrite r)

def processRestAudit (c : Client) : Audited Ledger (ResponseStatus × Client) :=
  match c.response with
  | none => unaudited (die .crash)
  | some r =>
    match r.kind with
    | .file _ rest => processSendfileAudit c rest
    | _ => processWriteAudit c

def processBodyAudit (c : Client) : Audited Ledger (ResponseStatus × Client) :=
  match c.bucket with
  | none => processRestAudit c
  | some b => do
    let r ← retryAudit b
    match r.1 with
    | .OK => processRestAudit { c with writeBytes := c.writeBytes + r.2.totalSize, bucket := none }
    | .ERROR => pure (.ERROR,{ c with bucket := none })
    | .SUSPEND => pure (.SUSPEND,{ c with bucket := some r.2 })

def startResponseFileAudit (g : Globals) (c : Client) (size : ℕ) :
    Audited Ledger (ResponseStatus × Client) := do
  let r ← writeHeadersAudit g c none (some size)
  pure (r.1,if r.2.contentLengthSet then r.2
    else { r.2 with contentLengthSet := true, contentLength := intToSize size })

def startResponseWriteAudit (g : Globals) (c : Client) (r : Response) :
    Audited Ledger (ResponseStatus × Client) :=
  match r.kind with
  | .iter [] => writeHeadersAudit g { c with responseIter := some [] } none none
  | .iter (.bytes buf :: items) => do
    let s ← writeHeadersAudit g { c with responseIter := some items } (some buf) none
    pure (s.1,releaseItem r s.2)
  | .iter (_ :: items) => pure (.ERROR,{ c with responseIter := some items })
  | _ => pure (.ERROR,c)

def responseStartAudit (g : Globals) (c : Client) : Audited Ledger (ResponseStatus × Client) :=
  match c.response with
  | none => unaudited (die .crash)
  | some r =>
    if c.statusCode = 304 then writeHeadersAudit g c none none
    else match r.kind with
      | .file size rest => do
        let s ← startResponseFileAudit g c size
        if s.1 = .OK then processSendfileAudit s.2 rest else pure s
      | _ => do
        let s ← startResponseWriteAudit g c r
        if s.1 = .OK then processWriteAudit s.2 else pure s

def appLoopAudit : ℕ → ResponseStatus → Client → Audited Ledger (ResponseStatus × Client)
  | 0, .SUSPEND, _ => unaudited (die .pending)
  | fuel + 1, .SUSPEND, c => do
    let r ← processBodyAudit c
    appLoopAudit fuel r.1 r.2
  | _, s, c => pure (s,c)

def writeResponseAudit (g : Globals) (c : Client) : Audited Ledger (ResponseStatus × Client) := fun l w =>
  (do
    let s ← responseStartAudit g c
    appLoopAudit (w.outcomes.length + 1) s.1 s.2) l w

def sendErrorPageAudit (c : Client) : Audited Ledger Client :=
  if c.headerDone ∨ c.responseClosed then pure c
  else audit (sendErrorPage c) fun k _ l => l.page (errorHead c.statusCode).length k

def appErrorAudit (c : Client) : Audited Ledger Client := do
  let r ← unaudited (closeResponse { c with statusCode := 500 })
  sendErrorPageAudit r.2

def respondAudit (g : Globals) (c : Client) : Audited Ledger Client := do
  let r ← writeResponseAudit g c
  match r.1 with
  | .ERROR => appErrorAudit r.2
  | _ => do
    let r ← unaudited (closeResponse r.2)
    pure r.2

def appHandlerAudit (g : Globals) (app : AppRun) (c : Client) : Audited Ledger Client := do
  let c ← unaudited (appCalls app.calls c)
  let c := { c with responseClosed := app.setClosed.getD c.responseClosed }
  match app.result with
  | .raise | .none => appErrorAudit c
  | .ret r =>
    let c := { c with response := some r }
    if c.responseClosed then pure c else respondAudit g c

/-- `check_http_expect`; the line it may send is no body. -/
def checkHttpExpectAudit (c : Client) : Audited Ledger (Bool × Client) := fun l w =>
  if c.httpParser.httpMinor = 1 then
    match c.currentReq.bind (·.environ.get? (ascii "HTTP_EXPECT")) with
    | none => .ret ((true,c),l) w
    | some val =>
      if expectsContinue val then
        match w.outcomes with
        | [] => .stop .pending w
        | .count n :: os =>
          .ret ((true,c),l)
            ({ w with outcomes := os }.send ((ascii "HTTP/1.1 100 Continue\r\n\r\n").take (n + 1)))
        | _ :: os =>
          (do let c ← sendErrorPageAudit { c with keepAlive := false, statusCode := 500 }
              pure (false,c) : Audited Ledger (Bool × Client)) l { w with outcomes := os }
      else
        (do let c ← sendErrorPageAudit { c with keepAlive := false, statusCode := 417 }
            pure (false,c) : Audited Ledger (Bool × Client)) l w
  else .ret ((true,c),l) w

def prepareCallWsgiAudit (g : Globals) (c : Client) : Audited Ledger (Bool × Client) := do
  let r ← checkHttpExpectAudit c
  if r.1 then pure (true,{ r.2 with keepAlive := r.2.keepAlive && g.isKeepAlive }) else pure r

def handleRequestAudit (g : Globals) (req : Request) (app : AppRun) (c : Client) :
    Audited Ledger (Bool × Client) := do
  let c := { c with currentReq := some req }
  if req.badRequestCode > 200 then
    let c ← sendErrorPageAudit { c with statusCode := req.badRequestCode }
    pure (false,c)
  else do
    let r ← prepareCallWsgiAudit g c
    if r.1 then do
      let c ← appHandlerAudit g app r.2
      pure (true,c)
    else pure r

/-! ### The balance -/

/-- `write_bytes` gives the bytes of the ledger, and no bucket waits. -/
def Balanced (c : Client) (l : Ledger) : Prop :=
  l.regular = true → l.waiting = none ∧ c.writeBytes = l.body

/-- What is left of a waiting bucket. -/
structure Waiting.Leaves (t : Waiting) (b : WriteBucket) : Prop where
  iov : b.iov = advance t.accepted t.built.iov
  le : t.accepted ≤ t.built.bytes.length
  totalSize : b.totalSize = t.built.totalSize
  counted : t.built.Counted
  enough : t.built.bytes.length < 2 ^ 32 → b.Enough

/-- The bytes of a waiting bucket are in the ledger and not yet in `write_bytes`. -/
structure Lags (c : Client) (l : Ledger) (t : Waiting) : Prop where
  waiting : l.waiting = some t
  body : c.writeBytes + itemBytes t.accepted t.built.iov = l.body
  bucket : ∃ b, c.bucket = some b ∧ t.Leaves b

/-- Between two calls of `process_body`. -/
def Suspends (c : Client) (l : Ledger) : Prop :=
  l.regular = true → (l.waiting = none ∧ c.writeBytes = l.body) ∨ ∃ t, Lags c l t

def Books (r : ResponseStatus × Client) (l : Ledger) : Prop :=
  if r.1 = .SUSPEND then Suspends r.2 l else Balanced r.2 l

theorem Balanced.suspends {c : Client} {l : Ledger} (h : Balanced c l) : Suspends c l :=
  fun hr => .inl (h hr)

theorem Balanced.of_writeBytes {c c' : Client} {l : Ledger} (h : Balanced c l)
    (hc : c'.writeBytes = c.writeBytes) : Balanced c' l :=
  fun hr => ⟨(h hr).1,hc.trans (h hr).2⟩

theorem Balanced.books {c c' : Client} {l : Ledger} (s : ResponseStatus) (h : Balanced c l)
    (hc : c'.writeBytes = c.writeBytes) : Books (s,c') l := by
  have h' := h.of_writeBytes hc
  unfold Books
  split
  · exact h'.suspends
  · exact h'

theorem Books.of_ok {c : Client} {l : Ledger} (h : Books (.OK,c) l) : Balanced c l := by
  simpa [Books] using h

theorem Books.of_error {c : Client} {l : Ledger} (h : Books (.ERROR,c) l) : Balanced c l := by
  simpa [Books] using h

theorem Books.of_suspend {c : Client} {l : Ledger} (h : Books (.SUSPEND,c) l) : Suspends c l := by
  simpa [Books] using h

/-- A change to fields other than `write_bytes` and the bucket. -/
theorem Suspends.of_eq {c c' : Client} {l : Ledger} (h : Suspends c l)
    (hc : c'.writeBytes = c.writeBytes)
    (hb : ∀ b, c.bucket = some b → ∃ b', c'.bucket = some b' ∧ b'.iov = b.iov ∧
      b'.total = b.total ∧ b'.totalSize = b.totalSize) : Suspends c' l := by
  intro hr
  rcases h hr with ⟨h1,h2⟩ | ⟨t,ht⟩
  · exact .inl ⟨h1,hc.trans h2⟩
  · obtain ⟨b,hbucket,hleaves⟩ := ht.bucket
    obtain ⟨b',hbucket',hiov,htotal,hsize⟩ := hb b hbucket
    refine .inr ⟨t,ht.waiting,by rw [hc]; exact ht.body,b',hbucket',hiov.trans hleaves.iov,
      hleaves.le,hsize.trans hleaves.totalSize,hleaves.counted,fun hlt => ?_⟩
    have he := hleaves.enough hlt
    simpa only [WriteBucket.Enough,WriteBucket.bytes,hiov,htotal] using he

theorem Books.of_eq {c c' : Client} {l : Ledger} {s : ResponseStatus} (h : Books (s,c) l)
    (hc : c'.writeBytes = c.writeBytes)
    (hb : ∀ b, c.bucket = some b → ∃ b', c'.bucket = some b' ∧ b'.iov = b.iov ∧
      b'.total = b.total ∧ b'.totalSize = b.totalSize) : Books (s,c') l := by
  cases s with
  | OK => exact h.of_ok.books .OK hc
  | ERROR => exact h.of_error.books .ERROR hc
  | SUSPEND =>
    have hs := h.of_suspend.of_eq hc hb
    simpa [Books] using hs

/-! ### One write -/

/-- A new bucket has been tried, for a client with `n` bytes counted. -/
structure Tried (n : ℕ) (b : WriteBucket) (r : ResponseStatus × WriteBucket) (l : Ledger) : Prop where
  ok : r.1 = .OK → l.regular = true → l.waiting = none ∧ n + itemSize b.iov = l.body
  error : r.1 = .ERROR → l.regular = true → l.waiting = none ∧ n = l.body
  suspend : r.1 = .SUSPEND → l.regular = true →
    ∃ t, l.waiting = some t ∧ n + itemBytes t.accepted t.built.iov = l.body ∧ t.Leaves r.2

theorem writevAudit_audits {c : Client} {b : WriteBucket} (hb : b.Counted) :
    Audits (Balanced c) (writevAudit b) (writevBucket b) (Tried c.writeBytes b) := by
  refine .audit fun l w r w' hl hw => ?_
  obtain ⟨s,b'⟩ := r
  obtain ⟨k,hsent,hacc⟩ := writevBucketLoop_accepts hw
  have hk : w'.sent.length - w.sent.length = k := by omega
  simp only [hk]
  refine ⟨fun hs hr => ?_,fun hs hr => ?_,fun hs hr => ?_⟩
  · subst hs
    simp only [Ledger.settle,Ledger.take,Bool.and_eq_true,decide_eq_true_eq] at hr ⊢
    obtain ⟨⟨hreg,hlt⟩,-⟩ := hr
    have hall : k = b.bytes.length := hacc.all rfl (hb.enough hlt)
    have hitems : itemBytes k b.iov = itemSize b.iov := itemBytes_all (by rw [hall]; exact le_rfl)
    exact ⟨trivial,by rw [hitems,(hl hreg).2]⟩
  · subst hs
    simp only [Ledger.settle,Ledger.take,Bool.and_eq_true,decide_eq_true_eq] at hr ⊢
    obtain ⟨hreg,hzero⟩ := hr
    exact ⟨trivial,by rw [hzero,(hl hreg).2,Nat.add_zero]⟩
  · subst hs
    simp only [Ledger.settle,Ledger.take] at hr ⊢
    refine ⟨⟨b,k⟩,rfl,by rw [(hl hr).2],hacc.iov rfl,hacc.le,hacc.totalSize,hb,fun hlt => ?_⟩
    exact hacc.enough rfl (hb.enough hlt)

/-- The waiting bucket has been tried again. -/
structure Retried (c : Client) (r : ResponseStatus × WriteBucket) (l : Ledger) : Prop where
  ok : r.1 = .OK → l.regular = true → l.waiting = none ∧ c.writeBytes + r.2.totalSize = l.body
  error : r.1 = .ERROR → l.regular = true → l.waiting = none ∧ c.writeBytes = l.body
  suspend : r.1 = .SUSPEND → l.regular = true →
    ∃ t, l.waiting = some t ∧ c.writeBytes + itemBytes t.accepted t.built.iov = l.body ∧ t.Leaves r.2

theorem retryAudit_audits {c : Client} {b : WriteBucket} (hb : c.bucket = some b) :
    Audits (Suspends c) (retryAudit b) (writevBucket b) (Retried c) := by
  refine .audit fun l w r w' hl hw => ?_
  obtain ⟨s,b'⟩ := r
  obtain ⟨k,hsent,hacc⟩ := writevBucketLoop_accepts hw
  have hk : w'.sent.length - w.sent.length = k := by omega
  simp only [hk]
  cases hwait : l.waiting with
  | none => constructor <;> intro _ hr <;> simp [Ledger.retry,Ledger.take,hwait] at hr
  | some t =>
    have hlag : l.regular = true → Lags c l t := by
      intro hr
      rcases hl hr with ⟨h,-⟩ | ⟨t',ht'⟩
      · simp [hwait] at h
      · have heq : t = t' := Option.some.inj (hwait.symm.trans ht'.waiting)
        exact heq ▸ ht'
    have hleaves : l.regular = true → t.Leaves b := by
      intro hr
      obtain ⟨b1,hb1,h1⟩ := (hlag hr).bucket
      exact Option.some.inj (hb.symm.trans hb1) ▸ h1
    have hitems : l.regular = true → itemBytes (t.accepted + k) t.built.iov =
        itemBytes t.accepted t.built.iov + itemBytes k b.iov := by
      intro hr
      rw [itemBytes_add,(hleaves hr).iov]
    have hlen : l.regular = true → b.bytes.length = t.built.bytes.length - t.accepted := by
      intro hr
      rw [WriteBucket.bytes,(hleaves hr).iov,advance_bytes,List.length_drop]
      rfl
    simp only [Ledger.retry,Ledger.take,hwait]
    refine ⟨fun hs hr => ?_,fun hs hr => ?_,fun hs hr => ?_⟩
    · subst hs
      simp only [Ledger.settle,Bool.and_eq_true,decide_eq_true_eq,Bool.not_true,Bool.false_or]
        at hr ⊢
      obtain ⟨⟨hreg,hlt⟩,hbare⟩ := hr
      have hle := (hleaves hreg).le
      have hall : k = b.bytes.length := hacc.all rfl ((hleaves hreg).enough hlt)
      have htotal : t.accepted + k = t.built.bytes.length := by
        rw [hall,hlen hreg]
        omega
      -- what the ledger has is the whole bucket, which is what `total_size` says
      have hsize : b'.totalSize = itemBytes (t.accepted + k) t.built.iov := by
        rw [itemBytes_all (by rw [htotal]; exact le_rfl),itemSize_bare hbare,hacc.totalSize,
          (hleaves hreg).totalSize,(hleaves hreg).counted.totalSize,Nat.mod_eq_of_lt hlt]
      exact ⟨trivial,by rw [hsize,hitems hreg,← (hlag hreg).body,Nat.add_assoc]⟩
    · subst hs
      simp only [Ledger.settle,Bool.and_eq_true,decide_eq_true_eq] at hr ⊢
      obtain ⟨hreg,hzero⟩ := hr
      have hsum := hitems hreg
      have hbody := (hlag hreg).body
      exact ⟨trivial,by omega⟩
    · subst hs
      simp only [Ledger.settle] at hr ⊢
      have hle := (hleaves hr).le
      refine ⟨_,rfl,?_,?_,?_,?_,(hleaves hr).counted,fun hlt => ?_⟩
      · rw [hitems hr,← Nat.add_assoc,(hlag hr).body]
      · rw [hacc.iov rfl,(hleaves hr).iov,advance_add]
      · have hk' := hacc.le
        rw [hlen hr] at hk'
        change t.accepted + k ≤ t.built.bytes.length
        omega
      · exact hacc.totalSize.trans (hleaves hr).totalSize
      · exact hacc.enough rfl ((hleaves hr).enough hlt)

/-! ### The functions of the response -/

theorem die_audits {α : Type} {P : Ledger → Prop} {Q : α → Ledger → Prop} (s : Stop) :
    Audits P (unaudited (die s)) (die s) Q :=
  .unaudited fun l w a w' _ h => by cases h

theorem writeHead_audits {c : Client} {b : WriteBucket} (data : Option Bytes) (hb : b.Counted)
    (hp : b.Plain) :
    Audits (Balanced c) (writeHeadAudit c b data) (writeHead c b data) Books := by
  apply (writevAudit_audits (setFirstBodyData_counted data hb)).bind
  rintro ⟨s,b'⟩
  cases s with
  | OK =>
    refine .pure fun l hl => Balanced.books (c := { c with
      writeBytes := c.writeBytes + (data.map List.length).getD 0 }) .OK (fun hr => ?_) rfl
    rw [← itemSize_setFirstBodyData hp data]
    exact hl.ok rfl hr
  | ERROR =>
    exact .pure fun l hl => Balanced.books (c := c) .ERROR (hl.error rfl) rfl
  | SUSPEND =>
    refine .pure fun l hl => ?_
    have hs : Suspends { c with bucket := some b' } l := by
      intro hr
      obtain ⟨t,hwait,hbody,hleaves⟩ := hl.suspend rfl hr
      exact .inr ⟨t,hwait,hbody,b',rfl,hleaves⟩
    simpa [Books] using hs

theorem writeHeaders_audits (g : Globals) (c : Client) (data : Option Bytes) (isFile : Option ℕ) :
    Audits (Balanced c) (writeHeadersAudit g c data isFile) (writeHeaders g c data isFile) Books := by
  unfold writeHeadersAudit writeHeaders
  split
  · exact .pure fun l hl => hl.books .OK rfl
  · cases c.headers with
    | none => exact .pure fun l hl => hl.books .ERROR rfl
    | some headers =>
      cases hb : buildHead g c headers data isFile with
      | error c1 =>
        obtain ⟨_,_,_,rfl⟩ := buildHead_reframed (.inl hb)
        simp only [hb]
        exact .pure fun l hl => hl.books .ERROR rfl
      | crash =>
        simp only [hb]
        exact die_audits .crash
      | ok c1 b =>
        obtain ⟨_,_,_,rfl⟩ := buildHead_reframed (.inr ⟨b,hb⟩)
        obtain ⟨hadds,-⟩ := buildHead_ok hb
        have hplain : b.Plain := hadds.plain (by simp [WriteBucket.Plain,newWriteBucket])
        simp only [hb]
        have hcounted : b.Counted := hadds.counted (newWriteBucket_counted _)
        exact (writeHead_audits data hcounted hplain).pre fun l hl => hl.of_writeBytes rfl

theorem processSendfile_audits (c : Client) (rest : Bytes) :
    Audits (Balanced c) (processSendfileAudit c rest) (processSendfile c rest) Books := by
  refine .audit fun l w r w' hl h => ?_
  obtain ⟨k,hsent,hbytes⟩ := processSendfile_accepts h
  have hk : w'.sent.length - w.sent.length = k := by omega
  refine Balanced.books (c := { c with writeBytes := c.writeBytes + k }) r.1 (fun hr => ?_) hbytes
  rw [hk]
  exact ⟨(hl hr).1,congrArg (· + k) (hl hr).2⟩

theorem processItems_audits (items : List Item) (c : Client) :
    Audits (Balanced c) (processItemsAudit items c) (processItems items c) Books := by
  induction items generalizing c with
  | nil => exact .pure fun l hl => hl.books .OK rfl
  | cons i items ih =>
    cases i with
    | raise => exact .pure fun l hl => hl.books .ERROR rfl
    | other => exact .pure fun l hl => hl.books .ERROR rfl
    | bytes buf =>
      apply (writevAudit_audits (itemBucket_counted c buf)).bind
      rintro ⟨s,b'⟩
      cases s with
      | OK =>
        have hcount : ∀ l, Tried c.writeBytes (itemBucket c buf) (.OK,b') l →
            Balanced { c with responseIter := some items, writeBytes := c.writeBytes + buf.length } l := by
          intro l hl hr
          rw [← itemSize_itemBucket c buf]
          exact hl.ok rfl hr
        simp only
        split
        · exact .pure fun l hl => (hcount l hl).books .OK rfl
        · exact (ih _).pre hcount
      | ERROR =>
        exact .pure fun l hl => Balanced.books (c := c) .ERROR (hl.error rfl) rfl
      | SUSPEND =>
        refine .pure fun l hl => ?_
        have hs : Suspends { c with responseIter := some items, bucket := some b' } l := by
          intro hr
          obtain ⟨t,hwait,hbody,hleaves⟩ := hl.suspend rfl hr
          exact .inr ⟨t,hwait,hbody,b',rfl,hleaves⟩
        simpa [Books] using hs

theorem finishWrite_audits (r : ResponseStatus × Client) :
    Audits (Books r) (unaudited (finishWrite r)) (finishWrite r) Books := by
  refine .unaudited fun l w r' w' hl h => ?_
  obtain ⟨s,c⟩ := r
  obtain ⟨s',c'⟩ := r'
  cases s with
  | OK =>
    simp only [finishWrite] at h
    split at h
    · obtain ⟨r1,v,-,h⟩ := Action.bind_eq_ret.mp h
      exact hl.of_ok.books s' (closeResponse_accepts h).2
    · exact hl.of_ok.books s' (closeResponse_accepts h).2
  | SUSPEND => exact (Run.ret.inj h).1 ▸ hl
  | ERROR => exact (Run.ret.inj h).1 ▸ hl

theorem processWrite_audits (c : Client) :
    Audits (Balanced c) (processWriteAudit c) (processWrite c) Books := by
  unfold processWriteAudit processWrite
  cases c.responseIter with
  | none => exact .pure fun l hl => hl.books .OK rfl
  | some items => exact (processItems_audits items c).bind finishWrite_audits

theorem processRest_audits (c : Client) :
    Audits (Balanced c) (processRestAudit c) (processRest c) Books := by
  unfold processRestAudit processRest
  cases c.response with
  | none => exact die_audits .crash
  | some r =>
    cases hk : r.kind with
    | file size rest =>
      simp only [hk]
      exact processSendfile_audits c rest
    | iter items =>
      simp only [hk]
      exact processWrite_audits c
    | notIterable =>
      simp only [hk]
      exact processWrite_audits c

/-- One call of `process_body`. -/
theorem processBody_audits (c : Client) :
    Audits (Suspends c) (processBodyAudit c) (processBody c) Books := by
  unfold processBodyAudit processBody
  cases hb : c.bucket with
  | none =>
    refine (processRest_audits c).pre fun l hl hr => ?_
    rcases hl hr with h | ⟨t,ht⟩
    · exact h
    · obtain ⟨b,hb',-⟩ := ht.bucket
      simp [hb] at hb'
  | some b =>
    apply (retryAudit_audits hb).bind
    rintro ⟨s,b'⟩
    cases s with
    | OK => exact (processRest_audits _).pre fun l hl hr => hl.ok rfl hr
    | ERROR =>
      exact .pure fun l hl => Balanced.books (c := c) .ERROR (hl.error rfl) rfl
    | SUSPEND =>
      refine .pure fun l hl => ?_
      have hs : Suspends { c with bucket := some b' } l := by
        intro hr
        obtain ⟨t,hwait,hbody,hleaves⟩ := hl.suspend rfl hr
        exact .inr ⟨t,hwait,hbody,b',rfl,hleaves⟩
      simpa [Books] using hs

/-! ### The runs of a request -/

theorem startResponseFile_audits (g : Globals) (c : Client) (size : ℕ) :
    Audits (Balanced c) (startResponseFileAudit g c size) (startResponseFile g c size) Books := by
  apply (writeHeaders_audits g c none (some size)).bind
  rintro ⟨s,c1⟩
  refine .pure fun l hl => ?_
  simp only
  split
  · exact hl
  · exact hl.of_eq rfl fun b hb => ⟨b,hb,rfl,rfl,rfl⟩

theorem startResponseWrite_audits (g : Globals) (c : Client) (r : Response) :
    Audits (Balanced c) (startResponseWriteAudit g c r) (startResponseWrite g c r) Books := by
  unfold startResponseWriteAudit startResponseWrite
  cases r.kind with
  | file size rest => exact .pure fun l hl => hl.books .ERROR rfl
  | notIterable => exact .pure fun l hl => hl.books .ERROR rfl
  | iter items =>
    rcases items with _ | ⟨_ | _ | _,items⟩
    · exact (writeHeaders_audits g _ none none).pre fun l hl => hl.of_writeBytes rfl
    · apply ((writeHeaders_audits g _ _ none).pre fun l hl => hl.of_writeBytes rfl).bind
      rintro ⟨s,c1⟩
      refine .pure fun l hl => hl.of_eq rfl fun b hb => ?_
      exact ⟨{ b with freed := !r.keepsItem },by simp [releaseItem,hb],rfl,rfl,rfl⟩
    · exact .pure fun l hl => hl.books .ERROR rfl
    · exact .pure fun l hl => hl.books .ERROR rfl

theorem afterHead_audits {x : Audited Ledger (ResponseStatus × Client)} {y : Action (ResponseStatus × Client)}
    {f : Client → Audited Ledger (ResponseStatus × Client)} {g : Client → Action (ResponseStatus × Client)}
    {P : Ledger → Prop} (hx : Audits P x y Books) (hf : ∀ c, Audits (Balanced c) (f c) (g c) Books) :
    Audits P (x >>= fun s => if s.1 = .OK then f s.2 else pure s)
      (y >>= fun s => if s.1 = .OK then g s.2 else pure s) Books := by
  apply hx.bind
  rintro ⟨s,c⟩
  cases s with
  | OK => exact (hf c).pre fun l hl => hl.of_ok
  | SUSPEND => exact .pure fun l hl => hl
  | ERROR => exact .pure fun l hl => hl

theorem responseStart_audits (g : Globals) (c : Client) :
    Audits (Balanced c) (responseStartAudit g c) (responseStart g c) Books := by
  unfold responseStartAudit responseStart
  cases c.response with
  | none => exact die_audits .crash
  | some r =>
    simp only
    split
    · exact writeHeaders_audits g c none none
    · cases hk : r.kind with
      | file size rest =>
        exact afterHead_audits (startResponseFile_audits g c size) fun c => processSendfile_audits c rest
      | iter items => exact afterHead_audits (startResponseWrite_audits g c r) processWrite_audits
      | notIterable => exact afterHead_audits (startResponseWrite_audits g c r) processWrite_audits

abbrev Closes (r : ResponseStatus × Client) (l : Ledger) : Prop := Balanced r.2 l

theorem appLoop_audits (fuel : ℕ) (s : ResponseStatus) (c : Client) :
    Audits (Books (s,c)) (appLoopAudit fuel s c) (appLoop fuel s c) Closes := by
  induction fuel generalizing s c with
  | zero =>
    cases s with
    | OK => exact .pure fun l hl => hl.of_ok
    | ERROR => exact .pure fun l hl => hl.of_error
    | SUSPEND => exact die_audits .pending
  | succ fuel ih =>
    cases s with
    | OK => exact .pure fun l hl => hl.of_ok
    | ERROR => exact .pure fun l hl => hl.of_error
    | SUSPEND =>
      have hbody := (processBody_audits c).pre fun _ hl => Books.of_suspend (c := c) hl
      exact hbody.bind fun r => ih r.1 r.2

theorem writeResponse_audits (g : Globals) (c : Client) :
    Audits (Balanced c) (writeResponseAudit g c) (writeResponse g c) Closes :=
  .of_world fun w => ⟨_,_,w,(responseStart_audits g c).bind fun s =>
    appLoop_audits (w.outcomes.length + 1) s.1 s.2,fun _ => rfl,rfl⟩

theorem closeResponse_audits (c : Client) :
    Audits (Balanced c) (unaudited (closeResponse c)) (closeResponse c) fun r l => Balanced r.2 l :=
  .unaudited fun _ _ _ _ hl h => hl.of_writeBytes (closeResponse_accepts h).2

/-- An error page, whatever `write_bytes` was before. -/
theorem sendErrorPage_audits (c : Client) :
    Audits (Balanced c) (sendErrorPageAudit c) (sendErrorPage c) Balanced := by
  unfold sendErrorPageAudit
  split
  next hdone =>
    unfold sendErrorPage
    rw [if_pos hdone]
    exact .pure fun l hl => hl
  next hdone =>
    refine .audit fun l w c' w' hl h hr => ?_
    unfold sendErrorPage at h
    rw [if_neg hdone] at h
    obtain ⟨c1,v,hv,h⟩ := Action.bind_eq_ret.mp h
    obtain ⟨k,hsent,hbytes⟩ := blockingWriteLoop_accepts hv
    obtain ⟨rfl,rfl⟩ := Run.ret.inj h
    have hk : v.sent.length - w.sent.length = k := by omega
    simp only [Ledger.page,hk,Bool.and_eq_true,decide_eq_true_eq] at hr ⊢
    obtain ⟨⟨hreg,hhead⟩,hlt⟩ := hr
    obtain ⟨hwait,hbody⟩ := hl hreg
    -- the head is subtracted modulo 2^64, from a count that holds it
    have hsum : c1.writeBytes + (2 ^ 64 - (errorHead c.statusCode).length) =
        l.body + (k - (errorHead c.statusCode).length) + 2 ^ 64 := by omega
    refine ⟨hwait,?_⟩
    rw [hsum,Nat.add_mod_right,Nat.mod_eq_of_lt (by omega)]

theorem appError_audits (c : Client) :
    Audits (Balanced c) (appErrorAudit c) (appError c) Balanced :=
  ((closeResponse_audits { c with statusCode := 500 }).pre fun _ hl => hl.of_writeBytes rfl).bind
    fun r => sendErrorPage_audits r.2

theorem respond_audits (g : Globals) (c : Client) :
    Audits (Balanced c) (respondAudit g c) (respond g c) Balanced := by
  apply (writeResponse_audits g c).bind
  rintro ⟨s,c1⟩
  have hclose : Audits (Balanced c1)
      (unaudited (closeResponse c1) >>= fun r => (pure r.2 : Audited Ledger Client))
      (closeResponse c1 >>= fun r => pure r.2) Balanced :=
    (closeResponse_audits c1).bind fun r => .pure fun l hl => hl
  cases s with
  | OK => exact hclose
  | SUSPEND => exact hclose
  | ERROR => exact appError_audits c1

theorem appHandler_audits (g : Globals) (app : AppRun) (c : Client) :
    Audits (Balanced c) (appHandlerAudit g app c) (appHandler g app c) Balanced := by
  have hcalls : Audits (Balanced c) (unaudited (appCalls app.calls c)) (appCalls app.calls c)
      Balanced :=
    .unaudited fun l w c1 w' hl h => hl.of_writeBytes (appCalls_writeBytes h)
  apply hcalls.bind
  intro c1
  cases app.result with
  | raise => exact (appError_audits _).pre fun l hl => hl.of_writeBytes rfl
  | none => exact (appError_audits _).pre fun l hl => hl.of_writeBytes rfl
  | ret r =>
    simp only
    split
    · exact .pure fun l hl => hl.of_writeBytes rfl
    · exact (respond_audits g _).pre fun l hl => hl.of_writeBytes rfl

theorem endPage_audits (c : Client) :
    Audits (Balanced c) (sendErrorPageAudit c >>= fun c => pure (false,c))
      (sendErrorPage c >>= fun c => pure (false,c)) fun r l => Balanced r.2 l :=
  (sendErrorPage_audits c).bind fun _ => .pure fun _ hl => hl

theorem checkHttpExpect_audits (c : Client) :
    Audits (Balanced c) (checkHttpExpectAudit c) (checkHttpExpect c) fun r l => Balanced r.2 l := by
  refine .of_world fun w => ?_
  have hpass : Audits (Balanced c) (pure (true,c)) (pure (true,c))
      fun (r : Bool × Client) l => Balanced r.2 l := .pure fun l hl => hl
  have hpage : ∀ code, Audits (Balanced c)
      (sendErrorPageAudit { c with keepAlive := false, statusCode := code } >>= fun c => pure (false,c))
      (sendErrorPage { c with keepAlive := false, statusCode := code } >>= fun c => pure (false,c))
      fun (r : Bool × Client) l => Balanced r.2 l := fun code =>
    (endPage_audits _).pre fun l hl => hl.of_writeBytes rfl
  by_cases hminor : c.httpParser.httpMinor = 1
  · simp only [checkHttpExpectAudit,checkHttpExpect,if_pos hminor]
    cases c.currentReq.bind (·.environ.get? (ascii "HTTP_EXPECT")) with
    | none => exact ⟨_,_,w,hpass,fun _ => rfl,rfl⟩
    | some val =>
      simp only
      by_cases hval : expectsContinue val
      · simp only [if_pos hval]
        rcases w.outcomes with _ | ⟨_ | _ | _,os⟩
        · exact ⟨_,_,w,die_audits .pending,fun _ => rfl,rfl⟩
        · exact ⟨_,_,{ w with outcomes := os },hpage 500,fun _ => rfl,rfl⟩
        · exact ⟨_,_,_,hpass,fun _ => rfl,rfl⟩
        · exact ⟨_,_,{ w with outcomes := os },hpage 500,fun _ => rfl,rfl⟩
      · simp only [if_neg hval]
        exact ⟨_,_,w,hpage 417,fun _ => rfl,rfl⟩
  · simp only [checkHttpExpectAudit,checkHttpExpect,if_neg hminor]
    exact ⟨_,_,w,hpass,fun _ => rfl,rfl⟩

theorem prepareCallWsgi_audits (g : Globals) (c : Client) :
    Audits (Balanced c) (prepareCallWsgiAudit g c) (prepareCallWsgi g c)
      fun r l => Balanced r.2 l := by
  apply (checkHttpExpect_audits c).bind
  rintro ⟨b,c1⟩
  cases b with
  | true => exact .pure fun l hl => hl.of_writeBytes rfl
  | false => exact .pure fun l hl => hl

theorem handleRequest_audits (g : Globals) (req : Request) (app : AppRun) (c : Client) :
    Audits (Balanced c) (handleRequestAudit g req app c) (handleRequest g req app c)
      fun r l => Balanced r.2 l := by
  unfold handleRequestAudit handleRequest
  simp only
  split
  · exact (endPage_audits _).pre fun l hl => hl.of_writeBytes rfl
  · apply ((prepareCallWsgi_audits g _).pre fun l hl => hl.of_writeBytes rfl).bind
    rintro ⟨b,c1⟩
    cases b with
    | true => exact (appHandler_audits g app c1).bind fun c2 => .pure fun l hl => hl
    | false => exact .pure fun l hl => hl

/-! ### What is logged -/

/-- What a client is closed after: a request, or an error of its reading that `set_read_error` answers
with a page. -/
inductive Exchange
  | request (req : Request) (app : AppRun)
  | readError (statusCode : ℕ)

/-- An exchange, up to `close_client`. -/
def exchange (g : Globals) : Exchange → Client → Action Client
  | .request req app, c => do
    let r ← handleRequest g req app c
    pure r.2
  | .readError statusCode, c =>
    let c := { c with keepAlive := false }
    if c.complete then pure c
    else sendErrorPage { c with statusCode := if statusCode = 0 then 400 else statusCode }

def exchangeAudit (g : Globals) : Exchange → Client → Audited Ledger Client
  | .request req app, c => do
    let r ← handleRequestAudit g req app c
    pure r.2
  | .readError statusCode, c =>
    let c := { c with keepAlive := false }
    if c.complete then pure c
    else sendErrorPageAudit { c with statusCode := if statusCode = 0 then 400 else statusCode }

/-- `close_client`, with the `write_bytes` that `clean_client` logs. -/
def closeLogged (c : Client) : Action (ℕ × Client) := do
  let r ← if c.responseClosed then pure (.OK,c) else closeResponse c
  pure (r.2.writeBytes,cleanClient r.2)

def logExchange (g : Globals) (e : Exchange) (c : Client) : Action (ℕ × Client) :=
  exchange g e c >>= closeLogged

def logExchangeAudit (g : Globals) (e : Exchange) (c : Client) : Audited Ledger (ℕ × Client) :=
  exchangeAudit g e c >>= fun c => unaudited (closeLogged c)

theorem closeLogged_client (c : Client) : (closeLogged c >>= fun r => pure r.2) = closeClient c := by
  unfold closeLogged closeClient
  cases c.responseClosed with
  | true => rfl
  | false => exact Action.bind_assoc _ _ _

/-- A request of `serveOne`. -/
theorem logExchange_request (g : Globals) (req : Request) (app : AppRun) (c : Client) :
    (logExchange g (.request req app) c >>= fun r => pure r.2) =
      handleRequest g req app c >>= fun r => closeClient r.2 := by
  rw [logExchange,Action.bind_assoc]
  simp only [closeLogged_client]
  exact Action.bind_assoc _ _ _

/-- An error of reading, when no request waits before the one being read. -/
theorem logExchange_readError (g : Globals) {c : Client} (hc : c.queue = []) (statusCode : ℕ) :
    (logExchange g (.readError statusCode) c >>= fun r => pure (.closed,r.2)) =
      setReadError c statusCode := by
  have hclose : ∀ c1, (closeLogged c1 >>= fun r => (pure (.closed,r.2) : Action (ReadEnd × Client))) =
      closeClient c1 >>= fun c => pure (.closed,c) := by
    intro c1
    rw [← closeLogged_client,Action.bind_assoc]
    rfl
  have hq : Client.queue { c with keepAlive := false } = [] := hc
  rw [logExchange,Action.bind_assoc]
  simp only [hclose,exchange,setReadError,hq,ne_eq,not_true_eq_false,if_false]
  cases c.complete <;> rfl

theorem exchange_audits (g : Globals) (e : Exchange) (c : Client) :
    Audits (Balanced c) (exchangeAudit g e c) (exchange g e c) Balanced := by
  cases e with
  | request req app => exact (handleRequest_audits g req app c).bind fun r => .pure fun l hl => hl
  | readError statusCode =>
    simp only [exchangeAudit,exchange]
    split
    · exact .pure fun l hl => hl.of_writeBytes rfl
    · exact (sendErrorPage_audits _).pre fun l hl => hl.of_writeBytes rfl

theorem closeLogged_writeBytes {c c' : Client} {n : ℕ} {w w' : World}
    (h : closeLogged c w = .ret (n,c') w') : n = c.writeBytes := by
  unfold closeLogged at h
  cases hclosed : c.responseClosed with
  | true =>
    rw [hclosed] at h
    exact (Prod.mk.inj (Run.ret.inj h).1).1.symm
  | false =>
    rw [hclosed] at h
    obtain ⟨⟨s,c1⟩,v,hv,h⟩ := Action.bind_eq_ret.mp h
    rw [← (closeResponse_accepts hv).2]
    exact (Prod.mk.inj (Run.ret.inj h).1).1.symm

theorem logExchange_audits (g : Globals) (e : Exchange) (c : Client) :
    Audits (Balanced c) (logExchangeAudit g e c) (logExchange g e c)
      fun r l => l.regular = true → r.1 = l.body :=
  (exchange_audits g e c).bind fun _ => .unaudited fun _ _ _ _ hl h hr =>
    (closeLogged_writeBytes h).trans (hl hr).2

/-- In every run whose writes are all regular, `write_bytes` is logged as the number of body bytes
the socket has accepted. -/
theorem logged_bytes {g : Globals} {e : Exchange} {c c' : Client} {n : ℕ} {w w' : World}
    (hc : c.writeBytes = 0) (h : logExchange g e c w = .ret (n,c') w') :
    ∃ l, logExchangeAudit g e c {} w = .ret ((n,c'),l) w' ∧ (l.regular = true → n = l.body) :=
  (logExchange_audits g e c).ret {} w (n,c') w' (fun _ => ⟨rfl,hc⟩) h

/-- A response of two items. -/
def twoItems : Exchange := .request {}
  { calls := [⟨.str ((ascii "200 OK").map (·.toNat)),some [],false⟩]
    result := .ret { kind := .iter [.bytes (ascii "he"),.bytes (ascii "llo")] } }

theorem logged_bytes_two_items : ∃ l c' w',
    logExchangeAudit {} twoItems (newClientT 80) {} ⟨[.count 1000,.eagain,.count 0,.count 9],[],0⟩ =
      .ret ((5,c'),l) w' ∧ l.regular = true ∧ 5 = l.body := by
  have hlog : (logExchange {} twoItems (newClientT 80)
      ⟨[.count 1000,.eagain,.count 0,.count 9],[],0⟩).result.map (·.1) = some 5 := by
    decide +kernel
  have hrun : (logExchangeAudit {} twoItems (newClientT 80) {}
      ⟨[.count 1000,.eagain,.count 0,.count 9],[],0⟩).result.map (·.2) = some ⟨5,none,true⟩ := by
    decide +kernel
  obtain ⟨⟨n,c'⟩,hresult,rfl⟩ := Option.map_eq_some_iff.mp hlog
  obtain ⟨w',h⟩ := Run.result_eq_some.mp hresult
  obtain ⟨l,hl,hbytes⟩ := logged_bytes rfl h
  rw [hl] at hrun
  obtain rfl := Option.some.inj hrun
  exact ⟨_,c',w',hl,rfl,hbytes rfl⟩

/-- A head that has to wait is counted with its item. -/
example : (logExchangeAudit {} twoItems (newClientT 80) {}
    ⟨[.eagain,.count 1000,.count 9],[],0⟩).result.map (fun r => (r.1.1,r.2.body)) = some (104,5) := by
  decide +kernel

/-- A page of which the socket takes nothing is logged with nearly 2^64 bytes. -/
theorem not_logged_bytes : ¬∀ (g : Globals) (e : Exchange) (c c' : Client) (n : ℕ) (w w' : World)
    (l : Ledger), c.writeBytes = 0 → logExchangeAudit g e c {} w = .ret ((n,c'),l) w' →
      n = l.body := by
  intro h
  have hrun : (logExchangeAudit {} (.readError 408) { newClientT 80 with complete := false } {}
      ⟨[.error true],[],0⟩).result.map (fun r => (r.1.1,r.2.body)) = some (2 ^ 64 - 81,0) := by
    decide +kernel
  obtain ⟨⟨⟨n,c'⟩,l⟩,hresult,heq⟩ := Option.map_eq_some_iff.mp hrun
  obtain ⟨w',hw⟩ := Run.result_eq_some.mp hresult
  have hn : n = 2 ^ 64 - 81 := (Prod.mk.inj heq).1
  have hbody : l.body = 0 := (Prod.mk.inj heq).2
  have hnl : n = l.body := h _ _ _ _ _ _ _ _ rfl hw
  omega

end Meinheld
