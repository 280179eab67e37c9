import Meinheld.FailedResponses

/-! `app_handler` and `write_callback` as they are compiled without `WITH_GREENLET`, and what they
deliver of a response compared with the build with greenlets. -/
namespace Meinheld

/-- A client with what the event loop holds for it: whether `write_callback` is registered for its
descriptor, and the bytes the socket had taken at each `close_client`. -/
structure Registered where
  client : Client
  writeEvent : Bool := false
  closed : List Bytes := []

/-- `close_client`, which takes the descriptor out of the loop. -/
def Registered.close (p : Registered) : Action Registered := fun w =>
  (do
    let c ← closeClient p.client
    pure { p with client := c, writeEvent := false, closed := p.closed ++ [w.sent] }) w

/-- `app_handler` without greenlets, once the application has returned a response. -/
def appHandlerPlain (g : Globals) (c : Client) : Action Registered := do
  let r ← responseStart g c
  match r.1 with
  | .ERROR => do
    let c ← appError r.2
    Registered.close ⟨c,false,[]⟩
  -- there is no `break` after `picoev_add`
  | .SUSPEND => Registered.close ⟨r.2,true,[]⟩
  | .OK => Registered.close ⟨r.2,false,[]⟩

def writeCallback (timeout : Bool) (p : Registered) : Action Registered :=
  if timeout then Registered.close { p with client := { p.client with keepAlive := false } }
  else do
    let r ← processBody p.client
    if r.1 ≠ .OK then Registered.close { p with client := r.2 } else pure { p with client := r.2 }

/-- The loop reports `n` times that the socket is writable, as long as that is asked for. -/
def writeEvents : ℕ → Registered → Action Registered
  | 0, p => pure p
  | n + 1, p => if p.writeEvent then writeCallback false p >>= writeEvents n else pure p

/-- The build without greenlets delivers `t`: these are the bytes the socket takes, and the client
is closed once, with all of them taken. -/
def DeliversPlain (g : Globals) (a : Answer) (os : List Outcome) (t : Bytes) : Prop :=
  ∀ n, os.length ≤ n → ∃ p w, (appHandlerPlain g a.start >>= writeEvents n) ⟨os,[],0⟩ = .ret p w ∧
    w.sent = t ∧ p.closed = [t]

/-! What a suspended response still sends. -/

/-- What decides whether a response sends something after its items: the coding, whether the
declared length is reached, and whether an error is answered with a page. -/
structure Ending where
  chunked : Bool
  full : Bool
  page : Bool

def Client.ending (c : Client) : Ending where
  chunked := c.chunkedResponse
  full := c.contentLengthSet && c.contentLength ≤ c.writeBytes
  page := !(c.headerDone || c.responseClosed || c.closes)

/-- No byte follows an empty bucket, with `items` after it and the results of `writev` to come. A
bucket that was suspended is followed by the next item even at the declared length. -/
def drains (e : Ending) : List Outcome → Bool → List Item → Bool
  | .eagain :: os, _, items => drains e os true items
  | .count _ :: os, resumed, items =>
    (e.full && !resumed) || match items with
      | .bytes d :: items => !e.chunked && d = [] && drains e os false items
      | [] => !e.chunked || os.head? = some .eagain
      | _ => !e.page
  | _, _, _ => true

def drainsItems (e : Ending) (os : List Outcome) : List Item → Bool
  | .bytes d :: items => !e.chunked && d = [] && drains e os false items
  | [] => !e.chunked || os.head? = some .eagain
  | _ => !e.page

def Client.Spent (c : Client) (os : List Outcome) : Prop :=
  match c.response.map Response.kind with
  | some (.file _ _) => c.contentLength ≤ c.writeBytes ∨
    sendfileRefuses c.contentLength = true ∧ c.ending.page = false
  | _ => ∀ items ∈ c.responseIter, drains c.ending os true items = true

/-- A suspended response that has no byte left to send. -/
def Client.Drained (c : Client) (os : List Outcome) : Prop :=
  (∃ b ∈ c.bucket, b.bytes = []) ∧ c.resumed.Spent os

/-- How a suspended response waits. -/
inductive Client.Waiting (c : Client) : Prop
  | bucket (b : WriteBucket) (hb : c.bucket = some b)
  | file (size : ℕ) (rest : Bytes) (hb : c.bucket = none) (hlt : c.writeBytes < c.contentLength)
    (hr : sendfileRefuses c.contentLength = false)
    (hfile : c.response.map Response.kind = some (.file size rest))

/-- A response that goes on has drained, or it sends something: now, later, or as an error page. -/
structure Drains (D : Prop) (w : World) (s : ResponseStatus) (c' : Client) (w' : World) : Prop where
  quiet : D → w'.sent = w.sent ∧ (s = .SUSPEND → c'.Drained w'.outcomes) ∧
    (s = .ERROR → c'.ending.page = false)
  loud : ¬D → w.sent.length < w'.sent.length ∨ (s = .SUSPEND ∧ ¬c'.Drained w'.outcomes) ∨
    s = .ERROR ∧ c'.ending.page = true

theorem Drains.of_grows {D : Prop} {w w' : World} {s : ResponseStatus} {c' : Client} (hD : ¬D)
    (h : w.sent.length < w'.sent.length) : Drains D w s c' w' :=
  ⟨fun h0 => absurd h0 hD,fun _ => .inl h⟩

/-- What sends nothing before a part that drains. -/
theorem Drains.after {D D1 : Prop} {w w1 w' : World} {s : ResponseStatus} {c' : Client}
    (h : Drains D1 w1 s c' w') (hD : D ↔ D1) (hsent : w1.sent = w.sent) : Drains D w s c' w' := by
  refine ⟨fun h0 => ⟨(h.quiet (hD.mp h0)).1.trans hsent,(h.quiet (hD.mp h0)).2⟩,fun h0 => ?_⟩
  rw [← hsent]
  exact h.loud (mt hD.mpr h0)

theorem Client.Drained.not_ne_nil {c : Client} {b : WriteBucket} (hb : c.bucket = some b)
    (hne : b.bytes ≠ []) (os : List Outcome) : ¬c.Drained os := by
  rintro ⟨⟨b',hb',hnil⟩,-⟩
  rw [hb] at hb'
  obtain rfl := Option.some.inj hb'
  exact hne hnil

theorem Client.Drained.not_none {c : Client} (hb : c.bucket = none) (os : List Outcome) :
    ¬c.Drained os := by
  rintro ⟨⟨b',hb',-⟩,-⟩
  simp [hb] at hb'

theorem drained_iff {c : Client} {b : WriteBucket} (hb : c.bucket = some b) (hnil : b.bytes = [])
    (os : List Outcome) : c.Drained os ↔ c.resumed.Spent os :=
  ⟨And.right,fun h => ⟨⟨b,hb,hnil⟩,h⟩⟩

theorem Client.Spent.of_iterates {c : Client} (h : c.Iterates) (os : List Outcome) :
    c.Spent os ↔ ∀ items ∈ c.responseIter, drains c.ending os true items = true := by
  unfold Client.Spent
  split
  next size rest hk => exact absurd hk (h size rest)
  · rfl

@[simp] theorem drains_count (e : Ending) (n : ℕ) (os : List Outcome) (resumed : Bool)
    (items : List Item) : drains e (.count n :: os) resumed items =
      ((e.full && !resumed) || drainsItems e os items) := rfl

@[simp] theorem drains_eagain (e : Ending) (os : List Outcome) (resumed : Bool)
    (items : List Item) : drains e (.eagain :: os) resumed items = drains e os true items := rfl

/-- Another `EAGAIN` changes nothing. -/
theorem Client.Spent.eagain (c : Client) (os : List Outcome) : c.Spent (.eagain :: os) ↔ c.Spent os := by
  unfold Client.Spent
  split <;> simp

theorem dangles_of_empty {b : WriteBucket} (hb : b.bytes = []) : b.dangles = false := by
  have hall : ∀ v ∈ b.iov, v.base = [] := by simpa [WriteBucket.bytes] using hb
  simpa [WriteBucket.dangles] using fun _ v hv _ => hall v hv

theorem writevBucket_empty {b b' : WriteBucket} {w w' : World} {s : ResponseStatus}
    (hb : b.bytes = []) (hos : Nonfatal w.outcomes) (h : writevBucket b w = .ret (s,b') w') :
    (w.outcomes = .eagain :: w'.outcomes ∧ s = .SUSPEND ∧ b' = b ∧ w'.sent = w.sent) ∨
      ∃ n, w.outcomes = .count n :: w'.outcomes ∧ s = .OK ∧ b'.totalSize = b.totalSize ∧
        w'.sent = w.sent := by
  have hd := dangles_of_empty hb
  rcases ho : w.outcomes with _ | ⟨o,os⟩
  · simp [writevBucket,ho,writevBucketLoop] at h
  · cases o with
    | eagain =>
      rw [writevBucket_eagain hd ho] at h
      simp only [Run.ret.injEq,Prod.mk.injEq] at h
      obtain ⟨⟨rfl,rfl⟩,rfl⟩ := h
      exact .inl ⟨rfl,rfl,rfl,rfl⟩
    | count n =>
      rw [writevBucket_count hd ho (.inl hb)] at h
      simp only [Run.ret.injEq,Prod.mk.injEq] at h
      obtain ⟨⟨rfl,rfl⟩,rfl⟩ := h
      exact .inr ⟨n,rfl,rfl,rfl,by simp [hb]⟩
    | error epipe => simpa [Outcome.fatal] using hos (.error epipe) (by simp [ho])

theorem processItems_waiting {items : List Item} {c c' : Client} {w w' : World}
    (h : processItems items c w = .ret (.SUSPEND,c') w') : ∃ b, c'.bucket = some b := by
  induction items generalizing c w with
  | nil => simp [processItems] at h
  | cons i items ih =>
    cases i with
    | raise => simp [processItems] at h
    | other => simp [processItems] at h
    | bytes d =>
      rw [processItems] at h
      obtain ⟨⟨s1,b1⟩,v,_,h⟩ := Action.bind_eq_ret.mp h
      cases s1 with
      | OK =>
        simp only at h
        split at h
        · simp at h
        · exact ih h
      | ERROR => simp at h
      | SUSPEND =>
        simp only [Action.pure_apply,Run.ret.injEq,Prod.mk.injEq,true_and] at h
        exact ⟨b1,by rw [← h.1]⟩

theorem closeResponse_drains {c c' : Client} {w w' : World} {s : ResponseStatus}
    (h : closeResponse c w = .ret (s,c') w') : s ≠ .SUSPEND ∧ w'.sent = w.sent ∧
      (s = .ERROR → c'.ending.page = false) := by
  obtain ⟨s1,closed,n,hcl,hs⟩ := closeResponse_spec c w
  rw [hcl] at h
  simp only [Run.ret.injEq,Prod.mk.injEq] at h
  obtain ⟨⟨rfl,rfl⟩,rfl⟩ := h
  rcases hs with rfl | ⟨rfl,rfl⟩
  · exact ⟨by simp,rfl,by simp⟩
  · exact ⟨by simp,rfl,fun _ => by simp [Client.ending]⟩

theorem Drains.of_close {c c' : Client} {w w' : World} {s : ResponseStatus}
    (h : closeResponse c w = .ret (s,c') w') {D : Prop} (hD : D) : Drains D w s c' w' := by
  obtain ⟨hs,hsent,hpage⟩ := closeResponse_drains h
  exact ⟨fun _ => ⟨hsent,fun h0 => absurd h0 hs,hpage⟩,fun h0 => absurd hD h0⟩

theorem finishWrite_suspend {r : ResponseStatus × Client} {c' : Client} {w w' : World}
    (h : finishWrite r w = .ret (.SUSPEND,c') w') : r = (.SUSPEND,c') := by
  obtain ⟨s1,c1⟩ := r
  cases s1 with
  | SUSPEND =>
    simp only [finishWrite,Action.pure_apply,Run.ret.injEq,Prod.mk.injEq,true_and] at h
    rw [h.1]
  | ERROR => simp [finishWrite] at h
  | OK =>
    have hclose : ∀ v, closeResponse c1 v ≠ .ret (.SUSPEND,c') w' := by
      intro v hv
      obtain ⟨s2,closed,n,hcl,hs⟩ := closeResponse_spec c1 v
      rw [hcl] at hv
      simp only [Run.ret.injEq,Prod.mk.injEq] at hv
      rcases hs with rfl | ⟨rfl,_⟩ <;> simp at hv
    simp only [finishWrite] at h
    split at h
    · obtain ⟨_,v,_,h⟩ := Action.bind_eq_ret.mp h
      exact absurd h (hclose v)
    · exact absurd h (hclose w)

theorem finishWrite_drains {c c' : Client} {w w' : World} {s : ResponseStatus}
    (hos : Nonfatal w.outcomes) (h : finishWrite (.OK,c) w = .ret (s,c') w') :
    Drains (drainsItems c.ending w.outcomes [] = true) w s c' w' := by
  cases hch : c.chunkedResponse with
  | false =>
    rw [finishWrite_plain hch] at h
    exact .of_close h (by simp [drainsItems,Client.ending,hch])
  | true =>
    simp only [finishWrite,hch,if_true] at h
    obtain ⟨⟨s1,b1⟩,v,hv,h⟩ := Action.bind_eq_ret.mp h
    have hD : drainsItems c.ending w.outcomes [] = true ↔ w.outcomes.head? = some .eagain := by
      simp [drainsItems,Client.ending,hch]
    rw [hD]
    rcases writevBucket_nonempty (by rw [lastBucket_bytes]; decide) hos hv with
      ⟨ho,_,_,hsent⟩ | ⟨ho,hg⟩
    · exact (Drains.of_close (D := True) h trivial).after (by simp [ho]) hsent
    · exact .of_grows ho (by rwa [(closeResponse_drains h).2.1])

theorem itemBucket_bytes_eq_nil {c : Client} {d : Bytes} :
    (itemBucket c d).bytes = [] ↔ c.chunkedResponse = false ∧ d = [] := by
  cases hch : c.chunkedResponse <;> simp [itemBucket,hch]

/-- The items that are left, and the end of the response. -/
theorem processItems_drains {items : List Item} {c c' : Client} {w w' : World} {s : ResponseStatus}
    (hiter : c.Iterates) (hos : Nonfatal w.outcomes)
    (h : (processItems items c >>= finishWrite) w = .ret (s,c') w') :
    Drains (drainsItems c.ending w.outcomes items = true) w s c' w' := by
  induction items generalizing c w with
  | nil =>
    rw [processItems,Action.pure_bind] at h
    exact finishWrite_drains (c := { c with responseIter := some [] }) hos h
  | cons i items ih =>
    cases i with
    | raise =>
      simp only [processItems,Action.pure_bind,finishWrite,Action.pure_apply,Run.ret.injEq,
        Prod.mk.injEq] at h
      obtain ⟨⟨rfl,rfl⟩,rfl⟩ := h
      exact ⟨fun hD => ⟨rfl,by simp,fun _ =>
          show c.ending.page = false by simpa [drainsItems] using hD⟩,fun hD => .inr (.inr ⟨rfl,
          show c.ending.page = true by simpa [drainsItems] using hD⟩)⟩
    | other =>
      simp only [processItems,Action.pure_bind,finishWrite,Action.pure_apply,Run.ret.injEq,
        Prod.mk.injEq] at h
      obtain ⟨⟨rfl,rfl⟩,rfl⟩ := h
      exact ⟨fun hD => ⟨rfl,by simp,fun _ =>
          show c.ending.page = false by simpa [drainsItems] using hD⟩,fun hD => .inr (.inr ⟨rfl,
          show c.ending.page = true by simpa [drainsItems] using hD⟩)⟩
    | bytes d =>
      simp only [processItems,Action.bind_assoc] at h
      obtain ⟨⟨s1,b1⟩,v,hv,h⟩ := Action.bind_eq_ret.mp h
      have hw := writevBucket_writes hv
      by_cases hnil : (itemBucket c d).bytes = []
      · obtain ⟨hch,rfl⟩ := itemBucket_bytes_eq_nil.mp hnil
        have hsize : (itemBucket c []).totalSize = 0 := by
          simp [itemBucket,hch,set2bucket,newWriteBucket]
        rcases writevBucket_empty hnil hos hv with ⟨ho,rfl,rfl,hsent⟩ | ⟨n,ho,rfl,_,hsent⟩
        · simp only [Action.pure_bind,finishWrite,Action.pure_apply,Run.ret.injEq,
            Prod.mk.injEq] at h
          obtain ⟨⟨rfl,rfl⟩,rfl⟩ := h
          have hiff : Client.Drained { c with
              responseIter := some items
              bucket := some (itemBucket c []) } v.outcomes ↔
              drainsItems c.ending w.outcomes (.bytes [] :: items) = true := by
            rw [drained_iff rfl hnil,Client.Spent.of_iterates (by exact hiter),ho]
            simp [Client.resumed,drainsItems,Client.ending,hch,hsize,Client.closes]
          exact ⟨fun hD => ⟨hsent,fun _ => hiff.mpr hD,by simp⟩,
            fun hD => .inr (.inl ⟨rfl,mt hiff.mp hD⟩)⟩
        · simp only [List.length_nil,Nat.add_zero] at h
          split at h
          next hlim =>
            rw [Action.pure_bind,finishWrite_plain (by exact hch)] at h
            refine (Drains.of_close (D := True) h trivial).after ?_ hsent
            simp [drainsItems,ho,Client.ending,hch,hlim]
          next hlim =>
            refine (ih (by exact hiter) (hos.suffix hw.outcomes) h).after ?_ hsent
            have hfull : (c.contentLengthSet && decide (c.contentLength ≤ c.writeBytes)) = false := by
              simpa using hlim
            simp [drainsItems,ho,Client.ending,hch,hfull,Client.closes]
      · -- a byte of the item goes out, or the item waits
        have hD : ¬drainsItems c.ending w.outcomes (.bytes d :: items) = true := by
          have hnot : ¬(c.chunkedResponse = false ∧ d = []) := mt itemBucket_bytes_eq_nil.mpr hnil
          intro h0
          simp only [drainsItems,Client.ending,Bool.and_eq_true,Bool.not_eq_true',
            decide_eq_true_eq] at h0
          exact hnot h0.1
        rcases writevBucket_nonempty hnil hos hv with ⟨_,rfl,rfl,_⟩ | ⟨_,hg⟩
        · simp only [Action.pure_bind,finishWrite,Action.pure_apply,Run.ret.injEq,
            Prod.mk.injEq] at h
          obtain ⟨⟨rfl,rfl⟩,rfl⟩ := h
          exact ⟨fun h0 => absurd h0 hD,
            fun _ => .inr (.inl ⟨rfl,Client.Drained.not_ne_nil rfl hnil _⟩)⟩
        · refine .of_grows hD (hg.trans_le ?_)
          obtain ⟨⟨s2,c2⟩,v2,hrest,hfin⟩ := Action.bind_eq_ret.mp h
          have hle : v.sent.length ≤ v2.sent.length := by
            cases s1 with
            | OK =>
              simp only at hrest
              split at hrest
              · simp only [Action.pure_apply,Run.ret.injEq] at hrest
                rw [hrest.2]
              · exact (processItems_carries hrest).sent.length_le
            | SUSPEND =>
              simp only [Action.pure_apply,Run.ret.injEq] at hrest
              rw [hrest.2]
            | ERROR =>
              simp only [Action.pure_apply,Run.ret.injEq] at hrest
              rw [hrest.2]
          exact hle.trans (finishWrite_carries hfin).sent.length_le

/-- Until its declared length is reached, a file sends or waits. -/
theorem sendfileLoop_grows {os : List Outcome} {rest rest' : Bytes} {c c' : Client} {w w' : World}
    {s : ResponseStatus} (hlt : c.writeBytes < c.contentLength)
    (hr : sendfileRefuses c.contentLength = false) (hos : Nonfatal os)
    (h : sendfileLoop os rest c w = .ret (s,c',rest') w') :
    w.sent.length < w'.sent.length ∨ s = .SUSPEND ∧ w'.sent = w.sent := by
  induction os generalizing rest c w with
  | nil =>
    rw [sendfileLoop_nil hlt hr] at h
    cases h
  | cons o os ih =>
    have hos' : Nonfatal os := fun p hp => hos p (by simp [hp])
    rw [sendfileLoop_cons hlt hr] at h
    cases o with
    | eagain =>
      simp only [Run.ret.injEq,Prod.mk.injEq] at h
      obtain ⟨⟨rfl,rfl,rfl⟩,rfl⟩ := h
      exact .inr ⟨rfl,rfl⟩
    | error epipe => simpa [Outcome.fatal] using hos (.error epipe) (by simp)
    | count n =>
      simp only at h
      generalize rest.take (min (n + 1) (sendfileCount c.contentLength)) = r at h
      rcases Nat.eq_zero_or_pos r.length with h0 | hpos
      · have hlt' : c.writeBytes + r.length < c.contentLength := by omega
        have hrec := ih (c := { c with writeBytes := c.writeBytes + r.length }) hlt' hr hos' h
        simpa [World.send,List.length_eq_zero_iff.mp h0] using hrec
      · left
        have hmono := (sendfileLoop_carries (w := World.send { w with outcomes := os } r)
          List.suffix_rfl h).sent.length_le
        simp only [World.send,List.length_append] at hmono
        omega

theorem sendfileLoop_suspended {os : List Outcome} {rest rest' : Bytes} {c c' : Client}
    {w w' : World} (h : sendfileLoop os rest c w = .ret (.SUSPEND,c',rest') w') :
    c'.writeBytes < c'.contentLength ∧ sendfileRefuses c'.contentLength = false ∧
      c'.response = c.response ∧ c'.bucket = c.bucket := by
  rcases sendfileLoop_ret h with ⟨-,hs,-⟩ | ⟨-,-,hs,-⟩ | ⟨hlt,hr,-⟩
  · cases hs
  · cases hs
  induction os generalizing rest c w with
  | nil =>
    rw [sendfileLoop_nil hlt hr] at h
    cases h
  | cons o os ih =>
    rw [sendfileLoop_cons hlt hr] at h
    cases o with
    | eagain =>
      simp only [Run.ret.injEq,Prod.mk.injEq,true_and] at h
      obtain ⟨⟨rfl,rfl⟩,rfl⟩ := h
      exact ⟨hlt,hr,rfl,rfl⟩
    | error epipe => simp at h
    | count n =>
      rcases sendfileLoop_ret h with ⟨-,hs,-⟩ | ⟨-,-,hs,-⟩ | ⟨hlt',hr',-⟩
      · cases hs
      · cases hs
      · have hrest := ih h hlt' hr'
        exact hrest

theorem processSendfile_waiting {c c' : Client} {size : ℕ} {rest : Bytes} {w w' : World}
    (hb : c.bucket = none) (hfile : c.response.map Response.kind = some (.file size rest))
    (h : processSendfile c rest w = .ret (.SUSPEND,c') w') : c'.bucket = none ∧ c'.Waiting := by
  obtain ⟨⟨s1,c1,rest1⟩,v,hloop,h⟩ := Action.bind_eq_ret.mp h
  cases s1 with
  | OK =>
    obtain ⟨s2,closed,n,hcl,hs⟩ := closeResponse_spec
      { c1 with response := c1.response.map (·.seek rest1) } v
    replace h : closeResponse { c1 with response := c1.response.map (·.seek rest1) } v =
      .ret (.SUSPEND,c') w' := h
    rw [hcl] at h
    simp only [Run.ret.injEq,Prod.mk.injEq] at h
    rcases hs with rfl | ⟨rfl,_⟩ <;> simp at h
  | ERROR => simp at h
  | SUSPEND =>
    simp only [Action.pure_apply,Run.ret.injEq,Prod.mk.injEq,true_and] at h
    obtain ⟨rfl,rfl⟩ := h
    obtain ⟨hlt,hr1,hresp,hbucket⟩ := sendfileLoop_suspended hloop
    obtain ⟨r,hr,hk⟩ := Option.map_eq_some_iff.mp hfile
    have hnone : c1.bucket = none := hbucket.trans hb
    exact ⟨hnone,.file size rest1 hnone hlt hr1 (by simp [hresp,hr,Response.seek,hk])⟩

theorem processSendfile_drains {c c' : Client} {size : ℕ} {rest : Bytes} {w w' : World}
    {s : ResponseStatus} (hb : c.bucket = none) (hlt : c.writeBytes < c.contentLength)
    (hr : sendfileRefuses c.contentLength = false)
    (hfile : c.response.map Response.kind = some (.file size rest)) (hos : Nonfatal w.outcomes)
    (h : processSendfile c rest w = .ret (s,c') w') :
    w.sent.length < w'.sent.length ∨ s = .SUSPEND ∧ c'.bucket = none ∧ c'.Waiting := by
  have hsus : s = .SUSPEND → c'.bucket = none ∧ c'.Waiting := fun hs =>
    processSendfile_waiting hb hfile (hs ▸ h)
  obtain ⟨⟨s1,c1,rest1⟩,v,hloop,h⟩ := Action.bind_eq_ret.mp h
  have hgrow := sendfileLoop_grows hlt hr hos hloop
  cases s1 with
  | OK =>
    exact .inl ((hgrow.resolve_right (by simp)).trans_le (closeResponse_carries h).sent.length_le)
  | SUSPEND =>
    simp only [Action.pure_apply,Run.ret.injEq,Prod.mk.injEq] at h
    obtain ⟨⟨rfl,_⟩,rfl⟩ := h
    exact hgrow.imp_right fun _ => ⟨rfl,hsus rfl⟩
  | ERROR =>
    simp only [Action.pure_apply,Run.ret.injEq,Prod.mk.injEq] at h
    obtain ⟨_,rfl⟩ := h
    exact .inl (hgrow.resolve_right (by simp))

/-- The end of a response after a bucket that was suspended. -/
theorem processRest_drains {c c' : Client} {w w' : World} {s : ResponseStatus} {n : ℕ}
    (hb : c.bucket = none) (hos : Nonfatal w.outcomes) (h : processRest c w = .ret (s,c') w') :
    Drains (c.Spent (.count n :: w.outcomes)) w s c' w' := by
  have hresp : c.response.isSome := by
    cases hr : c.response with
    | none => simp [processRest,hr,die] at h
    | some r => rfl
  obtain ⟨r,hr⟩ := Option.isSome_iff_exists.mp hresp
  by_cases hiter : c.Iterates
  · rw [Client.Spent.of_iterates hiter]
    rw [processRest_iterates hiter hresp] at h
    cases hi : c.responseIter with
    | none =>
      simp only [processWrite,hi,Action.pure_apply,Run.ret.injEq,Prod.mk.injEq] at h
      obtain ⟨⟨rfl,rfl⟩,rfl⟩ := h
      exact ⟨fun _ => ⟨rfl,by simp,by simp⟩,by simp⟩
    | some items =>
      simp only [processWrite,hi] at h
      exact (processItems_drains hiter hos h).after (by simp) rfl
  · simp only [Client.Iterates,not_forall,not_not] at hiter
    obtain ⟨size,rest,hfile⟩ := hiter
    have hk : r.kind = .file size rest := by simpa [hr] using hfile
    have hidle : c.Spent (.count n :: w.outcomes) ↔ c.contentLength ≤ c.writeBytes ∨
        sendfileRefuses c.contentLength = true ∧ c.ending.page = false := by
      simp only [Client.Spent,hfile]
    rw [hidle]
    simp only [processRest,hr,hk] at h
    by_cases hle : c.contentLength ≤ c.writeBytes
    · obtain ⟨⟨s1,c1,rest1⟩,v,hloop,h⟩ := Action.bind_eq_ret.mp h
      rw [sendfileLoop_done hle] at hloop
      simp only [Run.ret.injEq,Prod.mk.injEq] at hloop
      obtain ⟨⟨rfl,rfl,rfl⟩,rfl⟩ := hloop
      exact .of_close h (.inl hle)
    · cases href : sendfileRefuses c.contentLength with
      | true =>
        obtain ⟨⟨s1,c1,rest1⟩,v,hloop,h⟩ := Action.bind_eq_ret.mp h
        rw [sendfileLoop_refused (by omega) href] at hloop
        simp only [Run.ret.injEq,Prod.mk.injEq] at hloop
        obtain ⟨⟨rfl,rfl,rfl⟩,rfl⟩ := hloop
        simp only [Action.pure_apply,Run.ret.injEq,Prod.mk.injEq] at h
        obtain ⟨⟨rfl,rfl⟩,rfl⟩ := h
        have hpage : Client.ending { c with
            keepAlive := false
            statusCode := 500
            response := c.response.map (·.seek rest) } = c.ending := by
          simp only [Client.ending]
          congr 2
          exact congrArg (_ || ·) (closes_seek c rest)
        refine ⟨fun h0 => ⟨rfl,by simp,fun _ => ?_⟩,fun h0 => .inr (.inr ⟨rfl,?_⟩)⟩
        · rw [hpage]
          exact (h0.resolve_left hle).2
        · rw [hpage]
          simpa [hle] using h0
      | false =>
        have hnot : ¬(c.contentLength ≤ c.writeBytes ∨ false = true ∧ c.ending.page = false) := by
          simp [hle]
        rcases processSendfile_drains hb (by omega) href hfile hos h with hg | ⟨rfl,hnone,_⟩
        · exact .of_grows hnot hg
        · exact ⟨fun h0 => absurd h0 hnot,
            fun _ => .inr (.inl ⟨rfl,Client.Drained.not_none hnone _⟩)⟩

/-- One turn of the loop of `app_handler` on a response that waits. -/
theorem processBody_drains {c c' : Client} {w w' : World} {s : ResponseStatus} (hc : c.Waiting)
    (hos : Nonfatal w.outcomes) (h : processBody c w = .ret (s,c') w') :
    Drains (c.Drained w.outcomes) w s c' w' := by
  cases hc with
  | bucket b hb =>
    simp only [processBody,hb] at h
    obtain ⟨⟨s1,b1⟩,v,hv,h⟩ := Action.bind_eq_ret.mp h
    have hos1 := hos.suffix (writevBucket_writes hv).outcomes
    by_cases hnil : b.bytes = []
    · rw [drained_iff hb hnil]
      rcases writevBucket_empty hnil hos hv with ⟨ho,hs,rfl,hsent⟩ | ⟨n,ho,hs,hsize,hsent⟩
      · subst hs
        simp only [Action.pure_apply,Run.ret.injEq,Prod.mk.injEq] at h
        obtain ⟨⟨rfl,rfl⟩,rfl⟩ := h
        have hiff : Client.Drained { c with bucket := some b1 } v.outcomes ↔
            c.resumed.Spent w.outcomes := by
          rw [drained_iff rfl hnil,ho,Client.Spent.eagain]
          simp only [Client.resumed,hb]
        exact ⟨fun h0 => ⟨hsent,fun _ => hiff.mpr h0,by simp⟩,
          fun h0 => .inr (.inl ⟨rfl,mt hiff.mp h0⟩)⟩
      · subst hs
        have hres : c.resumed = { c with
            writeBytes := c.writeBytes + b1.totalSize, bucket := none } := by
          simp only [Client.resumed,hb,hsize]
        rw [ho,hres]
        exact (processRest_drains rfl hos1 h).after Iff.rfl hsent
    · have hnd := Client.Drained.not_ne_nil hb hnil w.outcomes
      rcases writevBucket_nonempty hnil hos hv with ⟨_,hs,rfl,_⟩ | ⟨_,hg⟩
      · subst hs
        simp only [Action.pure_apply,Run.ret.injEq,Prod.mk.injEq] at h
        obtain ⟨⟨rfl,rfl⟩,rfl⟩ := h
        exact ⟨fun h0 => absurd h0 hnd,
          fun _ => .inr (.inl ⟨rfl,Client.Drained.not_ne_nil rfl hnil _⟩)⟩
      · refine .of_grows hnd (hg.trans_le ?_)
        cases s1 with
        | OK => exact (processRest_carries h).sent.length_le
        | SUSPEND =>
          simp only [Action.pure_apply,Run.ret.injEq] at h
          rw [h.2]
        | ERROR =>
          simp only [Action.pure_apply,Run.ret.injEq] at h
          rw [h.2]
  | file size rest hb hlt href hfile =>
    have hnd := Client.Drained.not_none hb w.outcomes
    obtain ⟨r,hr,hk⟩ := Option.map_eq_some_iff.mp hfile
    have hbody : processBody c = processSendfile c rest := by
      simp only [processBody,hb,processRest,hr,hk]
    rw [hbody] at h
    rcases processSendfile_drains hb hlt href hfile hos h with hg | ⟨rfl,hnone,_⟩
    · exact .of_grows hnd hg
    · exact ⟨fun h0 => absurd h0 hnd,
        fun _ => .inr (.inl ⟨rfl,Client.Drained.not_none hnone _⟩)⟩

/-- What is suspended after its bucket waits. -/
theorem processRest_waiting {c c' : Client} {w w' : World} (hb : c.bucket = none)
    (h : processRest c w = .ret (.SUSPEND,c') w') : c'.Waiting := by
  have hresp : c.response.isSome := by
    cases hr : c.response with
    | none => simp [processRest,hr,die] at h
    | some r => rfl
  obtain ⟨r,hr⟩ := Option.isSome_iff_exists.mp hresp
  by_cases hiter : c.Iterates
  · rw [processRest_iterates hiter hresp] at h
    cases hi : c.responseIter with
    | none => simp [processWrite,hi] at h
    | some items =>
      simp only [processWrite,hi] at h
      obtain ⟨⟨s1,c1⟩,v,hv,h⟩ := Action.bind_eq_ret.mp h
      have hs := finishWrite_suspend h
      rw [hs] at hv
      obtain ⟨b,hb⟩ := processItems_waiting hv
      exact .bucket b hb
  · simp only [Client.Iterates,not_forall,not_not] at hiter
    obtain ⟨size,rest,hfile⟩ := hiter
    have hk : r.kind = .file size rest := by simpa [hr] using hfile
    have hrest : processRest c = processSendfile c rest := by simp only [processRest,hr,hk]
    rw [hrest] at h
    exact (processSendfile_waiting hb hfile h).2

theorem processBody_waiting {c c' : Client} {w w' : World}
    (h : processBody c w = .ret (.SUSPEND,c') w') : c'.Waiting := by
  unfold processBody at h
  cases hb : c.bucket with
  | none =>
    simp only [hb] at h
    exact processRest_waiting hb h
  | some b =>
    simp only [hb] at h
    obtain ⟨⟨s1,b1⟩,v,hv,h⟩ := Action.bind_eq_ret.mp h
    cases s1 with
    | OK => exact processRest_waiting rfl h
    | SUSPEND =>
      simp only [Action.pure_apply,Run.ret.injEq,Prod.mk.injEq,true_and] at h
      obtain ⟨rfl,rfl⟩ := h
      exact .bucket b1 rfl
    | ERROR => simp at h

/-- The loop of `app_handler` sends something more, or asks for a page, exactly when the response
has not drained. -/
theorem appLoop_drains {fuel : ℕ} {c c' : Client} {w w' : World} {s : ResponseStatus}
    (hc : c.Waiting) (hos : Nonfatal w.outcomes)
    (h : appLoop fuel .SUSPEND c w = .ret (s,c') w') :
    (c.Drained w.outcomes → w'.sent = w.sent ∧ (s = .ERROR → c'.ending.page = false)) ∧
      (¬c.Drained w.outcomes →
        w.sent.length < w'.sent.length ∨ s = .ERROR ∧ c'.ending.page = true) := by
  induction fuel generalizing c w with
  | zero => simp [appLoop,die] at h
  | succ fuel ih =>
    rw [appLoop] at h
    obtain ⟨⟨s1,c1⟩,v,hbody,hloop⟩ := Action.bind_eq_ret.mp h
    have hd := processBody_drains hc hos hbody
    have hcar := processBody_carries hbody
    by_cases hs : s1 = .SUSPEND
    · subst hs
      obtain ⟨hquiet,hloud⟩ := ih (processBody_waiting hbody) (hos.suffix hcar.outcomes) hloop
      constructor
      · intro hD
        obtain ⟨hsent,hD',_⟩ := hd.quiet hD
        obtain ⟨hsent',hpage⟩ := hquiet (hD' rfl)
        exact ⟨hsent'.trans hsent,hpage⟩
      · intro hD
        have hmono := (appLoop_carries hloop).sent.length_le
        have hmono' := hcar.sent.length_le
        rcases hd.loud hD with hg | ⟨_,hD'⟩ | ⟨h0,_⟩
        · exact .inl (hg.trans_le hmono)
        · exact (hloud hD').imp_left (hmono'.trans_lt ·)
        · simp at h0
    · rw [appLoop_of_ne hs] at hloop
      simp only [Run.ret.injEq,Prod.mk.injEq] at hloop
      obtain ⟨⟨rfl,rfl⟩,rfl⟩ := hloop
      refine ⟨fun hD => ⟨(hd.quiet hD).1,(hd.quiet hD).2.2⟩,fun hD => ?_⟩
      rcases hd.loud hD with hg | ⟨h0,_⟩ | h1
      · exact .inl hg
      · exact absurd h0 hs
      · exact .inr h1

/-! Where `response_start` leaves a response that it suspends. -/

variable {g : Globals} {a : Answer} {w w' : World}

theorem responseStart_waiting {c' : Client}
    (h : responseStart g a.start w = .ret (.SUSPEND,c') w') : c'.Waiting := by
  by_cases hstart : a.Startable
  swap
  · obtain ⟨items,heq⟩ := responseStart_unstartable (g := g) hstart
    simp [heq] at h
  obtain ⟨f,hf⟩ := exists_afterHead g hstart
  by_cases hacc : a.Accepted g
  swap
  · rcases writeHeaders_rejected hacc with ⟨c0,hc0⟩ | hc0
    · obtain ⟨c1,heq,-⟩ := hf.error c0
      rw [hf.start,hc0,Action.pure_bind,heq] at h
      simp at h
    · rw [hf.start,hc0,Action.bind_apply] at h
      simp [die] at h
  obtain ⟨b,hb,heq⟩ := writeHeaders_accepted hacc
  rw [hf.start,heq] at h
  obtain ⟨⟨s1,c1⟩,v,hhead,h⟩ := Action.bind_eq_ret.mp h
  rcases (writeHead_cases hhead).2 with ⟨rfl,_,rfl⟩ | ⟨rfl,k,b1,hsus,_,rfl⟩ | ⟨rfl,_⟩
  · replace h : f (.OK,a.direct) v = .ret (.SUSPEND,c') w' := h
    rw [hf.ok] at h
    split at h
    · simp at h
    · exact processRest_waiting rfl h
  · rw [hf.suspend b1 (hsus.freed.trans hb.opening.counted.freed)] at h
    simp only [Action.pure_apply,Run.ret.injEq,Prod.mk.injEq,true_and] at h
    obtain ⟨rfl,rfl⟩ := h
    exact .bucket { b1 with freed := a.releases } rfl
  · obtain ⟨c2,hc2,-⟩ := hf.error c1
    rw [hc2] at h
    simp at h

/-! The two builds. -/

/-- `response_start` does not return `STATUS_SUSPEND`, or nothing is left to send when it does. -/
def WrittenAtOnce (g : Globals) (a : Answer) (os : List Outcome) : Prop :=
  ∀ c w, responseStart g a.start ⟨os,[],0⟩ = .ret (.SUSPEND,c) w → c.Drained w.outcomes

theorem closeClient_spec (c : Client) (w : World) :
    ∃ c' n, closeClient c w = .ret c' { w with closeCalls := n } := by
  by_cases hc : c.responseClosed = true
  · exact ⟨cleanClient c,w.closeCalls,by
      simp only [closeClient,hc,if_true,Action.bind_apply,Action.pure_apply]⟩
  · obtain ⟨s,closed,n,hcl,_⟩ := closeResponse_spec c w
    refine ⟨cleanClient { c with responseClosed := closed },n,?_⟩
    rw [closeClient,if_neg hc,Action.bind_apply,hcl]
    rfl

theorem closeClient_sent {c c' : Client} (h : closeClient c w = .ret c' w') : w'.sent = w.sent := by
  obtain ⟨c1,n,hc⟩ := closeClient_spec c w
  rw [hc] at h
  rw [← (Run.ret.inj h).2]

theorem Registered.close_spec (p : Registered) (w : World) : ∃ c n, p.close w =
    .ret ⟨c,false,p.closed ++ [w.sent]⟩ { w with closeCalls := n } := by
  obtain ⟨c,n,hc⟩ := closeClient_spec p.client w
  exact ⟨c,n,by simp only [Registered.close,Action.bind_apply,hc,Action.pure_apply]⟩

/-- What follows the loop of `app_handler` is an error page at most. -/
theorem endResponse_adds {s : ResponseStatus} {c c' : Client} (hos : Nonfatal w.outcomes)
    (h : endResponse (s,c) w = .ret c' w') :
    (¬(s = .ERROR ∧ c.ending.page = true) → w'.sent = w.sent) ∧
      (s = .ERROR ∧ c.ending.page = true → w.sent.length < w'.sent.length) := by
  have hclose : (closeResponse c >>= fun r => pure r.2) w = .ret c' w' → w'.sent = w.sent := by
    intro h
    obtain ⟨r,v,hv,h⟩ := Action.bind_eq_ret.mp h
    obtain ⟨s1,closed,n,hcl,_⟩ := closeResponse_spec c w
    rw [hcl] at hv
    simp only [Action.pure_apply,Run.ret.injEq] at h
    rw [← h.2,← (Run.ret.inj hv).2]
  cases s with
  | OK => exact ⟨fun _ => hclose h,by simp⟩
  | SUSPEND => exact ⟨fun _ => hclose h,by simp⟩
  | ERROR =>
    have herr := appError_nonfatal hos h
    have hpage : c.ending.page = true ↔
        ¬(c.headerDone = true ∨ c.responseClosed = true ∨ c.closes = true) := by
      simp [Client.ending,and_assoc]
    simp only [true_and,hpage,not_not]
    split at herr
    next hq => exact ⟨fun _ => herr.1,fun h0 => absurd hq h0⟩
    next hq =>
      refine ⟨fun h0 => absurd h0 hq,fun _ => ?_⟩
      have hpos := List.length_pos_of_ne_nil page500_ne_nil
      rw [herr.1,List.length_append]
      omega

theorem writeEvents_closed {p : Registered} (hp : p.writeEvent = false) (n : ℕ) (w : World) :
    writeEvents n p w = .ret p w := by
  cases n <;> simp [writeEvents,hp]

theorem deliversPlain_of_closed {os : List Outcome} {p : Registered} {v : World} {t : Bytes}
    (h : appHandlerPlain g a.start ⟨os,[],0⟩ = p.close v) (hp : p.closed = []) :
    DeliversPlain g a os t ↔ v.sent = t := by
  obtain ⟨c,k,hclose⟩ := p.close_spec v
  have hrun : ∀ n, (appHandlerPlain g a.start >>= writeEvents n) ⟨os,[],0⟩ =
      .ret ⟨c,false,[v.sent]⟩ { v with closeCalls := k } := by
    intro n
    rw [Action.bind_apply,h,hclose,hp]
    exact writeEvents_closed rfl n _
  constructor
  · intro hd
    obtain ⟨p',w',hw',hsent,-⟩ := hd os.length le_rfl
    rw [hrun] at hw'
    obtain ⟨-,rfl⟩ := Run.ret.inj hw'
    exact hsent
  · rintro rfl n -
    exact ⟨_,_,hrun n,rfl,rfl⟩

/-- A response that reaches its end in the build with greenlets is delivered by the other exactly
when it is written at once. -/
theorem deliversPlain_iff {os : List Outcome} {c1 : Client} {w1 : World} (hos : Nonfatal os)
    (h : (respond g a.start >>= closeClient) ⟨os,[],0⟩ = .ret c1 w1) :
    DeliversPlain g a os w1.sent ↔ WrittenAtOnce g a os := by
  obtain ⟨c0,v0,hresp,hclose⟩ := Action.bind_eq_ret.mp h
  rw [closeClient_sent hclose]
  obtain ⟨⟨s,c⟩,v,hwrite,hend⟩ := Action.bind_eq_ret.mp hresp
  obtain ⟨⟨s1,c1⟩,v1,hstart,hloop⟩ := Action.bind_eq_ret.mp hwrite
  have hos1 : Nonfatal v1.outcomes := hos.suffix (responseStart_carries hstart).outcomes
  have hend' := endResponse_adds (hos1.suffix (appLoop_carries hloop).outcomes) hend
  have honce : s1 ≠ .SUSPEND → WrittenAtOnce g a os := fun hs c' w' h' => by
    rw [hstart] at h'
    exact absurd (Prod.mk.inj (Run.ret.inj h').1).1 hs
  cases s1 with
  | ERROR =>
    rw [appLoop_of_ne (by simp)] at hloop
    simp only [Run.ret.injEq,Prod.mk.injEq] at hloop
    obtain ⟨⟨rfl,rfl⟩,rfl⟩ := hloop
    have happ : appError c1 v1 = .ret c0 v0 := hend
    have hplain : appHandlerPlain g a.start ⟨os,[],0⟩ = Registered.close ⟨c0,false,[]⟩ v0 := by
      rw [appHandlerPlain,Action.bind_apply,hstart]
      simp only [Action.bind_apply,happ]
    rw [deliversPlain_of_closed hplain rfl]
    exact ⟨fun _ => honce (by simp),fun _ => rfl⟩
  | OK =>
    rw [appLoop_of_ne (by simp)] at hloop
    simp only [Run.ret.injEq,Prod.mk.injEq] at hloop
    obtain ⟨⟨rfl,rfl⟩,rfl⟩ := hloop
    have hplain : appHandlerPlain g a.start ⟨os,[],0⟩ = Registered.close ⟨c1,false,[]⟩ v1 := by
      rw [appHandlerPlain,Action.bind_apply,hstart]
    rw [deliversPlain_of_closed hplain rfl]
    exact ⟨fun _ => honce (by simp),fun _ => (hend'.1 (by simp)).symm⟩
  | SUSPEND =>
    have hplain : appHandlerPlain g a.start ⟨os,[],0⟩ = Registered.close ⟨c1,true,[]⟩ v1 := by
      rw [appHandlerPlain,Action.bind_apply,hstart]
    rw [deliversPlain_of_closed hplain rfl]
    obtain ⟨hquiet,hloud⟩ := appLoop_drains (responseStart_waiting hstart) hos1 hloop
    have hiff : WrittenAtOnce g a os ↔ c1.Drained v1.outcomes := by
      refine ⟨fun hw => hw c1 v1 hstart,fun hd c' w' h' => ?_⟩
      rw [hstart] at h'
      obtain ⟨h1,rfl⟩ := Run.ret.inj h'
      exact (Prod.mk.inj h1).2 ▸ hd
    rw [hiff]
    have hmono := (appLoop_carries hloop).sent.length_le
    constructor
    · intro hsame
      by_contra hd
      have hlt : v1.sent.length < v0.sent.length := by
        by_cases hpage : s = .ERROR ∧ c.ending.page = true
        · exact hmono.trans_lt (hend'.2 hpage)
        · rw [hend'.1 hpage]
          exact (hloud hd).resolve_right hpage
      rw [hsame] at hlt
      exact lt_irrefl _ hlt
    · intro hd
      obtain ⟨hsent,hpage⟩ := hquiet hd
      rw [hend'.1 fun h0 => by simp [hpage h0.1] at h0,hsent]

theorem respond_closes {os : List Outcome} {c : Client} {w : World}
    (h : respond g a.start ⟨os,[],0⟩ = .ret c w) : ∃ c1 n,
    (respond g a.start >>= closeClient) ⟨os,[],0⟩ = .ret c1 { w with closeCalls := n } := by
  obtain ⟨c1,n,hc⟩ := closeClient_spec c w
  exact ⟨c1,n,by rw [Action.bind_apply,h]; exact hc⟩

theorem responseStart_item {d : Bytes} (hacc : a.Accepted g) (h304 : a.client.statusCode ≠ 304)
    (hk : a.response.kind = .iter [.bytes d]) (hch : a.headed.chunkedResponse = false) :
    responseStart g a.start ⟨[.count (a.opening g).length],[],0⟩ =
      closeResponse { a.direct with responseIter := some [] } ⟨[],a.opening g,0⟩ := by
  have hstart : a.Startable := .inr (by simp [hk])
  obtain ⟨f,hf⟩ := exists_afterHead g hstart
  obtain ⟨b,hb,heq⟩ := writeHeaders_accepted hacc
  have hhead := writeHead_count hb (w := ⟨[.count (a.opening g).length],[],0⟩) rfl
    (by rw [take_all]; exact Nat.mod_le _ _)
  have hitems : a.direct.responseIter = some [] :=
    (headed_responseIter a).trans (by simp [Answer.items,h304,hk])
  have hch' : Client.chunkedResponse { a.direct with responseIter := some [] } = false := hch
  rw [hf.start,heq,Action.bind_apply,hhead,take_all]
  simp only [hf.ok,if_neg h304,processRest_direct_iter hk,processWrite,hitems,processItems,
    Action.pure_bind]
  rw [finishWrite_plain hch']
  rfl

set_option maxRecDepth 4000 in
theorem deliversPlain_one_item : ∃ n c w,
    (respond {} (lengthAnswer "5" [ascii "hello"]).start >>= closeClient) ⟨[.count n],[],0⟩ = .ret c w ∧
      DeliversPlain {} (lengthAnswer "5" [ascii "hello"]) [.count n] w.sent := by
  have hstart := responseStart_item (g := {}) (a := lengthAnswer "5" [ascii "hello"])
    ⟨_,_,_,rfl,rfl⟩ (by decide) rfl rfl
  obtain ⟨s,closed,k,hcl,hs⟩ := closeResponse_spec
    { (lengthAnswer "5" [ascii "hello"]).direct with responseIter := some [] }
    ⟨[],(lengthAnswer "5" [ascii "hello"]).opening {},0⟩
  rw [hcl] at hstart
  have hne : s ≠ .SUSPEND := by rcases hs with rfl | ⟨rfl,_⟩ <;> simp
  obtain ⟨c1,w1,hend,_⟩ := endResponse_sent (c := { (lengthAnswer "5" [ascii "hello"]).direct with
      responseIter := some [], responseClosed := closed }) hs
    ⟨[],(lengthAnswer "5" [ascii "hello"]).opening {},k⟩
  obtain ⟨c,m,hrun⟩ := respond_closes (Action.bind_eq_ret.mpr
    ⟨_,_,writeResponse_of_start hstart hne,hend⟩)
  refine ⟨_,c,_,hrun,(deliversPlain_iff (.cons rfl (by simp [Nonfatal])) hrun).mpr ?_⟩
  intro c' w' h
  rw [hstart] at h
  exact absurd (Prod.mk.inj (Run.ret.inj h).1).1 hne

theorem responseStart_eagain (os : List Outcome) (hacc : a.Accepted g) (hstart : a.Startable) :
    ∃ c, responseStart g a.start ⟨.eagain :: os,[],0⟩ = .ret (.SUSPEND,c) ⟨os,[],0⟩ := by
  obtain ⟨f,hf⟩ := exists_afterHead g hstart
  obtain ⟨b,hb,heq⟩ := writeHeaders_accepted hacc
  have hhead := writeHead_eagain hb (w := ⟨.eagain :: os,[],0⟩) rfl
  refine ⟨{ a.headed with
    bucket := some { setFirstBodyData a.headed b a.first with freed := a.releases } },?_⟩
  rw [hf.start,heq,Action.bind_apply,hhead]
  simp only [hf.suspend _ hb.opening.counted.freed,Action.pure_apply]

set_option maxRecDepth 4000 in
/-- The first `writev` gives `EAGAIN`: the client is closed before a byte is sent. -/
theorem not_deliversPlain_eagain : ∃ n c w,
    (respond {} (lengthAnswer "5" [ascii "hello"]).start >>= closeClient)
      ⟨[.eagain,.count n],[],0⟩ = .ret c w ∧
      ¬DeliversPlain {} (lengthAnswer "5" [ascii "hello"]) [.eagain,.count n] w.sent := by
  have hacc : (lengthAnswer "5" [ascii "hello"]).Accepted {} := ⟨_,_,_,rfl,rfl⟩
  have hstart : (lengthAnswer "5" [ascii "hello"]).Startable :=
    .inr fun i hi => ⟨ascii "hello",(Option.some.inj hi).symm⟩
  have hrest : processRest ((lengthAnswer "5" [ascii "hello"]).delayed {}) =
      closeResponse ((lengthAnswer "5" [ascii "hello"]).delayed {}) := rfl
  have hopen : ((lengthAnswer "5" [ascii "hello"]).opening {}).length % 2 ^ 32 ≤
      (((lengthAnswer "5" [ascii "hello"]).opening {}).take
        (((lengthAnswer "5" [ascii "hello"]).opening {}).length + 1)).length := by
    rw [take_all]
    exact Nat.mod_le _ _
  have hsends := sends_delayed hacc hstart rfl (.inl rfl) hopen (hrest ▸ realizes_close _ [])
  obtain ⟨c,w,hrun,hsent⟩ := hsends.respond
  obtain ⟨c1,k,hclosed⟩ := respond_closes hrun
  refine ⟨_,c1,_,hclosed,fun hd => ?_⟩
  obtain ⟨c2,hsus⟩ := responseStart_eagain
    [.count ((lengthAnswer "5" [ascii "hello"]).opening {}).length] hacc hstart
  have hplain : appHandlerPlain {} (lengthAnswer "5" [ascii "hello"]).start
      ⟨[.eagain,.count ((lengthAnswer "5" [ascii "hello"]).opening {}).length],[],0⟩ =
      Registered.close ⟨c2,true,[]⟩
        ⟨[.count ((lengthAnswer "5" [ascii "hello"]).opening {}).length],[],0⟩ := by
    rw [appHandlerPlain,Action.bind_apply,hsus]
  have hnil := (deliversPlain_of_closed hplain rfl).mp hd
  rw [hsent,take_all,List.append_nil] at hnil
  have hpos := head_pos {} (lengthAnswer "5" [ascii "hello"])
  have hlen := congrArg List.length hnil
  simp only [Answer.opening,List.length_append,List.length_nil] at hlen
  omega

end Meinheld
