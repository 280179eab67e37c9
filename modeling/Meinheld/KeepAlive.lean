import Meinheld.Endings

/-! What becomes of `keep_alive` over a response: an error page clears it, and so does a `sendfile`
that fails. -/
namespace Meinheld

theorem closeResponse_keepAlive {c c' : Client} {s : ResponseStatus} {w w' : World}
    (h : closeResponse c w = .ret (s,c') w') : c'.keepAlive = c.keepAlive := by
  obtain ⟨s1,closed,n,hcl,-⟩ := closeResponse_spec c w
  rw [hcl] at h
  simp only [Run.ret.injEq,Prod.mk.injEq] at h
  obtain ⟨⟨-,rfl⟩,-⟩ := h
  rfl

theorem sendErrorPage_keepAlive {c c' : Client} {w w' : World} (h : sendErrorPage c w = .ret c' w') :
    c'.keepAlive = (c.keepAlive && (c.headerDone || c.responseClosed)) := by
  unfold sendErrorPage at h
  split at h
  next hdone =>
    simp only [Action.pure_apply,Run.ret.injEq] at h
    obtain ⟨rfl,-⟩ := h
    simp [hdone]
  next hdone =>
    obtain ⟨c1,v,-,h⟩ := Action.bind_eq_ret.mp h
    simp only [Action.pure_apply,Run.ret.injEq] at h
    obtain ⟨rfl,-⟩ := h
    obtain ⟨h1,h2⟩ := not_or.mp hdone
    simp [h1,h2]

theorem endResponse_keepAlive {r : ResponseStatus × Client} {c' : Client} {w w' : World}
    (h : endResponse r w = .ret c' w') : c'.keepAlive = (r.2.keepAlive &&
      (r.1 ≠ .ERROR || r.2.headerDone || r.2.responseClosed || r.2.closes)) := by
  obtain ⟨s,c⟩ := r
  cases s with
  | ERROR =>
    obtain ⟨⟨s1,c1⟩,v,hv,h⟩ := Action.bind_eq_ret.mp h
    have hcarries := closeResponse_carries hv
    have hclosed : c1.responseClosed = (c.responseClosed || c.closes) := by
      cases hcl : c.closes with
      | true => simpa using closeResponse_closed (c := { c with statusCode := 500 }) hcl hv
      | false =>
        rcases hcarries.closing with ⟨hsame,-⟩ | ⟨-,hcloses,-⟩
        · simpa using hsame
        · have hfalse : c.closes = true := hcloses
          simp [hcl] at hfalse
    have hkeep := closeResponse_keepAlive hv
    simp only at hkeep
    have hdone : c1.headerDone = c.headerDone := hcarries.headerDone
    rw [sendErrorPage_keepAlive h,hkeep,hdone,hclosed]
    simp [Bool.or_assoc]
  | OK =>
    obtain ⟨⟨s1,c1⟩,v,hv,h⟩ := Action.bind_eq_ret.mp h
    simp only [Action.pure_apply,Run.ret.injEq] at h
    obtain ⟨rfl,-⟩ := h
    simpa using closeResponse_keepAlive hv
  | SUSPEND =>
    obtain ⟨⟨s1,c1⟩,v,hv,h⟩ := Action.bind_eq_ret.mp h
    simp only [Action.pure_apply,Run.ret.injEq] at h
    obtain ⟨rfl,-⟩ := h
    simpa using closeResponse_keepAlive hv

/-! ### The schedule of a response that breaks off -/

/-- How a bucket comes to its end, with what is left of the schedule: `waited` tells whether
`EAGAIN` came before. -/
inductive Drained
  | failed (waited : Bool)
  | taken (waited : Bool) (os : List Outcome)
  deriving DecidableEq, Repr

/-- `writev_bucket`, called again after every `EAGAIN`. -/
def drain : Bool → List Outcome → WriteBucket → Option Drained
  | _, [], _ => none
  | _, .eagain :: os, b => drain true os b
  | waited, .error _ :: _, _ => some (.failed waited)
  | waited, .count n :: os, b =>
    let r := (b.bytes.take (n + 1)).length
    if r ≠ 0 ∧ b.total > r then
      drain waited os { b with iov := advance r b.iov, total := b.total - advanceLeft r b.iov }
    else some (.taken waited os)

/-- `process_write` meets an item that is no bytes, or an error of the socket in an item; `bucket`
makes the buckets of the items, and `w` is `write_bytes`. -/
def itemsBreak (bucket : Bytes → WriteBucket) (limit : Option ℕ) :
    List Item → ℕ → List Outcome → Bool
  | [], _, _ => false
  | .raise :: _, _, _ => true
  | .other :: _, _, _ => true
  | .bytes d :: items, w, os =>
    match drain false os (bucket d) with
    | none => false
    | some (.failed _) => true
    | some (.taken true os) => itemsBreak bucket limit items (w + (bucket d).totalSize) os
    | some (.taken false os) =>
      !limit.any (· ≤ w + d.length) && itemsBreak bucket limit items (w + d.length) os

/-- `process_sendfile` meets an error of the socket, or a length that is refused: `n` is the length
and `w` counts what was sent of it. -/
def fileBreaks (n : ℕ) : List Outcome → ℕ → Bytes → Bool
  | [], w, _ => decide (w < n) && sendfileRefuses n
  | o :: os, w, rest =>
    decide (w < n) && (sendfileRefuses n || match o with
      | .eagain => fileBreaks n os w rest
      | .error _ => true
      | .count k =>
        let r := rest.take (min (k + 1) (sendfileCount n))
        fileBreaks n os (w + r.length) (rest.drop r.length))

/-- `app_handler` sends an error page when the response of the client fails. -/
def Client.pages (c : Client) : Bool := !c.headerDone && !c.responseClosed && !c.closes

/-- `process_write` or `process_sendfile` ends so that `keep_alive` is cleared. -/
def Client.restBreaks (c : Client) (os : List Outcome) : Bool :=
  match c.response.map Response.kind with
  | some (.file _ rest) => fileBreaks c.contentLength os c.writeBytes rest
  | _ => match c.responseIter with
    | none => false
    | some items => c.pages && itemsBreak (itemBucket c) c.limit items c.writeBytes os

/-- A client that waits ends so that `keep_alive` is cleared. -/
def Client.bodyBreaks (c : Client) (os : List Outcome) : Bool :=
  match c.bucket with
  | none => c.restBreaks os
  | some b => match drain true os b with
    | none => false
    | some (.failed _) => c.pages
    | some (.taken _ os) => c.resumed.restBreaks os

/-- `keep_alive` as the end of the response will leave it. -/
def keeps (r : ResponseStatus × Client) (os : List Outcome) : Bool :=
  r.2.keepAlive && match r.1 with
    | .OK => true
    | .ERROR => !r.2.pages
    | .SUSPEND => !r.2.bodyBreaks os

/-! ### A run on its schedule -/

theorem drain_of_writev {os : List Outcome} {b b' : WriteBucket} {w w' : World} {s : ResponseStatus}
    (waited : Bool) (h : writevBucketLoop os b w = .ret (s,b') w') :
    (s = .OK → drain waited os b = some (.taken waited w'.outcomes)) ∧
      (s = .SUSPEND → drain waited os b = drain true w'.outcomes b') ∧
      (s = .ERROR → drain waited os b = some (.failed waited)) := by
  induction os generalizing b w with
  | nil => simp [writevBucketLoop] at h
  | cons o os ih =>
    simp only [writevBucketLoop] at h
    split at h
    · cases h
    · cases o with
      | eagain =>
        simp only [Run.ret.injEq,Prod.mk.injEq] at h
        obtain ⟨⟨rfl,rfl⟩,rfl⟩ := h
        simp [drain]
      | error epipe =>
        simp only [Run.ret.injEq,Prod.mk.injEq] at h
        obtain ⟨⟨rfl,rfl⟩,rfl⟩ := h
        simp [drain]
      | count n =>
        simp only at h
        simp only [drain]
        split at h
        next hcond =>
          rw [if_pos hcond]
          exact ih h
        next hcond =>
          simp only [Run.ret.injEq,Prod.mk.injEq] at h
          obtain ⟨⟨rfl,rfl⟩,rfl⟩ := h
          rw [if_neg hcond]
          simp [World.send]

/-- What was freed does not matter. -/
theorem drain_freed (waited : Bool) (os : List Outcome) (b : WriteBucket) (freed : Bool) :
    drain waited os { b with freed := freed } = drain waited os b := by
  induction os generalizing waited b with
  | nil => rfl
  | cons o os ih =>
    cases o with
    | eagain => exact ih true b
    | error epipe => rfl
    | count n =>
      simp only [drain]
      split
      next hcond =>
        rw [if_pos (by exact hcond)]
        exact ih waited { b with
          iov := advance (b.bytes.take (n + 1)).length b.iov
          total := b.total - advanceLeft (b.bytes.take (n + 1)).length b.iov }
      next hcond => rw [if_neg (by exact hcond)]

theorem drain_true {os : List Outcome} {b : WriteBucket} {e : Drained} (h : drain true os b = some e) :
    e = .failed true ∨ ∃ os', e = .taken true os' := by
  induction os generalizing b with
  | nil => cases h
  | cons o os ih =>
    cases o with
    | eagain => exact ih h
    | error epipe => exact .inl (Option.some.inj h).symm
    | count n =>
      simp only [drain] at h
      split at h
      · exact ih h
      · exact .inr ⟨os,(Option.some.inj h).symm⟩

theorem drain_waited {os os' : List Outcome} {b : WriteBucket} {waited : Bool}
    (h : drain true os b = some (.taken waited os')) : waited = true := by
  simpa using drain_true h

theorem drain_failed {os : List Outcome} {b : WriteBucket} {waited : Bool}
    (h : drain true os b = some (.failed waited)) : waited = true := by
  simpa using drain_true h

theorem closeResponse_keeps {c : Client} {r : ResponseStatus × Client} {w w' : World}
    (os : List Outcome) (h : closeResponse c w = .ret r w') : keeps r os = c.keepAlive := by
  obtain ⟨s,closed,n,hcl,hs⟩ := closeResponse_spec c w
  rw [hcl] at h
  simp only [Run.ret.injEq] at h
  obtain ⟨rfl,-⟩ := h
  rcases hs with rfl | ⟨rfl,rfl⟩ <;> simp [keeps,Client.pages]

theorem keeps_error {c c' : Client} (h : SameFlags c c') (os : List Outcome) :
    keeps (.ERROR,c') os = (c.keepAlive && !c.pages) := by
  simp only [keeps,Client.pages,Client.closes,h.keepAlive,h.headerDone,h.responseClosed,h.response]

theorem SameFlags.pages {c c' : Client} (h : SameFlags c c') : c'.pages = c.pages := by
  simp only [Client.pages,Client.closes,h.headerDone,h.responseClosed,h.response]

theorem Client.restBreaks_iterates {c : Client} (h : c.Iterates) (os : List Outcome) :
    c.restBreaks os = match c.responseIter with
      | none => false
      | some items => c.pages && itemsBreak (itemBucket c) c.limit items c.writeBytes os := by
  unfold Client.restBreaks
  split
  next size rest hk => exact absurd hk (h size rest)
  · rfl

theorem Client.Sends.restBreaks {c : Client} {rest : Bytes} (h : c.Sends rest) (os : List Outcome) :
    c.restBreaks os = fileBreaks c.contentLength os c.writeBytes rest := by
  obtain ⟨size,hk⟩ := h
  simp only [Client.restBreaks,hk]

theorem Client.bodyBreaks_none {c : Client} (h : c.bucket = none) (os : List Outcome) :
    c.bodyBreaks os = c.restBreaks os := by
  simp only [Client.bodyBreaks,h]

/-- The end of the items leaves `keep_alive` as it is. -/
theorem finishWrite_keeps {c : Client} {r : ResponseStatus × Client} {w w' : World}
    (h : finishWrite (.OK,c) w = .ret r w') : keeps r w'.outcomes = c.keepAlive := by
  simp only [finishWrite] at h
  split at h
  · obtain ⟨r1,v,-,h⟩ := Action.bind_eq_ret.mp h
    have hkeeps := closeResponse_keeps w'.outcomes h
    exact hkeeps
  · have hkeeps := closeResponse_keeps w'.outcomes h
    exact hkeeps

/-- The loop of `process_write` on its items. -/
theorem writeItems_keeps {items : List Item} {c : Client} {r : ResponseStatus × Client}
    {w w' : World} (hiter : c.Iterates) (h : writeItems items c w = .ret r w') :
    keeps r w'.outcomes = (c.keepAlive &&
      !(c.pages && itemsBreak (itemBucket c) c.limit items c.writeBytes w.outcomes)) := by
  induction items generalizing c w with
  | nil =>
    simp only [writeItems,processItems,Action.pure_bind] at h
    simp only [itemsBreak,Bool.and_false,Bool.not_false,Bool.and_true]
    have hkeeps := finishWrite_keeps h
    exact hkeeps
  | cons i items ih =>
    cases i with
    | raise =>
      simp only [writeItems,processItems,Action.pure_bind,finishWrite,Action.pure_apply,
        Run.ret.injEq] at h
      obtain ⟨rfl,rfl⟩ := h
      rw [itemsBreak,Bool.and_true]
      exact keeps_error ⟨rfl,rfl,rfl,rfl⟩ _
    | other =>
      simp only [writeItems,processItems,Action.pure_bind,finishWrite,Action.pure_apply,
        Run.ret.injEq] at h
      obtain ⟨rfl,rfl⟩ := h
      rw [itemsBreak,Bool.and_true]
      exact keeps_error ⟨rfl,rfl,rfl,rfl⟩ _
    | bytes d =>
      simp only [writeItems,processItems,Action.bind_assoc] at h
      obtain ⟨⟨s1,b1⟩,v,hv,h⟩ := Action.bind_eq_ret.mp h
      have hdrain := drain_of_writev false hv
      have hsize : s1 ≠ .ERROR → b1.totalSize = (itemBucket c d).totalSize := by
        cases writevBucket_result hv with
        | ok _ _ _ hsize => exact fun _ => hsize
        | suspend _ _ hsus => exact fun _ => hsus.totalSize
        | error => exact fun hs => absurd rfl hs
      cases s1 with
      | OK =>
        simp only [itemsBreak,show drain false w.outcomes (itemBucket c d) = _ from hdrain.1 rfl]
        have hstop : c.limit.any (· ≤ c.writeBytes + d.length) =
            decide (c.contentLengthSet = true ∧ c.contentLength ≤ c.writeBytes + d.length) := by
          cases hset : c.contentLengthSet <;> simp [Client.limit,hset]
        rw [hstop]
        by_cases hcond : c.contentLengthSet = true ∧ c.contentLength ≤ c.writeBytes + d.length
        · simp only [hcond,and_self,decide_true,Bool.not_true,Bool.false_and,Bool.and_false,
            Bool.not_false,Bool.and_true]
          simp only [if_pos hcond,Action.pure_bind] at h
          have hkeeps := finishWrite_keeps h
          exact hkeeps
        · simp only [if_neg hcond] at h
          simp only [hcond,decide_false,Bool.not_false,Bool.true_and]
          exact ih (by exact hiter) h
      | SUSPEND =>
        simp only [Action.pure_bind,finishWrite,Action.pure_apply,Run.ret.injEq] at h
        obtain ⟨rfl,rfl⟩ := h
        have hiter' : Client.Iterates { c with
            writeBytes := c.writeBytes + b1.totalSize, responseIter := some items, bucket := none } :=
          hiter
        simp only [itemsBreak,keeps,Client.bodyBreaks,hdrain.2.1 rfl,Client.resumed]
        cases hd : drain true v.outcomes b1 with
        | none => simp
        | some e =>
          cases e with
          | failed waited => simp [Client.pages,Client.closes]
          | taken waited os =>
            obtain rfl := drain_waited hd
            simp only
            rw [Client.restBreaks_iterates hiter',hsize (by simp)]
            rfl
      | ERROR =>
        simp only [Action.pure_bind,finishWrite,Action.pure_apply,Run.ret.injEq] at h
        obtain ⟨rfl,rfl⟩ := h
        simp only [itemsBreak,hdrain.2.2 rfl,Bool.and_true]
        exact keeps_error ⟨rfl,rfl,rfl,rfl⟩ _

theorem fileBreaks_done {n w : ℕ} (h : n ≤ w) (os : List Outcome) (rest : Bytes) :
    fileBreaks n os w rest = false := by
  cases os <;> simp [fileBreaks,h]

theorem fileBreaks_refused {n w : ℕ} (h : w < n) (hr : sendfileRefuses n = true) (os : List Outcome)
    (rest : Bytes) : fileBreaks n os w rest = true := by
  cases os <;> simp [fileBreaks,h,hr]

theorem fileBreaks_cons {n w : ℕ} (h : w < n) (hr : sendfileRefuses n = false) (o : Outcome)
    (os : List Outcome) (rest : Bytes) : fileBreaks n (o :: os) w rest = match o with
      | .eagain => fileBreaks n os w rest
      | .error _ => true
      | .count k =>
        let r := rest.take (min (k + 1) (sendfileCount n))
        fileBreaks n os (w + r.length) (rest.drop r.length) := by
  cases o <;> simp only [fileBreaks,hr,h,decide_true,Bool.true_and,Bool.false_or]

theorem sendfileLoop_keeps {os : List Outcome} {rest rest' : Bytes} {c c' : Client} {w w' : World}
    {s : ResponseStatus} (hos : w.outcomes = os)
    (h : sendfileLoop os rest c w = .ret (s,c',rest') w') :
    (s = .OK → c'.keepAlive = c.keepAlive ∧
      fileBreaks c.contentLength os c.writeBytes rest = false) ∧
    (s = .ERROR → c'.keepAlive = false ∧
      fileBreaks c.contentLength os c.writeBytes rest = true) ∧
    (s = .SUSPEND → fileBreaks c.contentLength os c.writeBytes rest =
      fileBreaks c.contentLength w'.outcomes c'.writeBytes rest') ∧
    (s ≠ .ERROR → ∃ n, c' = { c with writeBytes := n }) := by
  induction os generalizing rest c w with
  | nil =>
    rcases sendfileLoop_ret h with ⟨hle,rfl,rfl,-,-⟩ | ⟨hlt,hr,rfl,rfl,-,-⟩ | ⟨-,-,o,os,hnil⟩
    · exact ⟨fun _ => ⟨rfl,fileBreaks_done hle _ _⟩,by simp,by simp,fun _ => ⟨_,rfl⟩⟩
    · simp [fileBreaks_refused hlt hr]
    · cases hnil
  | cons o os ih =>
    rcases sendfileLoop_ret h with ⟨hle,rfl,rfl,-,-⟩ | ⟨hlt,hr,rfl,rfl,-,-⟩ | ⟨hlt,hr,-⟩
    · exact ⟨fun _ => ⟨rfl,fileBreaks_done hle _ _⟩,by simp,by simp,fun _ => ⟨_,rfl⟩⟩
    · simp [fileBreaks_refused hlt hr]
    rw [sendfileLoop_cons hlt hr] at h
    rw [fileBreaks_cons hlt hr]
    cases o with
    | eagain =>
      simp only [Run.ret.injEq,Prod.mk.injEq] at h
      obtain ⟨⟨rfl,rfl,rfl⟩,rfl⟩ := h
      exact ⟨by simp,by simp,fun _ => rfl,fun _ => ⟨_,rfl⟩⟩
    | error epipe =>
      simp only [Run.ret.injEq,Prod.mk.injEq] at h
      obtain ⟨⟨rfl,rfl,rfl⟩,rfl⟩ := h
      simp
    | count n =>
      obtain ⟨hok,herr,hsus,hsame⟩ := ih rfl h
      refine ⟨hok,herr,hsus,fun hs => ?_⟩
      obtain ⟨m,rfl⟩ := hsame hs
      exact ⟨m,rfl⟩

theorem processSendfile_keeps {c : Client} {rest : Bytes} {r : ResponseStatus × Client}
    {w w' : World} (hb : c.bucket = none) (hsends : c.Sends rest)
    (h : processSendfile c rest w = .ret r w') :
    keeps r w'.outcomes = (c.keepAlive && !c.restBreaks w.outcomes) := by
  obtain ⟨⟨s1,c1,rest1⟩,v,hv,h⟩ := Action.bind_eq_ret.mp h
  obtain ⟨hok,herr,hsus,hsame⟩ := sendfileLoop_keeps rfl hv
  rw [hsends.restBreaks]
  cases s1 with
  | OK =>
    obtain ⟨hkeep,hfalse⟩ := hok rfl
    have hkeeps := closeResponse_keeps w'.outcomes h
    rw [hkeeps,hfalse]
    simpa using hkeep
  | SUSPEND =>
    simp only [Action.pure_apply,Run.ret.injEq] at h
    obtain ⟨rfl,rfl⟩ := h
    obtain ⟨n,rfl⟩ := hsame (by simp)
    have hsends' : Client.Sends { c with
        writeBytes := n, response := c.response.map (·.seek rest1) } rest1 := hsends.seek rest1 rfl
    rw [hsus rfl,← hsends'.restBreaks,← Client.bodyBreaks_none (by exact hb)]
    rfl
  | ERROR =>
    simp only [Action.pure_apply,Run.ret.injEq] at h
    obtain ⟨rfl,rfl⟩ := h
    obtain ⟨hkeep,htrue⟩ := herr rfl
    simp [keeps,hkeep,htrue]

theorem processRest_keeps {c : Client} {r : ResponseStatus × Client} {w w' : World}
    (hb : c.bucket = none) (h : processRest c w = .ret r w') :
    keeps r w'.outcomes = (c.keepAlive && !c.restBreaks w.outcomes) := by
  cases hr : c.response with
  | none => simp [processRest,hr,die] at h
  | some r1 =>
    by_cases hfile : ∃ size rest, r1.kind = .file size rest
    · obtain ⟨size,rest,hk⟩ := hfile
      simp only [processRest,hr,hk] at h
      exact processSendfile_keeps hb ⟨size,by simp [hr,hk]⟩ h
    · have hiter : c.Iterates := fun size rest hk => hfile ⟨size,rest,by simpa [hr] using hk⟩
      rw [processRest_iterates hiter (by simp [hr])] at h
      rw [Client.restBreaks_iterates hiter]
      cases hi : c.responseIter with
      | none =>
        simp only [processWrite,hi,Action.pure_apply,Run.ret.injEq] at h
        obtain ⟨rfl,rfl⟩ := h
        simp [keeps]
      | some items =>
        simp only [processWrite,hi] at h
        exact writeItems_keeps hiter h

theorem processBody_keeps {c : Client} {r : ResponseStatus × Client} {w w' : World}
    (h : processBody c w = .ret r w') :
    keeps r w'.outcomes = (c.keepAlive && !c.bodyBreaks w.outcomes) := by
  cases hb : c.bucket with
  | none =>
    simp only [processBody,hb] at h
    rw [Client.bodyBreaks_none hb]
    exact processRest_keeps hb h
  | some b =>
    simp only [processBody,hb] at h
    simp only [Client.bodyBreaks,hb]
    obtain ⟨⟨s1,b1⟩,v,hv,h⟩ := Action.bind_eq_ret.mp h
    obtain ⟨hok,hsus,herr⟩ := drain_of_writev true hv
    cases s1 with
    | OK =>
      have hsize : b1.totalSize = b.totalSize := by
        cases writevBucket_result hv with
        | ok _ _ _ hsize => exact hsize
      rw [hok rfl]
      simp only [Client.resumed,hb]
      rw [hsize] at h
      exact processRest_keeps (by rfl) h
    | SUSPEND =>
      simp only [Action.pure_apply,Run.ret.injEq] at h
      obtain ⟨rfl,rfl⟩ := h
      rw [hsus rfl]
      have hsize : b1.totalSize = b.totalSize := by
        cases writevBucket_result hv with
        | suspend _ _ hsus => exact hsus.totalSize
      simp only [keeps,Client.bodyBreaks,Client.resumed,hb,hsize]
      rfl
    | ERROR =>
      simp only [Action.pure_apply,Run.ret.injEq] at h
      obtain ⟨rfl,rfl⟩ := h
      rw [herr rfl]
      exact keeps_error ⟨rfl,rfl,rfl,rfl⟩ _

theorem appLoop_keeps {fuel : ℕ} {s : ResponseStatus} {c : Client} {r : ResponseStatus × Client}
    {w w' : World} (h : appLoop fuel s c w = .ret r w') :
    r.1 ≠ .SUSPEND ∧ keeps r w'.outcomes = keeps (s,c) w.outcomes := by
  have hne : s ≠ .SUSPEND → r.1 ≠ .SUSPEND ∧ keeps r w'.outcomes = keeps (s,c) w.outcomes := by
    intro hs
    rw [appLoop_of_ne hs] at h
    obtain ⟨rfl,rfl⟩ := Run.ret.inj h
    exact ⟨hs,rfl⟩
  cases s with
  | OK => exact hne (by simp)
  | ERROR => exact hne (by simp)
  | SUSPEND =>
    clear hne
    induction fuel generalizing c w with
    | zero => simp [appLoop,die] at h
    | succ fuel ih =>
      rw [appLoop] at h
      obtain ⟨⟨s1,c1⟩,v,hv,h⟩ := Action.bind_eq_ret.mp h
      have hbody : keeps (s1,c1) v.outcomes = keeps (.SUSPEND,c) w.outcomes := processBody_keeps hv
      rw [← hbody]
      by_cases hs : s1 = .SUSPEND
      · subst hs
        exact ih h
      · rw [appLoop_of_ne hs] at h
        obtain ⟨rfl,rfl⟩ := Run.ret.inj h
        exact ⟨hs,rfl⟩

theorem endResponse_keeps {r : ResponseStatus × Client} {c' : Client} {w w' : World}
    (hr : r.1 ≠ .SUSPEND) (h : endResponse r w = .ret c' w') (os : List Outcome) :
    c'.keepAlive = keeps r os := by
  rw [endResponse_keepAlive h]
  obtain ⟨s,c⟩ := r
  cases s with
  | OK => simp [keeps]
  | SUSPEND => exact absurd rfl hr
  | ERROR => cases hd : c.headerDone <;> cases hc : c.responseClosed <;> simp [keeps,Client.pages,hd,hc]

/-- Nothing follows a response that does not fail, or fails without an error page. -/
theorem endResponse_quiet {s : ResponseStatus} {c : Client} (h : s = .ERROR → c.pages = false)
    (w : World) : ∃ c' w', endResponse (s,c) w = .ret c' w' ∧ w'.sent = w.sent := by
  cases s with
  | OK =>
    obtain ⟨s1,closed,n,hcl,-⟩ := closeResponse_spec c w
    refine ⟨{ c with responseClosed := closed },{ w with closeCalls := n },?_,rfl⟩
    simp only [endResponse,Action.bind_apply,hcl,Action.pure_apply]
  | SUSPEND =>
    obtain ⟨s1,closed,n,hcl,-⟩ := closeResponse_spec c w
    refine ⟨{ c with responseClosed := closed },{ w with closeCalls := n },?_,rfl⟩
    simp only [endResponse,Action.bind_apply,hcl,Action.pure_apply]
  | ERROR =>
    replace h := h rfl
    obtain ⟨s1,closed,n,hcl,-⟩ := closeResponse_spec { c with statusCode := 500 } w
    have hcarries := closeResponse_carries hcl
    have hdone : c.headerDone = true ∨ closed = true := by
      simp only [Client.pages,Bool.and_eq_false_iff,Bool.not_eq_false'] at h
      rcases h with (h | h) | h
      · exact .inl h
      · rcases hcarries.closing with ⟨hsame,-⟩ | ⟨-,-,hclosed,-⟩
        · exact .inr (hsame.trans h)
        · exact .inr hclosed
      · exact .inr (closeResponse_closed (c := { c with statusCode := 500 }) h hcl)
    refine ⟨{ c with statusCode := 500, responseClosed := closed },{ w with closeCalls := n },?_,rfl⟩
    simp only [endResponse,appError,Action.bind_apply,hcl,sendErrorPage,if_pos hdone,Action.pure_apply]

/-! ### The whole response -/

/-- The head is written. -/
def Answer.Opens (g : Globals) (a : Answer) : Prop := a.Startable ∧ a.Accepted g

/-- The process dies on a header. -/
def Answer.Crashes (g : Globals) (a : Answer) : Prop := a.Startable ∧
  ∃ hs, a.client.headers = some hs ∧ buildHead g a.starting hs a.first a.fileSize = .crash

variable {g : Globals} {a : Answer} {w w' : World}

theorem writeHeaders_refused (h : ¬a.Accepted g) (hstart : a.Startable) (hcrash : ¬a.Crashes g) :
    ∃ c, writeHeaders g a.starting a.first a.fileSize = pure (.ERROR,c) ∧ SameFlags a.start c := by
  have hdone : a.starting.headerDone = false := a.fresh.headerDone
  have hheaders : a.starting.headers = a.client.headers := rfl
  cases hhs : a.client.headers with
  | none =>
    refine ⟨a.starting,?_,⟨rfl,rfl,rfl,rfl⟩⟩
    simp only [writeHeaders,hdone,Bool.false_eq_true,if_false,hheaders,hhs]
  | some hs =>
    cases hb : buildHead g a.starting hs a.first a.fileSize with
    | error c =>
      obtain ⟨chunked,set,length,rfl⟩ := buildHead_reframed (.inl hb)
      refine ⟨{ a.starting with
        chunkedResponse := chunked, contentLengthSet := set, contentLength := length },?_,
        ⟨rfl,rfl,rfl,rfl⟩⟩
      simp only [writeHeaders,hdone,Bool.false_eq_true,if_false,hheaders,hhs,hb]
    | crash => exact absurd ⟨hstart,hs,hhs,hb⟩ hcrash
    | ok c b => exact absurd ⟨hs,c,b,hhs,hb⟩ h

theorem SameFlags.trans {c c1 c2 : Client} (h : SameFlags c c1) (h' : SameFlags c1 c2) :
    SameFlags c c2 :=
  ⟨h'.keepAlive.trans h.keepAlive,h'.headerDone.trans h.headerDone,
    h'.responseClosed.trans h.responseClosed,h'.response.trans h.response⟩

/-- A response whose head is not written. -/
theorem responseStart_refused (hopen : ¬a.Opens g) (hcrash : ¬a.Crashes g) :
    ∃ c, responseStart g a.start = pure (.ERROR,c) ∧ SameFlags a.start c := by
  by_cases hstart : a.Startable
  · obtain ⟨c0,hc0,hsame⟩ := writeHeaders_refused (fun hacc => hopen ⟨hstart,hacc⟩) hstart hcrash
    obtain ⟨f,hf⟩ := exists_afterHead g hstart
    obtain ⟨c1,hc1,hsame1⟩ := hf.error c0
    exact ⟨c1,by rw [hf.start,hc0,Action.pure_bind,hc1],hsame.trans hsame1⟩
  · obtain ⟨items,heq⟩ := responseStart_unstartable (g := g) hstart
    exact ⟨_,heq,⟨rfl,rfl,rfl,rfl⟩⟩

/-- A process that dies does not return. -/
theorem responseStart_crashes (h : a.Crashes g) : responseStart g a.start w = .stop .crash w := by
  obtain ⟨hstart,hs,hhs,hb⟩ := h
  obtain ⟨f,hf⟩ := exists_afterHead g hstart
  have hdone : a.starting.headerDone = false := a.fresh.headerDone
  have hheaders : a.starting.headers = some hs := hhs
  have hw : writeHeaders g a.starting a.first a.fileSize = die .crash := by
    simp only [writeHeaders,hdone,Bool.false_eq_true,if_false,hheaders,hb]
  rw [hf.start,hw,Action.bind_apply]
  rfl

/-- The response of the application ends so that `keep_alive` is cleared: with an error page before
its head is done, or with a `sendfile` that fails. -/
def Answer.Breaks (g : Globals) (a : Answer) (os : List Outcome) : Prop :=
  (¬a.Opens g ∧ a.response.hasClose = false) ∨
    a.Opens g ∧ match (a.firstBucket g).bind (drain false os) with
      | none => False
      | some (.failed waited) => waited = true ∧ a.response.hasClose = false
      | some (.taken false os) => a.client.statusCode ≠ 304 ∧ a.direct.restBreaks os = true
      | some (.taken true os) => (a.delayed g).restBreaks os = true

theorem Answer.breaks_iff {b : WriteBucket} {os : List Outcome} (hopen : a.Opens g)
    (hb : HeadBucket g a b) : a.Breaks g os ↔
      match drain false os (setFirstBodyData a.headed b a.first) with
      | none => False
      | some (.failed waited) => waited = true ∧ a.response.hasClose = false
      | some (.taken false os) => a.client.statusCode ≠ 304 ∧ a.direct.restBreaks os = true
      | some (.taken true os) => (a.delayed g).restBreaks os = true := by
  simp only [Answer.Breaks,hb.built,Option.bind_some,hopen,not_true,false_and,true_and,false_or]

theorem headed_flags (a : Answer) : SameFlags a.start a.headed := by
  rw [headed_eq]
  exact ⟨rfl,rfl,rfl,rfl⟩

theorem start_pages (a : Answer) : a.start.pages = !a.response.hasClose := by
  have hdone : a.start.headerDone = false := a.fresh.headerDone
  have hclosed : a.start.responseClosed = false := a.notClosed
  have hcl : a.start.closes = a.response.hasClose := rfl
  rw [Client.pages,hdone,hclosed,hcl]
  rfl

theorem direct_pages (a : Answer) : a.direct.pages = false := rfl

theorem waiting_breaks {b : WriteBucket} (hsize : b.totalSize = (a.opening g).length % 2 ^ 32)
    (freed : Bool) (os : List Outcome) :
    Client.bodyBreaks { a.headed with bucket := some { b with freed := freed } } os =
      match drain true os b with
      | none => false
      | some (.failed _) => !a.response.hasClose
      | some (.taken _ os) => (a.delayed g).restBreaks os := by
  have hpages : a.headed.pages = !a.response.hasClose := (headed_flags a).pages.trans (start_pages a)
  rw [Client.bodyBreaks]
  simp only
  rw [drain_freed]
  cases hd : drain true os b with
  | none => rfl
  | some e =>
    cases e with
    | failed waited => exact hpages
    | taken waited os =>
      simp only [Client.resumed,Answer.delayed]
      rw [hsize]

/-- A response ends with `keep_alive` as it was, unless it breaks off. -/
theorem writeResponse_keeps {r : ResponseStatus × Client}
    (h : writeResponse g a.start w = .ret r w') : r.1 ≠ .SUSPEND ∧
      (keeps r w'.outcomes = true ↔ a.client.keepAlive = true ∧ ¬a.Breaks g w.outcomes) := by
  obtain ⟨⟨s1,c1⟩,v,hstart,hloop⟩ := Action.bind_eq_ret.mp h
  obtain ⟨hne,hkeeps⟩ := appLoop_keeps hloop
  refine ⟨hne,?_⟩
  rw [hkeeps]
  clear hloop hkeeps hne h
  by_cases hopen : a.Opens g
  swap
  · have hcrash : ¬a.Crashes g := fun hc => by simp [responseStart_crashes hc] at hstart
    obtain ⟨c0,heq,hsame⟩ := responseStart_refused hopen hcrash
    simp only [heq,Action.pure_apply,Run.ret.injEq,Prod.mk.injEq] at hstart
    obtain ⟨⟨rfl,rfl⟩,rfl⟩ := hstart
    rw [keeps_error hsame,start_pages]
    simp [Answer.Breaks,hopen,Answer.start]
  obtain ⟨f,hf⟩ := exists_afterHead g hopen.1
  obtain ⟨b,hb,heq⟩ := writeHeaders_accepted hopen.2
  rw [hf.start,heq] at hstart
  obtain ⟨⟨s2,c2⟩,v2,hhead,hstart⟩ := Action.bind_eq_ret.mp hstart
  obtain ⟨⟨s3,b3⟩,v3,hv,hhead⟩ := Action.bind_eq_ret.mp hhead
  obtain ⟨hok,hsus,herr⟩ := drain_of_writev false hv
  rw [Answer.breaks_iff hopen hb]
  cases s3 with
  | OK =>
    simp only [Action.pure_apply,Run.ret.injEq,Prod.mk.injEq] at hhead
    obtain ⟨⟨rfl,rfl⟩,rfl⟩ := hhead
    replace hstart : f (.OK,a.direct) v3 = .ret (s1,c1) v := hstart
    rw [hf.ok] at hstart
    rw [show drain false w.outcomes _ = _ from hok rfl]
    have hkeep : a.direct.keepAlive = a.client.keepAlive := (headed_flags a).keepAlive
    by_cases h304 : a.client.statusCode = 304
    · simp only [if_pos h304,Action.pure_apply,Run.ret.injEq,Prod.mk.injEq] at hstart
      obtain ⟨⟨rfl,rfl⟩,rfl⟩ := hstart
      simp [keeps,h304,hkeep]
    · rw [if_neg h304] at hstart
      rw [processRest_keeps (by rfl) hstart,hkeep]
      simp [h304]
  | SUSPEND =>
    simp only [Action.pure_apply,Run.ret.injEq,Prod.mk.injEq] at hhead
    obtain ⟨⟨rfl,rfl⟩,rfl⟩ := hhead
    have hwait : b3.freed = false ∧ b3.totalSize = (a.opening g).length % 2 ^ 32 := by
      cases writevBucket_result hv with
      | suspend k _ hsus =>
        exact ⟨hsus.freed.trans hb.opening.counted.freed,
          by rw [hsus.totalSize,hb.opening.counted.totalSize,hb.opening.bytes]⟩
    rw [hf.suspend b3 hwait.1] at hstart
    simp only [Action.pure_apply,Run.ret.injEq,Prod.mk.injEq] at hstart
    obtain ⟨⟨rfl,rfl⟩,rfl⟩ := hstart
    have hkeep : a.headed.keepAlive = a.client.keepAlive := (headed_flags a).keepAlive
    rw [show drain false w.outcomes _ = _ from hsus rfl]
    rw [keeps]
    simp only
    rw [waiting_breaks hwait.2,hkeep]
    cases hd : drain true v3.outcomes b3 with
    | none => simp
    | some e =>
      cases e with
      | failed waited =>
        obtain rfl := drain_failed hd
        simp
      | taken waited os =>
        obtain rfl := drain_waited hd
        simp
  | ERROR =>
    simp only [Action.pure_apply,Run.ret.injEq,Prod.mk.injEq] at hhead
    obtain ⟨⟨rfl,rfl⟩,rfl⟩ := hhead
    obtain ⟨c3,hc3,hsame⟩ := hf.error { a.headed with headerDone := true, bucket := none }
    rw [hc3] at hstart
    simp only [Action.pure_apply,Run.ret.injEq,Prod.mk.injEq] at hstart
    obtain ⟨⟨rfl,rfl⟩,rfl⟩ := hstart
    rw [show drain false w.outcomes _ = _ from herr rfl,keeps_error hsame]
    have hkeep : a.headed.keepAlive = a.client.keepAlive := (headed_flags a).keepAlive
    simp [Client.pages,hkeep]

end Meinheld
