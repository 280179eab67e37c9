import Meinheld.SafeRuns
import Meinheld.ChunkedResponse

/-! What the functions that write a response leave alone, and how a run of `app_handler` ends. -/
namespace Meinheld

/-- The response has a method `close`. -/
def Client.closes (c : Client) : Bool := c.response.any (·.hasClose)

/-- `close` was not called, or it was called once and the client knows. -/
def Closing (c : Client) (w : World) (c' : Client) (w' : World) : Prop :=
  (c'.responseClosed = c.responseClosed ∧ w'.closeCalls = w.closeCalls) ∨
    c.responseClosed = false ∧ c.closes = true ∧ c'.responseClosed = true ∧
      w'.closeCalls = w.closeCalls + 1

/-- All that a call which writes a response does to the flags and the counts. -/
structure Carries (c : Client) (w : World) (c' : Client) (w' : World) : Prop where
  keepAlive : c'.keepAlive = true → c.keepAlive = true
  headerDone : c'.headerDone = c.headerDone
  closes : c'.closes = c.closes
  closing : Closing c w c' w'
  sent : w.sent <+: w'.sent
  outcomes : w'.outcomes <:+ w.outcomes

theorem Nonfatal.suffix {os os' : List Outcome} (h : Nonfatal os) (hs : os' <:+ os) : Nonfatal os' :=
  fun o ho => h o (hs.mem ho)

theorem Closing.trans {c c1 c2 : Client} {w w1 w2 : World} (h : Closing c w c1 w1)
    (hcl : c1.closes = c.closes) (h' : Closing c1 w1 c2 w2) : Closing c w c2 w2 := by
  unfold Closing at *
  rcases h with ⟨h1,h2⟩ | ⟨h1,h2,h3,h4⟩
  · rw [h1,h2,hcl] at h'
    exact h'
  · rcases h' with ⟨h5,h6⟩ | ⟨h5,_⟩
    · exact .inr ⟨h1,h2,h5.trans h3,h6.trans h4⟩
    · simp [h3] at h5

theorem Carries.trans {c c1 c2 : Client} {w w1 w2 : World} (h : Carries c w c1 w1)
    (h' : Carries c1 w1 c2 w2) : Carries c w c2 w2 :=
  ⟨h.keepAlive ∘ h'.keepAlive,h'.headerDone.trans h.headerDone,h'.closes.trans h.closes,
    h.closing.trans h.closes h'.closing,h.sent.trans h'.sent,h'.outcomes.trans h.outcomes⟩

/-- A call that writes and does not touch the flags. -/
theorem Carries.of_eq {c c' : Client} {w w' : World}
    (h0 : c'.keepAlive = true → c.keepAlive = true) (h1 : c'.headerDone = c.headerDone)
    (h2 : c'.closes = c.closes) (h3 : c'.responseClosed = c.responseClosed)
    (h4 : w'.closeCalls = w.closeCalls) (h5 : w.sent <+: w'.sent)
    (h6 : w'.outcomes <:+ w.outcomes) : Carries c w c' w' :=
  ⟨h0,h1,h2,.inl ⟨h3,h4⟩,h5,h6⟩

theorem Carries.refl (c : Client) (w : World) : Carries c w c w :=
  .of_eq id rfl rfl rfl rfl List.prefix_rfl List.suffix_rfl

/-- What a call of `writev_bucket` does to the world. -/
structure Writes (w w' : World) : Prop where
  closeCalls : w'.closeCalls = w.closeCalls
  sent : w.sent <+: w'.sent
  outcomes : w'.outcomes <:+ w.outcomes

theorem Writes.carries {c c' : Client} {w w' : World} (h : Writes w w')
    (h0 : c'.keepAlive = true → c.keepAlive = true) (h1 : c'.headerDone = c.headerDone)
    (h2 : c'.closes = c.closes) (h3 : c'.responseClosed = c.responseClosed) : Carries c w c' w' :=
  .of_eq h0 h1 h2 h3 h.closeCalls h.sent h.outcomes

theorem writevBucketLoop_writes {os : List Outcome} {b : WriteBucket} {w w' : World}
    {r : ResponseStatus × WriteBucket} (hos : os <:+ w.outcomes)
    (h : writevBucketLoop os b w = .ret r w') : Writes w w' := by
  induction os generalizing b w with
  | nil => simp [writevBucketLoop] at h
  | cons o os ih =>
    have hsuf : os <:+ w.outcomes := (List.suffix_cons _ _).trans hos
    simp only [writevBucketLoop] at h
    split at h
    · simp at h
    · cases o with
      | count n =>
        simp only at h
        split at h
        · have hw := ih (w := World.send { w with outcomes := os } (b.bytes.take (n + 1)))
            List.suffix_rfl h
          exact ⟨hw.closeCalls,(List.prefix_append _ _).trans hw.sent,hw.outcomes.trans hsuf⟩
        · simp only [Run.ret.injEq] at h
          exact h.2 ▸ ⟨rfl,List.prefix_append _ _,hsuf⟩
      | eagain =>
        simp only [Run.ret.injEq] at h
        exact h.2 ▸ ⟨rfl,List.prefix_rfl,hsuf⟩
      | error epipe =>
        simp only [Run.ret.injEq] at h
        exact h.2 ▸ ⟨rfl,List.prefix_rfl,hsuf⟩

theorem writevBucket_writes {b : WriteBucket} {w w' : World} {r : ResponseStatus × WriteBucket}
    (h : writevBucket b w = .ret r w') : Writes w w' :=
  writevBucketLoop_writes List.suffix_rfl h

theorem closeResponse_carries {c c' : Client} {w w' : World} {s : ResponseStatus}
    (h : closeResponse c w = .ret (s,c') w') : Carries c w c' w' := by
  unfold closeResponse at h
  cases hr : c.response with
  | none =>
    simp only [hr,Run.ret.injEq,Prod.mk.injEq] at h
    obtain ⟨⟨_,rfl⟩,rfl⟩ := h
    exact .refl c w
  | some r =>
    simp only [hr] at h
    split at h
    next hc =>
      simp only [Run.ret.injEq,Prod.mk.injEq] at h
      obtain ⟨⟨_,rfl⟩,rfl⟩ := h
      simp only [Bool.not_eq_true'] at hc
      have hcl : c.closes = true := by simp [Client.closes,hr,hc.2]
      refine ⟨id,rfl,?_,.inr ⟨hc.1,hcl,rfl,rfl⟩,List.prefix_rfl,List.suffix_rfl⟩
      rw [hcl]
      exact (by simpa [Client.closes] using hc.2)
    next hc =>
      simp only [Run.ret.injEq,Prod.mk.injEq] at h
      obtain ⟨⟨_,rfl⟩,rfl⟩ := h
      exact .refl c w

/-- After `close_response` a response with `close` is closed. -/
theorem closeResponse_closed {c c' : Client} {w w' : World} {s : ResponseStatus}
    (hcl : c.closes = true) (h : closeResponse c w = .ret (s,c') w') : c'.responseClosed = true := by
  obtain ⟨r,hr,hclose⟩ : ∃ r, c.response = some r ∧ r.hasClose = true := by
    simpa [Client.closes,Option.any_eq_true] using hcl
  simp only [closeResponse,hr,hclose,and_true] at h
  split at h
  · simp only [Run.ret.injEq,Prod.mk.injEq] at h
    exact h.1.2 ▸ rfl
  next hc =>
    simp only [Run.ret.injEq,Prod.mk.injEq] at h
    obtain ⟨⟨_,rfl⟩,_⟩ := h
    simpa using hc

theorem processItems_carries {items : List Item} {c c' : Client} {w w' : World}
    {s : ResponseStatus} (h : processItems items c w = .ret (s,c') w') : Carries c w c' w' := by
  induction items generalizing c w with
  | nil =>
    simp only [processItems,Action.pure_apply,Run.ret.injEq,Prod.mk.injEq] at h
    obtain ⟨⟨_,rfl⟩,rfl⟩ := h
    exact (Carries.refl c w).trans (.of_eq id rfl rfl rfl rfl List.prefix_rfl List.suffix_rfl)
  | cons i items ih =>
    cases i with
    | raise =>
      simp only [processItems,Action.pure_apply,Run.ret.injEq,Prod.mk.injEq] at h
      obtain ⟨⟨_,rfl⟩,rfl⟩ := h
      exact .of_eq id rfl rfl rfl rfl List.prefix_rfl List.suffix_rfl
    | other =>
      simp only [processItems,Action.pure_apply,Run.ret.injEq,Prod.mk.injEq] at h
      obtain ⟨⟨_,rfl⟩,rfl⟩ := h
      exact .of_eq id rfl rfl rfl rfl List.prefix_rfl List.suffix_rfl
    | bytes d =>
      obtain ⟨⟨s1,b1⟩,v,hv,h⟩ := Action.bind_eq_ret.mp h
      have hw := writevBucket_writes hv
      cases s1 with
      | OK =>
        simp only at h
        split at h
        · simp only [Action.pure_apply,Run.ret.injEq,Prod.mk.injEq] at h
          obtain ⟨⟨_,rfl⟩,rfl⟩ := h
          exact hw.carries id rfl rfl rfl
        · have hc : Carries c w { c with
              responseIter := some items, writeBytes := c.writeBytes + d.length } v :=
            hw.carries id rfl rfl rfl
          exact hc.trans (ih h)
      | SUSPEND =>
        simp only [Action.pure_apply,Run.ret.injEq,Prod.mk.injEq] at h
        obtain ⟨⟨_,rfl⟩,rfl⟩ := h
        exact hw.carries id rfl rfl rfl
      | ERROR =>
        simp only [Action.pure_apply,Run.ret.injEq,Prod.mk.injEq] at h
        obtain ⟨⟨_,rfl⟩,rfl⟩ := h
        exact hw.carries id rfl rfl rfl

theorem finishWrite_carries {r : ResponseStatus × Client} {c' : Client} {w w' : World}
    {s : ResponseStatus} (h : finishWrite r w = .ret (s,c') w') : Carries r.2 w c' w' := by
  obtain ⟨s1,c⟩ := r
  cases s1 with
  | OK =>
    simp only [finishWrite] at h
    split at h
    · obtain ⟨r1,v,hv,h⟩ := Action.bind_eq_ret.mp h
      have hw : Carries c w c v := (writevBucket_writes hv).carries id rfl rfl rfl
      exact hw.trans (closeResponse_carries h)
    · exact closeResponse_carries h
  | SUSPEND =>
    simp only [finishWrite,Action.pure_apply,Run.ret.injEq,Prod.mk.injEq] at h
    obtain ⟨⟨_,rfl⟩,rfl⟩ := h
    exact .refl _ _
  | ERROR =>
    simp only [finishWrite,Action.pure_apply,Run.ret.injEq,Prod.mk.injEq] at h
    obtain ⟨⟨_,rfl⟩,rfl⟩ := h
    exact .refl _ _

theorem processWrite_carries {c c' : Client} {w w' : World} {s : ResponseStatus}
    (h : processWrite c w = .ret (s,c') w') : Carries c w c' w' := by
  cases hi : c.responseIter with
  | none =>
    simp only [processWrite,hi,Action.pure_apply,Run.ret.injEq,Prod.mk.injEq] at h
    obtain ⟨⟨_,rfl⟩,rfl⟩ := h
    exact .refl _ _
  | some items =>
    simp only [processWrite,hi] at h
    obtain ⟨r,v,hv,h⟩ := Action.bind_eq_ret.mp h
    exact (processItems_carries hv).trans (finishWrite_carries h)

theorem sendfileLoop_carries {os : List Outcome} {rest rest' : Bytes} {c c' : Client} {w w' : World}
    {s : ResponseStatus} (hos : os <:+ w.outcomes)
    (h : sendfileLoop os rest c w = .ret (s,c',rest') w') : Carries c w c' w' := by
  induction os generalizing rest c w with
  | nil =>
    rcases sendfileLoop_ret h with ⟨-,-,rfl,-,rfl⟩ | ⟨-,-,-,rfl,-,rfl⟩ | ⟨-,-,o,os,hnil⟩
    · exact .refl _ _
    · exact .of_eq (by simp) rfl rfl rfl rfl List.prefix_rfl List.suffix_rfl
    · cases hnil
  | cons o os ih =>
    have hsuf : os <:+ w.outcomes := (List.suffix_cons _ _).trans hos
    rcases sendfileLoop_ret h with ⟨-,-,rfl,-,rfl⟩ | ⟨-,-,-,rfl,-,rfl⟩ | ⟨hlt,hr,-⟩
    · exact .refl _ _
    · exact .of_eq (by simp) rfl rfl rfl rfl List.prefix_rfl List.suffix_rfl
    rw [sendfileLoop_cons hlt hr] at h
    cases o with
    | eagain =>
      simp only [Run.ret.injEq,Prod.mk.injEq] at h
      obtain ⟨⟨_,rfl,_⟩,rfl⟩ := h
      exact .of_eq id rfl rfl rfl rfl List.prefix_rfl hsuf
    | error epipe =>
      simp only [Run.ret.injEq,Prod.mk.injEq] at h
      obtain ⟨⟨_,rfl,_⟩,rfl⟩ := h
      exact .of_eq (by simp) rfl rfl rfl rfl List.prefix_rfl hsuf
    | count n =>
      simp only at h
      generalize rest.take (min (n + 1) (sendfileCount c.contentLength)) = r at h
      have hsend : Carries c w { c with writeBytes := c.writeBytes + r.length }
          (World.send { w with outcomes := os } r) :=
        .of_eq id rfl rfl rfl rfl (List.prefix_append _ _) hsuf
      exact hsend.trans (ih List.suffix_rfl h)

theorem Response.seek_hasClose (r : Response) (rest : Bytes) :
    (r.seek rest).hasClose = r.hasClose := by
  unfold Response.seek
  split <;> rfl

theorem closes_seek (c : Client) (rest : Bytes) :
    Client.closes { c with response := c.response.map (·.seek rest) } = c.closes := by
  cases hr : c.response <;> simp [Client.closes,hr,Response.seek_hasClose]

theorem processSendfile_carries {c c' : Client} {rest : Bytes} {w w' : World} {s : ResponseStatus}
    (h : processSendfile c rest w = .ret (s,c') w') : Carries c w c' w' := by
  obtain ⟨⟨s1,c1,rest1⟩,v,hv,h⟩ := Action.bind_eq_ret.mp h
  have hloop : Carries c w c1 v := sendfileLoop_carries List.suffix_rfl hv
  have hseek : Carries c1 v { c1 with response := c1.response.map (·.seek rest1) } v :=
    .of_eq id rfl (closes_seek c1 rest1) rfl rfl List.prefix_rfl List.suffix_rfl
  cases s1 with
  | OK => exact (hloop.trans hseek).trans (closeResponse_carries h)
  | SUSPEND =>
    simp only [Action.pure_apply,Run.ret.injEq,Prod.mk.injEq] at h
    obtain ⟨⟨_,rfl⟩,rfl⟩ := h
    exact hloop.trans hseek
  | ERROR =>
    simp only [Action.pure_apply,Run.ret.injEq,Prod.mk.injEq] at h
    obtain ⟨⟨_,rfl⟩,rfl⟩ := h
    exact hloop.trans hseek

theorem processRest_carries {c c' : Client} {w w' : World} {s : ResponseStatus}
    (h : processRest c w = .ret (s,c') w') : Carries c w c' w' := by
  cases hr : c.response with
  | none => simp [processRest,hr,die] at h
  | some r =>
    cases hk : r.kind with
    | file size rest =>
      simp only [processRest,hr,hk] at h
      exact processSendfile_carries h
    | iter items =>
      simp only [processRest,hr,hk] at h
      exact processWrite_carries h
    | notIterable =>
      simp only [processRest,hr,hk] at h
      exact processWrite_carries h

theorem processBody_carries {c c' : Client} {w w' : World} {s : ResponseStatus}
    (h : processBody c w = .ret (s,c') w') : Carries c w c' w' := by
  cases hb : c.bucket with
  | none =>
    simp only [processBody,hb] at h
    exact processRest_carries h
  | some b =>
    simp only [processBody,hb] at h
    obtain ⟨⟨s1,b1⟩,v,hv,h⟩ := Action.bind_eq_ret.mp h
    have hw := writevBucket_writes hv
    cases s1 with
    | OK =>
      have hc : Carries c w { c with writeBytes := c.writeBytes + b1.totalSize, bucket := none } v :=
        hw.carries id rfl rfl rfl
      exact hc.trans (processRest_carries h)
    | SUSPEND =>
      simp only [Action.pure_apply,Run.ret.injEq,Prod.mk.injEq] at h
      obtain ⟨⟨_,rfl⟩,rfl⟩ := h
      exact hw.carries id rfl rfl rfl
    | ERROR =>
      simp only [Action.pure_apply,Run.ret.injEq,Prod.mk.injEq] at h
      obtain ⟨⟨_,rfl⟩,rfl⟩ := h
      exact hw.carries id rfl rfl rfl

/-- The loop of `app_handler`. -/
theorem appLoop_carries {fuel : ℕ} {c c' : Client} {w w' : World} {s s' : ResponseStatus}
    (h : appLoop fuel s c w = .ret (s',c') w') : Carries c w c' w' := by
  induction fuel generalizing s c w with
  | zero => cases s <;> simp only [appLoop,die,Action.pure_apply,Run.ret.injEq,Prod.mk.injEq,
      reduceCtorEq] at h <;> obtain ⟨⟨_,rfl⟩,rfl⟩ := h <;> exact .refl _ _
  | succ fuel ih =>
    cases s with
    | SUSPEND =>
      rw [appLoop] at h
      obtain ⟨⟨s1,c1⟩,v,hv,h⟩ := Action.bind_eq_ret.mp h
      exact (processBody_carries hv).trans (ih h)
    | OK =>
      simp only [appLoop,Action.pure_apply,Run.ret.injEq,Prod.mk.injEq] at h
      obtain ⟨⟨_,rfl⟩,rfl⟩ := h
      exact .refl _ _
    | ERROR =>
      simp only [appLoop,Action.pure_apply,Run.ret.injEq,Prod.mk.injEq] at h
      obtain ⟨⟨_,rfl⟩,rfl⟩ := h
      exact .refl _ _

/-! The head. -/

def Reframed (c c' : Client) : Prop := ∃ chunked set length,
  c' = { c with chunkedResponse := chunked, contentLengthSet := set, contentLength := length }

theorem Reframed.refl (c : Client) : Reframed c c := ⟨_,_,_,rfl⟩

theorem Reframed.trans {c c1 c2 : Client} (h : Reframed c c1) (h' : Reframed c1 c2) :
    Reframed c c2 := by
  obtain ⟨_,_,_,rfl⟩ := h
  obtain ⟨x,y,z,rfl⟩ := h'
  exact ⟨x,y,z,rfl⟩

theorem addOneHeader_reframed {c c' : Client} {b b' : WriteBucket} {name value : Bytes}
    (h : addOneHeader c b name value = some (c',b')) : Reframed c c' := by
  rcases addOneHeader_some h with ⟨_,rfl,_⟩ | ⟨_,_,⟨_,rfl⟩ | ⟨_,_,rfl⟩⟩
  · exact .refl _
  · exact .refl _
  · rw [withLength_eq]
    exact ⟨_,_,_,rfl⟩

theorem addAllHeaders_reframed {headers : List HeaderItem} {c c' : Client} {b : WriteBucket}
    (h : addAllHeaders headers c b = .error c' ∨ ∃ b', addAllHeaders headers c b = .ok c' b') :
    Reframed c c' := by
  induction headers generalizing c b with
  | nil =>
    rcases h with h | ⟨b',h⟩
    · simp [addAllHeaders] at h
    · simp only [addAllHeaders,HeadersResult.ok.injEq] at h
      exact h.1 ▸ .refl c
  | cons i headers ih =>
    have herr : addAllHeaders (i :: headers) c b = .error c → Reframed c c' := by
      intro he
      rcases h with h | ⟨b',h⟩
      · rw [he] at h
        exact HeadersResult.error.inj h ▸ .refl c
      · simp [he] at h
    rcases i with ⟨xs⟩ | _
    · rcases xs with _ | ⟨obj1,_ | ⟨obj2,_ | ⟨obj3,xs⟩⟩⟩
      · exact herr rfl
      · exact herr rfl
      · cases h1 : wsgiToBytes obj1 with
        | none => rcases h with h | ⟨b',h⟩ <;> simp [addAllHeaders,h1] at h
        | some name =>
          cases h2 : wsgiToBytes obj2 with
          | none => rcases h with h | ⟨b',h⟩ <;> simp [addAllHeaders,h1,h2] at h
          | some value =>
            cases hone : addOneHeader c b name value with
            | none => exact herr (by simp only [addAllHeaders,h1,h2,hone])
            | some r =>
              simp only [addAllHeaders,h1,h2,hone] at h
              exact (addOneHeader_reframed hone).trans (ih h)
      · exact herr rfl
    · exact herr rfl

theorem chunkedHeader_reframed (c : Client) (data : Option Bytes) (b : WriteBucket) :
    Reframed c (chunkedHeader c data b).1 := by
  unfold chunkedHeader
  split <;> exact ⟨_,_,_,rfl⟩

theorem fileHeader_reframed (c : Client) (isFile : Option ℕ) (b : WriteBucket) :
    Reframed c (fileHeader c isFile b).1 := by
  cases isFile with
  | none => exact .refl c
  | some size =>
    simp only [fileHeader]
    split <;> exact ⟨_,_,_,rfl⟩

theorem buildHead_reframed {g : Globals} {c c' : Client} {headers : List HeaderItem}
    {data : Option Bytes} {isFile : Option ℕ}
    (h : buildHead g c headers data isFile = .error c' ∨
      ∃ b, buildHead g c headers data isFile = .ok c' b) : Reframed c c' := by
  unfold buildHead at h
  cases hall : addAllHeaders headers c (addStatusLine g c (newWriteBucket (headers.length * 4 + 42)))
    with
  | error c1 =>
    have hr := addAllHeaders_reframed (.inl hall)
    rcases h with h | ⟨b,h⟩
    · simp only [hall,HeadersResult.error.injEq] at h
      exact h ▸ hr
    · simp [hall] at h
  | crash => rcases h with h | ⟨b,h⟩ <;> simp [hall] at h
  | ok c1 b1 =>
    have hr := addAllHeaders_reframed (.inr ⟨b1,hall⟩)
    rcases h with h | ⟨b,h⟩
    · simp [hall] at h
    · simp only [hall,HeadersResult.ok.injEq] at h
      rw [← h.1]
      exact (hr.trans (chunkedHeader_reframed c1 data b1)).trans (fileHeader_reframed _ isFile _)

/-- `write_headers` touches one flag more, `header_done`. -/
theorem writeHeaders_carries {g : Globals} {c c' : Client} {data : Option Bytes}
    {isFile : Option ℕ} {w w' : World} {s : ResponseStatus}
    (h : writeHeaders g c data isFile w = .ret (s,c') w') :
    Carries { c with headerDone := c'.headerDone } w c' w' := by
  unfold writeHeaders at h
  split at h
  · simp only [Action.pure_apply,Run.ret.injEq,Prod.mk.injEq] at h
    obtain ⟨⟨_,rfl⟩,rfl⟩ := h
    exact .refl _ _
  · cases hh : c.headers with
    | none =>
      simp only [hh,Action.pure_apply,Run.ret.injEq,Prod.mk.injEq] at h
      obtain ⟨⟨_,rfl⟩,rfl⟩ := h
      exact .of_eq id rfl rfl rfl rfl List.prefix_rfl List.suffix_rfl
    | some headers =>
      simp only [hh] at h
      cases hb : buildHead g c headers data isFile with
      | crash => simp [hb,die] at h
      | error c1 =>
        obtain ⟨_,_,_,rfl⟩ := buildHead_reframed (.inl hb)
        simp only [hb,Action.pure_apply,Run.ret.injEq,Prod.mk.injEq] at h
        obtain ⟨⟨_,rfl⟩,rfl⟩ := h
        exact .of_eq id rfl rfl rfl rfl List.prefix_rfl List.suffix_rfl
      | ok c1 b1 =>
        obtain ⟨_,_,_,rfl⟩ := buildHead_reframed (.inr ⟨b1,hb⟩)
        simp only [hb] at h
        obtain ⟨⟨s1,b2⟩,v,hv,h⟩ := Action.bind_eq_ret.mp h
        have hw := writevBucket_writes hv
        cases s1 <;>
          simp only [Action.pure_apply,Run.ret.injEq,Prod.mk.injEq] at h <;>
          obtain ⟨⟨_,rfl⟩,rfl⟩ := h <;>
          exact hw.carries id rfl rfl rfl

theorem startResponseWrite_carries {g : Globals} {c c' : Client} {r : Response} {w w' : World}
    {s : ResponseStatus} (h : startResponseWrite g c r w = .ret (s,c') w') :
    Carries { c with headerDone := c'.headerDone } w c' w' := by
  have hpure : ∀ items, (pure (.ERROR,{ c with responseIter := items }) :
      Action (ResponseStatus × Client)) w = .ret (s,c') w' →
      Carries { c with headerDone := c'.headerDone } w c' w' := by
    intro items h
    simp only [Action.pure_apply,Run.ret.injEq,Prod.mk.injEq] at h
    obtain ⟨⟨_,rfl⟩,rfl⟩ := h
    exact .of_eq id rfl rfl rfl rfl List.prefix_rfl List.suffix_rfl
  have hiter : ∀ items done, Carries { c with headerDone := done } w
      { c with responseIter := items, headerDone := done } w := fun _ _ =>
    .of_eq id rfl rfl rfl rfl List.prefix_rfl List.suffix_rfl
  cases hk : r.kind with
  | notIterable =>
    simp only [startResponseWrite,hk] at h
    exact hpure _ h
  | file size rest =>
    simp only [startResponseWrite,hk] at h
    exact hpure _ h
  | iter items =>
    rcases items with _ | ⟨i,items⟩
    · simp only [startResponseWrite,hk] at h
      have hw := writeHeaders_carries h
      exact (hiter _ _).trans hw
    · cases i with
      | other =>
        simp only [startResponseWrite,hk] at h
        exact hpure _ h
      | raise =>
        simp only [startResponseWrite,hk] at h
        exact hpure _ h
      | bytes d =>
        simp only [startResponseWrite,hk] at h
        obtain ⟨⟨s1,c1⟩,v,hv,h⟩ := Action.bind_eq_ret.mp h
        simp only [Action.pure_apply,Run.ret.injEq,Prod.mk.injEq] at h
        obtain ⟨⟨_,rfl⟩,rfl⟩ := h
        have hw := writeHeaders_carries hv
        exact ((hiter _ _).trans hw).trans (.of_eq id rfl rfl rfl rfl List.prefix_rfl List.suffix_rfl)

theorem startResponseFile_carries {g : Globals} {c c' : Client} {size : ℕ} {w w' : World}
    {s : ResponseStatus} (h : startResponseFile g c size w = .ret (s,c') w') :
    Carries { c with headerDone := c'.headerDone } w c' w' := by
  obtain ⟨⟨s1,c1⟩,v,hv,h⟩ := Action.bind_eq_ret.mp h
  have hc := writeHeaders_carries hv
  simp only [Action.pure_apply,Run.ret.injEq,Prod.mk.injEq] at h
  obtain ⟨⟨_,rfl⟩,rfl⟩ := h
  split
  · exact hc
  · exact hc.trans (.of_eq id rfl rfl rfl rfl List.prefix_rfl List.suffix_rfl)

theorem afterHead_carries {x y : Action (ResponseStatus × Client)} {c c' : Client} {w w' : World}
    {f : Client → Action (ResponseStatus × Client)} {s : ResponseStatus}
    (hx : ∀ {s1 c1 v}, x w = .ret (s1,c1) v → Carries { c with headerDone := c1.headerDone } w c1 v)
    (hf : ∀ {c1 v}, f c1 v = .ret (s,c') w' → Carries c1 v c' w')
    (hy : y = x >>= fun s => if s.1 = .OK then f s.2 else pure s) (h : y w = .ret (s,c') w') :
    Carries { c with headerDone := c'.headerDone } w c' w' := by
  rw [hy] at h
  obtain ⟨⟨s1,c1⟩,v,hv,h⟩ := Action.bind_eq_ret.mp h
  have hc := hx hv
  by_cases hs : s1 = .OK
  · simp only [hs,if_true] at h
    have hrest := hf h
    rw [hrest.headerDone]
    exact hc.trans hrest
  · simp only [hs,if_false,Action.pure_apply,Run.ret.injEq,Prod.mk.injEq] at h
    obtain ⟨⟨_,rfl⟩,rfl⟩ := h
    exact hc

theorem responseStart_carries {g : Globals} {c c' : Client} {w w' : World} {s : ResponseStatus}
    (h : responseStart g c w = .ret (s,c') w') :
    Carries { c with headerDone := c'.headerDone } w c' w' := by
  rcases Option.eq_none_or_eq_some c.response with hr | ⟨r,hr⟩
  · simp [responseStart,hr,die] at h
  · by_cases h304 : c.statusCode = 304
    · simp only [responseStart,hr,h304,if_true] at h
      exact writeHeaders_carries h
    · cases hk : r.kind with
      | file size rest =>
        have heq : responseStart g c = (startResponseFile g c size >>= fun s =>
            if s.1 = .OK then processSendfile s.2 rest else pure s) := by
          simp only [responseStart,hr,if_neg h304,hk]
        exact afterHead_carries startResponseFile_carries processSendfile_carries heq h
      | iter items =>
        have heq : responseStart g c = (startResponseWrite g c r >>= fun s =>
            if s.1 = .OK then processWrite s.2 else pure s) := by
          simp only [responseStart,hr,if_neg h304,hk]
        exact afterHead_carries startResponseWrite_carries processWrite_carries heq h
      | notIterable =>
        have heq : responseStart g c = (startResponseWrite g c r >>= fun s =>
            if s.1 = .OK then processWrite s.2 else pure s) := by
          simp only [responseStart,hr,if_neg h304,hk]
        exact afterHead_carries startResponseWrite_carries processWrite_carries heq h

/-- `response_start` and the loop after it. -/
theorem writeResponse_carries {g : Globals} {c c' : Client} {w w' : World} {s : ResponseStatus}
    (h : writeResponse g c w = .ret (s,c') w') :
    Carries { c with headerDone := c'.headerDone } w c' w' := by
  obtain ⟨⟨s1,c1⟩,v,hv,h⟩ := Action.bind_eq_ret.mp h
  have hloop := appLoop_carries h
  rw [hloop.headerDone]
  exact (responseStart_carries hv).trans hloop

/-! The end of `app_handler`. -/

theorem blockingWriteLoop_closeCalls {os : List Outcome} {c c' : Client} {data : Bytes}
    {w w' : World} (h : blockingWriteLoop os c data w = .ret c' w') :
    w'.closeCalls = w.closeCalls ∧ c'.response = c.response := by
  induction os generalizing c data w with
  | nil =>
    cases data with
    | nil =>
      simp only [blockingWriteLoop,Run.ret.injEq] at h
      exact ⟨h.2 ▸ rfl,h.1 ▸ rfl⟩
    | cons b data => simp [blockingWriteLoop] at h
  | cons o os ih =>
    cases data with
    | nil =>
      simp only [blockingWriteLoop,Run.ret.injEq] at h
      exact ⟨h.2 ▸ rfl,h.1 ▸ rfl⟩
    | cons b data =>
      cases o with
      | eagain => exact ih (w := { w with outcomes := os }) (by simpa only [blockingWriteLoop] using h)
      | error epipe =>
        cases epipe <;>
          simp only [blockingWriteLoop,Run.ret.injEq] at h <;>
          exact ⟨h.2 ▸ rfl,h.1 ▸ rfl⟩
      | count n =>
        have hr := ih (by simpa only [blockingWriteLoop] using h)
        exact hr

/-- `send_error_page` does not call `close`. -/
theorem sendErrorPage_closeCalls {c c' : Client} {w w' : World}
    (h : sendErrorPage c w = .ret c' w') :
    w'.closeCalls = w.closeCalls ∧ c'.response = c.response ∧
      (c.responseClosed = true → c'.responseClosed = true) := by
  unfold sendErrorPage at h
  split at h
  · simp only [Action.pure_apply,Run.ret.injEq] at h
    obtain ⟨rfl,rfl⟩ := h
    exact ⟨rfl,rfl,id⟩
  · obtain ⟨c1,v,hv,h⟩ := Action.bind_eq_ret.mp h
    obtain ⟨h1,h2⟩ := blockingWriteLoop_closeCalls hv
    simp only [Action.pure_apply,Run.ret.injEq] at h
    obtain ⟨rfl,rfl⟩ := h
    exact ⟨h1,h2,fun _ => rfl⟩

/-- How often `close` has been called once a client is closed whose response has it. -/
theorem closeClient_closeCalls {c c' : Client} {w w' : World} (h : closeClient c w = .ret c' w') :
    w'.closeCalls = w.closeCalls + (if c.closes && !c.responseClosed then 1 else 0) ∧
      c'.response = none ∧ c'.responseClosed = false := by
  unfold closeClient at h
  cases hcl : c.responseClosed with
  | true =>
    simp only [hcl,if_true,Action.pure_bind,Action.pure_apply,Run.ret.injEq] at h
    obtain ⟨rfl,rfl⟩ := h
    exact ⟨by simp,rfl,rfl⟩
  | false =>
    simp only [hcl,Bool.false_eq_true,if_false] at h
    obtain ⟨⟨s,c1⟩,v,hv,h⟩ := Action.bind_eq_ret.mp h
    simp only [Action.pure_apply,Run.ret.injEq] at h
    obtain ⟨rfl,rfl⟩ := h
    refine ⟨?_,rfl,rfl⟩
    have hc := (closeResponse_carries hv).closing
    cases hclose : c.closes with
    | true =>
      have h1 := closeResponse_closed hclose hv
      rcases hc with ⟨h2,_⟩ | ⟨_,_,_,h2⟩
      · simp [h1,hcl] at h2
      · simpa using h2
    | false =>
      rcases hc with ⟨_,h2⟩ | ⟨_,h2,_⟩
      · simpa using h2
      · simp [hclose] at h2

/-- What a call leaves of the duty to call `close`: nothing, once it has been called. -/
def Owes (n : ℕ) (c : Client) (w : World) : Prop :=
  w.closeCalls + (if c.closes && !c.responseClosed then 1 else 0) = n

theorem Closing.owes {c c' : Client} {w w' : World} {n : ℕ} (h : Closing c w c' w')
    (hcl : c'.closes = c.closes) (ho : Owes n c w) : Owes n c' w' := by
  unfold Owes at *
  rcases h with ⟨h1,h2⟩ | ⟨h1,h2,h3,h4⟩
  · rw [h1,h2,hcl]
    exact ho
  · simp only [h1,h2,Bool.not_false,Bool.and_self,if_true] at ho
    simpa [h3,h4] using ho

theorem Carries.owes {c c' : Client} {w w' : World} {n : ℕ} (h : Carries c w c' w')
    (ho : Owes n c w) : Owes n c' w' := h.closing.owes h.closes ho

theorem appError_owes {c c' : Client} {w w' : World} {n : ℕ} (ho : Owes n c w)
    (h : appError c w = .ret c' w') : Owes n c' w' := by
  obtain ⟨⟨s,c1⟩,v,hv,h⟩ := Action.bind_eq_ret.mp h
  have h500 : Owes n { c with statusCode := 500 } w := ho
  have h1 := (closeResponse_carries hv).owes h500
  obtain ⟨hcalls,hresp,hclosed⟩ := sendErrorPage_closeCalls h
  have hcl : c'.closes = c1.closes := by simp [Client.closes,hresp]
  unfold Owes at *
  cases hclose : c1.closes with
  | false => simpa [hcl,hclose,hcalls] using h1
  | true =>
    have hdone : c1.responseClosed = true := by
      refine closeResponse_closed ?_ hv
      rw [← (closeResponse_carries hv).closes]
      exact hclose
    simpa [hcl,hclose,hcalls,hdone,hclosed hdone] using h1

/-- `app_handler` up to its label `error` or to the end of the response. -/
def appStatus (g : Globals) (app : AppRun) (c : Client) : Action (ResponseStatus × Client) := do
  let c ← appCalls app.calls c
  let c := { c with responseClosed := app.setClosed.getD c.responseClosed }
  match app.result with
  | .raise | .none => pure (.ERROR,c)
  | .ret r =>
    let c := { c with response := some r }
    if c.responseClosed then pure (.OK,c) else writeResponse g c

theorem endResponse_closed {c : Client} (h : c.responseClosed = true) : endResponse (.OK,c) = pure c := by
  funext w
  have hcl : closeResponse c w = .ret (.OK,c) w := by
    simp only [closeResponse,h,Bool.not_true,Bool.false_eq_true,false_and,if_false]
    cases c.response <;> rfl
  simp only [endResponse,Action.bind_apply,hcl,Action.pure_apply]

theorem appHandler_eq (g : Globals) (app : AppRun) (c : Client) :
    appHandler g app c = appStatus g app c >>= endResponse := by
  rw [appHandler,appStatus,Action.bind_assoc]
  congr 1
  funext c1
  cases app.result with
  | raise => rfl
  | none => rfl
  | ret r =>
    simp only
    split
    next h => rw [Action.pure_bind,endResponse_closed h]
    next h => exact respond_eq g _

theorem appCalls_closing {as : List StartResponseArgs} {c c' : Client} {w w' : World}
    (h : appCalls as c w = .ret c' w') :
    w' = w ∧ c'.response = c.response ∧ c'.responseClosed = c.responseClosed := by
  induction as generalizing c with
  | nil =>
    simp only [appCalls,Action.pure_apply,Run.ret.injEq] at h
    obtain ⟨rfl,rfl⟩ := h
    exact ⟨rfl,rfl,rfl⟩
  | cons a as ih =>
    rw [appCalls] at h
    cases hcall : responseObjectCall c a with
    | raised =>
      simp only [hcall] at h
      exact ih h
    | returned c1 =>
      simp only [hcall] at h
      obtain ⟨code,hs,line,rfl⟩ := responseObjectCall_returned hcall
      have hr := ih h
      exact hr
    | crash => simp [hcall,die] at h

theorem endResponse_owes {r : ResponseStatus × Client} {c' : Client} {w w' : World} {n : ℕ}
    (ho : Owes n r.2 w) (h : endResponse r w = .ret c' w') : Owes n c' w' := by
  obtain ⟨s,c⟩ := r
  cases s with
  | ERROR => exact appError_owes ho h
  | OK =>
    obtain ⟨⟨s1,c1⟩,v,hv,h⟩ := Action.bind_eq_ret.mp h
    simp only [Action.pure_apply,Run.ret.injEq] at h
    obtain ⟨rfl,rfl⟩ := h
    exact (closeResponse_carries hv).owes ho
  | SUSPEND =>
    obtain ⟨⟨s1,c1⟩,v,hv,h⟩ := Action.bind_eq_ret.mp h
    simp only [Action.pure_apply,Run.ret.injEq] at h
    obtain ⟨rfl,rfl⟩ := h
    exact (closeResponse_carries hv).owes ho

end Meinheld
