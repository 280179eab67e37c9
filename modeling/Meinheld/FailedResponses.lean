import Meinheld.KeepAlive

/-! Responses that fail: whether the client gets one error page or none. -/
namespace Meinheld

/-- Some `writev` of a bucket gives `EAGAIN` before one takes what the counter says. -/
def suspends : List Outcome → WriteBucket → Bool
  | .eagain :: _, _ => true
  | .count n :: os, b =>
    let r := (b.bytes.take (n + 1)).length
    if r ≠ 0 ∧ b.total > r then
      suspends os { b with iov := advance r b.iov, total := b.total - advanceLeft r b.iov }
    else false
  | _, _ => false

theorem writevBucketLoop_suspends {os : List Outcome} {b b' : WriteBucket} {w w' : World}
    {s : ResponseStatus} (hos : Nonfatal os) (h : writevBucketLoop os b w = .ret (s,b') w') :
    s = if suspends os b then .SUSPEND else .OK := by
  induction os generalizing b w with
  | nil => simp [writevBucketLoop] at h
  | cons o os ih =>
    have hos' : Nonfatal os := fun p hp => hos p (by simp [hp])
    simp only [writevBucketLoop] at h
    split at h
    · simp at h
    · cases o with
      | eagain =>
        simp only [Run.ret.injEq,Prod.mk.injEq] at h
        simp [suspends,h.1.1]
      | error epipe => simpa [Outcome.fatal] using hos (.error epipe) (by simp)
      | count n =>
        simp only at h
        split at h
        next hcond =>
          simp only [suspends,if_pos hcond]
          exact ih hos' h
        next hcond =>
          simp only [Run.ret.injEq,Prod.mk.injEq] at h
          simp only [suspends,if_neg hcond,Bool.false_eq_true,if_false,h.1.1]

/-- `writev` of something is suspended at once, or takes a byte. -/
theorem writevBucket_nonempty {b b' : WriteBucket} {w w' : World} {s : ResponseStatus}
    (hne : b.bytes ≠ []) (hos : Nonfatal w.outcomes) (h : writevBucket b w = .ret (s,b') w') :
    (w.outcomes.head? = some .eagain ∧ s = .SUSPEND ∧ b' = b ∧ w'.sent = w.sent) ∨
      w.outcomes.head? ≠ some .eagain ∧ w.sent.length < w'.sent.length := by
  unfold writevBucket at h
  rcases ho : w.outcomes with _ | ⟨o,os⟩
  · simp [ho,writevBucketLoop] at h
  simp only [ho,writevBucketLoop] at h
  split at h
  · simp at h
  · cases o with
    | error epipe => simpa [Outcome.fatal] using hos (.error epipe) (by simp [ho])
    | eagain =>
      simp only [Run.ret.injEq,Prod.mk.injEq] at h
      obtain ⟨⟨rfl,rfl⟩,rfl⟩ := h
      exact .inl ⟨rfl,rfl,rfl,rfl⟩
    | count n =>
      simp only at h
      refine .inr ⟨by simp,?_⟩
      have hpos : 0 < (b.bytes.take (n + 1)).length := by
        rw [List.length_take]
        have := List.length_pos_of_ne_nil hne
        omega
      split at h
      · have hw := (writevBucketLoop_writes (w := World.send { w with outcomes := os } _)
          List.suffix_rfl h).sent.length_le
        simp only [World.send,List.length_append] at hw
        omega
      · simp only [Run.ret.injEq] at h
        rw [← h.2]
        simp only [World.send,List.length_append]
        omega

/-! Where a response is when `response_start` leaves it. -/

/-- The write of the head is suspended. -/
def Answer.suspends (g : Globals) (a : Answer) (os : List Outcome) : Bool :=
  (a.firstBucket g).any (Meinheld.suspends os)

/-- How `response_start` leaves a response that met no error on the socket. -/
inductive Begun (g : Globals) (a : Answer) (w : World) : ResponseStatus → Client → World → Prop
  | rejected {c' w'} (hopen : ¬a.Opens g) (hcrash : ¬a.Crashes g) (hdone : c'.headerDone = false)
    (hsent : w'.sent = w.sent) : Begun g a w .ERROR c' w'
  | written {s c' w'} (hopen : a.Opens g)
    (hsus : a.suspends g w.outcomes = false)
    (hdone : c'.headerDone = true) (hsent : w.sent.length < w'.sent.length) : Begun g a w s c' w'
  | waits {c' w'} (b : WriteBucket) (hopen : a.Opens g)
    (hsus : a.suspends g w.outcomes = true)
    (hdone : c'.headerDone = false) (hb : c'.bucket = some b)
    (hsent : w.sent.length < w'.sent.length ∨ b.bytes ≠ []) : Begun g a w .SUSPEND c' w'

variable {g : Globals} {a : Answer} {w w' : World}

theorem responseStart_begun {c' : Client} {s : ResponseStatus} (hos : Nonfatal w.outcomes)
    (h : responseStart g a.start w = .ret (s,c') w') : Begun g a w s c' w' := by
  have hcrash : ¬a.Crashes g := fun hc => by simp [responseStart_crashes hc] at h
  by_cases hopen : a.Opens g
  swap
  · obtain ⟨c1,heq,hsame⟩ := responseStart_refused hopen hcrash
    simp only [heq,Action.pure_apply,Run.ret.injEq,Prod.mk.injEq] at h
    obtain ⟨⟨rfl,rfl⟩,rfl⟩ := h
    exact .rejected hopen hcrash (hsame.headerDone.trans a.fresh.headerDone) rfl
  obtain ⟨hstart,hacc⟩ := hopen
  obtain ⟨f,hf⟩ := exists_afterHead g hstart
  obtain ⟨b,hb,heq⟩ := writeHeaders_accepted hacc
  rw [hf.start,heq] at h
  obtain ⟨⟨s1,c1⟩,v,hhead,h⟩ := Action.bind_eq_ret.mp h
  obtain ⟨⟨s2,b2⟩,v2,hv,hhead⟩ := Action.bind_eq_ret.mp hhead
  have hop := hb.opening
  have hne : (setFirstBodyData a.headed b a.first).bytes ≠ [] := by
    rw [hop.bytes]
    have := head_pos g a
    intro h0
    simp only [Answer.opening,List.append_eq_nil_iff] at h0
    simp [h0.1] at this
  have hs2 : s2 = if a.suspends g w.outcomes then .SUSPEND else .OK := by
    rw [Answer.suspends,hb.built]
    exact writevBucketLoop_suspends hos hv
  have hgrow := writevBucket_nonempty hne hos hv
  cases hsus : a.suspends g w.outcomes with
  | true =>
    simp only [hsus,if_true] at hs2
    subst hs2
    simp only [Action.pure_apply,Run.ret.injEq,Prod.mk.injEq] at hhead
    obtain ⟨⟨rfl,rfl⟩,rfl⟩ := hhead
    have hfreed : b2.freed = false := by
      cases writevBucket_result hv with
      | suspend k _ hsus => exact hsus.freed.trans hop.counted.freed
    rw [hf.suspend b2 hfreed] at h
    simp only [Action.pure_apply,Run.ret.injEq,Prod.mk.injEq] at h
    obtain ⟨⟨rfl,rfl⟩,rfl⟩ := h
    refine .waits { b2 with freed := a.releases } ⟨hstart,hacc⟩ hsus ?_ rfl ?_
    · have hd : a.headed.headerDone = false := by
        rw [headed_eq]
        exact a.fresh.headerDone
      exact hd
    · rcases hgrow with ⟨_,_,rfl,_⟩ | ⟨_,hg⟩
      · exact .inr hne
      · exact .inl hg
  | false =>
    simp only [hsus,Bool.false_eq_true,if_false] at hs2
    subst hs2
    simp only [Action.pure_apply,Run.ret.injEq,Prod.mk.injEq] at hhead
    obtain ⟨⟨rfl,rfl⟩,rfl⟩ := hhead
    replace hgrow := (hgrow.resolve_left (by simp)).2
    replace h : f (.OK,a.direct) v2 = .ret (s,c') w' := h
    rw [hf.ok] at h
    refine .written ⟨hstart,hacc⟩ hsus ?_ ?_
    · split at h
      · simp only [Action.pure_apply,Run.ret.injEq,Prod.mk.injEq] at h
        rw [← h.1.2]
        rfl
      · rw [(processRest_carries h).headerDone]
        rfl
    · split at h
      · simp only [Action.pure_apply,Run.ret.injEq,Prod.mk.injEq] at h
        rwa [← h.2]
      · exact hgrow.trans_le (processRest_carries h).sent.length_le

/-- The loop of `app_handler` on a bucket that has bytes left takes some of them before it comes to
an end. -/
theorem appLoop_grows {fuel : ℕ} {c c' : Client} {b : WriteBucket} {s : ResponseStatus}
    (hb : c.bucket = some b) (hne : b.bytes ≠ []) (hos : Nonfatal w.outcomes)
    (h : appLoop fuel .SUSPEND c w = .ret (s,c') w') : w.sent.length < w'.sent.length := by
  induction fuel generalizing c w with
  | zero => simp [appLoop,die] at h
  | succ fuel ih =>
    rw [appLoop] at h
    obtain ⟨⟨s1,c1⟩,v,hbody,hloop⟩ := Action.bind_eq_ret.mp h
    have hmono := (appLoop_carries hloop).sent.length_le
    simp only [processBody,hb] at hbody
    obtain ⟨⟨s2,b2⟩,v2,hv,hbody⟩ := Action.bind_eq_ret.mp hbody
    have hw := writevBucket_writes hv
    rcases writevBucket_nonempty hne hos hv with ⟨_,hs,rfl,_⟩ | ⟨_,hg⟩
    · subst hs
      simp only [Action.pure_apply,Run.ret.injEq,Prod.mk.injEq] at hbody
      obtain ⟨⟨rfl,rfl⟩,rfl⟩ := hbody
      exact hw.sent.length_le.trans_lt (ih rfl (hos.suffix hw.outcomes) hloop)
    · have hrest : v2.sent.length ≤ v.sent.length := by
        cases s2 with
        | OK => exact (processRest_carries hbody).sent.length_le
        | SUSPEND =>
          simp only [Action.pure_apply,Run.ret.injEq] at hbody
          rw [hbody.2]
        | ERROR =>
          simp only [Action.pure_apply,Run.ret.injEq] at hbody
          rw [hbody.2]
      omega

/-- Where a response is that ends in an error: before its head, or after it. -/
inductive FailedAt (g : Globals) (a : Answer) (w : World) (c' : Client) (w' : World) : Prop
  | before (hopen : ¬a.Opens g) (hcrash : ¬a.Crashes g) (hdone : c'.headerDone = false)
    (hsent : w'.sent = w.sent)
  | after (hopen : a.Opens g) (hdone : c'.headerDone =
    !a.suspends g w.outcomes) (hsent : w.sent.length < w'.sent.length)

theorem writeResponse_failedAt {c' : Client} (hos : Nonfatal w.outcomes)
    (h : writeResponse g a.start w = .ret (.ERROR,c') w') : FailedAt g a w c' w' := by
  obtain ⟨⟨s1,c1⟩,v,hstart,hloop⟩ := Action.bind_eq_ret.mp h
  have hcar := appLoop_carries hloop
  cases responseStart_begun hos hstart with
  | rejected hopen hcrash hdone hsent =>
    simp only [appLoop_of_ne (show ResponseStatus.ERROR ≠ .SUSPEND by simp),Run.ret.injEq,
      Prod.mk.injEq] at hloop
    obtain ⟨⟨_,rfl⟩,rfl⟩ := hloop
    exact .before hopen hcrash hdone hsent
  | written hopen hsus hdone hsent =>
    exact .after hopen (by rw [hcar.headerDone,hdone,hsus]; rfl)
      (hsent.trans_le hcar.sent.length_le)
  | waits b hopen hsus hdone hb hsent =>
    refine .after hopen (by rw [hcar.headerDone,hdone,hsus]; rfl) ?_
    rcases hsent with hg | hne
    · exact hg.trans_le hcar.sent.length_le
    · have hv := (responseStart_carries hstart)
      exact hv.sent.length_le.trans_lt (appLoop_grows hb hne (hos.suffix hv.outcomes) hloop)

/-! Where the process can die. -/

def Lives (x : Action (ResponseStatus × Client)) (w : World) : Prop :=
  (∀ w', x w ≠ .stop .crash w') ∧ ∀ r w', x w = .ret r w' → r.2.response.isSome = true

theorem Lives.pure {s : ResponseStatus} {c : Client} (h : c.response.isSome = true) (w : World) :
    Lives (pure (s,c)) w := by
  refine ⟨by simp,fun r w' hr => ?_⟩
  obtain ⟨rfl,_⟩ := Run.ret.inj hr
  exact h

theorem Lives.of_bind {α : Type} {x : Action α} {f : α → Action (ResponseStatus × Client)}
    (hx : ∀ w', x w ≠ .stop .crash w') (hf : ∀ r v, x w = .ret r v → Lives (f r) v) :
    Lives (x >>= f) w := by
  refine ⟨fun w' h => ?_,fun r w' h => ?_⟩
  · rw [Action.bind_apply] at h
    cases hr : x w with
    | ret r v =>
      simp only [hr] at h
      exact (hf r v hr).1 w' h
    | stop s v =>
      simp only [hr,Run.stop.injEq] at h
      exact hx v (by rw [hr,h.1])
  · obtain ⟨r1,v,hr,h⟩ := Action.bind_eq_ret.mp h
    exact (hf r1 v hr).2 r w' h

theorem Lives.bind {x : Action (ResponseStatus × Client)}
    {f : ResponseStatus × Client → Action (ResponseStatus × Client)} (hx : Lives x w)
    (hf : ∀ r v, r.2.response.isSome = true → Lives (f r) v) : Lives (x >>= f) w :=
  .of_bind hx.1 fun r v hr => hf r v (hx.2 r v hr)

theorem writevBucketLoop_lives {os : List Outcome} {b : WriteBucket} :
    writevBucketLoop os b w ≠ .stop .crash w' := by
  induction os generalizing b w with
  | nil => simp [writevBucketLoop]
  | cons o os ih =>
    simp only [writevBucketLoop]
    split
    · simp
    · cases o with
      | eagain => simp
      | error epipe => simp
      | count n =>
        simp only
        split
        · exact ih
        · simp

/-- A bucket is written before the rest. -/
theorem Lives.write {b : WriteBucket}
    {f : ResponseStatus × WriteBucket → Action (ResponseStatus × Client)}
    (hf : ∀ r v, Lives (f r) v) : Lives (writevBucket b >>= f) w := by
  refine ⟨fun w' h => ?_,fun r w' h => ?_⟩
  · rw [Action.bind_apply] at h
    cases hr : writevBucket b w with
    | ret r v =>
      simp only [hr] at h
      exact (hf r v).1 w' h
    | stop s v =>
      simp only [hr,Run.stop.injEq] at h
      exact writevBucketLoop_lives (by rw [← h.1]; exact hr)
  · obtain ⟨r1,v,hr,h⟩ := Action.bind_eq_ret.mp h
    exact (hf r1 v).2 r w' h

theorem closeResponse_lives {c : Client} (h : c.response.isSome = true) : Lives (closeResponse c) w := by
  obtain ⟨s,closed,n,hcl,_⟩ := closeResponse_spec c w
  refine ⟨by simp [hcl],fun r w' hr => ?_⟩
  rw [hcl] at hr
  obtain ⟨rfl,_⟩ := Run.ret.inj hr
  exact h

theorem finishWrite_lives {r : ResponseStatus × Client} (h : r.2.response.isSome = true) :
    Lives (finishWrite r) w := by
  obtain ⟨s,c⟩ := r
  cases s with
  | OK =>
    simp only [finishWrite]
    split
    · exact .write fun _ _ => closeResponse_lives h
    · exact closeResponse_lives h
  | SUSPEND => exact .pure h w
  | ERROR => exact .pure h w

theorem processItems_lives {items : List Item} {c : Client} (h : c.response.isSome = true) :
    Lives (processItems items c) w := by
  induction items generalizing c w with
  | nil => exact .pure (by exact h) w
  | cons i items ih =>
    cases i with
    | raise => exact .pure (by exact h) w
    | other => exact .pure (by exact h) w
    | bytes d =>
      refine .write fun r v => ?_
      obtain ⟨s1,b1⟩ := r
      cases s1 with
      | OK =>
        simp only
        split
        · exact .pure (by exact h) v
        · exact ih (by exact h)
      | SUSPEND => exact .pure (by exact h) v
      | ERROR => exact .pure (by exact h) v

theorem processWrite_lives {c : Client} (h : c.response.isSome = true) : Lives (processWrite c) w := by
  cases hi : c.responseIter with
  | none =>
    simp only [processWrite,hi]
    exact .pure h w
  | some items =>
    simp only [processWrite,hi]
    exact (processItems_lives h).bind fun r v hr => finishWrite_lives hr

theorem sendfileLoop_lives {os : List Outcome} {rest : Bytes} {c : Client}
    (h : c.response.isSome = true) : sendfileLoop os rest c w ≠ .stop .crash w' ∧
      ∀ r, sendfileLoop os rest c w = .ret r w' → r.2.1.response.isSome = true := by
  have hret : ∀ {s : ResponseStatus} {c1 : Client} {rest1 : Bytes} {v : World},
      c1.response.isSome = true → Run.ret (s,c1,rest1) v ≠ .stop .crash w' ∧
        ∀ r, Run.ret (s,c1,rest1) v = .ret r w' → r.2.1.response.isSome = true := by
    intro s c1 rest1 v hc1
    refine ⟨by simp,fun r hr => ?_⟩
    obtain ⟨rfl,_⟩ := Run.ret.inj hr
    exact hc1
  induction os generalizing rest c w with
  | nil =>
    refine sendfileLoop_cases (P := fun run => run ≠ .stop .crash w' ∧
      ∀ r, run = .ret r w' → r.2.1.response.isSome = true) ?_ ?_ ?_ ?_
    · exact fun _ => hret h
    · exact fun _ _ => hret h
    · simp
    · simp
  | cons o os ih =>
    refine sendfileLoop_cases (P := fun run => run ≠ .stop .crash w' ∧
      ∀ r, run = .ret r w' → r.2.1.response.isSome = true) ?_ ?_ ?_ ?_
    · exact fun _ => hret h
    · exact fun _ _ => hret h
    · simp
    rintro hlt hr _ _ ⟨⟩
    rw [sendfileLoop_cons hlt hr]
    cases o with
    | eagain => exact hret h
    | error epipe => exact hret h
    | count n => exact ih (by exact h)

theorem processSendfile_lives {c : Client} {rest : Bytes} (h : c.response.isSome = true) :
    Lives (processSendfile c rest) w := by
  unfold processSendfile
  refine .of_bind (fun w' => (sendfileLoop_lives h).1) fun r v hr => ?_
  have hsome : r.2.1.response.isSome = true := (sendfileLoop_lives h).2 r hr
  obtain ⟨s1,c1,rest1⟩ := r
  have hseek : (c1.response.map (·.seek rest1)).isSome = true := by simpa using hsome
  cases s1 with
  | OK => exact closeResponse_lives hseek
  | SUSPEND => exact .pure hseek v
  | ERROR => exact .pure hseek v

theorem processRest_lives {c : Client} (h : c.response.isSome = true) : Lives (processRest c) w := by
  obtain ⟨r,hr⟩ := Option.isSome_iff_exists.mp h
  cases hk : r.kind with
  | file size rest =>
    simp only [processRest,hr,hk]
    exact processSendfile_lives h
  | iter items =>
    simp only [processRest,hr,hk]
    exact processWrite_lives h
  | notIterable =>
    simp only [processRest,hr,hk]
    exact processWrite_lives h

theorem processBody_lives {c : Client} (h : c.response.isSome = true) : Lives (processBody c) w := by
  cases hb : c.bucket with
  | none =>
    simp only [processBody,hb]
    exact processRest_lives h
  | some b =>
    simp only [processBody,hb]
    refine .write fun r v => ?_
    obtain ⟨s1,b1⟩ := r
    cases s1 with
    | OK => exact processRest_lives (by exact h)
    | SUSPEND => exact .pure (by exact h) v
    | ERROR => exact .pure (by exact h) v

theorem appLoop_lives {fuel : ℕ} {s : ResponseStatus} {c : Client} (h : c.response.isSome = true) :
    Lives (appLoop fuel s c) w := by
  induction fuel generalizing s c w with
  | zero =>
    cases s with
    | OK => exact .pure h w
    | SUSPEND => exact ⟨by simp [appLoop,die],by simp [appLoop,die]⟩
    | ERROR => exact .pure h w
  | succ fuel ih =>
    cases s with
    | OK => exact .pure h w
    | SUSPEND => exact (processBody_lives h).bind fun r v hr => ih hr
    | ERROR => exact .pure h w

/-- An accepted head does not kill the process. -/
theorem responseStart_lives (hopen : a.Opens g) : (∀ w', responseStart g a.start w ≠ .stop .crash w') ∧
    ∀ c' w', responseStart g a.start w = .ret (.SUSPEND,c') w' → c'.response.isSome = true := by
  obtain ⟨f,hf⟩ := exists_afterHead g hopen.1
  obtain ⟨b,hb,heq⟩ := writeHeaders_accepted hopen.2
  have hop := hb.opening
  have hresp : a.headed.response.isSome = true := by rw [headed_response]; rfl
  have hafter : ∀ v, Lives (f (.OK,a.direct)) v := by
    intro v
    rw [hf.ok]
    split
    · exact .pure (by exact hresp) v
    · exact processRest_lives hresp
  rw [hf.start,heq]
  have hcases : ∀ {s1 c1 v}, writeHead a.headed b a.first w = .ret (s1,c1) v →
      (s1 = .OK ∧ c1 = a.direct) ∨ (s1 = .SUSPEND ∧ ∃ b1, b1.freed = false ∧
        c1 = { a.headed with bucket := some b1 }) ∨ s1 = .ERROR := by
    intro s1 c1 v hv
    rcases (writeHead_cases hv).2 with ⟨rfl,_,rfl⟩ | ⟨rfl,k,b1,hsus,_,rfl⟩ | ⟨rfl,_⟩
    · exact .inl ⟨rfl,rfl⟩
    · exact .inr (.inl ⟨rfl,b1,hsus.freed.trans hop.counted.freed,rfl⟩)
    · exact .inr (.inr rfl)
  constructor
  · intro w' h
    rw [Action.bind_apply] at h
    cases hr : writeHead a.headed b a.first w with
    | ret r v =>
      obtain ⟨s1,c1⟩ := r
      simp only [hr] at h
      rcases hcases hr with ⟨rfl,rfl⟩ | ⟨rfl,b1,hfr,rfl⟩ | rfl
      · exact (hafter v).1 w' h
      · simp [hf.suspend b1 hfr] at h
      · obtain ⟨c2,hc2,-⟩ := hf.error c1
        simp [hc2] at h
    | stop s v =>
      simp only [hr,Run.stop.injEq] at h
      obtain ⟨rfl,rfl⟩ := h
      unfold writeHead at hr
      rw [Action.bind_apply] at hr
      cases hw : writevBucket (setFirstBodyData a.headed b a.first) w with
      | ret r1 v1 =>
        simp only [hw] at hr
        cases hs : r1.1 <;> simp [hs] at hr
      | stop s v1 =>
        simp only [hw,Run.stop.injEq] at hr
        exact writevBucketLoop_lives (by rw [← hr.1]; exact hw)
  · intro c' w' h
    obtain ⟨⟨s1,c1⟩,v,hr,h⟩ := Action.bind_eq_ret.mp h
    rcases hcases hr with ⟨rfl,rfl⟩ | ⟨rfl,b1,hfr,rfl⟩ | rfl
    · exact (hafter v).2 _ w' h
    · simp only [hf.suspend b1 hfr,Action.pure_apply,Run.ret.injEq,Prod.mk.injEq] at h
      rw [← h.1.2]
      exact hresp
    · obtain ⟨c2,hc2,-⟩ := hf.error c1
      simp [hc2] at h

theorem crashes_of_writeResponse (h : writeResponse g a.start w = .stop .crash w') :
    a.Crashes g := by
  by_contra hcrash
  unfold writeResponse at h
  rw [Action.bind_apply] at h
  by_cases hopen : a.Opens g
  · obtain ⟨h1,h2⟩ := responseStart_lives (w := w) hopen
    cases hr : responseStart g a.start w with
    | stop s v =>
      simp only [hr,Run.stop.injEq] at h
      exact h1 v (by rw [hr,h.1])
    | ret r v =>
      obtain ⟨s1,c1⟩ := r
      simp only [hr] at h
      by_cases hs : s1 = .SUSPEND
      · subst hs
        exact (appLoop_lives (h2 c1 v hr)).1 w' h
      · simp [appLoop_of_ne hs] at h
  · obtain ⟨c,hc,_⟩ := responseStart_refused hopen hcrash
    simp [hc,appLoop_of_ne] at h

/-! The claim about a failed response. -/

/-- The page for a status 500. -/
def page500 : Bytes := errorHead 500 ++ errorBody 500

@[simp] theorem page500_ne_nil : page500 ≠ [] := by simp [page500,errorHead]

/-- The label `error` of `app_handler`. -/
theorem appError_nonfatal {c c' : Client} (hos : Nonfatal w.outcomes)
    (h : appError c w = .ret c' w') :
    if c.headerDone ∨ c.responseClosed ∨ c.closes then
      w'.sent = w.sent ∧ c'.keepAlive = c.keepAlive
    else w'.sent = w.sent ++ page500 ∧ c'.keepAlive = false := by
  obtain ⟨⟨s,c1⟩,v,hv,h⟩ := Action.bind_eq_ret.mp h
  have hcar := closeResponse_carries hv
  have hsent : v.sent = w.sent := by
    obtain ⟨_,_,_,hcl,_⟩ := closeResponse_spec { c with statusCode := 500 } w
    rw [hcl] at hv
    rw [← (Run.ret.inj hv).2]
  have hcode : c1.statusCode = 500 := by
    obtain ⟨_,_,_,hcl,_⟩ := closeResponse_spec { c with statusCode := 500 } w
    rw [hcl] at hv
    rw [← (Prod.mk.inj (Run.ret.inj hv).1).2]
  have hdone : c1.headerDone = c.headerDone := hcar.headerDone
  have hclose := closeResponse_keepAlive hv
  have hkeep : c1.keepAlive = c.keepAlive := hclose
  have hclosed : c1.responseClosed = true ↔ c.responseClosed = true ∨ c.closes = true := by
    rcases hcar.closing with ⟨h1,_⟩ | ⟨_,h2,h3,_⟩
    · have h1' : c1.responseClosed = c.responseClosed := h1
      constructor
      · exact fun h0 => .inl (h1' ▸ h0)
      · rintro (h0 | h0)
        · exact h1'.trans h0
        · exact closeResponse_closed (c := { c with statusCode := 500 }) h0 hv
    · exact ⟨fun _ => .inr h2,fun _ => h3⟩
  have hcond : (c1.headerDone = true ∨ c1.responseClosed = true) ↔
      (c.headerDone = true ∨ c.responseClosed = true ∨ c.closes = true) := by rw [hdone,hclosed]
  unfold sendErrorPage at h
  by_cases hc : c1.headerDone = true ∨ c1.responseClosed = true
  · rw [if_pos (hcond.mp hc)]
    simp only [if_pos hc,Action.pure_apply,Run.ret.injEq] at h
    obtain ⟨rfl,rfl⟩ := h
    exact ⟨hsent,hkeep⟩
  · rw [if_neg (mt hcond.mpr hc)]
    simp only [if_neg hc] at h
    obtain ⟨c2,v2,hwrite,h⟩ := Action.bind_eq_ret.mp h
    simp only [Action.pure_apply,Run.ret.injEq] at h
    obtain ⟨rfl,rfl⟩ := h
    have hos1 : Nonfatal v.outcomes := hos.suffix hcar.outcomes
    rw [blockingWriteLoop_nonfatal hos1 hwrite,hsent,hcode]
    exact ⟨rfl,rfl⟩

/-- A run of `app_handler` whose application fails: the process dies on what the application gave,
or the world `w1` is left at the label `error`, and `c2` and `w2` after it. -/
inductive FailedRun (g : Globals) (app : AppRun) (c : Client) (w : World) :
    Option (World × Client × World) → Prop
  | crash {w1} (h : appStatus g app c w = .stop .crash w1) : FailedRun g app c w none
  | error {c1 w1 c2 w2} (h : appStatus g app c w = .ret (.ERROR,c1) w1)
    (hend : endResponse (.ERROR,c1) w1 = .ret c2 w2) : FailedRun g app c w (some (w1,c2,w2))

/-- One complete page when nothing was sent, nothing more when something was, and no keep-alive. -/
def FailsWell (w : World) : Option (World × Client × World) → Prop
  | none => False
  | some (w1,c2,w2) => (w1.sent = w.sent → w2.sent = w.sent ++ page500) ∧
      (w1.sent ≠ w.sent → w2.sent = w1.sent) ∧ c2.keepAlive = false

/-- The response is a file with a length that `sendfile` refuses when it comes to it, which clears
keep-alive. -/
def Answer.CutOff (g : Globals) (a : Answer) (os : List Outcome) : Prop :=
  (∃ size rest, a.response.kind = .file size rest) ∧
    sendfileRefuses a.headed.contentLength = true ∧
    if a.suspends g os then (a.head g).length % 2 ^ 32 < a.headed.contentLength
    else a.client.statusCode ≠ 304

/-- The condition for a response that fails. Before its head: no `close` method stands in the way of
the page. After it: keep-alive was off already, or a `sendfile` that is refused switches it off, and a
head that was suspended has a `close` method to keep the page away. -/
def Answer.Contained (g : Globals) (a : Answer) (os : List Outcome) : Prop :=
  (a.Opens g → (a.client.keepAlive = false ∨ a.CutOff g os) ∧
    (a.suspends g os = true → a.response.hasClose = true)) ∧
  (¬a.Opens g → ¬a.Crashes g ∧ a.response.hasClose = false)

/-- The condition for a request whose application fails. -/
def Contained (g : Globals) (app : AppRun) (c : Client) (os : List Outcome) : Prop :=
  ∃ c', (∀ w, appCalls app.calls c w = .ret c' w) ∧ match app.result with
    | .ret r => ∀ a : Answer, a.client = { c' with
        responseClosed := app.setClosed.getD c'.responseClosed } → a.response = r → a.Contained g os
    | _ => app.setClosed.getD c'.responseClosed = false

theorem drain_nonfatal {os : List Outcome} {b : WriteBucket} {e : Drained} {waited : Bool}
    (hos : Nonfatal os) (h : drain waited os b = some e) :
    ∃ os', Nonfatal os' ∧ e = .taken (waited || Meinheld.suspends os b) os' := by
  induction os generalizing b waited with
  | nil => cases h
  | cons o os ih =>
    have hos' : Nonfatal os := fun p hp => hos p (by simp [hp])
    cases o with
    | eagain =>
      obtain ⟨os',hos',rfl⟩ := ih hos' h
      exact ⟨os',hos',by simp [Meinheld.suspends]⟩
    | error epipe => simpa [Outcome.fatal] using hos (.error epipe) (by simp)
    | count n =>
      simp only [drain] at h
      simp only [Meinheld.suspends]
      split at h
      next hcond =>
        rw [if_pos hcond]
        exact ih hos' h
      next hcond =>
        rw [if_neg hcond,Bool.or_false]
        exact ⟨os,hos',(Option.some.inj h).symm⟩

theorem fileBreaks_nonfatal {n : ℕ} {os : List Outcome} (hos : Nonfatal os) (k : ℕ) (rest : Bytes) :
    fileBreaks n os k rest = true ↔ k < n ∧ sendfileRefuses n = true := by
  induction os generalizing k rest with
  | nil => simp [fileBreaks]
  | cons o os ih =>
    have hos' : Nonfatal os := fun p hp => hos p (by simp [hp])
    rcases Nat.lt_or_ge k n with hlt | hle
    · cases hr : sendfileRefuses n with
      | true => simp [fileBreaks_refused hlt hr,hlt]
      | false =>
        simp only [hr] at ih
        rw [fileBreaks_cons hlt hr]
        cases o with
        | eagain => simp [ih hos']
        | error epipe => simpa [Outcome.fatal] using hos (.error epipe) (by simp)
        | count m => simp [ih hos']
    · simp [fileBreaks_done hle,Nat.not_lt.mpr hle]

theorem appLoop_taken {fuel : ℕ} {c : Client} {b : WriteBucket} {r : ResponseStatus × Client}
    (hb : c.bucket = some b) (h : appLoop fuel .SUSPEND c w = .ret r w') :
    drain true w.outcomes b ≠ none := by
  induction fuel generalizing c b w with
  | zero => simp [appLoop,die] at h
  | succ fuel ih =>
    rw [appLoop] at h
    obtain ⟨⟨s1,c1⟩,v,hbody,h⟩ := Action.bind_eq_ret.mp h
    simp only [processBody,hb] at hbody
    obtain ⟨⟨s2,b2⟩,v2,hv,hbody⟩ := Action.bind_eq_ret.mp hbody
    obtain ⟨hok,hsus,herr⟩ := drain_of_writev true hv
    cases s2 with
    | OK =>
      rw [hok rfl]
      simp
    | ERROR =>
      rw [herr rfl]
      simp
    | SUSPEND =>
      simp only [Action.pure_apply,Run.ret.injEq,Prod.mk.injEq] at hbody
      obtain ⟨⟨rfl,rfl⟩,rfl⟩ := hbody
      rw [hsus rfl]
      exact ih rfl h

theorem writeResponse_taken {r : ResponseStatus × Client} {b : WriteBucket} (hopen : a.Opens g)
    (hb : HeadBucket g a b) (heq : writeHeaders g a.starting a.first a.fileSize =
      writeHead a.headed b a.first) (h : writeResponse g a.start w = .ret r w') :
    drain false w.outcomes (setFirstBodyData a.headed b a.first) ≠ none := by
  obtain ⟨⟨s1,c1⟩,v,hstart,hloop⟩ := Action.bind_eq_ret.mp h
  obtain ⟨f,hf⟩ := exists_afterHead g hopen.1
  rw [hf.start,heq] at hstart
  obtain ⟨⟨s2,c2⟩,v2,hhead,hstart⟩ := Action.bind_eq_ret.mp hstart
  obtain ⟨⟨s3,b3⟩,v3,hv,hhead⟩ := Action.bind_eq_ret.mp hhead
  obtain ⟨hok,hsus,herr⟩ := drain_of_writev false hv
  cases s3 with
  | OK => exact fun h0 => by simp [hok rfl] at h0
  | ERROR => exact fun h0 => by simp [herr rfl] at h0
  | SUSPEND =>
    simp only [Action.pure_apply,Run.ret.injEq,Prod.mk.injEq] at hhead
    obtain ⟨⟨rfl,rfl⟩,rfl⟩ := hhead
    have hfreed : b3.freed = false := by
      cases writevBucket_result hv with
      | suspend k _ hsus => exact hsus.freed.trans hb.opening.counted.freed
    rw [hf.suspend b3 hfreed] at hstart
    simp only [Action.pure_apply,Run.ret.injEq,Prod.mk.injEq] at hstart
    obtain ⟨⟨rfl,rfl⟩,rfl⟩ := hstart
    have htaken := appLoop_taken rfl hloop
    rw [drain_freed] at htaken
    exact fun h0 => htaken ((hsus rfl).symm.trans h0)

theorem pos_of_refuses {n : ℕ} (h : sendfileRefuses n = true) : 0 < n := by
  rcases Nat.eq_zero_or_pos n with rfl | hpos
  · simp [sendfileRefuses] at h
  · exact hpos

theorem restBreaks_nonfatal {c : Client} {os : List Outcome} (hos : Nonfatal os)
    (hresp : c.response = some a.response) (hpages : c.pages = false) : c.restBreaks os = true ↔
      (∃ size rest, a.response.kind = .file size rest) ∧ sendfileRefuses c.contentLength = true ∧
        c.writeBytes < c.contentLength := by
  by_cases hfile : ∃ size rest, a.response.kind = .file size rest
  · obtain ⟨size,rest,hk⟩ := hfile
    have hsends : c.Sends rest := ⟨size,by simp [hresp,hk]⟩
    rw [hsends.restBreaks,fileBreaks_nonfatal hos]
    simp [hk,and_comm]
  · have hiter : c.Iterates := fun size rest hk => hfile ⟨size,rest,by simpa [hresp] using hk⟩
    rw [Client.restBreaks_iterates hiter]
    cases c.responseIter <;> simp [hpages,hfile]

/-- Where no error page is sent, only a refused length breaks a response off. -/
theorem Answer.breaks_nonfatal {r : ResponseStatus × Client} (hopen : a.Opens g)
    (hos : Nonfatal w.outcomes) (hclose : a.suspends g w.outcomes = true → a.response.hasClose = true)
    (h : writeResponse g a.start w = .ret r w') : a.Breaks g w.outcomes ↔ a.CutOff g w.outcomes := by
  obtain ⟨b,hb,heq⟩ := writeHeaders_accepted hopen.2
  obtain ⟨e,he⟩ := Option.ne_none_iff_exists'.mp (writeResponse_taken hopen hb heq h)
  obtain ⟨os',hos',rfl⟩ := drain_nonfatal hos he
  have hsus : a.suspends g w.outcomes =
      Meinheld.suspends w.outcomes (setFirstBodyData a.headed b a.first) := by
    rw [Answer.suspends,hb.built]
    rfl
  rw [Answer.breaks_iff hopen hb,he,Answer.CutOff,← hsus]
  have hdirect : a.direct.response = some a.response := headed_response a
  have hdelayed : (a.delayed g).response = some a.response := headed_response a
  cases hs : a.suspends g w.outcomes with
  | false =>
    simp only [Bool.false_or,Bool.false_eq_true,if_false]
    rw [restBreaks_nonfatal hos' hdirect (direct_pages a)]
    have hlength : a.direct.contentLength = a.headed.contentLength := rfl
    rw [hlength]
    constructor
    · rintro ⟨h304,hfile,hr,-⟩
      exact ⟨hfile,hr,h304⟩
    · rintro ⟨⟨size,rest,hk⟩,hr,h304⟩
      refine ⟨h304,⟨size,rest,hk⟩,hr,?_⟩
      rw [direct_writeBytes,first_of_file hk]
      exact pos_of_refuses hr
  | true =>
    simp only [Bool.or_true,if_true]
    have hpages : (a.delayed g).pages = false := by
      have hp : (a.delayed g).pages = a.headed.pages := rfl
      rw [hp,(headed_flags a).pages,start_pages,hclose hs]
      rfl
    rw [restBreaks_nonfatal hos' hdelayed hpages,delayed_writeBytes]
    have hlength : (a.delayed g).contentLength = a.headed.contentLength := rfl
    rw [hlength]
    constructor
    · rintro ⟨⟨size,rest,hk⟩,hr,hlt⟩
      exact ⟨⟨size,rest,hk⟩,hr,opening_of_file (g := g) hk ▸ hlt⟩
    · rintro ⟨⟨size,rest,hk⟩,hr,hlt⟩
      exact ⟨⟨size,rest,hk⟩,hr,(opening_of_file (g := g) hk).symm ▸ hlt⟩

/-- An answer that failed handles its failure exactly under its condition. -/
theorem Answer.failsWell_iff {c1 c2 : Client} {w1 w2 : World} (hos : Nonfatal w.outcomes)
    (h : writeResponse g a.start w = .ret (.ERROR,c1) w1)
    (hend : endResponse (.ERROR,c1) w1 = .ret c2 w2) :
    FailsWell w (some (w1,c2,w2)) ↔ a.Contained g w.outcomes := by
  have hcar := writeResponse_carries h
  obtain ⟨hne,hkeeps⟩ := writeResponse_keeps h
  have hend' : c2.keepAlive = false ↔ a.client.keepAlive = false ∨ a.Breaks g w.outcomes := by
    rw [endResponse_keeps hne hend w1.outcomes,← Bool.not_eq_true,hkeeps]
    cases a.client.keepAlive <;> simp
  have hcloses : c1.closes = a.response.hasClose := by
    rw [hcar.closes]
    rfl
  have hclosed : c1.responseClosed = true → a.response.hasClose = true := by
    intro hc
    rcases hcar.closing with ⟨h1,_⟩ | ⟨_,h2,_⟩
    · rw [hc] at h1
      exact absurd (h1.trans a.notClosed) (by simp)
    · exact h2
  have herr := appError_nonfatal (hos.suffix hcar.outcomes) hend
  rw [hcloses] at herr
  simp only [FailsWell,Answer.Contained]
  cases writeResponse_failedAt hos h with
  | before hopen hcrash hdone hsent =>
    simp only [hsent,hopen,false_implies,true_and,not_false_eq_true,forall_const,hcrash,
      ne_eq,not_true]
    cases hclose : a.response.hasClose with
    | true =>
      simp only [hclose,or_true,if_true] at herr
      simp [herr.1,hsent]
    | false =>
      have hnc : c1.responseClosed = false := by
        cases hc : c1.responseClosed with
        | false => rfl
        | true => simp [hclosed hc] at hclose
      simp only [hdone,hnc,hclose,Bool.false_eq_true,or_self,if_false] at herr
      simp [herr.1,hsent,herr.2]
  | after hopen hdone hsent =>
    have hne : w1.sent ≠ w.sent := fun heq => by simp [heq] at hsent
    simp only [hne,false_implies,true_and,ne_eq,not_false_eq_true,forall_const,hopen,
      not_true,and_true]
    cases hsus : a.suspends g w.outcomes with
    | false =>
      simp only [hdone,hsus,Bool.not_false,true_or,if_true] at herr
      rw [Answer.breaks_nonfatal hopen hos (by simp [hsus]) h] at hend'
      simp [herr.1,hend']
    | true =>
      simp only [hdone,hsus,Bool.not_true,Bool.false_eq_true,false_or] at herr
      cases hclose : a.response.hasClose with
      | true =>
        simp only [hclose,or_true,if_true] at herr
        rw [Answer.breaks_nonfatal hopen hos (fun _ => hclose) h] at hend'
        simp [herr.1,hend']
      | false =>
        have hnc : c1.responseClosed = false := by
          cases hc : c1.responseClosed with
          | false => rfl
          | true => simp [hclosed hc] at hclose
        simp only [hnc,hclose,Bool.false_eq_true,or_self,if_false] at herr
        simp [herr.1]

/-- A request whose application fails is answered with one page or with none, and without
keep-alive, exactly under the condition. -/
theorem failed_response_iff {app : AppRun} {c : Client} {e : Option (World × Client × World)}
    (hc : c.Fresh) (hresp : c.response = none) (hos : Nonfatal w.outcomes)
    (h : FailedRun g app c w e) : FailsWell w e ↔ Contained g app c w.outcomes := by
  rcases appCalls_cases app.calls c with ⟨c', hcalls⟩ | hcrash
  swap
  · -- the process died on a status
    have hnone : e = none := by
      cases h with
      | crash => rfl
      | error h =>
        simp only [appStatus] at h
        rw [Action.bind_apply,hcrash] at h
        simp at h
    subst hnone
    simp only [FailsWell,false_iff]
    rintro ⟨c',hc',_⟩
    have := (hcrash w).symm.trans (hc' w)
    simp at this
  have hfresh : c'.Fresh := appCalls_fresh hc (hcalls w)
  obtain ⟨_,hresp',hclosed'⟩ := appCalls_closing (hcalls w)
  have huniq : ∀ c1, (∀ w, appCalls app.calls c w = .ret c1 w) → c1 = c' := by
    intro c1 h1
    have := (h1 w).symm.trans (hcalls w)
    exact (Run.ret.inj this).1
  set c0 : Client := { c' with responseClosed := app.setClosed.getD c'.responseClosed } with hc0
  have hfailed : app.result = .raise ∨ app.result = .none → appStatus g app c w = .ret (.ERROR,c0) w := by
    intro hres
    rcases hres with hres | hres <;> simp [appStatus,Action.bind_apply,hcalls,hres,hc0]
  have hanswered : ∀ r, app.result = .ret r → appStatus g app c w =
      (if c0.responseClosed then pure (.OK,{ c0 with response := some r })
        else writeResponse g { c0 with response := some r }) w := by
    intro r hres
    simp [appStatus,Action.bind_apply,hcalls,hres,hc0]
  have hraise : app.result = .raise ∨ app.result = .none →
      (FailsWell w e ↔ Contained g app c w.outcomes) := by
    intro hres
    have hrun := hfailed hres
    have hcont : Contained g app c w.outcomes ↔ c0.responseClosed = false := by
      constructor
      · rintro ⟨c1,h1,h2⟩
        obtain rfl := huniq c1 h1
        rcases hres with hres | hres <;> simpa only [hres] using h2
      · intro h2
        refine ⟨c',hcalls,?_⟩
        rcases hres with hres | hres <;> simpa only [hres] using h2
    rw [hcont]
    cases h with
    | crash h => simp [hrun] at h
    | @error c1 w1 c2 w2 h hend =>
      rw [hrun] at h
      simp only [Run.ret.injEq,Prod.mk.injEq,true_and] at h
      obtain ⟨rfl,rfl⟩ := h
      have herr := appError_nonfatal hos hend
      have hcl : c0.closes = false := by simp [Client.closes,hc0,hresp',hresp]
      have hdone : c0.headerDone = false := hfresh.headerDone
      rw [hcl,hdone] at herr
      simp only [FailsWell,ne_eq,not_true,false_implies,true_and,forall_const]
      cases hrc : c0.responseClosed with
      | false =>
        simp only [hrc,Bool.false_eq_true,or_self,if_false] at herr
        simp [herr.1,herr.2]
      | true =>
        simp only [hrc,Bool.false_eq_true,or_false,false_or,if_true] at herr
        simp [herr.1]
  cases hres : app.result with
  | raise => exact hraise (.inl hres)
  | none => exact hraise (.inr hres)
  | ret r =>
    cases hrc : c0.responseClosed with
    | true =>
      have hrun := hanswered r hres
      rw [if_pos hrc] at hrun
      cases h with
      | crash h => simp [hrun] at h
      | error h => simp [hrun] at h
    | false =>
      let a : Answer := ⟨c0,r,⟨hfresh.1,hfresh.2,hfresh.3,hfresh.4,hfresh.5,hfresh.6⟩,hrc⟩
      have hrun : appStatus g app c w = writeResponse g a.start w :=
        (hanswered r hres).trans (congrFun (if_neg (by simp [hrc])) w)
      have hcont : Contained g app c w.outcomes ↔ a.Contained g w.outcomes := by
        constructor
        · rintro ⟨c1,h1,h2⟩
          obtain rfl := huniq c1 h1
          simp only [hres] at h2
          exact h2 a rfl rfl
        · intro h2
          refine ⟨c',hcalls,?_⟩
          simp only [hres]
          rintro ⟨c1,r1,hf1,hn1⟩ rfl rfl
          exact h2
      rw [hcont]
      cases h with
      | crash h =>
        rw [hrun] at h
        have hcrash := crashes_of_writeResponse h
        simp only [FailsWell,false_iff]
        rintro ⟨_,h2⟩
        by_cases hopen : a.Opens g
        · obtain ⟨_,hs,hhs,hb⟩ := hcrash
          obtain ⟨hs',c1,b1,hhs',hb'⟩ := hopen.2
          rw [hhs] at hhs'
          obtain rfl := Option.some.inj hhs'
          simp [hb] at hb'
        · exact (h2 hopen).1 hcrash
      | error h hend =>
        rw [hrun] at h
        exact a.failsWell_iff hos h hend

theorem blockingWriteLoop_count (os : List Outcome) {c : Client} {data : Bytes} {n : ℕ}
    (hn : data.length ≤ n + 1) : ∃ c' w', blockingWriteLoop (.count n :: os) c data w = .ret c' w' := by
  cases data with
  | nil => exact ⟨c,w,rfl⟩
  | cons b data =>
    have hdrop : (b :: data).drop (n + 1) = [] := List.drop_of_length_le hn
    simp only [blockingWriteLoop,hdrop]
    cases os <;> exact ⟨_,_,rfl⟩

theorem sendErrorPage_count (os : List Outcome) {c : Client}
    (hopen : ¬(c.headerDone = true ∨ c.responseClosed = true)) (hcode : c.statusCode = 500)
    (hw : w.outcomes = .count page500.length :: os) : ∃ c' w', sendErrorPage c w = .ret c' w' := by
  have hlen : page500.length ≤ page500.length + 1 := by omega
  obtain ⟨c1,w1,hwrite⟩ := blockingWriteLoop_count os (w := w) (c := c) hlen
  rw [← hw] at hwrite
  simp only [sendErrorPage,if_neg hopen,hcode,Action.bind_apply,blockingWrite]
  rw [← page500,hwrite]
  exact ⟨_,_,rfl⟩

theorem endResponse_none {c : Client} (h : c.response = none) :
    endResponse (.ERROR,c) = sendErrorPage { c with statusCode := 500 } := by
  have hclose : closeResponse { c with statusCode := 500 } = pure (.OK,{ c with statusCode := 500 }) := by
    funext w
    simp only [closeResponse,h,Action.pure_apply]
  simp only [endResponse,appError,hclose,Action.pure_bind]

/-- An application that raises gets its page. -/
theorem failed_response_raise : ∃ e, FailedRun {} { result := .raise } (newClientT 80)
    ⟨[.count page500.length],[],0⟩ e ∧ FailsWell ⟨[.count page500.length],[],0⟩ e := by
  obtain ⟨c2,w2,hpage⟩ := sendErrorPage_count [] (c := { newClientT 80 with statusCode := 500 })
    (w := ⟨[.count page500.length],[],0⟩) (by simp [newClientT]) rfl rfl
  have hrun : FailedRun {} { result := .raise } (newClientT 80) ⟨[.count page500.length],[],0⟩ _ :=
    .error rfl ((congrFun (endResponse_none rfl) _).trans hpage)
  refine ⟨_,hrun,?_⟩
  refine (failed_response_iff (newClientT_fresh 80) rfl ?_ hrun).mpr ⟨newClientT 80,fun _ => rfl,rfl⟩
  simp [Nonfatal,Outcome.fatal]

/-- An application whose iterable has a `close` method and raises before it gives an item. -/
def raisingApp : AppRun where
  result := .ret { kind := .iter [.raise], hasClose := true }

def raisedClient : Client := { newClientT 80 with
  keepAlive := true
  response := some { kind := .iter [.raise], hasClose := true }
  responseIter := some [] }

/-- No page is sent, and the connection is kept alive. -/
theorem not_failsWell_close : ∃ e,
    FailedRun {} raisingApp { newClientT 80 with keepAlive := true } ⟨[],[],0⟩ e ∧
      ¬FailsWell ⟨[],[],0⟩ e := by
  have hstatus : appStatus {} raisingApp { newClientT 80 with keepAlive := true } ⟨[],[],0⟩ =
      .ret (.ERROR,raisedClient) ⟨[],[],0⟩ := rfl
  have hend : endResponse (.ERROR,raisedClient) ⟨[],[],0⟩ =
      .ret { raisedClient with statusCode := 500, responseClosed := true } ⟨[],[],1⟩ := rfl
  exact ⟨_,.error hstatus hend,by simp [FailsWell]⟩

end Meinheld
