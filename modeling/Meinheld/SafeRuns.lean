import Meinheld.Runs
import Meinheld.Schedules

/-! No released memory is used but by a head that waits, and how `app_handler` ends. -/
namespace Meinheld

/-- The run does not use freed memory. -/
def Safe {α : Type} (x : Action α) (w : World) : Prop := ∀ w', x w ≠ .stop .dangling w'

theorem Safe.of_ret {α : Type} {x : Action α} {w w' : World} {a : α} (h : x w = .ret a w') :
    Safe x w := by
  simp [Safe,h]

theorem Safe.bind {α β : Type} {x : Action α} {f : α → Action β} {w : World} (hx : Safe x w)
    (hf : ∀ a w', x w = .ret a w' → Safe (f a) w') : Safe (x >>= f) w := by
  intro w' h
  rw [Action.bind_apply] at h
  cases hr : x w with
  | ret a v => exact hf a v hr w' (by simpa [hr] using h)
  | stop s v =>
    simp only [hr,Run.stop.injEq] at h
    exact hx v (by rw [hr,h.1])

theorem writevBucketLoop_safe {os : List Outcome} {b : WriteBucket} {w w' : World}
    (hd : b.dangles = false) : writevBucketLoop os b w ≠ .stop .dangling w' := by
  induction os generalizing b w with
  | nil => simp [writevBucketLoop]
  | cons o os ih =>
    simp only [writevBucketLoop,hd,Bool.false_eq_true,if_false]
    cases o with
    | eagain => simp
    | error epipe => simp
    | count n =>
      simp only
      split
      · apply ih
        simp only [WriteBucket.dangles,Bool.and_eq_false_iff] at hd ⊢
        exact hd.imp id advance_item
      · simp

theorem writevBucket_safe {b : WriteBucket} (hd : b.dangles = false) (w : World) :
    Safe (writevBucket b) w := fun _ => writevBucketLoop_safe hd

theorem closeResponse_safe (c : Client) (w : World) : Safe (closeResponse c) w := by
  obtain ⟨s,closed,n,h,_⟩ := closeResponse_spec c w
  exact .of_ret h

theorem processItems_safe {items : List Item} {c : Client} {w : World}
    (hch : c.chunkedResponse = false) : Safe (processItems items c >>= finishWrite) w := by
  induction items generalizing c w with
  | nil =>
    rw [processItems,Action.pure_bind,finishWrite_plain (by exact hch)]
    exact closeResponse_safe _ w
  | cons i items ih =>
    cases i with
    | raise => exact .of_ret (a := (.ERROR,{ c with responseIter := some [] })) rfl
    | other => exact .of_ret (a := (.ERROR,{ c with responseIter := some items, statusCode := 500 })) rfl
    | bytes d =>
      obtain ⟨_,hcounted⟩ := itemBucket_plain hch d
      simp only [processItems,Action.bind_assoc]
      refine .bind (writevBucket_safe hcounted.not_dangles w) fun r v hv => ?_
      obtain ⟨s1,b1⟩ := r
      cases s1 with
      | OK =>
        by_cases hcond : c.contentLengthSet = true ∧ c.contentLength ≤ c.writeBytes + d.length
        · simp only [if_pos hcond,Action.pure_bind]
          rw [finishWrite_plain (by exact hch)]
          exact closeResponse_safe _ v
        · simp only [if_neg hcond]
          exact ih (by exact hch)
      | SUSPEND => exact fun _ => by simp [Action.pure_bind,finishWrite]
      | ERROR => exact fun _ => by simp [Action.pure_bind,finishWrite]

theorem sendfileLoop_safe {os : List Outcome} {rest : Bytes} {c : Client} {w w' : World} :
    sendfileLoop os rest c w ≠ .stop .dangling w' := by
  induction os generalizing rest c w with
  | nil =>
    refine sendfileLoop_cases (P := (· ≠ .stop .dangling w')) ?_ ?_ ?_ ?_ <;> simp
  | cons o os ih =>
    refine sendfileLoop_cases (P := (· ≠ .stop .dangling w')) (by simp) (by simp) (by simp) ?_
    rintro hlt hr _ _ ⟨⟩
    rw [sendfileLoop_cons hlt hr]
    cases o <;> simp [ih]

theorem processRest_safe {c : Client} {w : World} (hch : c.chunkedResponse = false) :
    Safe (processRest c) w := by
  cases hr : c.response with
  | none => simp [Safe,processRest,hr,die]
  | some r =>
    have hwrite : Safe (processWrite c) w := by
      cases hi : c.responseIter with
      | none => exact fun _ => by simp [processWrite,hi]
      | some items =>
        simp only [processWrite,hi]
        exact processItems_safe hch
    cases hk : r.kind with
    | file size rest =>
      simp only [processRest,hr,hk,processSendfile]
      refine .bind (fun _ => sendfileLoop_safe) fun r v hv => ?_
      cases r.1 with
      | OK => exact closeResponse_safe _ v
      | SUSPEND => exact fun _ => by simp
      | ERROR => exact fun _ => by simp
    | iter items => simpa only [processRest,hr,hk] using hwrite
    | notIterable => simpa only [processRest,hr,hk] using hwrite

theorem processBody_safe {c : Client} {w : World} (hready : c.Ready) : Safe (processBody c) w := by
  unfold processBody
  cases hb : c.bucket with
  | none => exact processRest_safe hready.chunked
  | some b =>
    refine .bind (writevBucket_safe (hready.bucket b hb) w) fun r v hv => ?_
    obtain ⟨s1,b1⟩ := r
    cases s1 with
    | OK => exact processRest_safe (by exact hready.chunked)
    | SUSPEND => exact fun _ => by simp
    | ERROR => exact fun _ => by simp

/-- A response that makes progress does not use freed memory later. -/
theorem appLoop_safe {T : Bytes → Prop} {F : Prop} {c c1 : Client} {w w1 : World}
    {s1 : ResponseStatus} (fuel : ℕ) (h : Progress T F c w s1 c1 w1) :
    Safe (appLoop fuel s1 c1) w1 := by
  induction fuel generalizing T F c c1 w w1 s1 with
  | zero => cases s1 <;> simp [Safe,appLoop,die]
  | succ fuel ih =>
    cases s1 with
    | OK => simp [Safe,appLoop_of_ne]
    | ERROR => simp [Safe,appLoop_of_ne]
    | SUSPEND =>
      cases h with
      | done t hs => simp at hs
      | wait t hready hsent hT hF hkept =>
        rw [appLoop]
        exact .bind (processBody_safe hready) fun r v hv => ih (processBody_progress hready hv)

/-! The ends of `app_handler`. -/

/-- What `app_handler` does after its loop. -/
def endResponse (r : ResponseStatus × Client) : Action Client :=
  match r.1 with
  | .ERROR => appError r.2
  | _ => do
    let r ← closeResponse r.2
    pure r.2

theorem respond_eq (g : Globals) (c : Client) : respond g c = writeResponse g c >>= endResponse := rfl

/-- After a response that met no error but perhaps one of `close` nothing more is sent. -/
theorem endResponse_sent {s : ResponseStatus} {c : Client}
    (hs : s = .OK ∨ s = .ERROR ∧ c.responseClosed = true) (w : World) :
    ∃ c' w', endResponse (s,c) w = .ret c' w' ∧ w'.sent = w.sent := by
  rcases hs with rfl | ⟨rfl,hclosed⟩
  · obtain ⟨s1,closed,n,hcl,_⟩ := closeResponse_spec c w
    refine ⟨{ c with responseClosed := closed },{ w with closeCalls := n },?_,rfl⟩
    simp only [endResponse,Action.bind_apply,hcl,Action.pure_apply]
  · have hcl : closeResponse { c with statusCode := 500 } w =
        .ret (.OK,{ c with statusCode := 500 }) w := by
      simp only [closeResponse,hclosed,Bool.not_true,Bool.false_eq_true,false_and,if_false]
      cases c.response <;> rfl
    refine ⟨{ c with statusCode := 500 },w,?_,rfl⟩
    have hpage : sendErrorPage { c with statusCode := 500 } = pure { c with statusCode := 500 } :=
      if_pos (.inr hclosed)
    simp only [endResponse,appError]
    rw [Action.bind_apply,hcl]
    simp only [hpage,Action.pure_apply]

theorem Sends.respond {g : Globals} {a : Answer} {os : List Outcome} {t : Bytes} (h : Sends g a os t) :
    ∃ c w, respond g a.start ⟨os,[],0⟩ = .ret c w ∧ w.sent = t := by
  obtain ⟨s,c,w,hrun,hsent,hend⟩ := h
  obtain ⟨c2,w2,hend2,hsent2⟩ := endResponse_sent hend.status w
  exact ⟨c2,w2,by rw [respond_eq,Action.bind_apply,hrun]; exact hend2,hsent2.trans hsent⟩

theorem blockingWriteLoop_nonfatal {os : List Outcome} {c c' : Client} {data : Bytes} {w w' : World}
    (hos : Nonfatal os) (h : blockingWriteLoop os c data w = .ret c' w') :
    w'.sent = w.sent ++ data := by
  induction os generalizing c data w with
  | nil =>
    cases data with
    | nil =>
      simp only [blockingWriteLoop,Run.ret.injEq] at h
      simp [← h.2]
    | cons b data => simp [blockingWriteLoop] at h
  | cons o os ih =>
    have hos' : Nonfatal os := fun p hp => hos p (by simp [hp])
    cases data with
    | nil =>
      simp only [blockingWriteLoop,Run.ret.injEq] at h
      simp [← h.2]
    | cons b data =>
      cases o with
      | eagain => exact ih (w := { w with outcomes := os }) hos' (by simpa only [blockingWriteLoop] using h)
      | error epipe => simpa [Outcome.fatal] using hos (.error epipe) (by simp)
      | count n =>
        have hsent := ih hos' (by simpa only [blockingWriteLoop] using h)
        rw [hsent]
        simp only [World.send,List.append_assoc]
        congr 1
        exact List.take_append_drop _ _

theorem blockingWriteLoop_safe {os : List Outcome} {c : Client} {data : Bytes} {w w' : World} :
    blockingWriteLoop os c data w ≠ .stop .dangling w' := by
  induction os generalizing c data w with
  | nil => cases data <;> simp [blockingWriteLoop]
  | cons o os ih =>
    cases data with
    | nil => simp [blockingWriteLoop]
    | cons b data =>
      cases o with
      | eagain => simpa [blockingWriteLoop] using ih
      | error epipe => cases epipe <;> simp [blockingWriteLoop]
      | count n => simpa only [blockingWriteLoop] using ih

/-- The bytes of the error page `app_handler` sends after an error. -/
def errorPage (c : Client) : Bytes :=
  if c.headerDone ∨ c.responseClosed then [] else errorHead 500 ++ errorBody 500

theorem sendErrorPage_nonfatal {c c' : Client} {w w' : World} (hcode : c.statusCode = 500)
    (hos : Nonfatal w.outcomes) (h : sendErrorPage c w = .ret c' w') :
    w'.sent = w.sent ++ errorPage c := by
  unfold sendErrorPage at h
  unfold errorPage
  split at h
  next hdone =>
    simp only [Action.pure_apply,Run.ret.injEq] at h
    simp [if_pos hdone,← h.2]
  next hdone =>
    obtain ⟨c1,v,hw,h⟩ := Action.bind_eq_ret.mp h
    simp only [Action.pure_apply,Run.ret.injEq] at h
    rw [if_neg hdone,← h.2,blockingWriteLoop_nonfatal hos hw,hcode]

theorem sendErrorPage_safe (c : Client) (w : World) : Safe (sendErrorPage c) w := by
  unfold sendErrorPage
  split
  · exact fun _ => by simp
  · exact .bind (fun _ => blockingWriteLoop_safe) fun _ _ _ => fun _ => by simp

/-- `appError` sends one page, whatever the schedule. -/
theorem appError_sent (c : Client) : ∃ page, ∀ w c' w', Nonfatal w.outcomes →
    appError c w = .ret c' w' → w'.sent = w.sent ++ page := by
  obtain ⟨s,closed,_,hcl⟩ := closeResponse_client { c with statusCode := 500 }
  refine ⟨errorPage { c with statusCode := 500, responseClosed := closed },fun w c' w' hos h => ?_⟩
  obtain ⟨n,hn⟩ := hcl w
  simp only [appError] at h
  rw [Action.bind_apply,hn] at h
  exact sendErrorPage_nonfatal rfl (w := { w with closeCalls := n }) hos h

theorem appError_safe (c : Client) (w : World) : Safe (appError c) w :=
  .bind (closeResponse_safe _ w) fun _ _ _ => sendErrorPage_safe _ _

end Meinheld
