import Meinheld.ResponseRuns

/-! Runs that may stop, and what they have sent by then. -/
namespace Meinheld

/-- Where a run is, whether it returned or not. -/
def Run.world {α : Type} : Run α → World
  | .ret _ w => w
  | .stop _ w => w

/-- From `w` the action returns with `Q` or stops with `S`. -/
def Action.Ends {α : Type} (x : Action α) (w : World) (S : World → Prop) (Q : α → World → Prop) :
    Prop :=
  match x w with
  | .ret a w' => Q a w'
  | .stop _ w' => S w'

section Ends
variable {α β : Type} {x : Action α} {f : α → Action β} {w : World} {S : World → Prop}
  {Q : α → World → Prop} {R : β → World → Prop}

theorem Action.Ends.pure {a : α} (h : Q a w) : Action.Ends (pure a) w S Q := h

theorem Action.Ends.bind (h : x.Ends w S Q) (hf : ∀ a w', Q a w' → (f a).Ends w' S R) :
    (x >>= f).Ends w S R := by
  unfold Action.Ends at h ⊢
  rw [Action.bind_apply]
  cases hx : x w with
  | ret a w' =>
    simp only [hx] at h
    exact hf a w' h
  | stop s w' =>
    simp only [hx] at h
    exact h

theorem Action.Ends.mono {R : World → Prop} {Q' : α → World → Prop} (h : x.Ends w S Q)
    (hS : ∀ w', S w' → R w') (hQ : ∀ a w', Q a w' → Q' a w') : x.Ends w R Q' := by
  unfold Action.Ends at h ⊢
  cases hx : x w with
  | ret a w' =>
    simp only [hx] at h
    exact hQ a w' h
  | stop s w' =>
    simp only [hx] at h
    exact hS w' h

theorem Action.Ends.world (h : x.Ends w S fun _ w' => S w') : S (x w).world := by
  unfold Action.Ends at h
  cases hx : x w with
  | ret a w' =>
    simp only [hx] at h
    exact h
  | stop s w' =>
    simp only [hx] at h
    exact h

theorem Action.Ends.of_ret {a : α} {w' : World} (h : x.Ends w S Q) (hx : x w = .ret a w') : Q a w' := by
  unfold Action.Ends at h
  simpa only [hx] using h

end Ends

section Turn
variable {b : WriteBucket} (hd : b.dangles = false)
include hd

/-- A `writev` that leaves something in the counter is followed by another. -/
theorem writevBucketLoop_turn {n : ℕ} {os : List Outcome} {w : World}
    (hpos : (b.bytes.take (n + 1)).length ≠ 0) (hmore : (b.bytes.take (n + 1)).length < b.total) :
    writevBucketLoop (.count n :: os) b w = writevBucketLoop os
      { b with
        iov := advance (b.bytes.take (n + 1)).length b.iov
        total := b.total - advanceLeft (b.bytes.take (n + 1)).length b.iov }
      (World.send { w with outcomes := os } (b.bytes.take (n + 1))) := by
  rw [writevBucketLoop]
  simp only [hd,Bool.false_eq_true,if_false]
  exact if_pos ⟨hpos,hmore⟩

theorem writevBucketLoop_eagain {os : List Outcome} {w : World} :
    writevBucketLoop (.eagain :: os) b w = .ret (.SUSPEND,b) { w with outcomes := os } := by
  rw [writevBucketLoop]
  simp only [hd,Bool.false_eq_true,if_false]

theorem writevBucketLoop_error {epipe : Bool} {os : List Outcome} {w : World} :
    writevBucketLoop (.error epipe :: os) b w = .ret (.ERROR,b) { w with outcomes := os } := by
  rw [writevBucketLoop]
  simp only [hd,Bool.false_eq_true,if_false]

end Turn

/-! ### What is sent stays sent -/

/-- What was sent before the action is still there when it ends. -/
def Action.Appends {α : Type} (x : Action α) : Prop := ∀ w, w.sent <+: (x w).world.sent

section Appends
variable {α β : Type} {x : Action α} {f : α → Action β}

theorem Action.Appends.pure (a : α) : Action.Appends (pure a) := fun _ => List.prefix_rfl

theorem Action.Appends.die (s : Stop) : Action.Appends (die s : Action α) := fun _ => List.prefix_rfl

theorem Action.Appends.bind (h : x.Appends) (hf : ∀ a, (f a).Appends) : (x >>= f).Appends := by
  intro w
  have hx := h w
  rw [Action.bind_apply]
  cases hr : x w with
  | ret a w' =>
    rw [hr] at hx
    exact hx.trans (hf a w')
  | stop s w' =>
    rw [hr] at hx
    exact hx

end Appends

/-- What is accepted during a call. -/
theorem writevBucketLoop_world (os : List Outcome) (b : WriteBucket) (w : World) :
    ∃ p, p <+: b.bytes ∧ (writevBucketLoop os b w).world.sent = w.sent ++ p := by
  induction os generalizing b w with
  | nil => exact ⟨[],List.nil_prefix,by simp [writevBucketLoop,Run.world]⟩
  | cons o os ih =>
    have hnone : ∃ p, p <+: b.bytes ∧ w.sent = w.sent ++ p := ⟨[],List.nil_prefix,by simp⟩
    simp only [writevBucketLoop]
    split
    · exact hnone
    · cases o with
      | eagain => exact hnone
      | error epipe => exact hnone
      | count n =>
        simp only
        split
        · obtain ⟨p,hp,hsent⟩ := ih { b with
              iov := advance (b.bytes.take (n + 1)).length b.iov
              total := b.total - advanceLeft (b.bytes.take (n + 1)).length b.iov }
            (World.send { w with outcomes := os } (b.bytes.take (n + 1)))
          have hp' : p <+: b.bytes.drop (b.bytes.take (n + 1)).length :=
            (suspended_advance b (b.bytes.take (n + 1)).length).bytes ▸ hp
          refine ⟨b.bytes.take (n + 1) ++ p,?_,by rw [hsent]; simp [World.send]⟩
          have happ := (List.prefix_append_right_inj (b.bytes.take (n + 1))).mpr hp'
          rwa [List.prefix_iff_eq_append.mp (List.take_prefix _ _)] at happ
        · exact ⟨b.bytes.take (n + 1),List.take_prefix _ _,rfl⟩

theorem writevBucket_appends (b : WriteBucket) : (writevBucket b).Appends := by
  intro w
  obtain ⟨p,-,hsent⟩ := writevBucketLoop_world w.outcomes b w
  exact hsent ▸ List.prefix_append _ _

theorem closeResponse_appends (c : Client) : (closeResponse c).Appends := by
  intro w
  obtain ⟨s,closed,n,h,-⟩ := closeResponse_spec c w
  rw [h]
  exact List.prefix_rfl

theorem sendfileLoop_appends (os : List Outcome) (rest : Bytes) (c : Client) :
    (sendfileLoop os rest c).Appends := by
  induction os generalizing rest c with
  | nil =>
    intro w
    refine sendfileLoop_cases (P := fun r => w.sent <+: r.world.sent) ?_ ?_ ?_ ?_
    · exact fun _ => List.prefix_rfl
    · exact fun _ _ => List.prefix_rfl
    · exact fun _ => List.prefix_rfl
    · simp
  | cons o os ih =>
    intro w
    refine sendfileLoop_cases (P := fun r => w.sent <+: r.world.sent) ?_ ?_ ?_ ?_
    · exact fun _ => List.prefix_rfl
    · exact fun _ _ => List.prefix_rfl
    · simp
    rintro hlt hr _ _ ⟨⟩
    rw [sendfileLoop_cons hlt hr]
    cases o with
    | eagain => exact List.prefix_rfl
    | error epipe => exact List.prefix_rfl
    | count n => exact (List.prefix_append _ _).trans (ih _ _ (World.send { w with outcomes := os } _))

theorem processSendfile_appends (c : Client) (rest : Bytes) : (processSendfile c rest).Appends := by
  refine .bind (fun w => sendfileLoop_appends w.outcomes rest c w) fun r => ?_
  simp only
  split
  · exact closeResponse_appends _
  · exact .pure _

theorem processItems_appends (items : List Item) (c : Client) : (processItems items c).Appends := by
  induction items generalizing c with
  | nil => exact .pure _
  | cons i items ih =>
    cases i with
    | raise => exact .pure _
    | other => exact .pure _
    | bytes d =>
      refine .bind (writevBucket_appends _) fun r => ?_
      simp only
      split
      · split
        · exact .pure _
        · exact ih _
      · exact .pure _

theorem finishWrite_appends (r : ResponseStatus × Client) : (finishWrite r).Appends := by
  unfold finishWrite
  split
  · split
    · exact .bind (writevBucket_appends _) fun _ => closeResponse_appends _
    · exact closeResponse_appends _
  · exact .pure _

theorem processRest_appends (c : Client) : (processRest c).Appends := by
  unfold processRest processWrite
  split
  · exact .die _
  · split
    · exact processSendfile_appends _ _
    · split
      · exact .pure _
      · exact .bind (processItems_appends _ _) finishWrite_appends

theorem processBody_appends (c : Client) : (processBody c).Appends := by
  unfold processBody
  split
  · exact processRest_appends c
  · refine .bind (writevBucket_appends _) fun r => ?_
    split
    · exact processRest_appends _
    · exact .pure _
    · exact .pure _

theorem appLoop_appends (fuel : ℕ) (s : ResponseStatus) (c : Client) : (appLoop fuel s c).Appends := by
  induction fuel generalizing s c with
  | zero =>
    cases s with
    | SUSPEND => exact .die _
    | OK => exact .pure _
    | ERROR => exact .pure _
  | succ fuel ih =>
    cases s with
    | SUSPEND => exact .bind (processBody_appends c) fun r => ih r.1 r.2
    | OK => exact .pure _
    | ERROR => exact .pure _

end Meinheld
