import Meinheld.Schedules
import Meinheld.Runs

/-! `writev_bucket` over its retries. After a write in part `total` loses what the loop has left of
`w`, and so it can stay above the bytes that are left, but never falls below them. -/
namespace Meinheld

/-- A bucket that `set2bucket` has filled. -/
inductive WriteBucket.Filled : WriteBucket → Prop
  | new (cnt : ℕ) : Filled (newWriteBucket cnt)
  | set {b : WriteBucket} (h : b.Filled) (buf : Bytes) (item : Bool) : Filled (set2bucket b buf item)

theorem WriteBucket.Filled.counted {b : WriteBucket} (h : b.Filled) : b.Counted := by
  induction h with
  | new cnt => exact newWriteBucket_counted cnt
  | set _ buf item ih => exact set2bucket_counted buf item ih

/-- A call of `writev_bucket` and at most `n` retries, as `process_body` makes them. -/
def writeRetries : ℕ → WriteBucket → Action (ResponseStatus × WriteBucket)
  | 0, b => writevBucket b
  | n + 1, b => do
    let r ← writevBucket b
    if r.1 = .SUSPEND then writeRetries n r.2 else pure r

/-- A turn of the loop of `app_handler` retries the bucket that was kept. -/
theorem appLoop_retry (fuel : ℕ) (c : Client) (b : WriteBucket) :
    appLoop (fuel + 1) .SUSPEND { c with bucket := some b } = (do
      let r ← writevBucket b
      match r.1 with
      | .SUSPEND => appLoop fuel .SUSPEND { c with bucket := some r.2 }
      | .ERROR => pure (.ERROR,{ c with bucket := none })
      | .OK => do
        let s ← processRest { c with writeBytes := c.writeBytes + r.2.totalSize, bucket := none }
        appLoop fuel s.1 s.2) := by
  rw [appLoop]
  simp only [processBody]
  rw [Action.bind_assoc]
  congr 1
  funext r
  obtain ⟨s,b'⟩ := r
  cases s with
  | OK => rfl
  | SUSPEND => rfl
  | ERROR =>
    funext w
    exact appLoop_of_ne (by simp) _ _ _

theorem writeRetries_world (n : ℕ) (b : WriteBucket) (w : World) :
    ∃ p, p <+: b.bytes ∧ (writeRetries n b w).world.sent = w.sent ++ p := by
  induction n generalizing b w with
  | zero => exact writevBucketLoop_world _ b w
  | succ n ih =>
    obtain ⟨p,hp,hsent⟩ := writevBucketLoop_world w.outcomes b w
    rw [writeRetries,Action.bind_apply]
    cases hv : writevBucket b w with
    | stop s v =>
      rw [show writevBucketLoop w.outcomes b w = .stop s v from hv] at hsent
      exact ⟨p,hp,hsent⟩
    | ret r v =>
      rw [show writevBucketLoop w.outcomes b w = .ret r v from hv] at hsent
      obtain ⟨s,b1⟩ := r
      cases s with
      | OK => exact ⟨p,hp,hsent⟩
      | ERROR => exact ⟨p,hp,hsent⟩
      | SUSPEND =>
        cases writevBucket_result hv with
        | suspend k hsent1 hsus =>
          obtain ⟨p1,hp1,hsent'⟩ := ih b1 v
          rw [hsus.bytes] at hp1
          refine ⟨b.bytes.take k ++ p1,?_,?_⟩
          · have happ := (List.prefix_append_right_inj (b.bytes.take k)).mpr hp1
            rwa [List.take_append_drop] at happ
          · simp only [if_true,hsent',hsent1,List.append_assoc]

/-- Every `EAGAIN` comes while some of the `left` bytes are still to be taken. -/
def InTime : ℕ → List Outcome → Prop
  | _, [] => True
  | left, .eagain :: os => left ≠ 0 ∧ InTime left os
  | left, .count n :: os => InTime (left - (n + 1)) os
  | left, .error _ :: os => InTime left os

/-- Some `writev` that is called with nothing left gives `EAGAIN`. -/
def Late : List Outcome → WriteBucket → Prop
  | [], _ => False
  | .eagain :: os, b => b.bytes = [] ∨ Late os b
  | .error _ :: _, _ => False
  | .count n :: os, b =>
    let r := (b.bytes.take (n + 1)).length
    (r ≠ 0 ∧ b.total > r) ∧
      Late os { b with iov := advance r b.iov, total := b.total - advanceLeft r b.iov }

theorem InTime.not_late {os : List Outcome} {b : WriteBucket} (h : InTime b.bytes.length os) :
    ¬Late os b := by
  induction os generalizing b with
  | nil => exact id
  | cons o os ih =>
    cases o with
    | error epipe => exact id
    | eagain =>
      rintro (hnil | hlate)
      · exact h.1 (by simp [hnil])
      · exact ih h.2 hlate
    | count n =>
      rintro ⟨-,hlate⟩
      refine ih ?_ hlate
      have hmin : b.bytes.length - min (n + 1) b.bytes.length = b.bytes.length - (n + 1) := by
        omega
      rw [(suspended_advance b (b.bytes.take (n + 1)).length).bytes,List.length_drop,
        List.length_take,hmin]
      exact h

theorem writevBucketLoop_left {os : List Outcome} {b b' : WriteBucket} {w w' : World}
    (hp : ¬Late os b) (h : writevBucketLoop os b w = .ret (.SUSPEND,b') w') :
    b'.bytes ≠ [] ∧ ¬Late w'.outcomes b' := by
  induction os generalizing b w with
  | nil => simp [writevBucketLoop] at h
  | cons o os ih =>
    simp only [writevBucketLoop] at h
    split at h
    · simp at h
    · cases o with
      | eagain =>
        simp only [Run.ret.injEq,Prod.mk.injEq,true_and] at h
        obtain ⟨rfl,rfl⟩ := h
        exact not_or.mp hp
      | error epipe => simp at h
      | count n =>
        simp only at h
        split at h
        next hmore => exact ih (fun hlate => hp ⟨hmore,hlate⟩) h
        next => simp at h

/-- An `EAGAIN` that comes too late suspends a bucket that is all sent. -/
theorem writeRetries_late {os : List Outcome} {b : WriteBucket} {w : World} (hd : b.dangles = false)
    (hw : w.outcomes = os) (h : Late os b) : ∃ n b' w',
      writeRetries n b w = .ret (.SUSPEND,b') w' ∧ w'.sent = w.sent ++ b.bytes := by
  induction os generalizing b w with
  | nil => exact h.elim
  | cons o os ih =>
    have hcall : writevBucket b w = writevBucketLoop (o :: os) b w := by rw [writevBucket,hw]
    cases o with
    | error epipe => exact h.elim
    | eagain =>
      rw [writevBucketLoop_eagain hd] at hcall
      rcases h with hnil | hlate
      · exact ⟨0,b,{ w with outcomes := os },hcall,by rw [hnil,List.append_nil]⟩
      · obtain ⟨n,b',w',hrun,hsent⟩ := ih (w := { w with outcomes := os }) hd rfl hlate
        refine ⟨n + 1,b',w',?_,hsent⟩
        rw [writeRetries,Action.bind_apply,hcall]
        exact hrun
    | count n =>
      obtain ⟨⟨hpos,hmore⟩,hlate⟩ := h
      have hsus := suspended_advance b (b.bytes.take (n + 1)).length
      obtain ⟨k,b',w',hrun,hsent⟩ := ih (hsus.dangles hd)
        (w := World.send { w with outcomes := os } (b.bytes.take (n + 1))) rfl hlate
      rw [writevBucketLoop_turn hd hpos hmore] at hcall
      refine ⟨k,b',w',?_,?_⟩
      · rw [← hrun]
        cases k with
        | zero => exact hcall
        | succ k =>
          rw [writeRetries,writeRetries,Action.bind_apply,Action.bind_apply,hcall]
          rfl
      · have hdrop : b.bytes.drop (b.bytes.take (n + 1)).length = b.bytes.drop (n + 1) := by
          rw [List.length_take]
          rcases Nat.le_total (n + 1) b.bytes.length with hle | hle
          · rw [Nat.min_eq_left hle]
          · rw [Nat.min_eq_right hle,List.drop_length,List.drop_of_length_le hle]
        rw [hsent,hsus.bytes,hdrop]
        simp only [World.send,List.append_assoc,List.take_append_drop]

/-- What a suspended call leaves of a bucket with enough in its counter. -/
structure Remains (b : WriteBucket) (w : World) (b' : WriteBucket) (w' : World) (k : ℕ) : Prop where
  lt : k < b.bytes.length
  sent : w'.sent = w.sent ++ b.bytes.take k
  bytes : b'.bytes = b.bytes.drop k
  enough : b'.Enough
  nonfatal : Nonfatal w'.outcomes
  inTime : ¬Late w'.outcomes b'

theorem writevBucket_status {b b' : WriteBucket} {w w' : World} {s : ResponseStatus}
    (hb : b.Enough) (hos : Nonfatal w.outcomes) (hp : ¬Late w.outcomes b)
    (h : writevBucket b w = .ret (s,b') w') :
    s = .OK ∧ w'.sent = w.sent ++ b.bytes ∨ s = .SUSPEND ∧ ∃ k, Remains b w b' w' k := by
  cases writevBucket_result h with
  | ok p hp hsent _ => exact .inl ⟨rfl,hp.eq hb ▸ hsent⟩
  | suspend k hsent hsus =>
    obtain ⟨hne,hp1⟩ := writevBucketLoop_left hp h
    refine .inr ⟨rfl,k,?_,hsent,hsus.bytes,hsus.enough hb,
      fun o ho => hos o ((writevBucket_suffix h).mem ho),hp1⟩
    rw [hsus.bytes] at hne
    simpa using hne
  | error =>
    rcases writevBucket_cause h with h1 | ⟨h1,_⟩ | ⟨_,o,ho,hf⟩
    · simp at h1
    · simp at h1
    · simp [hos o ho] at hf

theorem writeRetries_status {n : ℕ} {b b' : WriteBucket} {w w' : World} {s : ResponseStatus}
    (hb : b.Enough) (hos : Nonfatal w.outcomes) (hp : ¬Late w.outcomes b)
    (h : writeRetries n b w = .ret (s,b') w') :
    s = .OK ∧ w'.sent = w.sent ++ b.bytes ∨ s = .SUSPEND ∧ ∃ k, Remains b w b' w' k := by
  induction n generalizing b w with
  | zero => exact writevBucket_status hb hos hp h
  | succ n ih =>
    rw [writeRetries] at h
    obtain ⟨⟨s1,b1⟩,v,hv,h⟩ := Action.bind_eq_ret.mp h
    rcases writevBucket_status hb hos hp hv with ⟨rfl,hsent⟩ | ⟨rfl,k,hr⟩
    · simp only [reduceCtorEq,if_false,Action.pure_apply,Run.ret.injEq,Prod.mk.injEq] at h
      obtain ⟨⟨rfl,rfl⟩,rfl⟩ := h
      exact .inl ⟨rfl,hsent⟩
    · have hsent : v.sent ++ b1.bytes = w.sent ++ b.bytes := by
        rw [hr.sent,hr.bytes,List.append_assoc,List.take_append_drop]
      rcases ih hr.enough hr.nonfatal hr.inTime h with ⟨hs,hsent'⟩ | ⟨hs,k',hr'⟩
      · exact .inl ⟨hs,hsent'.trans hsent⟩
      · have hlt := hr'.lt
        rw [hr.bytes,List.length_drop] at hlt
        refine .inr ⟨hs,k + k',by omega,?_,?_,hr'.enough,hr'.nonfatal,hr'.inTime⟩
        · rw [hr'.sent,hr.sent,hr.bytes,List.take_add,List.append_assoc]
        · rw [hr'.bytes,hr.bytes,List.drop_drop]

/-- Over one call and any number of retries on a schedule, the bytes accepted are a prefix of the
bucket, and `OK` comes exactly with all of them. -/
structure SentInOrder (b : WriteBucket) (os : List Outcome) : Prop where
  accepted : ∀ n, (writeRetries n b ⟨os,[],0⟩).world.sent <+: b.bytes
  ok : ∀ n s b' w, writeRetries n b ⟨os,[],0⟩ = .ret (s,b') w → (s = .OK ↔ w.sent = b.bytes)

theorem exists_writev_short {b : WriteBucket} (h : b.Counted) (hbig : 2 ^ 32 ≤ b.bytes.length) :
    ∃ n b' w, writevBucket b ⟨[.count n],[],0⟩ = .ret (.OK,b') w ∧ w.sent.length < b.bytes.length := by
  have hlt := Nat.mod_lt b.bytes.length (by decide : 2 ^ 32 > 0)
  have htake : (b.bytes.take (b.bytes.length % 2 ^ 32 + 1)).length = b.bytes.length % 2 ^ 32 + 1 := by
    rw [List.length_take]
    omega
  have hrun := writevBucket_count (w := ⟨[.count (b.bytes.length % 2 ^ 32)],[],0⟩)
    h.not_dangles rfl (.inr (by rw [h.total,htake]; omega))
  refine ⟨_,_,_,hrun,?_⟩
  simp only [List.nil_append,htake]
  omega

/-- With a total that fits, a bucket is sent in order and `OK` tells that it is all sent, exactly on the
schedules without a late `EAGAIN`. -/
theorem sentInOrder_iff_not_late {b : WriteBucket} (h : b.Filled) (hlt : b.bytes.length < 2 ^ 32)
    {os : List Outcome} (hos : Nonfatal os) : SentInOrder b os ↔ ¬Late os b := by
  constructor
  · intro hsent hlate
    obtain ⟨n,b',w',hrun,hw'⟩ :=
      writeRetries_late (w := ⟨os,[],0⟩) h.counted.not_dangles rfl hlate
    have hok := (hsent.ok n _ _ _ hrun).mpr hw'
    cases hok
  · intro hp
    refine ⟨fun n => ?_,fun n s b' w hrun => ?_⟩
    · obtain ⟨p,hpre,hsent⟩ := writeRetries_world n b ⟨os,[],0⟩
      rw [hsent]
      exact hpre
    · rcases writeRetries_status (h.counted.enough hlt) hos hp hrun with ⟨rfl,hsent⟩ | ⟨rfl,k,hr⟩
      · simp [hsent]
      · simp only [reduceCtorEq,false_iff]
        intro heq
        have hlen := congrArg List.length (hr.sent.symm.trans heq)
        have hk := hr.lt
        simp only [List.nil_append,List.length_take] at hlen
        omega

/-- On every schedule whose `EAGAIN`s come while bytes are left, a bucket is sent in order and `OK`
tells that it is all sent, exactly when it has fewer than 2^32 bytes; and then every schedule with an
`EAGAIN` that comes later breaks this. -/
theorem sentInOrder_iff {b : WriteBucket} (h : b.Filled) :
    ((∀ os, Nonfatal os → InTime b.bytes.length os → SentInOrder b os) ↔
      b.bytes.length < 2 ^ 32) ∧
    (b.bytes.length < 2 ^ 32 → ∀ os, Nonfatal os → (SentInOrder b os ↔ ¬Late os b)) := by
  refine ⟨⟨fun hall => ?_,fun hlt os hos hp => ?_⟩,fun hlt os => sentInOrder_iff_not_late h hlt⟩
  · by_contra hbig
    obtain ⟨n,b',w,hrun,hlt⟩ := exists_writev_short h.counted (not_lt.mp hbig)
    have hos := hall [.count n] (.cons rfl (by simp [Nonfatal])) trivial
    have heq := (hos.ok 0 .OK b' w hrun).mp rfl
    simp [heq] at hlt
  · exact (sentInOrder_iff_not_late h hlt hos).mpr hp.not_late

/-- A bucket of five bytes in two iovecs. -/
def twoIovecs : WriteBucket := set2bucket (set2bucket (newWriteBucket 2) (ascii "ab")) (ascii "cde")

theorem sentInOrder_twoIovecs : SentInOrder twoIovecs [.count 2,.eagain,.count 0,.count 0,.count 0] :=
  (sentInOrder_iff (.set (.set (.new 2) _ _) _ _)).1.mpr (by decide) _
    (by simp [Nonfatal,Outcome.fatal]) (by simp [InTime,ascii])

-- the counter is one too high after the first `writev`, and so there is a third one
example : writevBucket twoIovecs ⟨[.count 2,.count 1,.eagain],[],0⟩ =
    .ret (.SUSPEND,⟨[⟨[],false⟩,⟨[],false⟩],2,2,5,false,false⟩) ⟨[],ascii "abcde",0⟩ := by decide

theorem not_sentInOrder_of_length {d : Bytes} (hd : d.length = 2 ^ 32) :
    ¬SentInOrder (set2bucket (newWriteBucket 1) d true) [.count 0] := by
  intro h
  have hcnt := ((WriteBucket.Filled.new 1).set d true).counted
  have hbytes : (set2bucket (newWriteBucket 1) d true).bytes = d := by simp
  have htotal : (set2bucket (newWriteBucket 1) d true).total = 0 := by
    rw [hcnt.total,hbytes,hd,Nat.mod_self]
  have hrun := writevBucket_count (w := ⟨[.count 0],[],0⟩) hcnt.not_dangles rfl
    (.inr (htotal.trans_le (Nat.zero_le _)))
  have heq := congrArg List.length ((h.ok 0 _ _ _ hrun).mp rfl)
  rw [hbytes,List.nil_append,List.length_take,hd] at heq
  omega

/-- `OK` after one byte of 2^32. -/
theorem not_sentInOrder_long : ¬SentInOrder
    (set2bucket (newWriteBucket 1) (List.replicate (2 ^ 32) 0) true) [.count 0] :=
  not_sentInOrder_of_length List.length_replicate

end Meinheld
