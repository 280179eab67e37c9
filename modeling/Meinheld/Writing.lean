import Meinheld.Server

/-! What a write bucket sends: `set2bucket` counts modulo 2^32, and a bucket below that size is sent
in full whatever the socket accepts at a time. -/
namespace Meinheld

/-- The counters of a bucket nothing of which has been written. -/
structure WriteBucket.Counted (b : WriteBucket) : Prop where
  total : b.total = b.bytes.length % 2 ^ 32
  totalSize : b.totalSize = b.bytes.length % 2 ^ 32
  freed : b.freed = false

/-- The counter of the bytes left is not below them. -/
def WriteBucket.Enough (b : WriteBucket) : Prop := b.bytes.length ≤ b.total

/-- What goes out of some bytes: a part from the start, all of it when `enough`. -/
structure Part (enough : Prop) (s p : Bytes) : Prop where
  isPrefix : p <+: s
  eq : enough → p = s

theorem Part.all (enough : Prop) (s : Bytes) : Part enough s s := ⟨List.prefix_rfl,fun _ => rfl⟩

theorem Part.mono {enough enough' : Prop} {s p : Bytes} (h : Part enough s p)
    (hi : enough' → enough) : Part enough' s p := ⟨h.isPrefix,fun he => h.eq (hi he)⟩

/-- A part of what is left, after the bytes before it. -/
theorem Part.after {enough : Prop} {s p : Bytes} {k : ℕ} (h : Part enough (s.drop k) p) :
    Part enough s (s.take k ++ p) := by
  refine ⟨?_,fun he => by rw [h.eq he,List.take_append_drop]⟩
  have hs : s = s.take k ++ s.drop k := (List.take_append_drop k s).symm
  conv_rhs => rw [hs]
  exact (List.prefix_append_right_inj _).mpr h.isPrefix

theorem newWriteBucket_counted (n : ℕ) : (newWriteBucket n).Counted := ⟨rfl,rfl,rfl⟩

@[simp] theorem newWriteBucket_bytes (n : ℕ) : (newWriteBucket n).bytes = [] := rfl

@[simp] theorem set2bucket_bytes (b : WriteBucket) (buf : Bytes) (item : Bool) :
    (set2bucket b buf item).bytes = b.bytes ++ buf := by
  simp [set2bucket,WriteBucket.bytes]

theorem set2bucket_counted {b : WriteBucket} (buf : Bytes) (item : Bool) (h : b.Counted) :
    (set2bucket b buf item).Counted := by
  refine ⟨?_,?_,h.freed⟩
  · rw [set2bucket_bytes,List.length_append]
    simp [set2bucket,h.total]
  · rw [set2bucket_bytes,List.length_append]
    simp [set2bucket,h.totalSize]

@[simp] theorem addResponseHeader_bytes (b : WriteBucket) (key val : Bytes) :
    (addResponseHeader b key val).bytes = b.bytes ++ (key ++ ascii ": " ++ val ++ CRLF) := by
  simp [addResponseHeader]

theorem addResponseHeader_counted {b : WriteBucket} (key val : Bytes) (h : b.Counted) :
    (addResponseHeader b key val).Counted :=
  set2bucket_counted _ _ (set2bucket_counted _ _ (set2bucket_counted _ _
    (set2bucket_counted _ _ h)))

@[simp] theorem setChunkedData_bytes (b : WriteBucket) (lendata data : Bytes) :
    (setChunkedData b lendata data).bytes = b.bytes ++ (lendata ++ CRLF ++ data ++ CRLF) := by
  simp [setChunkedData]

theorem setChunkedData_counted {b : WriteBucket} (lendata data : Bytes) (h : b.Counted) :
    (setChunkedData b lendata data).Counted :=
  set2bucket_counted _ _ (set2bucket_counted _ _ (set2bucket_counted _ _
    (set2bucket_counted _ _ h)))

/-- Taking `w` written bytes off the iovecs leaves the rest of the bytes. -/
theorem advance_bytes (w : ℕ) (iov : List Iovec) :
    (advance w iov).flatMap (·.base) = (iov.flatMap (·.base)).drop w := by
  induction iov generalizing w with
  | nil => simp [advance]
  | cons v vs ih =>
    unfold advance
    split
    · simp [ih,List.drop_append,List.drop_of_length_le (by omega : v.base.length ≤ w)]
    · simp [List.drop_append,Nat.sub_eq_zero_of_le (by omega : w ≤ v.base.length)]

theorem advanceLeft_le (w : ℕ) (iov : List Iovec) : advanceLeft w iov ≤ w := by
  induction iov generalizing w with
  | nil => rfl
  | cons v vs ih =>
    unfold advanceLeft
    split
    · exact (ih _).trans (Nat.sub_le _ _)
    · exact le_rfl

/-- No iovec into an item appears, and none gets longer. -/
theorem advance_item {w : ℕ} {iov : List Iovec}
    (h : iov.any (fun v => v.item && v.base ≠ []) = false) :
    (advance w iov).any (fun v => v.item && v.base ≠ []) = false := by
  induction iov generalizing w with
  | nil => rfl
  | cons v vs ih =>
    simp only [List.any_cons,Bool.or_eq_false_iff] at h
    unfold advance
    split
    · simpa using ih h.2
    · have hv : v.item = true → v.base = [] := by simpa using h.1
      have hvs : ∀ x ∈ vs, x.item = true → x.base = [] := by simpa using h.2
      simp only [List.any_eq_false,List.mem_cons,Bool.and_eq_true,decide_eq_true_eq,not_and,
        ne_eq,not_not]
      rintro x (rfl | hx) hi
      · simp [hv hi]
      · exact hvs x hx hi

/-- The bytes left end in an item. -/
def WriteBucket.EndsInItem (b : WriteBucket) : Prop :=
  ∃ pre v, b.iov = pre ++ [v] ∧ v.item = true ∧ v.base ≠ []

/-- What one call of `writev_bucket` may leave of a bucket. -/
structure Suspended (b b' : WriteBucket) (k : ℕ) : Prop where
  bytes : b'.bytes = b.bytes.drop k
  enough : b.Enough → b'.Enough
  totalSize : b'.totalSize = b.totalSize
  freed : b'.freed = b.freed
  items : b.iov.any (fun v => v.item && v.base ≠ []) = false →
    b'.iov.any (fun v => v.item && v.base ≠ []) = false

theorem Suspended.refl (b : WriteBucket) : Suspended b b 0 := ⟨by simp,id,rfl,rfl,id⟩

theorem Suspended.dangles {b b' : WriteBucket} {k : ℕ} (h : Suspended b b' k)
    (hd : b.dangles = false) : b'.dangles = false := by
  simp only [WriteBucket.dangles,Bool.and_eq_false_iff] at hd ⊢
  exact hd.imp (h.freed.trans ·) h.items

/-- The bucket after a `writev` that took `n` bytes. -/
theorem suspended_advance (b : WriteBucket) (n : ℕ) : Suspended b
    { b with iov := advance n b.iov, total := b.total - advanceLeft n b.iov } n := by
  have hb : WriteBucket.bytes
      { b with iov := advance n b.iov, total := b.total - advanceLeft n b.iov } =
      b.bytes.drop n := advance_bytes n b.iov
  refine ⟨hb,fun he => ?_,rfl,rfl,advance_item⟩
  have hleft := advanceLeft_le n b.iov
  simp only [WriteBucket.Enough,hb,List.length_drop] at he ⊢
  omega

theorem Suspended.trans {b b1 b2 : WriteBucket} {k k' : ℕ} (h : Suspended b b1 k)
    (h' : Suspended b1 b2 k') : Suspended b b2 (k + k') :=
  ⟨by rw [h'.bytes,h.bytes,List.drop_drop],h'.enough ∘ h.enough,
    h'.totalSize.trans h.totalSize,h'.freed.trans h.freed,h'.items ∘ h.items⟩

/-- How a call of `writev_bucket` returns: a bucket with enough in its counter is sent in full, or
in part when the call is suspended. -/
inductive WritevResult (b : WriteBucket) (w : World) :
    ResponseStatus → WriteBucket → World → Prop
  | ok {b' w'} (p : Bytes) (hp : Part b.Enough b.bytes p) (hsent : w'.sent = w.sent ++ p)
      (hsize : b'.totalSize = b.totalSize) : WritevResult b w .OK b' w'
  | suspend {b' w'} (k : ℕ) (hsent : w'.sent = w.sent ++ b.bytes.take k) (hb : Suspended b b' k) :
      WritevResult b w .SUSPEND b' w'
  | error {b' w'} : WritevResult b w .ERROR b' w'

/-- What is written before a call goes on. -/
theorem WritevResult.after {b b1 b' : WriteBucket} {w w1 w' : World} {s : ResponseStatus} {k : ℕ}
    (hb : Suspended b b1 k) (hsent : w1.sent = w.sent ++ b.bytes.take k)
    (h : WritevResult b1 w1 s b' w') : WritevResult b w s b' w' := by
  cases h with
  | ok p hp hsent' hsize =>
    rw [hb.bytes] at hp
    refine .ok _ (hp.mono hb.enough).after ?_ (hsize.trans hb.totalSize)
    rw [hsent',hsent,List.append_assoc]
  | suspend k' hsent' hb' =>
    refine .suspend (k + k') ?_ (hb.trans hb')
    rw [hsent',hsent,hb.bytes,List.take_add,List.append_assoc]
  | error => exact .error

theorem writevBucketLoop_result {os : List Outcome} {b b' : WriteBucket} {w w' : World}
    {s : ResponseStatus} (h : writevBucketLoop os b w = .ret (s,b') w') :
    WritevResult b w s b' w' := by
  induction os generalizing b w with
  | nil => simp [writevBucketLoop] at h
  | cons o os ih =>
    simp only [writevBucketLoop] at h
    split at h
    · simp at h
    · cases o with
      | eagain =>
        simp only [Run.ret.injEq,Prod.mk.injEq] at h
        obtain ⟨⟨rfl,rfl⟩,rfl⟩ := h
        exact .suspend 0 (by simp) (.refl b)
      | error epipe =>
        simp only [Run.ret.injEq,Prod.mk.injEq] at h
        obtain ⟨⟨rfl,rfl⟩,rfl⟩ := h
        exact .error
      | count n =>
        simp only at h
        split at h
        next hcond =>
          refine (ih h).after (suspended_advance b _) ?_
          simp only [World.send,List.length_take]
          rcases Nat.le_total (n + 1) b.bytes.length with hle | hle
          · rw [Nat.min_eq_left hle]
          · rw [Nat.min_eq_right hle,List.take_of_length_le hle,List.take_length]
        next hcond =>
          simp only [Run.ret.injEq,Prod.mk.injEq] at h
          obtain ⟨⟨rfl,rfl⟩,rfl⟩ := h
          refine .ok (b.bytes.take (n + 1)) ⟨List.take_prefix _ _,fun he => ?_⟩ rfl rfl
          apply List.take_of_length_le
          simp only [List.length_take,not_and_or,not_not] at hcond
          simp only [WriteBucket.Enough] at he
          omega

theorem writevBucket_result {b b' : WriteBucket} {w w' : World} {s : ResponseStatus}
    (h : writevBucket b w = .ret (s,b') w') : WritevResult b w s b' w' :=
  writevBucketLoop_result h

/-- One `writev` that takes at least what the counter says ends the bucket. -/
theorem writevBucket_count {b : WriteBucket} {n : ℕ} {os : List Outcome} {w : World}
    (hd : b.dangles = false) (hw : w.outcomes = .count n :: os)
    (hn : b.bytes = [] ∨ b.total ≤ (b.bytes.take (n + 1)).length) :
    writevBucket b w = .ret (.OK,{ b with sended := true })
      { w with outcomes := os, sent := w.sent ++ b.bytes.take (n + 1) } := by
  have hcond : ¬((b.bytes.take (n + 1)).length ≠ 0 ∧ b.total > (b.bytes.take (n + 1)).length) := by
    rcases hn with hn | hn
    · simp [hn]
    · omega
  simp only [writevBucket,hw,writevBucketLoop,hd,Bool.false_eq_true,if_false,if_neg hcond]
  rfl

/-- `EAGAIN` at once leaves the bucket as it is. -/
theorem writevBucket_eagain {b : WriteBucket} {os : List Outcome} {w : World}
    (hd : b.dangles = false) (hw : w.outcomes = .eagain :: os) :
    writevBucket b w = .ret (.SUSPEND,b) { w with outcomes := os } := by
  simp [writevBucket,hw,writevBucketLoop,hd]

end Meinheld
