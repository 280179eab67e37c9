import Meinheld.Audits
import Meinheld.Endings

/-! Ledgers of the body bytes the socket accepts: the item bytes of a write in part, and what one
call of each writing function gets accepted. -/
namespace Meinheld

/-! ### Ledgers -/

/-- The item bytes among the first `k` bytes of some iovecs. -/
def itemBytes : ℕ → List Iovec → ℕ
  | _, [] => 0
  | k, v :: vs => (if v.item then min k v.base.length else 0) + itemBytes (k - v.base.length) vs

/-- All the item bytes of some iovecs. -/
def itemSize (iov : List Iovec) : ℕ := (iov.map fun v => if v.item then v.base.length else 0).sum

/-- No head and no framing of a chunk is in the bucket. -/
def WriteBucket.Bare (b : WriteBucket) : Prop := ∀ v ∈ b.iov, v.item = false → v.base = []

instance (b : WriteBucket) : Decidable b.Bare :=
  inferInstanceAs (Decidable (∀ v ∈ b.iov, v.item = false → v.base = []))

/-- A bucket that waits for the socket, as it was built, and how many of its bytes have been
accepted. -/
structure Waiting where
  built : WriteBucket
  accepted : ℕ
  deriving DecidableEq, Repr

/-- What is accepted for a request: the body bytes, and the bucket they may still belong to.
`regular` says that every write so far has been one whose bytes `write_bytes` can give. -/
structure Ledger where
  body : ℕ := 0
  waiting : Option Waiting := none
  regular : Bool := true
  deriving DecidableEq, Repr

/-- A write of a bucket has returned when `t.accepted` of its bytes are out. It is regular when a
bucket below 4 GiB is sent, one without head and framing if it had to wait, or when no item byte
was out when it failed. -/
def Ledger.settle (l : Ledger) (t : Waiting) (retried : Bool) : ResponseStatus → Ledger
  | .SUSPEND => { l with waiting := some t }
  | .OK => { l with
      waiting := none
      regular := l.regular && t.built.bytes.length < 2 ^ 32 && (!retried || t.built.Bare) }
  | .ERROR => { l with
      waiting := none
      regular := l.regular && itemBytes t.accepted t.built.iov = 0 }

/-- `k` bytes of the iovecs have been accepted. -/
def Ledger.take (l : Ledger) (k : ℕ) (iov : List Iovec) : Ledger :=
  { l with body := l.body + itemBytes k iov }

/-- A waiting bucket has been tried again. A bucket that did not wait was left by another
response. -/
def Ledger.retry (l : Ledger) (k : ℕ) (s : ResponseStatus) : Ledger :=
  match l.waiting with
  | some t => l.settle { t with accepted := t.accepted + k } true s
  | none => { l with regular := false }

/-- `k` bytes of an error page have been accepted: regular when its head is among them. -/
def Ledger.page (l : Ledger) (head k : ℕ) : Ledger :=
  { l with
    body := l.body + (k - head)
    regular := l.regular && head ≤ k && l.body + k < 2 ^ 64 }

/-! ### Item bytes -/

@[simp] theorem itemBytes_zero (iov : List Iovec) : itemBytes 0 iov = 0 := by
  induction iov with
  | nil => rfl
  | cons v vs ih => simp [itemBytes,ih]

/-- What `advance` takes off some iovecs has been counted. -/
theorem itemBytes_add (k j : ℕ) (iov : List Iovec) :
    itemBytes (k + j) iov = itemBytes k iov + itemBytes j (advance k iov) := by
  induction iov generalizing k with
  | nil => rfl
  | cons v vs ih =>
    unfold advance
    split
    next h =>
      have hk : k + j - v.base.length = k - v.base.length + j := by omega
      simp only [itemBytes,hk,ih,List.length_nil,Nat.sub_zero,Nat.min_zero,ite_self]
      cases v.item
      · simp only [Bool.false_eq_true,if_false,Nat.zero_add]
      · simp only [if_true]
        omega
    next h =>
      have hj : k + j - v.base.length = j - (v.base.length - k) := by omega
      have h0 : k - v.base.length = 0 := by omega
      simp only [itemBytes,hj,h0,itemBytes_zero,List.length_drop]
      cases v.item <;> simp only [Bool.false_eq_true,if_true,if_false] <;> omega

@[simp] theorem itemSize_nil : itemSize [] = 0 := rfl

@[simp] theorem itemSize_cons (v : Iovec) (vs : List Iovec) :
    itemSize (v :: vs) = (if v.item then v.base.length else 0) + itemSize vs := rfl

theorem itemBytes_all {k : ℕ} {iov : List Iovec} (h : (iov.flatMap (·.base)).length ≤ k) :
    itemBytes k iov = itemSize iov := by
  induction iov generalizing k with
  | nil => rfl
  | cons v vs ih =>
    rw [List.flatMap_cons,List.length_append] at h
    have hrec := ih (k := k - v.base.length) (by omega)
    have hmin : min k v.base.length = v.base.length := by omega
    rw [itemBytes,hrec,hmin,itemSize_cons]

@[simp] theorem itemSize_append (iov iov' : List Iovec) :
    itemSize (iov ++ iov') = itemSize iov + itemSize iov' := by
  simp [itemSize]

theorem itemSize_plain {b : WriteBucket} (h : b.Plain) : itemSize b.iov = 0 := by
  have hzero : ∀ v ∈ b.iov, (if v.item then v.base.length else 0) = 0 := by
    intro v hv
    rw [h v hv]
    rfl
  simp only [itemSize,List.map_congr_left hzero,List.map_const',List.sum_replicate,smul_zero]

theorem itemSize_bare {b : WriteBucket} (h : b.Bare) : itemSize b.iov = b.bytes.length := by
  have hbase : ∀ v ∈ b.iov, (if v.item then v.base.length else 0) = v.base.length := by
    intro v hv
    cases hi : v.item with
    | true => rfl
    | false => rw [h v hv hi]; rfl
  simp only [itemSize,List.map_congr_left hbase,WriteBucket.bytes,List.length_flatMap]

theorem itemSize_setFirstBodyData {c : Client} {b : WriteBucket} (h : b.Plain)
    (data : Option Bytes) :
    itemSize (setFirstBodyData c b data).iov = (data.map List.length).getD 0 := by
  have hb := itemSize_plain h
  cases data with
  | none => exact hb
  | some d =>
    cases hc : c.chunkedResponse
    · simp [setFirstBodyData,set2bucket,hc,hb]
    · simp [setFirstBodyData,setChunkedData,set2bucket,hc,hb]

theorem itemSize_itemBucket (c : Client) (buf : Bytes) :
    itemSize (itemBucket c buf).iov = buf.length := by
  cases hc : c.chunkedResponse <;>
    simp [itemBucket,setChunkedData,set2bucket,newWriteBucket,hc,itemSize]

theorem itemBucket_counted (c : Client) (buf : Bytes) : (itemBucket c buf).Counted := by
  cases hc : c.chunkedResponse
  · simpa [itemBucket,hc] using set2bucket_counted buf true (newWriteBucket_counted 1)
  · simpa [itemBucket,hc] using
      setChunkedData_counted (getChunkData buf.length) buf (newWriteBucket_counted 4)

/-! ### What the writes get accepted -/

/-- How a write of a bucket returns when `k` of its bytes have been accepted. -/
structure Accepted (b b' : WriteBucket) (s : ResponseStatus) (k : ℕ) : Prop where
  le : k ≤ b.bytes.length
  all : s = .OK → b.Enough → k = b.bytes.length
  totalSize : b'.totalSize = b.totalSize
  enough : s = .SUSPEND → b.Enough → b'.Enough
  iov : s = .SUSPEND → b'.iov = advance k b.iov

theorem advance_zero (iov : List Iovec) : advance 0 iov = iov := by
  cases iov <;> rfl

theorem advance_add (k j : ℕ) (iov : List Iovec) :
    advance j (advance k iov) = advance (k + j) iov := by
  induction iov generalizing k with
  | nil => rfl
  | cons v vs ih =>
    by_cases hk : k > v.base.length
    · have hkj : k + j > v.base.length := by omega
      have hsub : k + j - v.base.length = k - v.base.length + j := by omega
      simp only [advance,if_pos hk,if_pos hkj,List.length_nil,hsub]
      rcases Nat.eq_zero_or_pos j with rfl | hj
      · simp
      · rw [if_pos hj,Nat.sub_zero,ih]
    · by_cases hkj : k + j > v.base.length
      · have hj : j > (v.base.drop k).length := by
          rw [List.length_drop]
          omega
        have hsub : j - (v.base.drop k).length = k + j - v.base.length := by
          rw [List.length_drop]
          omega
        simp only [advance,if_neg hk,if_pos hkj,if_pos hj,hsub]
      · have hj : ¬j > (v.base.drop k).length := by
          rw [List.length_drop]
          omega
        simp only [advance,if_neg hk,if_neg hkj,if_neg hj,List.drop_drop]

theorem writevBucketLoop_accepts {os : List Outcome} {b b' : WriteBucket} {w w' : World}
    {s : ResponseStatus} (h : writevBucketLoop os b w = .ret (s,b') w') :
    ∃ k, w'.sent.length = w.sent.length + k ∧ Accepted b b' s k := by
  induction os generalizing b w with
  | nil => simp [writevBucketLoop] at h
  | cons o os ih =>
    simp only [writevBucketLoop] at h
    split at h
    · simp at h
    · cases o with
      | eagain =>
        simp only [Run.ret.injEq,Prod.mk.injEq] at h
        obtain ⟨⟨rfl,rfl⟩,rfl⟩ := h
        exact ⟨0,rfl,Nat.zero_le _,by simp,rfl,fun _ he => he,fun _ => (advance_zero _).symm⟩
      | error epipe =>
        simp only [Run.ret.injEq,Prod.mk.injEq] at h
        obtain ⟨⟨rfl,rfl⟩,rfl⟩ := h
        exact ⟨0,rfl,Nat.zero_le _,by simp,rfl,by simp,by simp⟩
      | count n =>
        have hlen : (b.bytes.take (n + 1)).length ≤ b.bytes.length := by simp
        simp only at h
        generalize hr : (b.bytes.take (n + 1)).length = r at h hlen
        split at h
        next hcond =>
          obtain ⟨k,hsent,hacc⟩ := ih h
          have hadv := suspended_advance b r
          refine ⟨r + k,?_,?_,fun hs he => ?_,hacc.totalSize,fun hs he => ?_,fun hs => ?_⟩
          · rw [hsent]
            simp only [World.send,List.length_append,hr,Nat.add_assoc]
          · have hle := hacc.le
            rw [hadv.bytes,List.length_drop] at hle
            omega
          · have hall := hacc.all hs (hadv.enough he)
            rw [hadv.bytes,List.length_drop] at hall
            omega
          · exact hacc.enough hs (hadv.enough he)
          · rw [hacc.iov hs]
            exact advance_add r k b.iov
        next hcond =>
          simp only [Run.ret.injEq,Prod.mk.injEq] at h
          obtain ⟨⟨rfl,rfl⟩,rfl⟩ := h
          refine ⟨r,by simp only [World.send,List.length_append,hr],hlen,fun _ he => ?_,rfl,by simp,
            by simp⟩
          rw [WriteBucket.Enough] at he
          rw [List.length_take] at hr
          omega

theorem sendfileLoop_accepts {os : List Outcome} {rest rest' : Bytes} {c c' : Client} {w w' : World}
    {s : ResponseStatus} (h : sendfileLoop os rest c w = .ret (s,c',rest') w') :
    ∃ k, w'.sent.length = w.sent.length + k ∧ c'.writeBytes = c.writeBytes + k := by
  induction os generalizing rest c w with
  | nil =>
    rcases sendfileLoop_ret h with ⟨-,-,rfl,-,rfl⟩ | ⟨-,-,-,rfl,-,rfl⟩ | ⟨-,-,o,os,hnil⟩
    · exact ⟨0,rfl,rfl⟩
    · exact ⟨0,rfl,rfl⟩
    · cases hnil
  | cons o os ih =>
    rcases sendfileLoop_ret h with ⟨-,-,rfl,-,rfl⟩ | ⟨-,-,-,rfl,-,rfl⟩ | ⟨hlt,hr,-⟩
    · exact ⟨0,rfl,rfl⟩
    · exact ⟨0,rfl,rfl⟩
    rw [sendfileLoop_cons hlt hr] at h
    cases o with
    | eagain =>
      simp only [Run.ret.injEq,Prod.mk.injEq] at h
      obtain ⟨⟨_,rfl,_⟩,rfl⟩ := h
      exact ⟨0,rfl,rfl⟩
    | error epipe =>
      simp only [Run.ret.injEq,Prod.mk.injEq] at h
      obtain ⟨⟨_,rfl,_⟩,rfl⟩ := h
      exact ⟨0,rfl,rfl⟩
    | count n =>
      obtain ⟨k,hsent,hbytes⟩ := ih h
      simp only [World.send,List.length_append] at hsent
      exact ⟨_,hsent.trans (Nat.add_assoc _ _ _),hbytes.trans (Nat.add_assoc _ _ _)⟩

/-- `close_response` sends and counts nothing. -/
theorem closeResponse_accepts {c c' : Client} {w w' : World} {s : ResponseStatus}
    (h : closeResponse c w = .ret (s,c') w') :
    w'.sent.length = w.sent.length ∧ c'.writeBytes = c.writeBytes := by
  obtain ⟨s1,closed,n,hc,_⟩ := closeResponse_spec c w
  rw [hc] at h
  simp only [Run.ret.injEq,Prod.mk.injEq] at h
  obtain ⟨⟨_,rfl⟩,rfl⟩ := h
  exact ⟨rfl,rfl⟩

theorem processSendfile_accepts {rest : Bytes} {c c' : Client} {w w' : World} {s : ResponseStatus}
    (h : processSendfile c rest w = .ret (s,c') w') :
    ∃ k, w'.sent.length = w.sent.length + k ∧ c'.writeBytes = c.writeBytes + k := by
  obtain ⟨⟨s1,c1,rest1⟩,v,hv,h⟩ := Action.bind_eq_ret.mp h
  obtain ⟨k,hsent,hbytes⟩ := sendfileLoop_accepts hv
  cases s1 with
  | OK =>
    obtain ⟨h1,h2⟩ := closeResponse_accepts h
    exact ⟨k,h1.trans hsent,h2.trans hbytes⟩
  | SUSPEND =>
    simp only [Action.pure_apply,Run.ret.injEq,Prod.mk.injEq] at h
    obtain ⟨⟨_,rfl⟩,rfl⟩ := h
    exact ⟨k,hsent,hbytes⟩
  | ERROR =>
    simp only [Action.pure_apply,Run.ret.injEq,Prod.mk.injEq] at h
    obtain ⟨⟨_,rfl⟩,rfl⟩ := h
    exact ⟨k,hsent,hbytes⟩

theorem blockingWriteLoop_accepts {os : List Outcome} {c c' : Client} {data : Bytes} {w w' : World}
    (h : blockingWriteLoop os c data w = .ret c' w') :
    ∃ k, w'.sent.length = w.sent.length + k ∧ c'.writeBytes = c.writeBytes + k := by
  induction os generalizing c data w with
  | nil =>
    cases data with
    | nil =>
      simp only [blockingWriteLoop,Run.ret.injEq] at h
      obtain ⟨rfl,rfl⟩ := h
      exact ⟨0,rfl,rfl⟩
    | cons b data => simp [blockingWriteLoop] at h
  | cons o os ih =>
    cases data with
    | nil =>
      simp only [blockingWriteLoop,Run.ret.injEq] at h
      obtain ⟨rfl,rfl⟩ := h
      exact ⟨0,rfl,rfl⟩
    | cons b data =>
      cases o with
      | eagain =>
        rw [blockingWriteLoop] at h
        exact ih (w := { w with outcomes := os }) h
      | error epipe =>
        cases epipe <;>
          simp only [blockingWriteLoop,Run.ret.injEq] at h <;>
          obtain ⟨rfl,rfl⟩ := h <;>
          exact ⟨0,rfl,rfl⟩
      | count n =>
        rw [blockingWriteLoop] at h
        obtain ⟨k,hsent,hbytes⟩ := ih h
        simp only [World.send,List.length_append] at hsent
        exact ⟨_,hsent.trans (Nat.add_assoc _ _ _),hbytes.trans (Nat.add_assoc _ _ _)⟩

theorem appCalls_writeBytes {as : List StartResponseArgs} {c c' : Client} {w w' : World}
    (h : appCalls as c w = .ret c' w') : c'.writeBytes = c.writeBytes := by
  induction as generalizing c with
  | nil =>
    simp only [appCalls,Action.pure_apply,Run.ret.injEq] at h
    exact h.1 ▸ rfl
  | cons a as ih =>
    rw [appCalls] at h
    cases hcall : responseObjectCall c a with
    | raised =>
      simp only [hcall] at h
      exact ih h
    | returned c1 =>
      simp only [hcall] at h
      obtain ⟨code,hs,line,rfl⟩ := responseObjectCall_returned hcall
      have hr := ih h
      exact hr
    | crash => simp [hcall,die] at h

end Meinheld
