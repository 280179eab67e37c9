import Meinheld.SafeRuns

/-! Schedules without an end on which the socket takes bytes again and again. A response of bytes
comes to its end on each of them. -/
namespace Meinheld

/-- The results of all calls to come: none is fatal, and `EAGAIN` does not go on for ever. -/
structure Schedule where
  next : ℕ → Outcome
  nonfatal : ∀ n, (next n).fatal = false
  takes : ∀ n, ∃ i, n ≤ i ∧ next i ≠ .eagain

def Schedule.first (σ : Schedule) (n : ℕ) : List Outcome := (List.range n).map σ.next

/-- The calls that take bytes. -/
def takings (os : List Outcome) : ℕ := os.countP (· ≠ .eagain)

theorem Schedule.first_nonfatal (σ : Schedule) (n : ℕ) : Nonfatal (σ.first n) := by
  intro o ho
  obtain ⟨i,-,rfl⟩ := List.mem_map.mp ho
  exact σ.nonfatal i

theorem Schedule.first_succ (σ : Schedule) (n : ℕ) : σ.first (n + 1) = σ.first n ++ [σ.next n] := by
  simp [Schedule.first,List.range_succ]

theorem Schedule.takings_mono (σ : Schedule) {n m : ℕ} (h : n ≤ m) :
    takings (σ.first n) ≤ takings (σ.first m) := by
  induction m, h using Nat.le_induction with
  | base => exact le_rfl
  | succ m _ ih =>
    simp only [σ.first_succ,takings,List.countP_append] at ih ⊢
    exact ih.trans (Nat.le_add_right _ _)

theorem Schedule.exists_takings (σ : Schedule) (k : ℕ) : ∃ n, k ≤ takings (σ.first n) := by
  induction k with
  | zero => exact ⟨0,Nat.zero_le _⟩
  | succ k ih =>
    obtain ⟨n,hn⟩ := ih
    obtain ⟨i,hi,htakes⟩ := σ.takes n
    refine ⟨i + 1,?_⟩
    have hone : takings (σ.first (i + 1)) = takings (σ.first i) + 1 := by
      rw [σ.first_succ,takings,List.countP_append]
      simp [takings,htakes]
    have hmono := σ.takings_mono hi
    omega

theorem after_nonfatal {os : List Outcome} (hos : Nonfatal os) (n : ℕ) :
    (os.getD n (.count 0)).fatal = false := by
  rw [List.getD_eq_getElem?_getD]
  cases h : os[n]? with
  | none => rfl
  | some o => exact hos o (List.mem_of_getElem? h)

theorem after_takes (os : List Outcome) (n : ℕ) :
    ∃ i, n ≤ i ∧ os.getD i (.count 0) ≠ .eagain := by
  refine ⟨max n os.length,le_max_left _ _,?_⟩
  rw [List.getD_eq_getElem?_getD,List.getElem?_eq_none (le_max_right _ _)]
  simp

/-- A schedule that begins with `os`; then the socket takes one byte after the other. -/
def Schedule.after (os : List Outcome) (hos : Nonfatal os) : Schedule :=
  ⟨fun n => os.getD n (.count 0),after_nonfatal hos,after_takes os⟩

theorem Schedule.first_after {os : List Outcome} (hos : Nonfatal os) :
    (Schedule.after os hos).first os.length = os := by
  refine List.ext_getElem (by simp [Schedule.first]) fun i h1 h2 => ?_
  simp [Schedule.first,Schedule.after,h2]

/-- The first calls of such a schedule. -/
theorem Schedule.first_after_append {os : List Outcome} (hos : Nonfatal os) (n : ℕ) :
    (Schedule.after os hos).first (os.length + n) = os ++ List.replicate n (.count 0) := by
  refine List.ext_getElem (by simp [Schedule.first]) fun i h1 h2 => ?_
  simp only [Schedule.first,Schedule.after,List.getElem_map,List.getElem_range,List.getElem_append,
    List.getElem_replicate]
  split
  next hi => simp [hi]
  next hi => simp [List.getElem?_eq_none (not_lt.mp hi)]

theorem nonfatal_replicate (n k : ℕ) : Nonfatal (List.replicate n (.count k)) := fun o ho => by
  rw [List.eq_of_mem_replicate ho]
  rfl

theorem takings_cons (o : Outcome) (os : List Outcome) :
    takings (o :: os) = takings os + if o ≠ .eagain then 1 else 0 := by
  simp [takings,List.countP_cons]

theorem takings_replicate (n k : ℕ) : takings (List.replicate n (.count k)) = n := by
  simp [takings,List.countP_replicate]

/-! ### Buckets and items -/

/-- With a call for each of its bytes and one more a bucket is written, or waits for calls that are
still to come. -/
theorem writevBucketLoop_lively {os : List Outcome} {b : WriteBucket} {w : World} {k : ℕ}
    (hd : b.dangles = false) (hos : Nonfatal os) (hk : k + b.bytes.length + 1 ≤ takings os) :
    ∃ s b' w', writevBucketLoop os b w = .ret (s,b') w' ∧ Nonfatal w'.outcomes ∧
      w'.outcomes.length < os.length ∧ (s = .OK ∧ k ≤ takings w'.outcomes ∨
        s = .SUSPEND ∧ b'.dangles = false ∧ k + b'.bytes.length + 1 ≤ takings w'.outcomes) := by
  induction os generalizing b w with
  | nil => simp [takings] at hk
  | cons o os ih =>
    have hos' : Nonfatal os := fun p hp => hos p (List.mem_cons_of_mem _ hp)
    rw [takings_cons] at hk
    cases o with
    | error epipe => simpa [Outcome.fatal] using hos (.error epipe) List.mem_cons_self
    | eagain =>
      refine ⟨_,_,_,writevBucketLoop_eagain hd,hos',?_,.inr ⟨rfl,hd,by simpa using hk⟩⟩
      exact Nat.lt_succ_self _
    | count n =>
      simp only [ne_eq,reduceCtorEq,not_false_eq_true,if_true] at hk
      by_cases hmore : (b.bytes.take (n + 1)).length ≠ 0 ∧ (b.bytes.take (n + 1)).length < b.total
      · rw [writevBucketLoop_turn hd hmore.1 hmore.2]
        have hsus := suspended_advance b (b.bytes.take (n + 1)).length
        obtain ⟨s,b',w',hrun,hnf,hlen,hend⟩ := ih (hsus.dangles hd) hos' (by
          have hle : (b.bytes.take (n + 1)).length ≤ b.bytes.length := List.length_take_le' _ _
          rw [hsus.bytes,List.length_drop]
          omega)
        exact ⟨s,b',w',hrun,hnf,hlen.trans (Nat.lt_succ_self _),hend⟩
      · refine ⟨.OK,{ b with sended := true },World.send { w with outcomes := os } (b.bytes.take (n + 1)),
          ?_,hos',Nat.lt_succ_self _,.inl ⟨rfl,?_⟩⟩
        · rw [writevBucketLoop]
          simp only [hd,Bool.false_eq_true,if_false]
          exact if_neg hmore
        · show k ≤ takings os
          omega

theorem writevBucket_lively {b : WriteBucket} {w : World} {k : ℕ} (hd : b.dangles = false)
    (hos : Nonfatal w.outcomes) (hk : k + b.bytes.length + 1 ≤ takings w.outcomes) :
    ∃ s b' w', writevBucket b w = .ret (s,b') w' ∧ Nonfatal w'.outcomes ∧
      w'.outcomes.length < w.outcomes.length ∧ (s = .OK ∧ k ≤ takings w'.outcomes ∨
        s = .SUSPEND ∧ b'.dangles = false ∧ k + b'.bytes.length + 1 ≤ takings w'.outcomes) :=
  writevBucketLoop_lively hd hos hk

/-- The calls that items need at most. -/
def itemsNeed (ds : List Bytes) : ℕ := (ds.map fun d => d.length + 1).sum

/-- A client with `ds` to write after its bucket. -/
structure Client.Alive (c : Client) (ds : List Bytes) : Prop where
  chunked : c.chunkedResponse = false
  response : c.response.isSome
  iterates : c.Iterates
  items : c.responseIter = some (ds.map .bytes) ∨ c.responseIter = none
  bucket : ∀ b ∈ c.bucket, b.dangles = false

def Client.bucketNeed (c : Client) : ℕ := (c.bucket.map fun b => b.bytes.length + 1).getD 0

/-- How a call ends that began with enough calls to come: it is done, or a client waits with enough
of them left. -/
inductive Living (w : World) : Run (ResponseStatus × Client) → Prop
  | done {s c' w'} (hs : s ≠ .SUSPEND) : Living w (.ret (s,c') w')
  | wait {c' w'} (ds : List Bytes) (halive : c'.Alive ds) (hos : Nonfatal w'.outcomes)
    (hless : w'.outcomes.length < w.outcomes.length)
    (hk : c'.bucketNeed + itemsNeed ds ≤ takings w'.outcomes) : Living w (.ret (.SUSPEND,c') w')

theorem closeResponse_living (c : Client) (w0 w : World) : Living w0 (closeResponse c w) := by
  obtain ⟨s,closed,n,h,hs⟩ := closeResponse_spec c w
  rw [h]
  refine .done ?_
  rcases hs with rfl | ⟨rfl,-⟩ <;> simp

theorem writeItems_living {ds : List Bytes} {c : Client} {w0 w : World}
    (hch : c.chunkedResponse = false) (hiter : c.Iterates) (hresp : c.response.isSome)
    (hos : Nonfatal w.outcomes) (hle : w.outcomes.length ≤ w0.outcomes.length)
    (hk : itemsNeed ds ≤ takings w.outcomes) : Living w0 (writeItems (ds.map .bytes) c w) := by
  induction ds generalizing c w with
  | nil =>
    rw [writeItems,List.map_nil,processItems,Action.pure_bind,finishWrite_plain (by exact hch)]
    exact closeResponse_living _ w0 w
  | cons d ds ih =>
    obtain ⟨hbytes,hcounted⟩ := itemBucket_plain hch d
    simp only [itemsNeed,List.map_cons,List.sum_cons] at hk
    obtain ⟨s,b,v,hv,hnf,hless,hend⟩ := writevBucket_lively (k := itemsNeed ds) hcounted.not_dangles hos
      (by rw [hbytes,itemsNeed]; omega)
    simp only [writeItems,List.map_cons,processItems,Action.bind_assoc]
    rw [Action.bind_apply,hv]
    rcases hend with ⟨rfl,hleft⟩ | ⟨rfl,hd,hleft⟩
    · by_cases hcond : c.contentLengthSet = true ∧ c.contentLength ≤ c.writeBytes + d.length
      · simp only [if_pos hcond,Action.pure_bind]
        rw [finishWrite_plain (by exact hch)]
        exact closeResponse_living _ w0 v
      · simp only [if_neg hcond]
        exact ih (by exact hch) (by exact hiter) (by exact hresp) hnf (by omega) hleft
    · refine .wait ds ⟨hch,hresp,hiter,.inl rfl,?_⟩ hnf (by omega) ?_
      · rintro b' hb'
        obtain rfl := Option.some.inj hb'
        exact hd
      · simp only [Client.bucketNeed,Option.map_some,Option.getD_some]
        omega

theorem processRest_living {ds : List Bytes} {c : Client} {w0 w : World} (hc : c.Alive ds)
    (hos : Nonfatal w.outcomes) (hle : w.outcomes.length ≤ w0.outcomes.length)
    (hk : itemsNeed ds ≤ takings w.outcomes) : Living w0 (processRest c w) := by
  rw [processRest_iterates hc.iterates hc.response]
  rcases hc.items with hi | hi
  · simp only [processWrite,hi]
    exact writeItems_living hc.chunked hc.iterates hc.response hos hle hk
  · simp only [processWrite,hi]
    exact .done (by simp)

theorem processBody_living {ds : List Bytes} {c : Client} {w : World} (hc : c.Alive ds)
    (hos : Nonfatal w.outcomes) (hk : c.bucketNeed + itemsNeed ds ≤ takings w.outcomes) :
    Living w (processBody c w) := by
  unfold processBody
  cases hb : c.bucket with
  | none => exact processRest_living hc hos le_rfl (by omega)
  | some b =>
    simp only [Client.bucketNeed,hb,Option.map_some,Option.getD_some] at hk
    obtain ⟨s,b',v,hv,hnf,hless,hend⟩ := writevBucket_lively (k := itemsNeed ds) (hc.bucket b hb) hos
      (by omega)
    simp only
    rw [Action.bind_apply,hv]
    rcases hend with ⟨rfl,hleft⟩ | ⟨rfl,hd,hleft⟩
    · have halive : Client.Alive
          { c with writeBytes := c.writeBytes + b'.totalSize, bucket := none } ds :=
        ⟨hc.chunked,hc.response,hc.iterates,hc.items,by simp⟩
      exact processRest_living halive hnf hless.le hleft
    · refine .wait ds ⟨hc.chunked,hc.response,hc.iterates,hc.items,?_⟩ hnf hless ?_
      · rintro b1 hb1
        obtain rfl := Option.some.inj hb1
        exact hd
      · simp only [Client.bucketNeed,Option.map_some,Option.getD_some]
        omega

theorem appLoop_returns {fuel : ℕ} {w0 : World} {x : Run (ResponseStatus × Client)} (h : Living w0 x)
    (hfuel : w0.outcomes.length ≤ fuel) : ∃ s c w s' c' w', x = .ret (s,c) w ∧
      appLoop fuel s c w = .ret (s',c') w' ∧ s' ≠ .SUSPEND := by
  induction fuel generalizing w0 x with
  | zero =>
    cases h with
    | done hs => exact ⟨_,_,_,_,_,_,rfl,appLoop_of_ne hs _ _ _,hs⟩
    | wait ds halive hos hless hk => omega
  | succ fuel ih =>
    cases h with
    | done hs => exact ⟨_,_,_,_,_,_,rfl,appLoop_of_ne hs _ _ _,hs⟩
    | @wait c w ds halive hos hless hk =>
      obtain ⟨s1,c1,w1,s',c',w',hbody,hloop,hs'⟩ :=
        ih (processBody_living halive hos hk) (by omega)
      refine ⟨.SUSPEND,c,w,s',c',w',rfl,?_,hs'⟩
      rw [appLoop,Action.bind_apply,hbody]
      exact hloop

/-! ### The whole response -/

variable {g : Globals} {a : Answer}

/-- A call of `response_start` with a call for each of the bytes of the response. -/
theorem responseStart_living {ds : List Bytes} {w : World} (hacc : a.Accepted g)
    (hk : a.response.kind = .iter (ds.map .bytes)) (hch : a.headed.chunkedResponse = false)
    (hdelay : a.Delayable) (hos : Nonfatal w.outcomes)
    (hn : itemsNeed ds + (a.opening g).length + 1 ≤ takings w.outcomes) :
    Living w (responseStart g a.start w) := by
  have hstart : a.Startable := by
    right
    cases ds <;> simp [hk]
  obtain ⟨f,hf⟩ := exists_afterHead g hstart
  obtain ⟨b,hb,heq⟩ := writeHeaders_accepted hacc
  have hop := hb.opening
  have hresp : a.headed.response = some a.response := headed_response a
  have hiter : a.headed.Iterates := direct_iterates hk
  have hitems : ∃ es, (a.headed.responseIter = some (es.map .bytes) ∨ a.headed.responseIter = none) ∧
      itemsNeed es ≤ itemsNeed ds := by
    rw [headed_responseIter a]
    by_cases h304 : a.client.statusCode = 304
    · exact ⟨ds,.inr (by simp [Answer.items,h304]),le_rfl⟩
    · refine ⟨ds.tail,.inl (by simp [Answer.items,h304,hk,List.map_tail]),?_⟩
      cases ds with
      | nil => exact le_rfl
      | cons d ds => simp [itemsNeed]
  obtain ⟨es,hes,hle⟩ := hitems
  obtain ⟨s,b1,v,hv,hnf,hless,hend⟩ := writevBucket_lively (k := itemsNeed es)
    hop.counted.not_dangles hos (by rw [hop.bytes]; omega)
  rw [hf.start,heq,writeHead,Action.bind_assoc,Action.bind_apply,hv]
  rcases hend with ⟨rfl,hleft⟩ | ⟨rfl,-,hleft⟩
  · show Living w (f (.OK,a.direct) v)
    rw [hf.ok]
    split
    · exact .done (by simp)
    · have halive : a.direct.Alive es := ⟨hch,direct_response a,hiter,hes,by simp [Answer.direct]⟩
      exact processRest_living halive hnf hless.le hleft
  · show Living w (f (.SUSPEND,{ a.headed with bucket := some b1 }) v)
    have hsus : ∃ k, Suspended (setFirstBodyData a.headed b a.first) b1 k := by
      cases writevBucket_result hv with
      | suspend k _ hsus => exact ⟨k,hsus⟩
    obtain ⟨k,hsus⟩ := hsus
    rw [hf.suspend b1 (hsus.freed.trans hop.counted.freed)]
    refine .wait es ⟨hch,by simp [hresp],hiter,hes,?_⟩ hnf hless ?_
    · rintro b2 hb2
      obtain rfl := Option.some.inj hb2
      rcases hdelay with hkeep | hfirst
      · simp [WriteBucket.dangles,Answer.releases,hkeep]
      · rw [WriteBucket.dangles,hsus.items ((opening_iov hch hb.plain).1 hfirst),Bool.and_false]
    · have hsame : WriteBucket.bytes { b1 with freed := a.releases } = b1.bytes := rfl
      simp only [Client.bucketNeed,Option.map_some,Option.getD_some,hsame]
      omega

/-- A response of bytes without chunks comes to its end. -/
theorem writeResponse_returns {ds : List Bytes} {w : World} (hacc : a.Accepted g)
    (hk : a.response.kind = .iter (ds.map .bytes)) (hch : a.headed.chunkedResponse = false)
    (hdelay : a.Delayable) (hos : Nonfatal w.outcomes)
    (hn : itemsNeed ds + (a.opening g).length + 1 ≤ takings w.outcomes) :
    ∃ r w', writeResponse g a.start w = .ret r w' := by
  obtain ⟨s,c,v,s',c',w',hstart,hloop,-⟩ := appLoop_returns
    (responseStart_living hacc hk hch hdelay hos hn) (Nat.le_succ w.outcomes.length)
  refine ⟨(s',c'),w',?_⟩
  simp only [writeResponse]
  rw [Action.bind_apply,hstart]
  exact hloop

/-- An error page goes out when a call is there for each of its bytes. -/
theorem blockingWriteLoop_returns {os : List Outcome} {data : Bytes} (c : Client) (w : World)
    (hos : Nonfatal os) (hk : data.length ≤ takings os) :
    ∃ c' w', blockingWriteLoop os c data w = .ret c' w' := by
  induction os generalizing c data w with
  | nil =>
    obtain rfl : data = [] := List.eq_nil_of_length_eq_zero (by simpa [takings] using hk)
    exact ⟨_,_,rfl⟩
  | cons o os ih =>
    have hos' : Nonfatal os := fun p hp => hos p (List.mem_cons_of_mem _ hp)
    rw [takings_cons] at hk
    cases data with
    | nil => exact ⟨_,_,rfl⟩
    | cons b data =>
      cases o with
      | error epipe => simpa [Outcome.fatal] using hos (.error epipe) List.mem_cons_self
      | eagain =>
        simp only [blockingWriteLoop]
        exact ih _ _ hos' (by simpa using hk)
      | count n =>
        simp only [blockingWriteLoop]
        refine ih _ _ hos' ?_
        simp only [ne_eq,reduceCtorEq,not_false_eq_true,if_true,List.length_cons] at hk
        simp only [List.length_drop,List.length_cons]
        omega

theorem appError_returns (c : Client) : ∃ k, ∀ w, Nonfatal w.outcomes → k ≤ takings w.outcomes →
    ∃ c' w', appError c w = .ret c' w' := by
  obtain ⟨s,closed,-,hcl⟩ := closeResponse_client { c with statusCode := 500 }
  refine ⟨(errorHead 500 ++ errorBody 500).length,fun w hos hk => ?_⟩
  obtain ⟨n,hn⟩ := hcl w
  simp only [appError]
  rw [Action.bind_apply,hn]
  simp only [sendErrorPage]
  split
  · exact ⟨_,_,rfl⟩
  · obtain ⟨c1,w1,hw⟩ := blockingWriteLoop_returns { c with statusCode := 500, responseClosed := closed }
      { w with closeCalls := n } hos hk
    rw [Action.bind_apply]
    simp only [blockingWrite,hw]
    exact ⟨_,_,rfl⟩

end Meinheld
