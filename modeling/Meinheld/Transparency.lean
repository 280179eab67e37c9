import Meinheld.FailedResponses
import Meinheld.FileRuns

/-! Whether what a response sends depends on how the socket takes it. -/
namespace Meinheld

/-! Two schedules. -/

/-- What the application gave is bytes or a file. -/
def Answer.OfBytes (a : Answer) : Prop :=
  (∃ ds : List Bytes, a.response.kind = .iter (ds.map .bytes)) ∨
    ∃ size rest, a.response.kind = .file size rest

/-- What the socket has taken after the first `n` calls. -/
def Answer.sent (g : Globals) (a : Answer) (σ : Schedule) (n : ℕ) : Bytes :=
  (respond g a.start ⟨σ.first n,[],0⟩).world.sent

/-- The response comes to its end. -/
def Answer.EndsOn (g : Globals) (a : Answer) (σ : Schedule) : Prop :=
  ∃ n c w, respond g a.start ⟨σ.first n,[],0⟩ = .ret c w

/-- A response that sends the same bytes on every schedule, and uses no freed memory: it comes to
its end on all of them or on none, and then what goes out on one goes out on the others. -/
structure Transparent (g : Globals) (a : Answer) : Prop where
  safe : ∀ os, Nonfatal os → Safe (respond g a.start) ⟨os,[],0⟩
  ends : ∀ σ σ', a.EndsOn g σ → a.EndsOn g σ'
  same : ∀ (σ σ' : Schedule) n n' c c' w w', respond g a.start ⟨σ.first n,[],0⟩ = .ret c w →
    respond g a.start ⟨σ'.first n',[],0⟩ = .ret c' w' → w.sent = w'.sent
  unending : ∀ σ σ', ¬a.EndsOn g σ → ¬a.EndsOn g σ' → ∀ n, ∃ m, a.sent g σ n <+: a.sent g σ' m

variable {g : Globals} {a : Answer}

theorem Answer.OfBytes.startable (h : a.OfBytes) : a.Startable := by
  right
  rcases h with ⟨ds,hk⟩ | ⟨size,rest,hk⟩
  · cases ds <;> simp [hk]
  · simp [hk]

theorem Answer.OfBytes.not_malformed (h : a.OfBytes) : ¬a.Malformed := by
  rintro ⟨_,hk⟩
  rcases h with ⟨ds,hk'⟩ | ⟨size,rest,hk'⟩
  · rcases hk with hk | ⟨items,hk,i,hi,hb⟩
    · simp [hk'] at hk
    · rw [hk'] at hk
      obtain rfl := ResponseKind.iter.inj hk
      obtain ⟨d,_,rfl⟩ := List.mem_map.mp hi
      simp [Item.isBytes] at hb
  · rcases hk with hk | ⟨items,hk,_⟩ <;> simp [hk'] at hk

theorem Answer.OfBytes.items (h : a.OfBytes) : ∀ items ∈ a.items,
    ∃ ds : List Bytes, items = ds.map .bytes := by
  intro items hi
  rcases h with ⟨ds,hk⟩ | ⟨size,rest,hk⟩
  · by_cases h304 : a.client.statusCode = 304
    · simp [Answer.items,h304] at hi
    · simp only [Answer.items,h304,if_false,hk,Option.mem_def,Option.some.injEq] at hi
      exact ⟨ds.tail,by rw [← hi,List.map_tail]⟩
  · by_cases h304 : a.client.statusCode = 304 <;> simp [Answer.items,h304,hk] at hi

/-- A response whose headers are rejected is one error page. -/
theorem transparent_of_rejected (h : a.OfBytes) (hrej : ¬a.Accepted g) : Transparent g a := by
  obtain ⟨f,hf⟩ := exists_afterHead g h.startable
  rcases writeHeaders_rejected hrej with ⟨c,hc⟩ | hc
  · obtain ⟨c1,hc1,-⟩ := hf.error c
    have hrun : ∀ w, respond g a.start w = appError c1 w := fun w => by
      have hw : writeResponse g a.start w = .ret (.ERROR,c1) w :=
        writeResponse_of_start (by rw [hf.start,hc,Action.pure_bind,hc1]; rfl) (by simp)
      rw [respond_eq,Action.bind_apply,hw]
      rfl
    obtain ⟨page,hpage⟩ := appError_sent c1
    obtain ⟨k,hreturns⟩ := appError_returns c1
    have hends : ∀ σ, a.EndsOn g σ := fun σ => by
      obtain ⟨n,hn⟩ := σ.exists_takings k
      obtain ⟨c',w',hret⟩ := hreturns ⟨σ.first n,[],0⟩ (σ.first_nonfatal n) hn
      exact ⟨n,c',w',(hrun _).trans hret⟩
    refine ⟨fun os _ w' hw => appError_safe c1 _ w' ((hrun _).symm.trans hw),fun _ σ' _ => hends σ',?_,
      fun σ _ hno => absurd (hends σ) hno⟩
    intro σ σ' n n' c c' w w' hr hr'
    rw [hpage _ _ _ (σ.first_nonfatal n) ((hrun _).symm.trans hr),
      hpage _ _ _ (σ'.first_nonfatal n') ((hrun _).symm.trans hr')]
  · have hrun : ∀ w, respond g a.start w = .stop .crash w := fun w => by
      rw [respond_eq,Action.bind_apply]
      simp only [writeResponse,hf.start,hc,Action.bind_apply,die]
    refine ⟨fun os _ w' hw => by simp [hrun] at hw,?_,?_,fun σ σ' _ _ n => ⟨0,?_⟩⟩
    · rintro σ σ' ⟨n,c,w,hr⟩
      simp [hrun] at hr
    · intro σ σ' n n' c c' w w' hr
      simp [hrun] at hr
    · simp only [Answer.sent,hrun]
      exact List.prefix_rfl

theorem respond_totals {ds : List Bytes} (hk : a.response.kind = .iter (ds.map .bytes))
    (hacc : a.Accepted g) (hch : a.headed.chunkedResponse = false) {os : List Outcome} {c : Client}
    {w : World} (hos : Nonfatal os) (hr : respond g a.start ⟨os,[],0⟩ = .ret c w) :
    a.Totals g w.sent := by
  rw [respond_eq] at hr
  obtain ⟨⟨s,c1⟩,v,hv,hr⟩ := Action.bind_eq_ret.mp hr
  cases writeResponse_ended hacc hch hv with
  | done t hs ht hsent hkept =>
    obtain ⟨c2,w2,hend,hsent2⟩ := endResponse_sent hs v
    rw [hend] at hr
    obtain ⟨_,rfl⟩ := Run.ret.inj hr
    rw [hsent2,hsent]
    exact ht
  | failed hf =>
    rcases hf with ⟨o,ho,hfatal⟩ | hmal | ⟨⟨size,rest,hfile⟩,-⟩
    · simp [hos o ho] at hfatal
    · exact absurd hmal (Answer.OfBytes.not_malformed (.inl ⟨ds,hk⟩))
    · rw [hk] at hfile
      cases hfile

theorem Transparent.eq_of_ret {os os' : List Outcome} {c c' : Client} {w w' : World}
    (h : Transparent g a) (hos : Nonfatal os) (hos' : Nonfatal os')
    (hr : respond g a.start ⟨os,[],0⟩ = .ret c w) (hr' : respond g a.start ⟨os',[],0⟩ = .ret c' w') :
    w.sent = w'.sent := by
  rw [← Schedule.first_after hos] at hr
  rw [← Schedule.first_after hos'] at hr'
  exact h.same _ _ _ _ c c' w w' hr hr'

theorem endsOn_after {os : List Outcome} {c : Client} {w : World} (hos : Nonfatal os)
    (hr : respond g a.start ⟨os,[],0⟩ = .ret c w) : a.EndsOn g (.after os hos) :=
  ⟨os.length,c,w,by rw [Schedule.first_after]; exact hr⟩

theorem Transparent.eq_of_sends {os os' : List Outcome} {t t' : Bytes} (h : Transparent g a)
    (hos : Nonfatal os) (hos' : Nonfatal os') (hs : Sends g a os t) (hs' : Sends g a os' t') :
    t = t' := by
  obtain ⟨c,w,hr,rfl⟩ := hs.respond
  obtain ⟨c',w',hr',rfl⟩ := hs'.respond
  exact h.eq_of_ret hos hos' hr hr'

/-- With a first item that outlives a suspension no released memory is used. -/
theorem respond_safe (h : a.OfBytes) (hacc : a.Accepted g) (hch : a.headed.chunkedResponse = false)
    (hdelay : a.Delayable) (w : World) : Safe (respond g a.start) w := by
  obtain ⟨f,hf⟩ := exists_afterHead g h.startable
  obtain ⟨b,hb,heq⟩ := writeHeaders_accepted hacc
  rw [respond_eq]
  refine .bind (.bind ?_ fun r v hv => ?_) fun r v _ => ?_
  · rw [hf.start,heq]
    refine .bind (.bind (writevBucket_safe hb.opening.counted.not_dangles w) fun r v hv => ?_)
      fun r v hv => ?_
    · cases r.1 <;> exact fun _ => by simp
    · obtain ⟨s1,c1⟩ := r
      obtain ⟨hsuf,hcases⟩ := writeHead_cases hv
      rcases hcases with ⟨rfl,_,rfl⟩ | ⟨rfl,k,b1,hsus,_,rfl⟩ | ⟨rfl,_⟩
      · show Safe (f (.OK,a.direct)) v
        rw [hf.ok]
        split
        · exact fun _ => by simp
        · exact processRest_safe hch
      · rw [hf.suspend b1 (hsus.freed.trans hb.opening.counted.freed)]
        exact fun _ => by simp
      · obtain ⟨c2,hc2,-⟩ := hf.error c1
        rw [hc2]
        exact fun _ => by simp
  · rcases responseStart_progress hacc hch hv with hp | ⟨_,hnot,_⟩
    · exact appLoop_safe _ hp
    · exact absurd hdelay hnot
  · unfold endResponse
    split
    · exact appError_safe _ v
    · exact .bind (closeResponse_safe _ v) fun _ _ _ => fun _ => by simp

/-! Totals and schedules. -/

theorem realizes_after_304 (h304 : a.client.statusCode = 304) :
    Realizes a.after a.direct [] [] := by
  intro fuel w _ _
  refine ⟨.OK,a.direct,w,?_,by simp,.inl rfl,fun _ => rfl,.refl _⟩
  simp only [Answer.after,if_pos h304,Action.pure_bind]
  exact appLoop_of_ne (by simp) _ _ _

def Answer.SmallItems (a : Answer) : Prop :=
  ∀ items ∈ a.items, ∀ d, .bytes d ∈ items → d.length < 2 ^ 32

theorem sends_of_total (h : a.OfBytes) (hacc : a.Accepted g) (hch : a.headed.chunkedResponse = false)
    (hsmall : a.SmallItems) (hdelay : a.Delayable) {t : Bytes} (ht : a.Total g t) :
    ∃ os0 os, Nonfatal os0 ∧ Nonfatal os ∧
      ∀ n0, (a.opening g).length % 2 ^ 32 ≤ ((a.opening g).take (n0 + 1)).length →
        Sends g a (os0 ++ .count n0 :: os) ((a.opening g).take (n0 + 1) ++ t) := by
  rcases ht with ht | ht
  · obtain ⟨os,hos,hr⟩ : ∃ os, Nonfatal os ∧ Realizes a.after a.direct os t := by
      by_cases h304 : a.client.statusCode = 304
      · obtain rfl : t = [] := by simpa [Answer.DirectTotal,h304] using ht
        exact ⟨[],by simp [Nonfatal],realizes_after_304 h304⟩
      · simp only [Answer.DirectTotal,if_neg h304] at ht
        simp only [Answer.after,if_neg h304]
        refine ht.realizes hch rfl (direct_response a) fun items hi => hsmall items ?_
        exact (headed_responseIter a).symm.trans hi
    exact ⟨[],os,by simp [Nonfatal],hos,fun n0 hn => sends_direct hacc h.startable hch hn hr⟩
  · obtain ⟨os,hos,hr⟩ := ht.realizes hch rfl (delayed_response g a) fun items hi =>
      hsmall items ((headed_responseIter a).symm.trans hi)
    exact ⟨[.eagain],os,.cons rfl (by simp [Nonfatal]),hos,
      fun n0 hn => sends_delayed hacc h.startable hch hdelay hn hr⟩

theorem Transparent.delayable (ht : Transparent g a) (h : a.OfBytes) (hacc : a.Accepted g)
    (hch : a.headed.chunkedResponse = false) : a.Delayable := by
  by_contra hnot
  simp only [Answer.Delayable,not_or,Bool.not_eq_true] at hnot
  obtain ⟨f,hf⟩ := exists_afterHead g h.startable
  obtain ⟨b,hb,heq⟩ := writeHeaders_accepted hacc
  have hhead := writeHead_eagain hb (w := ⟨[.eagain,.eagain],[],0⟩) rfl
  have hrel : a.releases = true := by
    cases hfirst : a.first with
    | none => simp [hfirst] at hnot
    | some d => simp [Answer.releases,hfirst,hnot.1]
  obtain ⟨pre,v,hiov,hi,hbase⟩ := (opening_iov hch hb.plain).2 hnot.2
  have hd : WriteBucket.dangles { setFirstBodyData a.headed b a.first with freed := a.releases } =
      true := by simp [WriteBucket.dangles,hrel,hiov,hi,hbase]
  refine ht.safe [.eagain,.eagain] (.cons rfl (.cons rfl (by simp [Nonfatal]))) ⟨[],[],0⟩ ?_
  rw [respond_eq,Action.bind_apply]
  simp only [writeResponse,hf.start,heq,Action.bind_assoc]
  rw [Action.bind_apply,hhead]
  simp only [hf.suspend _ hb.opening.counted.freed,List.length_cons,appLoop,
    processBody,Action.bind_apply,Action.pure_apply,writevBucket,writevBucketLoop,hd,if_true]

theorem Transparent.total_eq (ht : Transparent g a) (h : a.OfBytes) (hacc : a.Accepted g)
    (hch : a.headed.chunkedResponse = false) (hsmall : a.SmallItems) {t t' : Bytes}
    (h1 : a.Total g t) (h2 : a.Total g t') : t = t' := by
  obtain ⟨os0,os,hos0,hos,hs⟩ := sends_of_total h hacc hch hsmall (ht.delayable h hacc hch) h1
  obtain ⟨os0',os',hos0',hos',hs'⟩ := sends_of_total h hacc hch hsmall (ht.delayable h hacc hch) h2
  have hall := hs (a.opening g).length (by rw [take_all]; exact Nat.mod_le _ _)
  have hall' := hs' (a.opening g).length (by rw [take_all]; exact Nat.mod_le _ _)
  exact List.append_cancel_left (ht.eq_of_sends (hos0.append (.cons rfl hos))
    (hos0'.append (.cons rfl hos')) hall hall')

theorem two_parts {s : Bytes} (h : 2 ^ 32 ≤ s.length) : ∃ n n',
    s.length % 2 ^ 32 ≤ (s.take (n + 1)).length ∧ s.length % 2 ^ 32 ≤ (s.take (n' + 1)).length ∧
      (s.take (n + 1)).length ≠ (s.take (n' + 1)).length := by
  have hlt := Nat.mod_lt s.length (by decide : 2 ^ 32 > 0)
  refine ⟨s.length,s.length - 2,?_,?_,?_⟩ <;> simp only [List.length_take] <;> omega

theorem Transparent.opening_lt (ht : Transparent g a) (h : a.OfBytes) (hacc : a.Accepted g)
    (hch : a.headed.chunkedResponse = false) (hsmall : a.SmallItems) {t : Bytes}
    (h1 : a.Total g t) : (a.opening g).length < 2 ^ 32 := by
  by_contra hbig
  push Not at hbig
  obtain ⟨n,n',hn,hn',hne⟩ := two_parts hbig
  obtain ⟨os0,os,hos0,hos,hs⟩ := sends_of_total h hacc hch hsmall (ht.delayable h hacc hch) h1
  have heq := ht.eq_of_sends (hos0.append (.cons rfl hos)) (hos0.append (.cons rfl hos)) (hs n hn)
    (hs n' hn')
  exact hne (congrArg List.length (List.append_cancel_right heq))

/-- A chunked response loses its last chunk when the socket has no room for it. -/
theorem Transparent.not_chunked (ht : Transparent g a) (h : a.OfBytes) (hacc : a.Accepted g) :
    a.headed.chunkedResponse = false := by
  by_contra hch
  rw [Bool.not_eq_false] at hch
  obtain ⟨hsome,_⟩ := headed_of_chunked hch
  rcases h with ⟨ds,hk⟩ | ⟨size,rest,hk⟩
  · obtain ⟨d0,rest,rfl,-⟩ := kind_of_first hk hsome
    have hrun : ∀ o tail, LastOutcome o tail → ∃ os c w, Nonfatal os ∧
        respond g a.start ⟨os,[],0⟩ = .ret c w ∧
        w.sent = (a.head g ++ ChunkedCoding.chunk d0) ++
          ((rest.map full).flatMap chunkPart ++ tail) := by
      intro o tail ho
      have hall : (a.head g ++ ChunkedCoding.chunk d0).take
          ((a.head g ++ ChunkedCoding.chunk d0).length + 1) = _ := take_all _
      obtain ⟨s,c,w,hrun,hs,hsent⟩ := writeResponse_straight
        (a.head g ++ ChunkedCoding.chunk d0).length (rest.map full) hacc
        (by rw [map_fst_full]; exact hk) hch (by rw [hall]; exact Nat.mod_le _ _)
        (fun p hp => by obtain ⟨d,_,rfl⟩ := List.mem_map.mp hp; exact full_ends d) ho
      obtain ⟨c2,w2,hend,hsent2⟩ := endResponse_sent hs w
      refine ⟨_,c2,w2,?_,by rw [respond_eq,Action.bind_apply,hrun]; exact hend,
        by rw [hsent2,hsent,hall]⟩
      refine .cons rfl (Nonfatal.append (fun p hp => ?_) ?_)
      · obtain ⟨q,_,rfl⟩ := List.mem_map.mp hp
        rfl
      · cases ho <;> exact .cons rfl (by simp [Nonfatal])
    obtain ⟨os,c,w,hos,hr,hw⟩ := hrun _ _ .taken
    obtain ⟨os',c',w',hos',hr',hw'⟩ := hrun _ _ .lost
    have heq := ht.eq_of_ret hos hos' hr hr'
    rw [hw,hw'] at heq
    have hlast := List.append_cancel_left (List.append_cancel_left heq)
    simp at hlast
  · by_cases h304 : a.client.statusCode = 304 <;> simp [Answer.first,h304,hk] at hsome

/-- An item of 2^32 bytes or more can end in two ways. -/
theorem Transparent.smallItems (ht : Transparent g a) (h : a.OfBytes) (hacc : a.Accepted g)
    (hch : a.headed.chunkedResponse = false) : a.SmallItems := by
  intro items hi d hd
  by_contra hbig
  push Not at hbig
  obtain ⟨ds,rfl⟩ := h.items items hi
  have hmem : d ∈ ds := by simpa using hd
  obtain ⟨pre,post,rfl⟩ := List.append_of_mem hmem
  have hiter : a.direct.responseIter = some ((pre ++ d :: post).map .bytes) :=
    (headed_responseIter a).trans hi
  have h304 : a.client.statusCode ≠ 304 := by
    intro h304
    simp [Answer.items,h304] at hi
  obtain ⟨kinds,hk⟩ : ∃ kinds, a.response.kind = .iter kinds := by
    cases hk : a.response.kind <;> simp [Answer.items,h304,hk] at hi
    exact ⟨_,rfl⟩
  have hit : a.direct.Iterates := by
    intro size rest hc
    rw [show a.direct.response = some a.response from headed_response a] at hc
    simp [hk] at hc
  have hafter : a.after = writeItems (pre.map .bytes ++ .bytes d :: post.map .bytes) a.direct := by
    simp only [Answer.after,if_neg h304,processRest_direct_iter hk,processWrite,hiter,
      List.map_append,List.map_cons]
  obtain ⟨os0,c1,hos0,hch1,hb1,hiter1,hresp1,hpre⟩ := exists_realizes_append (c := a.direct) pre
    (.bytes d :: post.map .bytes) hch rfl hit (direct_response a)
  obtain ⟨os,t,hos,hcut⟩ := exists_realizes_count d post hch1 hb1 hiter1 hresp1
  obtain ⟨n,n',hn,hn',hne⟩ := two_parts hbig
  have hsend : ∀ k, d.length % 2 ^ 32 ≤ (d.take (k + 1)).length → ∃ os', Nonfatal os' ∧
      Sends g a os' (a.opening g ++ (pre.flatten ++ (d.take (k + 1) ++ t))) := by
    intro k hk
    have hs : Sends g a _ ((a.opening g).take ((a.opening g).length + 1) ++ _) :=
      sends_direct hacc h.startable hch (by rw [take_all]; exact Nat.mod_le _ _)
        (hafter ▸ hpre _ _ (hcut k hk))
    rw [take_all] at hs
    exact ⟨_,.cons rfl (hos0.append (.cons rfl hos)),hs⟩
  obtain ⟨os1,hos1,hs1⟩ := hsend n hn
  obtain ⟨os2,hos2,hs2⟩ := hsend n' hn'
  have heq := List.append_cancel_left (List.append_cancel_left (ht.eq_of_sends hos1 hos2 hs1 hs2))
  exact hne (congrArg List.length (List.append_cancel_right heq))

/-! When a response is transparent. -/

/-- The first item is kept, no bucket reaches 2^32 bytes, and a stop at the length that is early
when the head is counted leaves nothing behind. -/
structure ItemsSteady (g : Globals) (a : Answer) : Prop where
  opening : (a.opening g).length < 2 ^ 32
  delayable : a.Delayable
  small : a.SmallItems
  stops : ∀ (ds : List Bytes) n k, a.items = some (ds.map .bytes) → a.headed.limit = some n → 0 < k →
    k ≤ ds.length → n ≤ (a.opening g).length + (ds.take k).flatten.length → (ds.drop k).flatten = []

/-- Of a file, `n` being the length declared and `h` that of the head: nothing of it is sent and
there is no error page, or `sendfile` goes on for ever whether `h` is counted or not. -/
def FileSteady (g : Globals) (a : Answer) (rest : Bytes) : Prop :=
  let n := a.headed.contentLength
  let h := (a.head g).length
  h < 2 ^ 32 ∧
    if a.client.statusCode = 304 then
      n ≤ h ∨ sendfileRefuses n = true ∧ a.response.hasClose = true
    else n = 0 ∨ sendfileRefuses n = true ∧ (n ≤ h ∨ a.response.hasClose = true) ∨
      sendfileRefuses n = false ∧ h < n ∧ (sendfileCount n = 0 ∨ rest.length < n - h)

/-- The condition for a response to be transparent. -/
def Steady (g : Globals) (a : Answer) : Prop :=
  a.headed.chunkedResponse = false ∧
    match a.response.kind with
    | .file _ rest => FileSteady g a rest
    | _ => ItemsSteady g a

section Items
variable {kinds : List Item} (hk : a.response.kind = .iter kinds)
include hk

theorem direct_restTotal (t : Bytes) : RestTotal a.direct t ↔ match a.items with
    | none => t = []
    | some items => ItemTotal a.headed.limit (a.first.getD []).length items t := by
  rw [RestTotal.of_iterates (direct_iterates hk),direct_writeBytes,
    show a.direct.responseIter = a.items from headed_responseIter a]
  rfl

theorem delayed_restTotal (g : Globals) (t : Bytes) : RestTotal (a.delayed g) t ↔
    match a.items with
    | none => t = []
    | some items => ItemTotal a.headed.limit ((a.opening g).length % 2 ^ 32) items t := by
  rw [RestTotal.of_iterates (delayed_iterates hk g),delayed_writeBytes,
    show (a.delayed g).responseIter = a.items from headed_responseIter a]
  rfl

end Items

theorem total_flatten {kinds : List Item} (hk : a.response.kind = .iter kinds) {ds : List Bytes}
    (hi : a.items = some (ds.map .bytes)) : a.Total g ds.flatten := by
  left
  by_cases h304 : a.client.statusCode = 304
  · simp [Answer.items,h304] at hi
  · rw [Answer.DirectTotal,if_neg h304,direct_restTotal hk,hi]
    exact itemTotal_flatten _ _ _

theorem total_nil {kinds : List Item} (hk : a.response.kind = .iter kinds) (hi : a.items = none) :
    a.Total g [] := by
  left
  by_cases h304 : a.client.statusCode = 304
  · simp [Answer.DirectTotal,h304]
  · rw [Answer.DirectTotal,if_neg h304,direct_restTotal hk,hi]

/-- The totals of steady items are all of them. -/
theorem ItemsSteady.total {kinds : List Item} (hk : a.response.kind = .iter kinds)
    (hch : a.headed.chunkedResponse = false) (h : ItemsSteady g a) {t : Bytes} (ht : a.Total g t) :
    (a.items = none → t = []) ∧ ∀ ds : List Bytes, a.items = some (ds.map .bytes) → t = ds.flatten := by
  have hdirect : (a.first.getD []).length ≤ (a.opening g).length := by
    rw [opening_plain hch,List.length_append]
    omega
  have hcases : ∀ (ds : List Bytes) w, a.items = some (ds.map .bytes) → w ≤ (a.opening g).length →
      ItemTotal a.headed.limit w (ds.map .bytes) t → t = ds.flatten := by
    intro ds w hi hw hit
    have hsmall : ∀ d ∈ ds, d.length < 2 ^ 32 := fun d hd =>
      h.small _ hi d (List.mem_map.mpr ⟨d,hd,rfl⟩)
    rcases itemTotal_cases hsmall hit with rfl | ⟨k,n,hpos,hle,hn,hlen,rfl⟩
    · rfl
    · have hdrop := h.stops ds n k hi hn hpos hle (by omega)
      rw [← List.take_append_drop k ds,List.flatten_append,hdrop,List.append_nil,
        List.take_append_drop]
  constructor
  · intro hi
    rcases ht with ht | ht
    · by_cases h304 : a.client.statusCode = 304
      · simpa [Answer.DirectTotal,h304] using ht
      · simpa [Answer.DirectTotal,if_neg h304,direct_restTotal hk,hi] using ht
    · simpa [delayed_restTotal hk,hi] using ht
  · intro ds hi
    have h304 : a.client.statusCode ≠ 304 := by
      intro h304
      simp [Answer.items,h304] at hi
    rcases ht with ht | ht
    · simp only [Answer.DirectTotal,if_neg h304,direct_restTotal hk,hi] at ht
      exact hcases ds _ hi hdirect ht
    · simp only [delayed_restTotal hk,hi] at ht
      exact hcases ds _ hi (Nat.mod_le _ _) ht

/-! ### Schedules that are used up early -/

section Early
variable (hacc : a.Accepted g) (hstart : a.Startable)
include hacc hstart

theorem respond_nil : respond g a.start ⟨[],[],0⟩ = .stop .pending ⟨[],[],0⟩ := by
  obtain ⟨f,hf⟩ := exists_afterHead g hstart
  obtain ⟨b,hb,heq⟩ := writeHeaders_accepted hacc
  rw [respond_eq,Action.bind_apply]
  simp only [writeResponse,hf.start,heq,Action.bind_assoc,writeHead]
  rw [Action.bind_apply]
  rfl

theorem respond_eagain :
    respond g a.start ⟨[.eagain],[],0⟩ = .stop .pending ⟨[],[],0⟩ := by
  obtain ⟨f,hf⟩ := exists_afterHead g hstart
  obtain ⟨b,hb,heq⟩ := writeHeaders_accepted hacc
  have hhead := writeHead_eagain hb (w := ⟨[.eagain],[],0⟩) rfl
  rw [respond_eq,Action.bind_apply]
  simp only [writeResponse,hf.start,heq,Action.bind_assoc]
  rw [Action.bind_apply,hhead]
  simp only [hf.suspend _ hb.opening.counted.freed,List.length_cons,appLoop,
    processBody,Action.bind_apply,Action.pure_apply,writevBucket,writevBucketLoop]

end Early

section File
variable {size : ℕ} {rest : Bytes} (hk : a.response.kind = .file size rest)
include hk

theorem total_of_file (t : Bytes) : a.Total g t ↔
    (if a.client.statusCode = 304 then t = [] else FileTotal a.headed.contentLength rest 0 t) ∨
      FileTotal a.headed.contentLength rest ((a.head g).length % 2 ^ 32) t := by
  rw [Answer.Total,Answer.DirectTotal,(direct_sends hk).iff,(delayed_sends hk g).iff,
    direct_counts hk,delayed_counts hk]
  rfl

variable (hacc : a.Accepted g)
include hacc

theorem respond_direct_spins (h304 : a.client.statusCode ≠ 304) (hspins : a.direct.Spins rest)
    {m : ℕ} (hm : (a.head g).length % 2 ^ 32 ≤ ((a.head g).take (m + 1)).length)
    {os : List Outcome} (hos : Nonfatal os) :
    (respond g a.start).Ends ⟨.count m :: os,[],0⟩
      (Dry ((a.head g).take (m + 1) ++ streamed a.headed.contentLength rest) (takings os))
      fun _ _ => False := by
  rw [← opening_of_file (g := g) hk] at hm ⊢
  have hrun := streams_for_ever (w := ⟨os,(a.opening g).take (m + 1),0⟩) (direct_sends hk) hspins rfl
    hos (Nat.le_add_right os.length 2)
  have hdirect := writeResponse_direct hacc (startable_of_file hk) hm os
  simp only [Answer.after,if_neg h304] at hdirect
  have hwrite : (writeResponse g a.start).Ends ⟨.count m :: os,[],0⟩
      (Dry ((a.opening g).take (m + 1) ++ streamed a.headed.contentLength rest) (takings os))
      fun _ _ => False := by
    unfold Action.Ends at hrun ⊢
    rw [hdirect]
    exact hrun
  exact hwrite.bind fun _ _ hr => hr.elim

theorem not_endsOn_direct (h304 : a.client.statusCode ≠ 304) (hspins : a.direct.Spins rest)
    {m : ℕ} (hm : (a.head g).length % 2 ^ 32 ≤ ((a.head g).take (m + 1)).length)
    (hos : Nonfatal [.count m]) : ¬a.EndsOn g (.after [.count m] hos) := by
  rintro ⟨n,c,w,hr⟩
  cases n with
  | zero =>
    have hnil := respond_nil hacc (startable_of_file hk)
    simp [Schedule.first,hnil] at hr
  | succ n =>
    have hfirst := Schedule.first_after_append hos n
    rw [show [Outcome.count m].length + n = n + 1 from Nat.add_comm 1 n] at hfirst
    rw [hfirst] at hr
    have hrun := respond_direct_spins hk hacc h304 hspins hm (nonfatal_replicate n 0)
    exact hrun.of_ret hr

theorem not_endsOn_delayed (hspins : (a.delayed g).Spins rest)
    (hos : Nonfatal [.eagain,.count (a.head g).length]) :
    ¬a.EndsOn g (.after [.eagain,.count (a.head g).length] hos) := by
  have hch := chunked_of_file hk
  rintro ⟨n,c,w,hr⟩
  rcases n with _ | _ | n
  · have hnil := respond_nil hacc (startable_of_file hk)
    simp [Schedule.first,hnil] at hr
  · have hwait := respond_eagain hacc (startable_of_file hk)
    simp [Schedule.first,Schedule.after,hwait] at hr
  · have hfirst := Schedule.first_after_append hos n
    rw [show [Outcome.eagain,.count (a.head g).length].length + n = n + 2 from Nat.add_comm 2 n]
      at hfirst
    rw [hfirst,← opening_of_file (g := g) hk] at hr
    obtain ⟨r,v,hwrite,-⟩ := Action.bind_eq_ret.mp hr
    have hdelayed := writeResponse_delayed hacc (startable_of_file hk) hch (delayable_of_file hk)
      (m := (a.opening g).length) (by rw [take_all]; exact Nat.mod_le _ _) (List.replicate n (.count 0))
    have hrun := streams_for_ever
      (w := ⟨List.replicate n (.count 0),(a.opening g).take ((a.opening g).length + 1),0⟩)
      (delayed_sends hk g) hspins rfl (nonfatal_replicate n 0)
      (Nat.le_add_right (List.replicate n (Outcome.count 0)).length 2)
    exact hrun.of_ret (hdelayed.symm.trans hwrite)

theorem respond_direct_refused (h304 : a.client.statusCode ≠ 304)
    (hr : sendfileRefuses a.headed.contentLength = true) {m : ℕ}
    (hm : (a.head g).length % 2 ^ 32 ≤ ((a.head g).take (m + 1)).length) :
    ∃ c w, respond g a.start ⟨[.count m],[],0⟩ = .ret c w ∧ w.sent = (a.head g).take (m + 1) := by
  rw [← opening_of_file (g := g) hk] at hm ⊢
  have hdirect := writeResponse_direct hacc (startable_of_file hk) hm []
  simp only [Answer.after,if_neg h304] at hdirect
  obtain ⟨s,c',n,hrun,hs,hle,hgt⟩ := processRest_skips (direct_sends hk) (.inr hr)
    ⟨[],(a.opening g).take (m + 1),0⟩
  rw [Action.bind_apply,hrun] at hdirect
  simp only [appLoop_of_ne hs] at hdirect
  have hquiet : s = .ERROR → c'.pages = false := fun herr => by
    rcases Nat.lt_or_ge a.direct.writeBytes a.direct.contentLength with hmiss | hdone
    · rw [(hgt hmiss).2]
      exact direct_pages a
    · simp [Client.pages,hle hdone herr]
  obtain ⟨c2,w2,hend,hsent⟩ := endResponse_quiet hquiet
    { outcomes := [], sent := (a.opening g).take (m + 1), closeCalls := n }
  refine ⟨c2,w2,?_,hsent⟩
  rw [respond_eq,Action.bind_apply,hdirect]
  exact hend

/-- The head waits, the length of the file is refused, and an error page comes behind the head. -/
theorem respond_delayed_refused (hr : sendfileRefuses a.headed.contentLength = true)
    (hlt : (a.head g).length < 2 ^ 32) (hmiss : (a.head g).length < a.headed.contentLength)
    (hclose : a.response.hasClose = false) : ∃ os c w, Nonfatal os ∧
      respond g a.start ⟨os,[],0⟩ = .ret c w ∧ (a.head g).length < w.sent.length := by
  have hcounts : (a.delayed g).writeBytes = (a.head g).length := by
    rw [delayed_counts hk,Nat.mod_eq_of_lt hlt]
  have hpages : (a.delayed g).pages = true := by
    rw [show (a.delayed g).pages = a.start.pages from (headed_flags a).pages,start_pages,hclose]
    rfl
  obtain ⟨c0,hc0⟩ : ∃ c0, ∀ w, (processRest (a.delayed g)) w = .ret (.ERROR,c0) w ∧
      c0.pages = true := by
    refine ⟨{ a.delayed g with
      keepAlive := false, statusCode := 500
      response := (a.delayed g).response.map (·.seek rest) },fun w => ⟨?_,?_⟩⟩
    · have hmiss' : (a.delayed g).writeBytes < (a.delayed g).contentLength := hcounts ▸ hmiss
      simp only [processRest_sends (delayed_sends hk g),processSendfile,Action.bind_apply,
        sendfileLoop_refused hmiss' hr]
      rfl
    · rw [← hpages]
      simp only [Client.pages]
      rw [← closes_seek (a.delayed g) rest]
      rfl
  obtain ⟨k,hreturns⟩ := appError_returns c0
  have hnf := nonfatal_replicate k 0
  have hwrite := writeResponse_delayed hacc (startable_of_file hk) (chunked_of_file hk)
    (delayable_of_file hk) (m := (a.opening g).length) (by rw [take_all]; exact Nat.mod_le _ _)
    (List.replicate k (.count 0))
  rw [Action.bind_apply,(hc0 _).1] at hwrite
  simp only [appLoop_of_ne (show ResponseStatus.ERROR ≠ .SUSPEND by simp)] at hwrite
  obtain ⟨c,w,hret⟩ := hreturns ⟨List.replicate k (.count 0),
    (a.opening g).take ((a.opening g).length + 1),0⟩ hnf (takings_replicate k 0).ge
  refine ⟨.eagain :: .count (a.opening g).length :: List.replicate k (.count 0),c,w,
    .cons rfl (.cons rfl hnf),?_,?_⟩
  · rw [respond_eq,Action.bind_apply,hwrite]
    exact hret
  · have hflags : ¬(c0.headerDone = true ∨ c0.responseClosed = true ∨ c0.closes = true) := by
      have hpage := (hc0 ⟨[],[],0⟩).2
      simp only [Client.pages,Bool.and_eq_true,Bool.not_eq_true'] at hpage
      simp [hpage]
    have hpage := appError_nonfatal hnf hret
    rw [if_neg hflags] at hpage
    have hpos := List.length_pos_of_ne_nil page500_ne_nil
    rw [hpage.1,List.length_append]
    simp only [take_all,opening_of_file hk]
    omega

/-- The head of a response whose file goes on for ever is below 2^32 bytes when the response is
transparent. -/
theorem Transparent.head_lt (ht : Transparent g a) (h304 : a.client.statusCode ≠ 304)
    (hspins : a.direct.Spins rest) : (a.head g).length < 2 ^ 32 := by
  by_contra hbig
  push Not at hbig
  have hsent : ∀ m (hm : (a.head g).length % 2 ^ 32 ≤ ((a.head g).take (m + 1)).length)
      (hos : Nonfatal [.count m]), (∀ n, a.sent g (.after [.count m] hos) n <+:
        (a.head g).take (m + 1) ++ streamed a.headed.contentLength rest) ∧
        ∃ n, a.sent g (.after [.count m] hos) n =
          (a.head g).take (m + 1) ++ streamed a.headed.contentLength rest := by
    intro m hm hos
    have hfirst : ∀ n, (Schedule.after [.count m] hos).first (n + 1) =
        .count m :: List.replicate n (.count 0) := fun n => by
      have hf := Schedule.first_after_append hos n
      rwa [show [Outcome.count m].length + n = n + 1 from Nat.add_comm 1 n] at hf
    have hdry : ∀ n, Dry ((a.head g).take (m + 1) ++ streamed a.headed.contentLength rest) n
        (respond g a.start ⟨.count m :: List.replicate n (.count 0),[],0⟩).world := fun n => by
      have hrun := respond_direct_spins hk hacc h304 hspins hm (nonfatal_replicate n 0)
      rw [takings_replicate] at hrun
      exact (hrun.mono (fun _ => id) fun _ _ hf => hf.elim).world
    constructor
    · intro n
      cases n with
      | zero =>
        simp only [Answer.sent,Schedule.first,List.range_zero,List.map_nil,
          respond_nil hacc (startable_of_file hk)]
        exact List.nil_prefix
      | succ n =>
        rw [Answer.sent,hfirst]
        exact (hdry n).1
    · let n := ((a.head g).take (m + 1) ++ streamed a.headed.contentLength rest).length + 2
      refine ⟨n + 1,?_⟩
      rw [Answer.sent,hfirst]
      obtain ⟨hpre,hall⟩ := hdry n
      have hle := hpre.length_le
      exact hall.resolve_right fun hmore => by omega
  obtain ⟨m,m',hm,hm',hne⟩ := two_parts hbig
  have hle : ∀ m m', (a.head g).length % 2 ^ 32 ≤ ((a.head g).take (m + 1)).length →
      (a.head g).length % 2 ^ 32 ≤ ((a.head g).take (m' + 1)).length →
      ((a.head g).take (m + 1)).length ≤ ((a.head g).take (m' + 1)).length := by
    intro m m' hm hm'
    have hos : Nonfatal [.count m] := .cons rfl (by simp [Nonfatal])
    have hos' : Nonfatal [.count m'] := .cons rfl (by simp [Nonfatal])
    obtain ⟨n,hn⟩ := (hsent m hm hos).2
    obtain ⟨n',hn'⟩ := ht.unending _ _ (not_endsOn_direct hk hacc h304 hspins hm hos)
      (not_endsOn_direct hk hacc h304 hspins hm' hos') n
    have hlen := (hn'.trans ((hsent m' hm' hos').1 n')).length_le
    rw [hn] at hlen
    simpa using hlen
  exact hne (le_antisymm (hle m m' hm hm') (hle m' m hm' hm))

omit hk hacc in
theorem spins_of_not_reaches {c : Client} (hr : sendfileRefuses c.contentLength = false)
    (h : ¬Reaches c.contentLength rest c.writeBytes) : c.Spins rest := by
  simp only [Reaches,not_or,not_le,not_and] at h
  refine ⟨h.1,hr,?_⟩
  rcases Nat.eq_zero_or_pos (sendfileCount c.contentLength) with h0 | hpos
  · exact .inl h0
  · have hshort := h.2 hpos
    exact .inr (by omega)

theorem Transparent.total_file (ht : Transparent g a) {t t' : Bytes} (h1 : a.Total g t)
    (h2 : a.Total g t') : t = t' := by
  have h : a.OfBytes := .inr ⟨size,rest,hk⟩
  have hch := chunked_of_file hk
  exact ht.total_eq h hacc hch (ht.smallItems h hacc hch) h1 h2

theorem Transparent.head_lt_of_total (ht : Transparent g a) {t : Bytes} (h1 : a.Total g t) :
    (a.head g).length < 2 ^ 32 := by
  have h : a.OfBytes := .inr ⟨size,rest,hk⟩
  have hch := chunked_of_file hk
  exact opening_of_file (g := g) hk ▸ ht.opening_lt h hacc hch (ht.smallItems h hacc hch) h1

/-- What a response may send when it ends, it sends on some schedule. -/
theorem Transparent.endsOn_of_total (ht : Transparent g a) {t : Bytes} (h1 : a.Total g t) (σ : Schedule) :
    a.EndsOn g σ := by
  have h : a.OfBytes := .inr ⟨size,rest,hk⟩
  have hch := chunked_of_file hk
  obtain ⟨os0,os,hos0,hos,hs⟩ :=
    sends_of_total h hacc hch (ht.smallItems h hacc hch) (delayable_of_file hk) h1
  obtain ⟨c,w,hret,-⟩ := (hs (a.opening g).length (by rw [take_all]; exact Nat.mod_le _ _)).respond
  exact ht.ends _ σ (endsOn_after (hos0.append (.cons rfl hos)) hret)

/-- An error page behind the head that waited is not there when the head goes out at once. -/
theorem Transparent.quiet_file (ht : Transparent g a) {os : List Outcome} {c : Client} {w : World}
    (hos : Nonfatal os) (hret : respond g a.start ⟨os,[],0⟩ = .ret c w) (hsent : w.sent = a.head g)
    (hhead : (a.head g).length < 2 ^ 32) (hr : sendfileRefuses a.headed.contentLength = true) :
    a.headed.contentLength ≤ (a.head g).length ∨ a.response.hasClose = true := by
  by_contra hcon
  simp only [not_or,not_le,Bool.not_eq_true] at hcon
  obtain ⟨os',c',w',hos',hret',hlen⟩ := respond_delayed_refused hk hacc hr hhead hcon.1 hcon.2
  rw [← ht.eq_of_ret hos hos' hret hret',hsent] at hlen
  exact Nat.lt_irrefl _ hlen

omit hacc in
theorem delayed_counts_of_lt (hhead : (a.head g).length < 2 ^ 32) :
    (a.delayed g).writeBytes = (a.head g).length := by
  rw [delayed_counts hk,Nat.mod_eq_of_lt hhead]

/-- The head alone goes out at once, and so nothing may follow a head that waited. -/
theorem Transparent.file_304 (ht : Transparent g a) (h304 : a.client.statusCode = 304) :
    (a.head g).length < 2 ^ 32 ∧ (a.headed.contentLength ≤ (a.head g).length ∨
      sendfileRefuses a.headed.contentLength = true ∧ a.response.hasClose = true) := by
  have hnil : a.Total g [] := (total_of_file hk []).mpr (.inl (by simp [h304]))
  have hhead := ht.head_lt_of_total hk hacc hnil
  refine ⟨hhead,?_⟩
  rcases Nat.lt_or_ge (a.head g).length a.headed.contentLength with hmiss | hle
  swap
  · exact .inl hle
  right
  have hrefuses : sendfileRefuses a.headed.contentLength = true := by
    by_contra hr
    rw [Bool.not_eq_true] at hr
    by_cases hreach : Reaches a.headed.contentLength rest (a.head g).length
    · have htotal := hreach.fileTotal
      rw [← Nat.mod_eq_of_lt hhead] at htotal
      have heq := congrArg List.length
        (ht.total_file hk hacc ((total_of_file hk _).mpr (.inr htotal)) hnil)
      have hleast := htotal.least
      rw [Nat.mod_eq_of_lt hhead] at hleast heq
      simp only [heq,List.length_nil] at hleast
      omega
    · have hspins : (a.delayed g).Spins rest := spins_of_not_reaches hr (by
        rw [delayed_counts_of_lt hk hhead]
        exact hreach)
      have hwait : Nonfatal [.eagain,.count (a.head g).length] := .cons rfl (.cons rfl (by simp [Nonfatal]))
      exact not_endsOn_delayed hk hacc hspins hwait (ht.endsOn_of_total hk hacc hnil _)
  refine ⟨hrefuses,?_⟩
  have hdirect : Sends g a [.count (a.opening g).length]
      ((a.opening g).take ((a.opening g).length + 1) ++ []) :=
    sends_direct hacc (startable_of_file hk) (chunked_of_file hk) (by rw [take_all]; exact Nat.mod_le _ _)
      (realizes_after_304 h304)
  obtain ⟨c,w,hret,hsent⟩ := hdirect.respond
  rw [take_all,List.append_nil,opening_of_file hk] at hsent
  have hone : Nonfatal [.count (a.opening g).length] := .cons rfl (by simp [Nonfatal])
  exact (ht.quiet_file hk hacc hone hret hsent hhead hrefuses).resolve_left (not_le.mpr hmiss)

/-- Of a file that is refused the head is sent, and nothing else. -/
theorem Transparent.file_refused (ht : Transparent g a) (h304 : a.client.statusCode ≠ 304)
    (hr : sendfileRefuses a.headed.contentLength = true) : (a.head g).length < 2 ^ 32 ∧
      (a.headed.contentLength ≤ (a.head g).length ∨ a.response.hasClose = true) := by
  have hhead : (a.head g).length < 2 ^ 32 := by
    by_contra hbig
    obtain ⟨m,m',hm,hm',hne⟩ := two_parts (not_lt.mp hbig)
    obtain ⟨c,w,hret,hsent⟩ := respond_direct_refused hk hacc h304 hr hm
    obtain ⟨c',w',hret',hsent'⟩ := respond_direct_refused hk hacc h304 hr hm'
    have heq := ht.eq_of_ret (.cons rfl (by simp [Nonfatal])) (.cons rfl (by simp [Nonfatal])) hret hret'
    rw [hsent,hsent'] at heq
    exact hne (congrArg List.length heq)
  obtain ⟨c,w,hret,hsent⟩ := respond_direct_refused hk hacc h304 hr (m := (a.head g).length)
    (by rw [take_all]; exact Nat.mod_le _ _)
  rw [take_all] at hsent
  exact ⟨hhead,ht.quiet_file hk hacc (.cons rfl (by simp [Nonfatal])) hret hsent hhead hr⟩

/-- A file that is asked for is sent for ever, with a head that waited as well. -/
theorem Transparent.file_spins (ht : Transparent g a) (h304 : a.client.statusCode ≠ 304)
    (hpos : 0 < a.headed.contentLength) (hr : sendfileRefuses a.headed.contentLength = false) :
    (a.head g).length < 2 ^ 32 ∧ (a.head g).length < a.headed.contentLength ∧
      (sendfileCount a.headed.contentLength = 0 ∨
        rest.length < a.headed.contentLength - (a.head g).length) := by
  have htotal : ∀ t, FileTotal a.headed.contentLength rest 0 t → a.Total g t := fun t h1 =>
    (total_of_file hk t).mpr (.inl (by simpa [h304] using h1))
  have hheadpos := head_pos g a
  have hno : ¬Reaches a.headed.contentLength rest 0 := by
    intro h0
    have hhead := ht.head_lt_of_total hk hacc (htotal _ h0.fileTotal)
    obtain ⟨hcount,hlen⟩ := h0.resolve_left (by omega)
    have h1 : Reaches a.headed.contentLength rest ((a.head g).length % 2 ^ 32) :=
      .inr ⟨hcount,by omega⟩
    have heq := congrArg List.length (ht.total_file hk hacc (htotal _ h0.fileTotal)
      ((total_of_file hk _).mpr (.inr h1.fileTotal)))
    rw [Nat.mod_eq_of_lt hhead] at heq
    simp only [List.length_take] at heq
    omega
  have hspins : a.direct.Spins rest := spins_of_not_reaches hr (by
    rw [direct_counts hk]
    exact hno)
  have hhead := ht.head_lt hk hacc h304 hspins
  have hone : Nonfatal [.count (a.head g).length] := .cons rfl (by simp [Nonfatal])
  have hnever := not_endsOn_direct hk hacc h304 hspins (by rw [take_all]; exact Nat.mod_le _ _) hone
  have hno' : ¬Reaches a.headed.contentLength rest (a.head g).length := by
    intro h1
    rw [← Nat.mod_eq_of_lt hhead] at h1
    exact hnever (ht.endsOn_of_total hk hacc ((total_of_file hk _).mpr (.inr h1.fileTotal)) _)
  have hdelayed : (a.delayed g).Spins rest := spins_of_not_reaches hr (by
    rw [delayed_counts_of_lt hk hhead]
    exact hno')
  refine ⟨hhead,delayed_counts_of_lt hk hhead ▸ hdelayed.missing,?_⟩
  refine hdelayed.short.imp_right fun hshort => ?_
  rw [delayed_counts_of_lt hk hhead] at hshort
  have hn : (a.delayed g).contentLength = a.headed.contentLength := rfl
  omega

/-- A transparent file is steady. -/
theorem fileSteady_of_transparent (ht : Transparent g a) : FileSteady g a rest := by
  simp only [FileSteady]
  split
  next h304 => exact ht.file_304 hk hacc h304
  next h304 =>
    rcases Nat.eq_zero_or_pos a.headed.contentLength with hzero | hpos
    · have htotal : a.Total g [] := (total_of_file hk []).mpr
        (.inl (by simpa [h304] using FileTotal.done rest hzero.le))
      exact ⟨ht.head_lt_of_total hk hacc htotal,.inl hzero⟩
    cases hr : sendfileRefuses a.headed.contentLength with
    | true =>
      obtain ⟨hhead,hquiet⟩ := ht.file_refused hk hacc h304 hr
      exact ⟨hhead,.inr (.inl ⟨rfl,hquiet⟩)⟩
    | false =>
      obtain ⟨hhead,hspins⟩ := ht.file_spins hk hacc h304 hpos hr
      exact ⟨hhead,.inr (.inr ⟨rfl,hspins⟩)⟩

omit hacc in
/-- A steady file is skipped, or it is sent for ever. -/
theorem skips_or_spins (hs : FileSteady g a rest) :
    ((a.client.statusCode = 304 ∨ a.direct.Skips) ∧ (a.delayed g).Skips ∧
      (a.headed.contentLength ≤ (a.head g).length ∨ a.response.hasClose = true)) ∨
    a.client.statusCode ≠ 304 ∧ a.direct.Spins rest ∧ (a.delayed g).Spins rest := by
  simp only [FileSteady] at hs
  obtain ⟨hhead,hs⟩ := hs
  have hcounts := delayed_counts_of_lt hk hhead
  have hskips : a.headed.contentLength ≤ (a.head g).length → (a.delayed g).Skips := fun hle =>
    .inl (hcounts ▸ hle)
  split at hs
  next h304 =>
    rcases hs with hle | ⟨hr,hclose⟩
    · exact .inl ⟨.inl h304,hskips hle,.inl hle⟩
    · exact .inl ⟨.inl h304,.inr hr,.inr hclose⟩
  next h304 =>
    rcases hs with hzero | ⟨hr,hquiet⟩ | ⟨hr,hlt,hshort⟩
    · exact .inl ⟨.inr (.inl (hzero.le.trans (Nat.zero_le _))),hskips (by omega),.inl (by omega)⟩
    · exact .inl ⟨.inr (.inr hr),.inr hr,hquiet⟩
    · refine .inr ⟨h304,⟨?_,hr,hshort.imp_right fun hs => ?_⟩,⟨?_,hr,hshort.imp_right fun hs => ?_⟩⟩
      · rw [direct_counts hk]
        exact (Nat.zero_le _).trans_lt hlt
      · rw [direct_counts hk]
        have hn : a.direct.contentLength = a.headed.contentLength := rfl
        omega
      · rw [hcounts]
        exact hlt
      · rw [hcounts]
        have hn : (a.delayed g).contentLength = a.headed.contentLength := rfl
        omega

theorem safe_of_file (os : List Outcome) : Safe (respond g a.start) ⟨os,[],0⟩ :=
  respond_safe (.inr ⟨size,rest,hk⟩) hacc (chunked_of_file hk) (delayable_of_file hk) _

/-- Of a file that is skipped the head is all that is sent, on every schedule. -/
theorem transparent_of_skips (hhead : (a.head g).length < 2 ^ 32)
    (hdirect : a.client.statusCode = 304 ∨ a.direct.Skips) (hdelayed : (a.delayed g).Skips)
    (hpage : a.headed.contentLength ≤ (a.head g).length ∨ a.response.hasClose = true) :
    Transparent g a := by
  have hends : ∀ σ, a.EndsOn g σ := by
    intro σ
    obtain ⟨n,hn⟩ := σ.exists_takings ((a.head g).length + 1)
    have hrun := respond_skips hk hacc hhead (σ.first_nonfatal n) hdirect hdelayed hpage hn
    unfold Action.Ends at hrun
    cases hret : respond g a.start ⟨σ.first n,[],0⟩ with
    | ret c w => exact ⟨n,c,w,hret⟩
    | stop s w =>
      rw [hret] at hrun
      have hle := hrun.1.length_le
      exact absurd hrun.2 (by omega)
  have hsent : ∀ (σ : Schedule) n c w, respond g a.start ⟨σ.first n,[],0⟩ = .ret c w →
      w.sent = a.head g := fun σ n c w hret =>
    (respond_skips hk hacc hhead (σ.first_nonfatal n) hdirect hdelayed hpage (Nat.zero_le _)).of_ret hret
  refine ⟨fun os _ => safe_of_file hk hacc os,fun _ σ' _ => hends σ',?_,
    fun σ _ hno => absurd (hends σ) hno⟩
  intro σ σ' n n' c c' w w' hr hr'
  rw [hsent σ n c w hr,hsent σ' n' c' w' hr']

/-- A file that is sent for ever goes out the same on every schedule. -/
theorem transparent_of_spins (hhead : (a.head g).length < 2 ^ 32) (h304 : a.client.statusCode ≠ 304)
    (hdirect : a.direct.Spins rest) (hdelayed : (a.delayed g).Spins rest) : Transparent g a := by
  have hdry : ∀ (σ : Schedule) n, (respond g a.start).Ends ⟨σ.first n,[],0⟩
      (Dry (a.head g ++ streamed a.headed.contentLength rest) (takings (σ.first n)))
      fun _ _ => False := fun σ n =>
    respond_spins hk hacc hhead (σ.first_nonfatal n) h304 hdirect hdelayed
  have hnever : ∀ σ, ¬a.EndsOn g σ := fun σ ⟨n,c,w,hret⟩ => (hdry σ n).of_ret hret
  have hsent : ∀ (σ : Schedule) n, Dry (a.head g ++ streamed a.headed.contentLength rest)
      (takings (σ.first n)) (respond g a.start ⟨σ.first n,[],0⟩).world := fun σ n =>
    ((hdry σ n).mono (fun _ => id) fun _ _ hf => hf.elim).world
  refine ⟨fun os _ => safe_of_file hk hacc os,fun σ _ hσ => absurd hσ (hnever σ),
    fun σ σ' n _ c _ w _ hr _ => absurd ⟨n,c,w,hr⟩ (hnever σ),fun σ σ' _ _ n => ?_⟩
  obtain ⟨m,hm⟩ := σ'.exists_takings
    ((a.head g ++ streamed a.headed.contentLength rest).length + 2)
  have hall : a.sent g σ' m = a.head g ++ streamed a.headed.contentLength rest := by
    obtain ⟨hpre,hall⟩ := hsent σ' m
    have hle := hpre.length_le
    exact hall.resolve_right fun hmore => by omega
  exact ⟨m,by rw [hall]; exact (hsent σ n).1⟩

/-- A steady file is transparent. -/
theorem transparent_of_fileSteady (hs : FileSteady g a rest) : Transparent g a := by
  obtain ⟨hdirect,hdelayed,hpage⟩ | ⟨h304,hdirect,hdelayed⟩ := skips_or_spins hk hs
  · exact transparent_of_skips hk hacc hs.1 hdirect hdelayed hpage
  · exact transparent_of_spins hk hacc hs.1 h304 hdirect hdelayed

end File

/-- Steady items are transparent. -/
theorem transparent_of_itemsSteady {ds : List Bytes} (hk : a.response.kind = .iter (ds.map .bytes))
    (hacc : a.Accepted g) (hch : a.headed.chunkedResponse = false) (hs : ItemsSteady g a) :
    Transparent g a := by
  have h : a.OfBytes := .inl ⟨ds,hk⟩
  have hends : ∀ σ, a.EndsOn g σ := by
    intro σ
    obtain ⟨n,hn⟩ := σ.exists_takings (itemsNeed ds + (a.opening g).length + 1)
    obtain ⟨r,v,hwrite⟩ := writeResponse_returns (w := ⟨σ.first n,[],0⟩) hacc hk hch hs.delayable
      (σ.first_nonfatal n) hn
    obtain ⟨s,c⟩ := r
    cases writeResponse_ended hacc hch hwrite with
    | done t hs' ht hsent hkept =>
      obtain ⟨c2,w2,hend,-⟩ := endResponse_sent hs' v
      exact ⟨n,c2,w2,by rw [respond_eq,Action.bind_apply,hwrite]; exact hend⟩
    | failed hf =>
      rcases hf with ⟨o,ho,hfatal⟩ | hmal | ⟨⟨size,rest,hfile⟩,-⟩
      · have hnf := σ.first_nonfatal n o ho
        rw [hfatal] at hnf
        cases hnf
      · exact absurd hmal h.not_malformed
      · rw [hk] at hfile
        cases hfile
  have huniq : ∀ t t', a.Total g t → a.Total g t' → t = t' := by
    intro t t' ht ht'
    obtain ⟨hnone,hsome⟩ := hs.total hk hch ht
    obtain ⟨hnone',hsome'⟩ := hs.total hk hch ht'
    cases hi : a.items with
    | none => rw [hnone hi,hnone' hi]
    | some items =>
      obtain ⟨es,rfl⟩ := h.items items hi
      rw [hsome es hi,hsome' es hi]
  refine ⟨fun os _ => respond_safe h hacc hch hs.delayable _,fun _ σ' _ => hends σ',?_,
    fun σ _ hno => absurd (hends σ) hno⟩
  intro σ σ' n n' c c' w w' hr hr'
  obtain ⟨p,t,hp,ht,hw⟩ := respond_totals hk hacc hch (σ.first_nonfatal n) hr
  obtain ⟨p',t',hp',ht',hw'⟩ := respond_totals hk hacc hch (σ'.first_nonfatal n') hr'
  rw [hw,hw',huniq t t' ht ht',hp.eq hs.opening,hp'.eq hs.opening]

end Meinheld
