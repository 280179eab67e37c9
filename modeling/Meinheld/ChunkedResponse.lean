import Meinheld.ChunkedCoding
import Meinheld.ResponseRuns

/-! Chunked responses: what goes out after the head, and when it decodes to the items. -/
namespace Meinheld
open ChunkedCoding

def chunkBucket (d : Bytes) : WriteBucket :=
  setChunkedData (newWriteBucket 4) (getChunkData d.length) d

theorem chunkBucket_bytes (d : Bytes) : (chunkBucket d).bytes = chunk d := by
  rw [chunkBucket,setChunkedData_bytes,newWriteBucket_bytes,List.nil_append]
  rfl

theorem chunkBucket_counted (d : Bytes) : (chunkBucket d).Counted :=
  setChunkedData_counted _ _ (newWriteBucket_counted 4)

theorem itemBucket_chunked {c : Client} (h : c.chunkedResponse = true) (d : Bytes) :
    itemBucket c d = chunkBucket d := by
  simp [itemBucket,h,chunkBucket]

theorem lastBucket_counted : (setLastChunkedData (newWriteBucket 3)).Counted := ⟨rfl,rfl,rfl⟩
theorem lastBucket_bytes : (setLastChunkedData (newWriteBucket 3)).bytes = lastChunk := rfl

theorem opening_chunked {g : Globals} {a : Answer} {d : Bytes} (hfirst : a.first = some d)
    (hch : a.headed.chunkedResponse = true) : a.opening g = a.head g ++ chunk d := by
  simp only [Answer.opening,hfirst,firstBytes,hch,if_true]
  rfl

/-! Schedules without a suspension. -/

/-- Every call of `writev` takes some bytes. -/
def Counts (os : List Outcome) : Prop := ∀ o ∈ os, ∃ n, o = .count n

theorem Counts.of_suffix {os os' : List Outcome} (h : Counts os) (hs : os' <:+ os) : Counts os' :=
  fun o ho => h o (hs.mem ho)

theorem writevBucket_counts {b b' : WriteBucket} {w w' : World} {s : ResponseStatus}
    (hb : b.Enough) (hc : Counts w.outcomes) (h : writevBucket b w = .ret (s,b') w') :
    s = .OK ∧ w'.sent = w.sent ++ b.bytes ∧ Counts w'.outcomes := by
  have hok : s = .OK := by
    rcases writevBucket_cause h with hs | ⟨_,he⟩ | ⟨_,o,ho,hf⟩
    · exact hs
    · obtain ⟨n,hn⟩ := hc _ he
      simp at hn
    · obtain ⟨n,rfl⟩ := hc o ho
      simp [Outcome.fatal] at hf
  subst hok
  cases writevBucket_result h with
  | ok p hp hsent _ => exact ⟨rfl,hp.eq hb ▸ hsent,hc.of_suffix (writevBucket_suffix h)⟩

/-- The items of a chunked response, each in a chunk. -/
theorem processItems_chunked {ds : List Bytes} {c c' : Client} {w w' : World} {s : ResponseStatus}
    (hch : c.chunkedResponse = true) (hset : c.contentLengthSet = false)
    (hds : ∀ d ∈ ds, (chunk d).length < 2 ^ 32) (hc : Counts w.outcomes)
    (h : processItems (ds.map .bytes) c w = .ret (s,c') w') :
    s = .OK ∧ w'.sent = w.sent ++ ds.flatMap chunk ∧ Counts w'.outcomes ∧
      c'.chunkedResponse = true := by
  induction ds generalizing c w with
  | nil =>
    simp only [List.map_nil,processItems,Action.pure_apply,Run.ret.injEq,Prod.mk.injEq] at h
    obtain ⟨⟨rfl,rfl⟩,rfl⟩ := h
    exact ⟨rfl,by simp,hc,hch⟩
  | cons d ds ih =>
    simp only [List.map_cons,processItems] at h
    obtain ⟨⟨s1,b1⟩,v,hv,h⟩ := Action.bind_eq_ret.mp h
    rw [itemBucket_chunked hch] at hv
    have henough : (chunkBucket d).Enough :=
      (chunkBucket_counted d).enough (by rw [chunkBucket_bytes]; exact hds d (by simp))
    obtain ⟨rfl,hsent,hcv⟩ := writevBucket_counts henough hc hv
    have hnot : ¬(c.contentLengthSet = true ∧ c.contentLength ≤ c.writeBytes + d.length) := by
      simp [hset]
    simp only [if_neg hnot] at h
    obtain ⟨hs,hsent',hc',hch'⟩ := ih (by simpa using hch) (by simpa using hset)
      (fun e he => hds e (by simp [he])) hcv h
    exact ⟨hs,by simp [hsent',hsent,chunkBucket_bytes],hc',hch'⟩

theorem finishWrite_chunked {c c' : Client} {w w' : World} {s : ResponseStatus}
    (hch : c.chunkedResponse = true) (hc : Counts w.outcomes)
    (h : finishWrite (.OK,c) w = .ret (s,c') w') :
    s ≠ .SUSPEND ∧ w'.sent = w.sent ++ lastChunk := by
  simp only [finishWrite,hch,if_true] at h
  obtain ⟨⟨s1,b1⟩,v,hv,h⟩ := Action.bind_eq_ret.mp h
  have henough := lastBucket_counted.enough (by rw [lastBucket_bytes]; decide)
  obtain ⟨rfl,hsent,_⟩ := writevBucket_counts henough hc hv
  obtain ⟨s2,closed,n,hcl,hs2⟩ := closeResponse_spec c v
  rw [hcl] at h
  simp only [Run.ret.injEq,Prod.mk.injEq] at h
  obtain ⟨⟨rfl,_⟩,rfl⟩ := h
  refine ⟨?_,by rw [hsent,lastBucket_bytes]⟩
  rcases hs2 with rfl | ⟨rfl,_⟩ <;> simp

/-- A chunked response that is not an error comes from bytes first. -/
theorem kind_of_first {a : Answer} {ds : List Bytes} (hk : a.response.kind = .iter (ds.map .bytes))
    (h : a.first.isSome) : ∃ d0 rest, ds = d0 :: rest ∧ a.client.statusCode ≠ 304 ∧
      a.first = some d0 ∧ a.response.kind = .iter (.bytes d0 :: rest.map .bytes) ∧
      a.headed.responseIter = some (rest.map .bytes) := by
  have h304 : a.client.statusCode ≠ 304 := by
    intro h304
    simp [Answer.first,h304] at h
  cases ds with
  | nil => simp [Answer.first,h304,hk] at h
  | cons d0 rest =>
    refine ⟨d0,rest,rfl,h304,by simp [Answer.first,h304,hk],by simpa using hk,?_⟩
    rw [headed_eq]
    simp [Answer.starting,Answer.items,h304,hk]

/-- What a chunked response sends when every bucket is below 2^32 bytes and nothing suspends. -/
theorem writeResponse_chunked {g : Globals} {a : Answer} {d0 : Bytes} {rest : List Bytes}
    {os : List Outcome} {c' : Client} {w' : World} {s : ResponseStatus} (hacc : a.Accepted g)
    (hk : a.response.kind = .iter ((d0 :: rest).map .bytes))
    (hch : a.headed.chunkedResponse = true) (h0 : (a.head g ++ chunk d0).length < 2 ^ 32)
    (hrest : ∀ d ∈ rest, (chunk d).length < 2 ^ 32) (hc : Counts os)
    (h : writeResponse g a.start ⟨os,[],0⟩ = .ret (s,c') w') :
    w'.sent = a.head g ++ ((d0 :: rest).flatMap chunk ++ lastChunk) := by
  obtain ⟨hsome,hset⟩ := headed_of_chunked hch
  obtain ⟨_,_,hds,h304,hfirst,hkind,hiter⟩ := kind_of_first hk hsome
  obtain ⟨rfl,rfl⟩ := List.cons.inj hds
  obtain ⟨b,hb,heq⟩ := writeHeaders_accepted hacc
  have hopen := opening_chunked (g := g) hfirst hch
  have henough := hb.opening.counted.enough (by rw [hb.opening.bytes,hopen]; exact h0)
  obtain ⟨⟨s1,c1⟩,v,hstart,h⟩ := Action.bind_eq_ret.mp h
  rw [responseStart_iter h304 hkind,heq] at hstart
  obtain ⟨⟨s2,c2⟩,u,hhead,hstart⟩ := Action.bind_eq_ret.mp hstart
  obtain ⟨⟨s3,b3⟩,x,hwv,hhead⟩ := Action.bind_eq_ret.mp hhead
  obtain ⟨rfl,hsent,hcx⟩ := writevBucket_counts henough hc hwv
  simp only [Action.pure_apply,Run.ret.injEq,Prod.mk.injEq] at hhead
  obtain ⟨⟨rfl,rfl⟩,rfl⟩ := hhead
  simp only [if_true,releaseItem_of_none,processWrite,hiter] at hstart
  obtain ⟨⟨s4,c4⟩,y,hitems,hfin⟩ := Action.bind_eq_ret.mp hstart
  obtain ⟨rfl,hsent4,hcy,hch4⟩ := processItems_chunked (by exact hch) (by exact hset) hrest hcx hitems
  obtain ⟨hne,hsent5⟩ := finishWrite_chunked hch4 hcy hfin
  rw [appLoop_of_ne hne] at h
  obtain ⟨_,rfl⟩ := Run.ret.inj h
  rw [hsent5,hsent4,hsent,hb.opening.bytes,hopen]
  simp

/-! Straight runs: one `writev` for each bucket. -/

/-- What one `writev` takes of a chunk. -/
def chunkPart (p : Bytes × ℕ) : Bytes := (chunk p.1).take (p.2 + 1)

/-- A `writev` that takes this much of a chunk ends its bucket. -/
def Ends (p : Bytes × ℕ) : Prop := (chunk p.1).length % 2 ^ 32 ≤ (chunkPart p).length

theorem chunkBucket_count {p : Bytes × ℕ} {os : List Outcome} {w : World} (hp : Ends p)
    (hw : w.outcomes = .count p.2 :: os) :
    writevBucket (chunkBucket p.1) w = .ret (.OK,{ chunkBucket p.1 with sended := true })
      { w with outcomes := os, sent := w.sent ++ chunkPart p } := by
  have hcnt := chunkBucket_counted p.1
  rw [writevBucket_count hcnt.not_dangles hw (.inr (by rw [hcnt.total,chunkBucket_bytes]; exact hp)),
    chunkBucket_bytes,chunkPart]

theorem processItems_straight {ps : List (Bytes × ℕ)} {c : Client} {os : List Outcome} {w : World}
    (hch : c.chunkedResponse = true) (hset : c.contentLengthSet = false) (hps : ∀ p ∈ ps, Ends p)
    (hw : w.outcomes = ps.map (fun p => .count p.2) ++ os) :
    ∃ c', c'.chunkedResponse = true ∧ processItems (ps.map fun p => .bytes p.1) c w =
      .ret (.OK,c') { w with outcomes := os, sent := w.sent ++ ps.flatMap chunkPart } := by
  induction ps generalizing c w with
  | nil =>
    obtain rfl : w.outcomes = os := hw
    exact ⟨{ c with responseIter := some [] },hch,by simp [processItems]⟩
  | cons p ps ih =>
    have hv := chunkBucket_count (hps p (by simp)) (by simpa using hw)
    have hnot : ¬(c.contentLengthSet = true ∧ c.contentLength ≤ c.writeBytes + p.1.length) := by
      simp [hset]
    simp only [List.map_cons,processItems,itemBucket_chunked hch,Action.bind_apply,hv,if_neg hnot]
    obtain ⟨c',hch',h⟩ := ih (c := { c with
        responseIter := some (ps.map fun p => .bytes p.1)
        writeBytes := c.writeBytes + p.1.length })
      (w := { w with
        outcomes := ps.map (fun p => .count p.2) ++ os
        sent := w.sent ++ chunkPart p }) hch hset (fun q hq => hps q (by simp [hq])) rfl
    exact ⟨c',hch',by rw [h]; simp⟩

/-- How the last chunk fares: it is taken, or not looked after. -/
inductive LastOutcome : Outcome → Bytes → Prop
  | taken : LastOutcome (.count 4) lastChunk
  | lost : LastOutcome .eagain []

theorem finishWrite_straight {c : Client} {o : Outcome} {tail : Bytes} {os : List Outcome}
    {w : World} (hch : c.chunkedResponse = true) (ho : LastOutcome o tail)
    (hw : w.outcomes = o :: os) : ∃ s c' w', finishWrite (.OK,c) w = .ret (s,c') w' ∧
      (s = .OK ∨ s = .ERROR ∧ c'.responseClosed = true) ∧ w'.sent = w.sent ++ tail := by
  have hd := lastBucket_counted.not_dangles
  obtain ⟨r,v,hv,hsent⟩ : ∃ r v, writevBucket (setLastChunkedData (newWriteBucket 3)) w = .ret r v ∧
      v.sent = w.sent ++ tail := by
    cases ho with
    | taken => exact ⟨_,_,writevBucket_count hd hw (.inr (by decide)),by rw [lastBucket_bytes]; rfl⟩
    | lost => exact ⟨_,_,writevBucket_eagain hd hw,by simp⟩
  obtain ⟨s,closed,n,hcl,hs⟩ := closeResponse_spec c v
  refine ⟨s,{ c with responseClosed := closed },{ v with closeCalls := n },?_,hs,hsent⟩
  simp only [finishWrite,if_pos hch,Action.bind_apply,hv]
  exact hcl

theorem writeResponse_straight {g : Globals} {a : Answer} {d0 : Bytes} (n0 : ℕ)
    (ps : List (Bytes × ℕ)) {o : Outcome} {tail : Bytes} (hacc : a.Accepted g)
    (hk : a.response.kind = .iter ((d0 :: ps.map Prod.fst).map .bytes))
    (hch : a.headed.chunkedResponse = true)
    (h0 : (a.head g ++ chunk d0).length % 2 ^ 32 ≤ ((a.head g ++ chunk d0).take (n0 + 1)).length)
    (hps : ∀ p ∈ ps, Ends p) (ho : LastOutcome o tail) : ∃ s c' w',
      writeResponse g a.start ⟨.count n0 :: (ps.map (fun p => .count p.2) ++ [o]),[],0⟩ =
        .ret (s,c') w' ∧ (s = .OK ∨ s = .ERROR ∧ c'.responseClosed = true) ∧
      w'.sent = (a.head g ++ chunk d0).take (n0 + 1) ++ (ps.flatMap chunkPart ++ tail) := by
  obtain ⟨hsome,hset⟩ := headed_of_chunked hch
  obtain ⟨_,_,hds,h304,hfirst,hkind,hiter⟩ := kind_of_first hk hsome
  obtain ⟨rfl,rfl⟩ := List.cons.inj hds
  obtain ⟨b,hb,heq⟩ := writeHeaders_accepted hacc
  have hopen := opening_chunked (g := g) hfirst hch
  have hhead := writeHead_count hb
    (w := ⟨.count n0 :: (ps.map (fun p => .count p.2) ++ [o]),[],0⟩) rfl (by rw [hopen]; exact h0)
  rw [hopen] at hhead
  have hitems : a.direct.responseIter = some (ps.map fun p => .bytes p.1) := by
    rw [List.map_map] at hiter
    exact hiter
  obtain ⟨c1,hc1,hrun⟩ := processItems_straight (c := a.direct)
    (w := ⟨ps.map (fun p => .count p.2) ++ [o],(a.head g ++ chunk d0).take (n0 + 1),0⟩)
    hch hset hps rfl
  obtain ⟨s,c',w',hfin,hs,hsent⟩ := finishWrite_straight hc1 ho
    (w := ⟨[o],(a.head g ++ chunk d0).take (n0 + 1) ++ ps.flatMap chunkPart,0⟩) rfl
  refine ⟨s,c',w',writeResponse_of_start ?_ ?_,hs,by rw [hsent]; simp⟩
  · rw [responseStart_iter h304 hkind,heq,Action.bind_apply,hhead]
    have hrel : releaseItem a.response a.direct = a.direct := releaseItem_of_none rfl
    simp only [if_true,hrel,processWrite,hitems,Action.bind_apply,List.nil_append,hrun]
    exact hfin
  · rcases hs with rfl | ⟨rfl,_⟩ <;> simp

/-- Decoding what follows the head gives the items and leaves nothing, whenever no write fails or
is suspended. -/
def Decodable (g : Globals) (a : Answer) (ds : List Bytes) : Prop :=
  ∀ os s c' w', Counts os → writeResponse g a.start ⟨os,[],0⟩ = .ret (s,c') w' →
    ∃ body, w'.sent = a.head g ++ body ∧ decode body = some (ds.flatten,[])

/-- No item is empty, and no bucket reaches 2^32 bytes. -/
structure Encodable (g : Globals) (a : Answer) (ds : List Bytes) : Prop where
  nonempty : ∀ d ∈ ds, d ≠ []
  opening : ∀ d ∈ ds.head?, (a.head g ++ chunk d).length < 2 ^ 32
  rest : ∀ d ∈ ds.tail, (chunk d).length < 2 ^ 32

/-- A count under which a `writev` takes all of it. -/
def full (d : Bytes) : Bytes × ℕ := (d,(chunk d).length)

theorem full_part (d : Bytes) : chunkPart (full d) = chunk d :=
  List.take_of_length_le (by simp [full])

theorem full_ends (d : Bytes) : Ends (full d) := by
  rw [Ends,full_part]
  exact Nat.mod_le _ _

def cutChunk (d : Bytes) : Bytes := hexSize d.length ++ ChunkedCoding.crlf ++ d ++ [CR]

theorem chunk_eq (d : Bytes) : chunk d = cutChunk d ++ [LF] := by simp [chunk,cutChunk]

theorem take_cut (s t : Bytes) (h : 2 ≤ (s ++ t).length) :
    (s ++ t ++ [LF]).take ((s ++ t ++ [LF]).length - 2 + 1) = s ++ t := by
  have hlen : (s ++ t ++ [LF]).length - 2 + 1 = (s ++ t).length := by
    rw [List.length_append,List.length_singleton]
    omega
  rw [hlen,List.take_left]

theorem length_cutChunk (d : Bytes) : 3 ≤ (cutChunk d).length := by
  simp only [cutChunk,List.length_append,List.length_cons,List.length_nil]
  omega

/-- A count that leaves out the last byte of a chunk. -/
def short (d : Bytes) : Bytes × ℕ := (d,(chunk d).length - 2)

theorem short_part (d : Bytes) : chunkPart (short d) = cutChunk d := by
  have h := take_cut [] (cutChunk d) (by simpa using (length_cutChunk d).trans' (by decide))
  simpa [chunkPart,short,chunk_eq] using h

theorem short_ends {d : Bytes} (h : 2 ^ 32 ≤ (chunk d).length) : Ends (short d) := by
  have hlt := Nat.mod_lt (chunk d).length (by decide : 2 ^ 32 > 0)
  rw [Ends,chunkPart,short,List.length_take]
  omega

theorem flatMap_full (ds : List Bytes) : (ds.map full).flatMap chunkPart = ds.flatMap chunk := by
  induction ds with
  | nil => rfl
  | cons d ds ih => simp [ih,full_part]

theorem map_fst_full (ds : List Bytes) : (ds.map full).map Prod.fst = ds := by
  induction ds with
  | nil => rfl
  | cons d ds ih => simp [ih,full]

theorem straight_counts (n0 : ℕ) (ps : List (Bytes × ℕ)) :
    Counts (.count n0 :: (ps.map (fun p => .count p.2) ++ [.count 4])) := by
  intro o ho
  simp only [List.mem_cons,List.mem_append,List.mem_map,List.not_mem_nil,or_false] at ho
  rcases ho with rfl | ⟨p,_,rfl⟩ | rfl <;> exact ⟨_,rfl⟩

variable {g : Globals} {a : Answer} {d0 : Bytes} {rest : List Bytes}

theorem Decodable.full_run (hacc : a.Accepted g)
    (hk : a.response.kind = .iter ((d0 :: rest).map .bytes)) (hch : a.headed.chunkedResponse = true)
    (h : Decodable g a (d0 :: rest)) :
    decode ((d0 :: rest).flatMap chunk ++ lastChunk) = some ((d0 :: rest).flatten,[]) := by
  have hall : (a.head g ++ chunk d0).take ((a.head g ++ chunk d0).length + 1) =
      a.head g ++ chunk d0 := List.take_of_length_le (Nat.le_succ _)
  obtain ⟨s,c',w',hrun,_,hsent⟩ := writeResponse_straight (a.head g ++ chunk d0).length
    (rest.map full) hacc (by rw [map_fst_full]; exact hk) hch
    (by rw [hall]; exact Nat.mod_le _ _)
    (fun p hp => by obtain ⟨d,_,rfl⟩ := List.mem_map.mp hp; exact full_ends d) .taken
  obtain ⟨body,hbody,hdec⟩ := h _ s c' w' (straight_counts _ _) hrun
  rw [hall,flatMap_full] at hsent
  have heq : body = (d0 :: rest).flatMap chunk ++ lastChunk := by
    apply (List.append_right_inj (a.head g)).mp
    rw [← hbody,hsent]
    simp
  rwa [← heq]

/-- A first bucket of 2^32 bytes or more can lose its last byte. -/
theorem Decodable.opening_lt (hacc : a.Accepted g)
    (hk : a.response.kind = .iter ((d0 :: rest).map .bytes)) (hch : a.headed.chunkedResponse = true)
    (h : Decodable g a (d0 :: rest)) (hd0 : d0 ≠ []) : (a.head g ++ chunk d0).length < 2 ^ 32 := by
  by_contra hbig
  push Not at hbig
  have hcut : (a.head g ++ chunk d0).take ((a.head g ++ chunk d0).length - 2 + 1) =
      a.head g ++ cutChunk d0 := by
    rw [chunk_eq,← List.append_assoc]
    apply take_cut
    have hlen := length_cutChunk d0
    rw [List.length_append]
    omega
  have hends : (a.head g ++ chunk d0).length % 2 ^ 32 ≤
      ((a.head g ++ chunk d0).take ((a.head g ++ chunk d0).length - 2 + 1)).length := by
    have hlt := Nat.mod_lt (a.head g ++ chunk d0).length (by decide : 2 ^ 32 > 0)
    rw [List.length_take]
    omega
  obtain ⟨s,c',w',hrun,_,hsent⟩ := writeResponse_straight _ (rest.map full) hacc
    (by rw [map_fst_full]; exact hk) hch hends
    (fun p hp => by obtain ⟨d,_,rfl⟩ := List.mem_map.mp hp; exact full_ends d) .taken
  obtain ⟨body,hbody,hdec⟩ := h _ s c' w' (straight_counts _ _) hrun
  have heq : body = ([] : List Bytes).flatMap chunk ++ (hexSize d0.length ++ ChunkedCoding.crlf ++ d0 ++
      (CR :: (rest.flatMap chunk ++ lastChunk))) := by
    apply (List.append_right_inj (a.head g)).mp
    rw [← hbody,hsent,hcut,flatMap_full]
    simp [cutChunk]
  rw [heq,decode_chunks_broken (by simp) hd0 (expectCrlf_cr_chunks rest)] at hdec
  simp at hdec

/-- A later bucket of 2^32 bytes or more can lose its last byte. -/
theorem Decodable.rest_lt (hacc : a.Accepted g)
    (hk : a.response.kind = .iter ((d0 :: rest).map .bytes)) (hch : a.headed.chunkedResponse = true)
    (h : Decodable g a (d0 :: rest)) (hne : ∀ d ∈ d0 :: rest, d ≠ []) :
    ∀ d ∈ rest, (chunk d).length < 2 ^ 32 := by
  intro d hd
  by_contra hbig
  push Not at hbig
  obtain ⟨pre,post,rfl⟩ := List.append_of_mem hd
  have hall : (a.head g ++ chunk d0).take ((a.head g ++ chunk d0).length + 1) =
      a.head g ++ chunk d0 := List.take_of_length_le (Nat.le_succ _)
  have hends : ∀ p ∈ pre.map full ++ short d :: post.map full, Ends p := by
    intro p hp
    rcases List.mem_append.mp hp with hp | hp
    · obtain ⟨e,_,rfl⟩ := List.mem_map.mp hp
      exact full_ends e
    · rcases List.mem_cons.mp hp with rfl | hp
      · exact short_ends hbig
      · obtain ⟨e,_,rfl⟩ := List.mem_map.mp hp
        exact full_ends e
  have hmap : (pre.map full ++ short d :: post.map full).map Prod.fst = pre ++ d :: post := by
    rw [List.map_append,map_fst_full,List.map_cons,map_fst_full]
    rfl
  obtain ⟨s,c',w',hrun,_,hsent⟩ := writeResponse_straight (a.head g ++ chunk d0).length
    (pre.map full ++ short d :: post.map full) hacc
    (by rw [hmap]; exact hk) hch
    (by rw [hall]; exact Nat.mod_le _ _) hends .taken
  obtain ⟨body,hbody,hdec⟩ := h _ s c' w' (straight_counts _ _) hrun
  have heq : body = (d0 :: pre).flatMap chunk ++ (hexSize d.length ++ ChunkedCoding.crlf ++ d ++
      (CR :: (post.flatMap chunk ++ lastChunk))) := by
    apply (List.append_right_inj (a.head g)).mp
    rw [← hbody,hsent,hall,List.flatMap_append,List.flatMap_cons,flatMap_full,flatMap_full,short_part]
    simp [cutChunk]
  rw [heq,decode_chunks_broken (fun e he => hne e (by
    rcases List.mem_cons.mp he with rfl | he <;> simp [*])) (hne d (by simp))
    (expectCrlf_cr_chunks post)] at hdec
  simp at hdec

/-- The chunked coding of a response decodes to its items, on every schedule without a suspension,
exactly when no item is empty and no bucket reaches 2^32 bytes. -/
theorem decodable_iff {ds : List Bytes} (hacc : a.Accepted g)
    (hk : a.response.kind = .iter (ds.map .bytes)) (hch : a.headed.chunkedResponse = true) :
    Decodable g a ds ↔ Encodable g a ds := by
  obtain ⟨d0,rest,rfl,-⟩ := kind_of_first hk (headed_of_chunked hch).1
  constructor
  · intro h
    have hne := nonempty_of_decode (h.full_run hacc hk hch)
    exact ⟨hne,by simpa using h.opening_lt hacc hk hch (hne d0 (by simp)),
      h.rest_lt hacc hk hch hne⟩
  · intro h os s c' w' hc hrun
    refine ⟨_,writeResponse_chunked hacc hk hch (h.opening d0 rfl) h.rest hc hrun,?_⟩
    simpa using decode_chunks_last h.nonempty []

/-- A GET request of HTTP/1.1, answered with a status, without headers, and with some items. -/
def plainAnswer (ds : List Bytes) : Answer where
  client := {
    currentReq := some { method := .GET }
    httpParser := { httpMinor := 1 }
    statusCode := 200
    httpStatus := some (ascii "HTTP/1.1 200 OK\r\n")
    headers := some [] }
  response := { kind := .iter (ds.map .bytes) }
  fresh := ⟨rfl,rfl,rfl,rfl,rfl,rfl⟩
  notClosed := rfl

/-- A `str` of ASCII characters. -/
def asciiStr (s : String) : PyObj := .str ((ascii s).map UInt8.toNat)

/-- A GET request of HTTP/1.1, answered with a `Content-Length` and some items. -/
def lengthAnswer (length : String) (ds : List Bytes) : Answer where
  client := { (plainAnswer ds).client with
    headers := some [.tuple [asciiStr "Content-Length",asciiStr length]] }
  response := { kind := .iter (ds.map .bytes) }
  fresh := ⟨rfl,rfl,rfl,rfl,rfl,rfl⟩
  notClosed := rfl

set_option maxRecDepth 4000 in
theorem decodable_plain : Decodable {} (plainAnswer [ascii "hello",ascii "world"])
    [ascii "hello",ascii "world"] :=
  (decodable_iff ⟨[],_,_,rfl,rfl⟩ rfl rfl).mpr ⟨by decide,by decide,by decide⟩

/-- An empty item is written as the last chunk. -/
theorem not_decodable_empty_item : ¬Decodable {} (plainAnswer [ascii "a",[],ascii "b"])
    [ascii "a",[],ascii "b"] := by
  intro h
  have hfull := h.full_run ⟨[],_,_,rfl,rfl⟩ rfl rfl
  exact absurd hfull (by decide)

end Meinheld
