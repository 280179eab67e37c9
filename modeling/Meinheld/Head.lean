import Meinheld.Writing

/-! The head of a response: which lines `write_headers` puts together, and what it learns about the
length of the body on the way. -/
namespace Meinheld

/-- The name and the value of a header whose tuple and strings are in order. -/
def headerBytes : HeaderItem → Option (Bytes × Bytes)
  | .tuple [obj1,obj2] =>
    match wsgiToBytes obj1,wsgiToBytes obj2 with
    | some name,some value => some (name,value)
    | _,_ => none
  | _ => none

/-- The server writes its own `Server` and `Date`. -/
def isEmitted (h : Bytes × Bytes) : Bool :=
  !(strcasecmp h.1 (ascii "Server") || strcasecmp h.1 (ascii "Date"))

/-- The application's headers that reach the head. -/
def emitted (headers : List HeaderItem) : List (Bytes × Bytes) :=
  (headers.filterMap headerBytes).filter isEmitted

def headerLine (h : Bytes × Bytes) : Bytes := h.1 ++ ascii ": " ++ h.2 ++ CRLF

/-- The length the first `Content-Length` among the application's headers sets. -/
def appLength (headers : List HeaderItem) : Option ℕ :=
  ((emitted headers).find? fun h => strcasecmp h.1 (ascii "Content-Length")).bind fun h =>
    contentLengthValue h.2

/-- `content_length` is set, once. -/
def Client.withLength (c : Client) (l : Option ℕ) : Client :=
  match l with
  | some n => if c.contentLengthSet then c else { c with contentLengthSet := true, contentLength := n }
  | none => c

/-- No iovec of the bucket belongs to an item. -/
def WriteBucket.Plain (b : WriteBucket) : Prop := ∀ v ∈ b.iov, v.item = false

theorem set2bucket_plain {b : WriteBucket} (buf : Bytes) (h : b.Plain) :
    (set2bucket b buf).Plain := by
  intro v hv
  rcases List.mem_append.mp hv with hv | hv
  · exact h v hv
  · rw [List.mem_singleton.mp hv]

theorem addResponseHeader_plain {b : WriteBucket} (key val : Bytes) (h : b.Plain) :
    (addResponseHeader b key val).Plain :=
  set2bucket_plain _ (set2bucket_plain _ (set2bucket_plain _ (set2bucket_plain _ h)))

/-- What a bucket under construction keeps while `bs` is added to it. -/
structure Adds (b b' : WriteBucket) (bs : Bytes) : Prop where
  bytes : b'.bytes = b.bytes ++ bs
  counted : b.Counted → b'.Counted
  plain : b.Plain → b'.Plain

theorem Adds.refl (b : WriteBucket) : Adds b b [] := ⟨by simp,id,id⟩

theorem Adds.trans {b b1 b2 : WriteBucket} {s t : Bytes} (h : Adds b b1 s) (h' : Adds b1 b2 t) :
    Adds b b2 (s ++ t) :=
  ⟨by rw [h'.bytes,h.bytes,List.append_assoc],h'.counted ∘ h.counted,h'.plain ∘ h.plain⟩

theorem set2bucket_adds (b : WriteBucket) (buf : Bytes) : Adds b (set2bucket b buf) buf :=
  ⟨set2bucket_bytes b buf false,set2bucket_counted buf false,set2bucket_plain buf⟩

theorem addResponseHeader_adds (b : WriteBucket) (key val : Bytes) :
    Adds b (addResponseHeader b key val) (headerLine (key,val)) :=
  ⟨addResponseHeader_bytes b key val,addResponseHeader_counted key val,
    addResponseHeader_plain key val⟩

/-- One header: it is dropped, or written, and a first `Content-Length` is taken in. -/
theorem addOneHeader_some {c c' : Client} {b b' : WriteBucket} {name value : Bytes}
    (h : addOneHeader c b name value = some (c',b')) :
    (isEmitted (name,value) = false ∧ c' = c ∧ b' = b) ∨
    (isEmitted (name,value) = true ∧ Adds b b' (headerLine (name,value)) ∧
      ((strcasecmp name (ascii "Content-Length") = false ∧ c' = c) ∨
        (strcasecmp name (ascii "Content-Length") = true ∧
          c'.contentLengthSet = true ∧ c' = c.withLength (contentLengthValue value)))) := by
  unfold addOneHeader at h
  split at h
  · simp at h
  · split at h
    · simp at h
    · split at h
      next hs =>
        simp only [Option.some.injEq,Prod.mk.injEq] at h
        exact .inl ⟨by simpa [isEmitted,imp_iff_not_or,or_comm] using hs,h.1.symm,h.2.symm⟩
      next hs =>
        have he : isEmitted (name,value) = true := by
          simpa [isEmitted,not_or] using hs
        split at h
        next hc =>
          obtain ⟨l,hl,heq⟩ := Option.map_eq_some_iff.mp h
          simp only [Prod.mk.injEq] at heq
          obtain ⟨rfl,rfl⟩ := heq
          simp only [Bool.not_eq_true'] at hc
          exact .inr ⟨he,addResponseHeader_adds b name value,
            .inr ⟨hc.2,rfl,by simp [hc.1,hl,Client.withLength]⟩⟩
        next hc =>
          simp only [Option.some.injEq,Prod.mk.injEq] at h
          obtain ⟨rfl,rfl⟩ := h
          refine .inr ⟨he,addResponseHeader_adds b name value,?_⟩
          cases hcl : strcasecmp name (ascii "Content-Length") with
          | false => exact .inl ⟨rfl,rfl⟩
          | true =>
            have hset : c.contentLengthSet = true := by simpa [hcl] using hc
            refine .inr ⟨rfl,hset,?_⟩
            unfold Client.withLength
            cases contentLengthValue value <;> simp [hset]

theorem withLength_eq (c : Client) (l : Option ℕ) : c.withLength l = { c with
    contentLengthSet := c.contentLengthSet || l.isSome
    contentLength := if c.contentLengthSet then c.contentLength else l.getD c.contentLength } := by
  cases l with
  | none => simp [Client.withLength]
  | some n =>
    cases h : c.contentLengthSet with
    | true =>
      simp only [Client.withLength,h,if_true,Bool.true_or]
      rw [← h]
    | false => simp [Client.withLength,h]

@[simp] theorem withLength_none (c : Client) : c.withLength none = c := rfl

theorem withLength_of_set {c : Client} (l : Option ℕ) (h : c.contentLengthSet = true) :
    c.withLength l = c := by
  cases l <;> simp [Client.withLength,h]

theorem emitted_cons (h : HeaderItem) (hs : List HeaderItem) :
    emitted (h :: hs) = match headerBytes h with
      | some p => if isEmitted p then p :: emitted hs else emitted hs
      | none => emitted hs := by
  unfold emitted
  cases hb : headerBytes h with
  | none => simp [hb]
  | some p => simp [hb,List.filter_cons]

/-- What `add_all_headers` writes and learns. -/
theorem addAllHeaders_ok {hs : List HeaderItem} {c c' : Client} {b b' : WriteBucket}
    (h : addAllHeaders hs c b = .ok c' b') :
    Adds b b' ((emitted hs).flatMap headerLine) ∧ c' = c.withLength (appLength hs) := by
  fun_induction addAllHeaders hs c b with
  | case1 c b =>
    simp only [HeadersResult.ok.injEq] at h
    obtain ⟨rfl,rfl⟩ := h
    exact ⟨Adds.refl _,rfl⟩
  | case2 obj1 obj2 hs c b name value h1 h2 r hone ih =>
    obtain ⟨c1,b1⟩ := r
    obtain ⟨hadds,hc'⟩ := ih h
    have hb : headerBytes (.tuple [obj1,obj2]) = some (name,value) := by simp [headerBytes,h1,h2]
    rcases addOneHeader_some hone with ⟨hi,rfl,rfl⟩ | ⟨hi,hline,hcl⟩
    · have he : emitted (.tuple [obj1,obj2] :: hs) = emitted hs := by simp [emitted_cons,hb,hi]
      simpa [appLength,he] using ⟨hadds,hc'⟩
    · have he : emitted (.tuple [obj1,obj2] :: hs) = (name,value) :: emitted hs := by
        simp [emitted_cons,hb,hi]
      refine ⟨by simpa [he] using hline.trans hadds,?_⟩
      rcases hcl with ⟨hcl,rfl⟩ | ⟨hcl,hset,rfl⟩
      · simpa [appLength,he,hcl] using hc'
      · rw [hc',withLength_of_set _ hset]
        simp [appLength,he,hcl]
  | _ => simp at h

/-- The status line with the server's own `Server` and `Date`. -/
def statusLines (g : Globals) (c : Client) : Bytes :=
  match c.httpStatus with
  | some value =>
    value ++ headerLine (ascii "Server",SERVER) ++ headerLine (ascii "Date",g.httpTime)
  | none => []

/-- Whether `write_headers` chooses the chunked coding. -/
def choosesChunked (c : Client) (data : Option Bytes) : Bool :=
  !isNoBody c && data.isSome && !c.contentLengthSet && c.httpParser.httpMinor == 1

/-- The lines between the application's headers and `Connection`. -/
def framingLines (c : Client) (data : Option Bytes) (isFile : Option ℕ) : List (Bytes × Bytes) :=
  (if choosesChunked c data then [(ascii "Transfer-Encoding",ascii "chunked")] else []) ++
  (match isFile with
    | some size => if c.contentLengthSet then [] else [(ascii "Content-Length",decimal size)]
    | none => [])

/-- The client after the head is built. -/
def headClient (c : Client) (headers : List HeaderItem) (data : Option Bytes)
    (isFile : Option ℕ) : Client :=
  let c := c.withLength (appLength headers)
  { c with chunkedResponse := c.chunkedResponse || choosesChunked c data }.withLength isFile

/-- The header lines of a head after its status line, `Server` and `Date`. -/
def headLines (c : Client) (headers : List HeaderItem) (data : Option Bytes)
    (isFile : Option ℕ) : List (Bytes × Bytes) :=
  emitted headers ++ framingLines (c.withLength (appLength headers)) data isFile ++
    [(ascii "Connection",connectionValue c)]

/-- The head as bytes. -/
def headBytes (g : Globals) (c : Client) (headers : List HeaderItem) (data : Option Bytes)
    (isFile : Option ℕ) : Bytes :=
  statusLines g c ++ (headLines c headers data isFile).flatMap headerLine ++ CRLF

theorem addStatusLine_adds (g : Globals) (c : Client) (b : WriteBucket) :
    Adds b (addStatusLine g c b) (statusLines g c) := by
  unfold addStatusLine statusLines
  cases c.httpStatus with
  | none => exact Adds.refl _
  | some value =>
    exact ((set2bucket_adds _ _).trans (addResponseHeader_adds _ _ _)).trans
      (addResponseHeader_adds _ _ _)

theorem chunkedHeader_spec (c : Client) (data : Option Bytes) (b : WriteBucket) :
    Adds b (chunkedHeader c data b).2 ((if choosesChunked c data then
      [(ascii "Transfer-Encoding",ascii "chunked")] else []).flatMap headerLine) ∧
    (chunkedHeader c data b).1 =
      { c with chunkedResponse := c.chunkedResponse || choosesChunked c data } := by
  have hcond : (!isNoBody c ∧ data.isSome ∧ !c.contentLengthSet ∧ c.httpParser.httpMinor = 1) ↔
      choosesChunked c data = true := by
    simp [choosesChunked,and_assoc]
  unfold chunkedHeader
  cases hch : choosesChunked c data with
  | true =>
    rw [if_pos (hcond.mpr hch)]
    exact ⟨by simpa using addResponseHeader_adds b _ _,by simp⟩
  | false =>
    rw [if_neg fun hc => by simp [hcond.mp hc] at hch]
    exact ⟨by simpa using Adds.refl b,by simp⟩

theorem fileHeader_spec (c : Client) (isFile : Option ℕ) (b : WriteBucket) :
    Adds b (fileHeader c isFile b).2 ((match isFile with
      | some size => if c.contentLengthSet then [] else [(ascii "Content-Length",decimal size)]
      | none => []).flatMap headerLine) ∧
    (fileHeader c isFile b).1 = c.withLength isFile := by
  unfold fileHeader
  cases isFile with
  | none => exact ⟨Adds.refl b,rfl⟩
  | some size =>
    cases hset : c.contentLengthSet with
    | true => exact ⟨Adds.refl b,(withLength_of_set _ hset).symm⟩
    | false =>
      exact ⟨by simpa [setFileContentLength] using addResponseHeader_adds b _ _,
        by simp [Client.withLength,hset,setFileContentLength]⟩

theorem connectionValue_congr {c c' : Client} (hs : c'.statusCode = c.statusCode)
    (hk : c'.keepAlive = c.keepAlive) : connectionValue c' = connectionValue c := by
  simp [connectionValue,hs,hk]

/-- The bucket and the client `write_headers` goes on with, when the headers are accepted. -/
theorem buildHead_ok {g : Globals} {c c' : Client} {hs : List HeaderItem} {data : Option Bytes}
    {isFile : Option ℕ} {b : WriteBucket} (h : buildHead g c hs data isFile = .ok c' b) :
    Adds (newWriteBucket (hs.length * 4 + 42)) b (headBytes g c hs data isFile) ∧
      c' = headClient c hs data isFile := by
  unfold buildHead at h
  split at h
  next c1 b1 hall =>
    obtain ⟨hadds,rfl⟩ := addAllHeaders_ok hall
    obtain ⟨hch,hc⟩ := chunkedHeader_spec (c.withLength (appLength hs)) data b1
    generalize chunkedHeader (c.withLength (appLength hs)) data b1 = r at h hch hc
    obtain ⟨c2,b2⟩ := r
    obtain rfl : c2 = _ := hc
    obtain ⟨hf,hfc⟩ := fileHeader_spec { c.withLength (appLength hs) with
      chunkedResponse := (c.withLength (appLength hs)).chunkedResponse ||
        choosesChunked (c.withLength (appLength hs)) data } isFile b2
    simp only at h hch
    generalize fileHeader _ isFile b2 = r at h hf hfc
    obtain ⟨c3,b3⟩ := r
    obtain rfl : c3 = _ := hfc
    simp only [HeadersResult.ok.injEq] at h
    obtain ⟨rfl,rfl⟩ := h
    refine ⟨?_,rfl⟩
    rw [connectionValue_congr (c := c) (by simp [withLength_eq]) (by simp [withLength_eq])]
    have h3 := (((((addStatusLine_adds g c _).trans hadds).trans hch).trans hf).trans
      (addResponseHeader_adds _ (ascii "Connection") (connectionValue c))).trans
      (set2bucket_adds _ CRLF)
    simpa [headBytes,headLines,framingLines,List.append_assoc] using h3
  next hno => exact absurd h (by simpa using hno c' b)

end Meinheld
