import Meinheld.Head

/-! The room in the buckets of `response.c`: how many iovecs each is allocated with, and how many
`set2bucket` stores in it. -/
namespace Meinheld

/-! ### The head's bucket -/

/-- The headers the loop of `add_all_headers` reaches: `write_headers` keeps their number in an
`uint32_t` and hands it over as an `int`. -/
def listedHeaders (headers : List HeaderItem) : List HeaderItem :=
  let hlen := headers.length % 2 ^ 32
  headers.take (if hlen < 2 ^ 31 then hlen else 0)

/-- `(hlen * 4) + 42`, in the same `uint32_t`. -/
def headRoom (headers : List HeaderItem) : ℕ := (headers.length % 2 ^ 32 * 4 + 42) % 2 ^ 32

/-- `add_all_headers`: the bucket as it is left, also by an error. -/
def addedHeaders : List HeaderItem → Client → WriteBucket → WriteBucket
  | .tuple [obj1,obj2] :: hs, c, b =>
    match wsgiToBytes obj1,wsgiToBytes obj2 with
    | some name,some value =>
      match addOneHeader c b name value with
      | some r => addedHeaders hs r.1 r.2
      | none => b
    | _,_ => b
  | _, _, b => b

/-- The head of `write_headers` after the headers, and the first item. A file whose size `fstat`
does not give ends it early. -/
def finishedHead (c : Client) (b : WriteBucket) (data : Option Bytes)
    (isFile : Option (Option ℕ)) : WriteBucket :=
  let r := chunkedHeader c data b
  if isFile = some none ∧ !r.1.contentLengthSet then r.2
  else
    let r := fileHeader r.1 (isFile.map (·.getD 0)) r.2
    setFirstBodyData r.1
      (set2bucket (addResponseHeader r.2 (ascii "Connection") (connectionValue r.1)) CRLF) data

/-- The bucket of `write_headers` with all that is stored in it. There is none once the head is
done, or without headers, or when the size for `malloc` is that of a negative `int`. -/
def headBucket (g : Globals) (c : Client) (data : Option Bytes) (isFile : Option (Option ℕ)) :
    Option WriteBucket :=
  match c.headers with
  | none => none
  | some headers =>
    if c.headerDone ∨ 2 ^ 31 ≤ headRoom headers then none
    else
      let b := addStatusLine g c (newWriteBucket (headRoom headers))
      match addAllHeaders (listedHeaders headers) c b with
      | .ok c b => some (finishedHead c b data isFile)
      | _ => some (addedHeaders (listedHeaders headers) c b)

/-- `set2bucket` stores at the index `iov.length`, and nothing is taken out before the bucket is
written: all stores were below `iovSize`. -/
def WriteBucket.InBounds (b : WriteBucket) : Prop := b.iov.length ≤ b.iovSize

/-- No `set2bucket` for the head, an item `buf` or the last chunk stores outside of its bucket. -/
structure BucketsFit (g : Globals) (c : Client) (data : Option Bytes) (isFile : Option (Option ℕ))
    (buf : Bytes) : Prop where
  head : ∀ b, headBucket g c data isFile = some b → b.InBounds
  item : (itemBucket c buf).InBounds
  last : (setLastChunkedData (newWriteBucket 3)).InBounds

/-! ### What a head needs -/

/-- A first `Content-Length` among the headers. -/
def setsLength (h : HeaderItem) : Bool :=
  (headerBytes h).any fun p => isEmitted p && strcasecmp p.1 (ascii "Content-Length")

/-- `add_all_headers` goes on after the header; `set` is whether a length is known. -/
def takesHeader (set : Bool) (h : HeaderItem) : Bool :=
  (headerBytes h).any fun p =>
    !(cstr p.1).contains ':'.toUInt8 && !((cstr p.1).contains LF || (cstr p.2).contains LF) &&
      (set || !setsLength h || (contentLengthValue p.2).isSome)

/-- The headers before the first that `add_all_headers` refuses. -/
def takenHeaders : Bool → List HeaderItem → List HeaderItem
  | _, [] => []
  | set, h :: hs => if takesHeader set h then h :: takenHeaders (set || setsLength h) hs else []

def tailEntries (c : Client) (data : Option Bytes) (isFile : Option (Option ℕ)) : ℕ :=
  let chunked := choosesChunked c data
  (if chunked then 4 else 0) +
    if isFile = some none ∧ !c.contentLengthSet then 0
    else (if isFile.isSome ∧ !c.contentLengthSet then 4 else 0) + 5 +
      if data.isSome then (if c.chunkedResponse ∨ chunked then 4 else 1) else 0

/-- The iovecs a head takes: nine for the status line, four for each header that is kept, and the
rest if none is refused. -/
def headEntries (c : Client) (headers : List HeaderItem) (data : Option Bytes)
    (isFile : Option (Option ℕ)) : ℕ :=
  (if c.httpStatus.isSome then 9 else 0) +
    4 * (emitted (takenHeaders c.contentLengthSet headers)).length +
    if takenHeaders c.contentLengthSet headers = headers then
      tailEntries (c.withLength (appLength headers)) data isFile
    else 0

/-- The head has room: its size is no more than an `uint32_t` holds, or is refused as a negative
`int`, or what is left of it is enough all the same. -/
def HeadHasRoom (c : Client) (data : Option Bytes) (isFile : Option (Option ℕ)) : Prop :=
  ∀ headers, c.headers = some headers → c.headerDone = false →
    headers.length % 2 ^ 32 * 4 + 42 < 2 ^ 32 ∨ 2 ^ 31 ≤ headRoom headers ∨
      headEntries c (listedHeaders headers) data isFile ≤ headRoom headers

/-! ### Counting -/

section Count
variable {c c' : Client} {b b' : WriteBucket} {h : HeaderItem} {hs : List HeaderItem}
  {data : Option Bytes}

@[simp] theorem set2bucket_length (b : WriteBucket) (buf : Bytes) (item : Bool) :
    (set2bucket b buf item).iov.length = b.iov.length + 1 := by simp [set2bucket]

@[simp] theorem set2bucket_iovSize (b : WriteBucket) (buf : Bytes) (item : Bool) :
    (set2bucket b buf item).iovSize = b.iovSize := rfl

@[simp] theorem addResponseHeader_length (b : WriteBucket) (key val : Bytes) :
    (addResponseHeader b key val).iov.length = b.iov.length + 4 := by simp [addResponseHeader]

@[simp] theorem addResponseHeader_iovSize (b : WriteBucket) (key val : Bytes) :
    (addResponseHeader b key val).iovSize = b.iovSize := rfl

@[simp] theorem setChunkedData_length (b : WriteBucket) (lendata data : Bytes) :
    (setChunkedData b lendata data).iov.length = b.iov.length + 4 := by simp [setChunkedData]

@[simp] theorem setChunkedData_iovSize (b : WriteBucket) (lendata data : Bytes) :
    (setChunkedData b lendata data).iovSize = b.iovSize := rfl

@[simp] theorem newWriteBucket_length (n : ℕ) : (newWriteBucket n).iov.length = 0 := rfl

@[simp] theorem newWriteBucket_iovSize (n : ℕ) : (newWriteBucket n).iovSize = n := rfl

theorem addStatusLine_count (g : Globals) (c : Client) (b : WriteBucket) :
    (addStatusLine g c b).iov.length = b.iov.length + (if c.httpStatus.isSome then 9 else 0) ∧
      (addStatusLine g c b).iovSize = b.iovSize := by
  unfold addStatusLine
  cases c.httpStatus <;> simp

theorem setFirstBodyData_count (c : Client) (b : WriteBucket) (data : Option Bytes) :
    (setFirstBodyData c b data).iov.length = b.iov.length +
      (if data.isSome then (if c.chunkedResponse then 4 else 1) else 0) ∧
      (setFirstBodyData c b data).iovSize = b.iovSize := by
  cases data with
  | none => exact ⟨rfl,rfl⟩
  | some d =>
    unfold setFirstBodyData
    cases c.chunkedResponse <;> simp

theorem setsLength_eq {name value : Bytes} (hb : headerBytes h = some (name,value)) :
    setsLength h = (isEmitted (name,value) && strcasecmp name (ascii "Content-Length")) := by
  rw [setsLength,hb,Option.any_some]

/-- One header: it is refused, or dropped, or written, and a first length is taken in. -/
theorem addOneHeader_eq {name value : Bytes} (hb : headerBytes h = some (name,value)) (c : Client)
    (b : WriteBucket) : addOneHeader c b name value =
      if takesHeader c.contentLengthSet h then
        some (if setsLength h then c.withLength (contentLengthValue value) else c,
          if isEmitted (name,value) then addResponseHeader b name value else b)
      else none := by
  rw [takesHeader,hb,Option.any_some,setsLength_eq hb]
  unfold addOneHeader isEmitted Client.withLength
  simp only
  generalize (cstr name).contains ':'.toUInt8 = colon
  generalize (cstr name).contains LF = lf
  generalize (cstr value).contains LF = lf'
  generalize strcasecmp name (ascii "Server") = server
  generalize strcasecmp name (ascii "Date") = date
  generalize strcasecmp name (ascii "Content-Length") = length
  cases colon
  swap
  · simp
  cases lf
  swap
  · simp
  cases lf'
  swap
  · simp
  cases server
  swap
  · simp
  cases date
  swap
  · simp
  cases length
  · simp
  · cases c.contentLengthSet <;> cases contentLengthValue value <;> simp

theorem withLength_contentLengthSet (c : Client) (l : Option ℕ) :
    (c.withLength l).contentLengthSet = (c.contentLengthSet || l.isSome) := by
  rw [withLength_eq]

theorem emitted_singleton {p : Bytes × Bytes} (hb : headerBytes h = some p) :
    emitted [h] = if isEmitted p then [p] else [] := by
  rw [emitted_cons,hb]
  rfl

/-- A header that is taken. -/
theorem addOneHeader_count {name value : Bytes} (hb : headerBytes h = some (name,value))
    (hone : addOneHeader c b name value = some (c',b')) :
    takesHeader c.contentLengthSet h = true ∧
      c'.contentLengthSet = (c.contentLengthSet || setsLength h) ∧
      b'.iov.length = b.iov.length + 4 * (emitted [h]).length ∧ b'.iovSize = b.iovSize := by
  rw [addOneHeader_eq hb] at hone
  split at hone
  swap
  · simp at hone
  next htakes =>
    obtain ⟨rfl,rfl⟩ := Prod.mk.inj (Option.some.inj hone)
    refine ⟨htakes,?_,?_,?_⟩
    · cases hset : setsLength h with
      | false => simp
      | true =>
        rw [takesHeader,hb,Option.any_some,hset] at htakes
        rw [if_pos rfl,withLength_contentLengthSet]
        rw [Bool.and_eq_true] at htakes
        cases hcl : c.contentLengthSet with
        | true => rfl
        | false => simpa [hcl] using htakes.2
    · rw [emitted_singleton hb]
      split <;> simp
    · split <;> simp

theorem exists_tuple {p : Bytes × Bytes} (hb : headerBytes h = some p) : ∃ obj1 obj2,
    h = .tuple [obj1,obj2] ∧ wsgiToBytes obj1 = some p.1 ∧ wsgiToBytes obj2 = some p.2 := by
  unfold headerBytes at hb
  split at hb
  · split at hb
    next h1 h2 =>
      obtain rfl := Option.some.inj hb
      exact ⟨_,_,rfl,h1,h2⟩
    · simp at hb
  · simp at hb

theorem addedHeaders_cons {name value : Bytes} (hb : headerBytes h = some (name,value)) :
    addedHeaders (h :: hs) c b =
      (addOneHeader c b name value).elim b fun r => addedHeaders hs r.1 r.2 := by
  obtain ⟨obj1,obj2,rfl,h1,h2⟩ := exists_tuple hb
  cases hone : addOneHeader c b name value <;> simp [addedHeaders,h1,h2,hone]

theorem addAllHeaders_cons {name value : Bytes} (hb : headerBytes h = some (name,value)) :
    addAllHeaders (h :: hs) c b =
      (addOneHeader c b name value).elim (.error c) fun r => addAllHeaders hs r.1 r.2 := by
  obtain ⟨obj1,obj2,rfl,h1,h2⟩ := exists_tuple hb
  cases hone : addOneHeader c b name value <;> simp [addAllHeaders,h1,h2,hone]

theorem addedHeaders_none (hb : headerBytes h = none) : addedHeaders (h :: hs) c b = b := by
  unfold headerBytes at hb
  unfold addedHeaders
  split
  · split
    · simp_all
    · rfl
  · rfl

theorem emitted_append (hs hs' : List HeaderItem) : emitted (hs ++ hs') = emitted hs ++ emitted hs' := by
  simp [emitted]

/-- The loop, also when a header ends it. -/
theorem addedHeaders_count (hs : List HeaderItem) (c : Client) (b : WriteBucket) :
    (addedHeaders hs c b).iov.length =
      b.iov.length + 4 * (emitted (takenHeaders c.contentLengthSet hs)).length ∧
      (addedHeaders hs c b).iovSize = b.iovSize := by
  induction hs generalizing c b with
  | nil => exact ⟨rfl,rfl⟩
  | cons h hs ih =>
    cases hb : headerBytes h with
    | none =>
      rw [addedHeaders_none hb,takenHeaders,takesHeader,hb]
      exact ⟨rfl,rfl⟩
    | some p =>
      obtain ⟨name,value⟩ := p
      rw [addedHeaders_cons hb]
      cases hone : addOneHeader c b name value with
      | none =>
        have htakes : takesHeader c.contentLengthSet h = false := by
          rw [addOneHeader_eq hb] at hone
          simpa using hone
        rw [takenHeaders,htakes]
        exact ⟨rfl,rfl⟩
      | some r =>
        obtain ⟨htakes,hset,hlen,hsize⟩ := addOneHeader_count hb hone
        obtain ⟨ih1,ih2⟩ := ih r.1 r.2
        rw [takenHeaders,if_pos htakes,← hset,← List.singleton_append,emitted_append,
          List.length_append]
        simp only [Option.elim_some]
        exact ⟨by rw [ih1,hlen]; omega,ih2.trans hsize⟩

theorem addAllHeaders_taken {hs : List HeaderItem} {c c' : Client} {b b' : WriteBucket}
    (hall : addAllHeaders hs c b = .ok c' b') :
    takenHeaders c.contentLengthSet hs = hs ∧ addedHeaders hs c b = b' := by
  fun_induction addAllHeaders hs c b with
  | case1 c b =>
    simp only [HeadersResult.ok.injEq] at hall
    exact ⟨rfl,hall.2⟩
  | case2 obj1 obj2 hs c b name value h1 h2 r hone ih =>
    have hb : headerBytes (.tuple [obj1,obj2]) = some (name,value) := by simp [headerBytes,h1,h2]
    obtain ⟨htakes,hset,-,-⟩ := addOneHeader_count hb hone
    obtain ⟨htaken,hadded⟩ := ih hall
    rw [takenHeaders,if_pos htakes,← hset,htaken,addedHeaders_cons hb,hone]
    exact ⟨rfl,hadded⟩
  | _ => simp at hall

theorem addAllHeaders_of_taken {hs : List HeaderItem} {c : Client} (b : WriteBucket)
    (htaken : takenHeaders c.contentLengthSet hs = hs) :
    ∃ c' b', addAllHeaders hs c b = .ok c' b' := by
  induction hs generalizing c b with
  | nil => exact ⟨c,b,rfl⟩
  | cons h hs ih =>
    rw [takenHeaders] at htaken
    split at htaken
    swap
    · simp at htaken
    next htakes =>
      obtain ⟨⟨name,value⟩,hb⟩ : ∃ p, headerBytes h = some p := by
        cases hb : headerBytes h with
        | none => simp [takesHeader,hb] at htakes
        | some p => exact ⟨p,rfl⟩
      obtain ⟨r,hone⟩ : ∃ r, addOneHeader c b name value = some r :=
        ⟨_,(addOneHeader_eq hb c b).trans (if_pos htakes)⟩
      obtain ⟨-,hset,-,-⟩ := addOneHeader_count hb hone
      rw [addAllHeaders_cons hb,hone]
      exact ih r.2 (by rw [hset]; exact (List.cons.inj htaken).2)

theorem chunkedHeader_count (c : Client) (data : Option Bytes) (b : WriteBucket) :
    (chunkedHeader c data b).2.iov.length = b.iov.length + (if choosesChunked c data then 4 else 0) ∧
      (chunkedHeader c data b).2.iovSize = b.iovSize := by
  unfold chunkedHeader choosesChunked
  split <;> simp_all

theorem fileHeader_count (c : Client) (isFile : Option ℕ) (b : WriteBucket) :
    (fileHeader c isFile b).2.iov.length =
      b.iov.length + (if isFile.isSome ∧ !c.contentLengthSet then 4 else 0) ∧
      (fileHeader c isFile b).2.iovSize = b.iovSize := by
  unfold fileHeader
  cases isFile with
  | none => simp
  | some size => cases hset : c.contentLengthSet <;> simp [setFileContentLength]

theorem withLength_chunkedResponse (c : Client) (l : Option ℕ) :
    (c.withLength l).chunkedResponse = c.chunkedResponse := by rw [withLength_eq]

theorem finishedHead_count (c : Client) (b : WriteBucket) (data : Option Bytes)
    (isFile : Option (Option ℕ)) :
    (finishedHead c b data isFile).iov.length = b.iov.length + tailEntries c data isFile ∧
      (finishedHead c b data isFile).iovSize = b.iovSize := by
  obtain ⟨hlen,hsize⟩ := chunkedHeader_count c data b
  have hset : (chunkedHeader c data b).1.contentLengthSet = c.contentLengthSet := by
    rw [(chunkedHeader_spec c data b).2]
  have hchunked : (chunkedHeader c data b).1.chunkedResponse =
      (c.chunkedResponse || choosesChunked c data) := by
    rw [(chunkedHeader_spec c data b).2]
  unfold finishedHead tailEntries
  simp only [hset]
  split
  · exact ⟨by rw [hlen]; rfl,hsize⟩
  · obtain ⟨hflen,hfsize⟩ := fileHeader_count (chunkedHeader c data b).1 (isFile.map (·.getD 0))
      (chunkedHeader c data b).2
    have hfile : (fileHeader (chunkedHeader c data b).1 (isFile.map (·.getD 0))
        (chunkedHeader c data b).2).1.chunkedResponse = (c.chunkedResponse || choosesChunked c data) := by
      rw [(fileHeader_spec _ _ _).2,withLength_chunkedResponse,hchunked]
    obtain ⟨hblen,hbsize⟩ := setFirstBodyData_count
      (fileHeader (chunkedHeader c data b).1 (isFile.map (·.getD 0)) (chunkedHeader c data b).2).1
      (set2bucket (addResponseHeader
        (fileHeader (chunkedHeader c data b).1 (isFile.map (·.getD 0)) (chunkedHeader c data b).2).2
        (ascii "Connection") (connectionValue
          (fileHeader (chunkedHeader c data b).1 (isFile.map (·.getD 0)) (chunkedHeader c data b).2).1))
        CRLF) data
    rw [hfile] at hblen
    simp only [set2bucket_length,addResponseHeader_length,set2bucket_iovSize,
      addResponseHeader_iovSize,hflen,hfsize,hset,Option.isSome_map,hlen,hsize,Bool.or_eq_true] at hblen hbsize
    exact ⟨by rw [hblen]; omega,hbsize⟩

end Count

/-! ### The bounds -/

section Bounds
variable {g : Globals} {c : Client} {data : Option Bytes} {isFile : Option (Option ℕ)}

/-- How much is stored in the bucket of a head. -/
theorem headBucket_count {b : WriteBucket} {headers : List HeaderItem} (hh : c.headers = some headers)
    (hb : headBucket g c data isFile = some b) : c.headerDone = false ∧ headRoom headers < 2 ^ 31 ∧
      b.iov.length = headEntries c (listedHeaders headers) data isFile ∧ b.iovSize = headRoom headers := by
  unfold headBucket at hb
  simp only [hh] at hb
  split at hb
  · simp at hb
  next hgo =>
    rw [not_or,Bool.not_eq_true,not_le] at hgo
    obtain ⟨hslen,hssize⟩ := addStatusLine_count g c (newWriteBucket (headRoom headers))
    obtain ⟨halen,hasize⟩ := addedHeaders_count (listedHeaders headers) c
      (addStatusLine g c (newWriteBucket (headRoom headers)))
    rw [hslen,newWriteBucket_length,Nat.zero_add] at halen
    rw [hssize,newWriteBucket_iovSize] at hasize
    refine ⟨hgo.1,hgo.2,?_⟩
    split at hb
    next c' b' hall =>
      obtain rfl := Option.some.inj hb
      obtain ⟨htaken,rfl⟩ := addAllHeaders_taken hall
      obtain ⟨-,rfl⟩ := addAllHeaders_ok hall
      obtain ⟨hflen,hfsize⟩ := finishedHead_count (c.withLength (appLength (listedHeaders headers)))
        (addedHeaders (listedHeaders headers) c (addStatusLine g c (newWriteBucket (headRoom headers))))
        data isFile
      rw [hflen,hfsize,halen,hasize,headEntries,if_pos htaken]
      exact ⟨rfl,rfl⟩
    next hall =>
      obtain rfl := Option.some.inj hb
      have hrefused : takenHeaders c.contentLengthSet (listedHeaders headers) ≠ listedHeaders headers := by
        intro htaken
        obtain ⟨c',b',hok⟩ := addAllHeaders_of_taken
          (addStatusLine g c (newWriteBucket (headRoom headers))) htaken
        exact hall c' b' hok
      rw [halen,hasize,headEntries,if_neg hrefused]
      exact ⟨rfl,rfl⟩

theorem exists_headBucket {headers : List HeaderItem} (hh : c.headers = some headers)
    (hdone : c.headerDone = false) (hroom : headRoom headers < 2 ^ 31) :
    ∃ b, headBucket g c data isFile = some b := by
  unfold headBucket
  simp only [hh]
  rw [if_neg (by simpa [hdone] using hroom)]
  split <;> exact ⟨_,rfl⟩

theorem length_takenHeaders (set : Bool) (hs : List HeaderItem) :
    (emitted (takenHeaders set hs)).length ≤ hs.length := by
  have hemitted : ∀ hs : List HeaderItem, (emitted hs).length ≤ hs.length := fun hs =>
    (List.length_filter_le _ _).trans (List.length_filterMap_le _ _)
  refine (hemitted _).trans ?_
  induction hs generalizing set with
  | nil => exact le_rfl
  | cons h hs ih =>
    rw [takenHeaders]
    split
    · exact Nat.succ_le_succ (ih _)
    · exact Nat.zero_le _

theorem tailEntries_le (c : Client) (data : Option Bytes) (isFile : Option (Option ℕ)) :
    tailEntries c data isFile ≤ 17 := by
  simp only [tailEntries]
  split_ifs <;> omega

theorem headEntries_le (headers : List HeaderItem) :
    headEntries c (listedHeaders headers) data isFile ≤ headers.length % 2 ^ 32 * 4 + 42 := by
  have htaken := length_takenHeaders c.contentLengthSet (listedHeaders headers)
  have htail := tailEntries_le (c.withLength (appLength (listedHeaders headers))) data isFile
  have hlisted : (listedHeaders headers).length ≤ headers.length % 2 ^ 32 := by
    unfold listedHeaders
    simp only [List.length_take]
    split <;> omega
  unfold headEntries
  split <;> split <;> omega

theorem itemBucket_inBounds (c : Client) (buf : Bytes) : (itemBucket c buf).InBounds := by
  unfold WriteBucket.InBounds itemBucket
  split <;> simp

theorem setLastChunkedData_inBounds : (setLastChunkedData (newWriteBucket 3)).InBounds := by
  unfold WriteBucket.InBounds setLastChunkedData
  simp

/-- All stores of `set2bucket` stay inside their buckets exactly when the head has room. -/
theorem buckets_fit_iff (g : Globals) (c : Client) (data : Option Bytes)
    (isFile : Option (Option ℕ)) (buf : Bytes) :
    BucketsFit g c data isFile buf ↔ HeadHasRoom c data isFile := by
  constructor
  · intro h headers hh hdone
    by_cases hroom : headRoom headers < 2 ^ 31
    · obtain ⟨b,hb⟩ := exists_headBucket hh hdone hroom
      obtain ⟨-,-,hlen,hsize⟩ := headBucket_count hh hb
      have hin : b.iov.length ≤ b.iovSize := h.head b hb
      exact .inr (.inr (hlen ▸ hsize ▸ hin))
    · exact .inr (.inl (not_lt.mp hroom))
  · intro h
    refine ⟨fun b hb => ?_,itemBucket_inBounds c buf,setLastChunkedData_inBounds⟩
    cases hh : c.headers with
    | none => simp [headBucket,hh] at hb
    | some headers =>
      obtain ⟨hdone,hroom,hlen,hsize⟩ := headBucket_count hh hb
      have hin : headEntries c (listedHeaders headers) data isFile ≤ headRoom headers := by
        rcases h headers hh hdone with hsmall | hneg | hin
        · have hwrap : headRoom headers = headers.length % 2 ^ 32 * 4 + 42 := Nat.mod_eq_of_lt hsmall
          exact hwrap ▸ headEntries_le headers
        · omega
        · exact hin
      exact (hlen.trans_le hin).trans_eq hsize.symm

/-- For a list of headers that has not been cut short, the bucket is the one the model of
`write_headers` writes. -/
theorem headBucket_of_buildHead {headers : List HeaderItem} {c' : Client} {b : WriteBucket}
    {isFile : Option ℕ} (hh : c.headers = some headers) (hdone : c.headerDone = false)
    (hsmall : headers.length * 4 + 42 < 2 ^ 31) (h : buildHead g c headers data isFile = .ok c' b) :
    headBucket g c data (isFile.map some) = some (setFirstBodyData c' b data) := by
  have hlen : headers.length % 2 ^ 32 = headers.length := Nat.mod_eq_of_lt (by omega)
  have hroom : headRoom headers = headers.length * 4 + 42 := by
    rw [headRoom,hlen]
    exact Nat.mod_eq_of_lt (by omega)
  have hlisted : listedHeaders headers = headers := by
    unfold listedHeaders
    simp only [hlen]
    rw [if_pos (by omega),List.take_length]
  unfold headBucket
  simp only [hh]
  rw [if_neg (by rw [hdone,hroom]; simp; omega),hlisted,hroom]
  unfold buildHead at h
  cases hall : addAllHeaders headers c
      (addStatusLine g c (newWriteBucket (headers.length * 4 + 42))) with
  | error c1 => simp [hall] at h
  | crash => simp [hall] at h
  | ok c1 b1 =>
    simp only [hall,HeadersResult.ok.injEq] at h
    obtain ⟨rfl,rfl⟩ := h
    have hfile : isFile.map some ≠ some none := by cases isFile <;> simp
    have hmap : (isFile.map some).map (·.getD 0) = isFile := by cases isFile <;> rfl
    simp only [finishedHead,hfile,false_and,if_false,hmap]

/-! A list so long that the size wraps. -/

def shortHeader : HeaderItem := .tuple [.str [88],.str [121]]

theorem takenHeaders_replicate (n : ℕ) :
    takenHeaders false (List.replicate n shortHeader) = List.replicate n shortHeader := by
  have htakes : takesHeader false shortHeader = true := by decide
  have hset : setsLength shortHeader = false := by decide
  induction n with
  | zero => rfl
  | succ n ih => rw [List.replicate_succ,takenHeaders,if_pos htakes,hset,Bool.or_false,ih]

theorem length_emitted_replicate (n : ℕ) : (emitted (List.replicate n shortHeader)).length = n := by
  have hone : emitted [shortHeader] = [([88],[121])] := by decide
  induction n with
  | zero => rfl
  | succ n ih =>
    rw [List.replicate_succ,← List.singleton_append,emitted_append,hone,List.length_append,ih,
      List.length_singleton,Nat.add_comm]

/-- `2^30` headers get a bucket of 42 iovecs. -/
theorem buckets_not_fit : ¬BucketsFit {} { headers := some (List.replicate (2 ^ 30) shortHeader) }
    none none [] := by
  obtain ⟨n,hn⟩ : ∃ n : ℕ, n = 2 ^ 30 := ⟨_,rfl⟩
  rw [← hn]
  have hroom : headRoom (List.replicate n shortHeader) = 42 := by
    rw [headRoom,List.length_replicate]
    omega
  have hlisted : listedHeaders (List.replicate n shortHeader) = List.replicate n shortHeader := by
    unfold listedHeaders
    simp only [List.length_replicate]
    rw [if_pos (by omega)]
    exact List.take_of_length_le (by rw [List.length_replicate]; omega)
  intro h
  obtain ⟨b,hb⟩ := exists_headBucket (g := {})
    (c := { headers := some (List.replicate n shortHeader) }) rfl rfl (by rw [hroom]; decide)
  obtain ⟨-,-,hlen,hsize⟩ := headBucket_count rfl hb
  have hin : b.iov.length ≤ b.iovSize := h.head b hb
  rw [hlen,hsize,hroom,hlisted,headEntries,takenHeaders_replicate,length_emitted_replicate] at hin
  omega

end Bounds

end Meinheld
