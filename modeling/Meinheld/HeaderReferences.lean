import Meinheld.RefCounts
import Meinheld.WriteBuckets

/-! The bytes objects that `add_all_headers` creates, and their references. -/
namespace Meinheld

/-! ### The loop with its references -/

/-- The references to the bytes objects, `bucket->temp1`, and the two pointers of the loop, which
keep what the last header left in them. -/
structure HeaderRefs where
  counts : RefCounts := {}
  temp1 : List ℕ := []
  bytes1 : Option ℕ := none
  bytes2 : Option ℕ := none

namespace HeaderRefs

/-- `bytes1 = wsgi_to_bytes(obj1)`, when that gives an object. -/
def newBytes1 (r : HeaderRefs) : HeaderRefs :=
  { r with counts := r.counts.new, bytes1 := some r.counts.created }

/-- `bytes2 = wsgi_to_bytes(obj2)`, when that gives an object. -/
def newBytes2 (r : HeaderRefs) : HeaderRefs :=
  { r with counts := r.counts.new, bytes2 := some r.counts.created }

/-- `PyList_Append(bucket->temp1, ..)`. -/
def append (r : HeaderRefs) (p : Option ℕ) : HeaderRefs :=
  match p with
  | some i => { r with counts := r.counts.incref i, temp1 := r.temp1 ++ [i] }
  | none => r

/-- `Py_XDECREF(bytes1)` and `Py_XDECREF(bytes2)`. -/
def release (r : HeaderRefs) : HeaderRefs :=
  { r with counts := (r.counts.xdecref r.bytes1).xdecref r.bytes2 }

end HeaderRefs

/-- `add_all_headers` with its references. -/
def addAllHeadersRefs : List HeaderItem → Client → WriteBucket → HeaderRefs → HeadersResult × HeaderRefs
  | [], c, b, r => (.ok c b,r)
  | .tuple [obj1,obj2] :: hs, c, b, r =>
    match wsgiToBytes obj1 with
    | none => (.crash,r)
    | some name =>
      let r := r.newBytes1
      match wsgiToBytes obj2 with
      | none => (.crash,r)
      | some value =>
        let r := r.newBytes2
        match addOneHeader c b name value with
        | none => (.error c,r.release)
        | some s =>
          -- `Server` and `Date` `continue` before anything is given up
          if !isEmitted (name,value) then addAllHeadersRefs hs s.1 s.2 r
          else addAllHeadersRefs hs s.1 s.2 ((r.append r.bytes1).append r.bytes2).release
  | _ :: _, c, _, r => (.error c,r.release)

/-- No operation meets a missing object, each bytes object is left with one reference for each time
it is in `temp1`, and so none is left of it when the bucket is freed. -/
structure ReferencesKept (r : HeadersResult × HeaderRefs) : Prop where
  present : r.1 ≠ .crash
  balanced : r.2.counts.Balanced r.2.temp1
  freed : ∀ i < r.2.counts.created, (r.2.temp1.foldl RefCounts.decref r.2.counts).refs i = 0

/-! ### When they are kept -/

/-- A tuple of two. -/
def isPair : HeaderItem → Bool
  | .tuple [_,_] => true
  | _ => false

/-- A header that is written. -/
def isKept (h : HeaderItem) : Bool := (headerBytes h).any isEmitted

/-- The header that ends the loop of `add_all_headers`, if one does. -/
def stopsAt (set : Bool) (hs : List HeaderItem) : Option HeaderItem :=
  (hs.drop (takenHeaders set hs).length).head?

/-- The loop is not ended by a pair that is not of latin-1 strings; a `Server` or `Date` comes
before its end only as the last header before one that is no pair, and such a one is the first
or comes after a `Server` or `Date`. -/
def EachReleased (set : Bool) (hs : List HeaderItem) : Prop :=
  let taken := takenHeaders set hs
  (∀ h ∈ stopsAt set hs, isPair h → (headerBytes h).isSome) ∧
    if (stopsAt set hs).any (!isPair ·) then
      taken = [] ∨ (∀ t ∈ taken.dropLast, isKept t) ∧ ∀ t ∈ taken.getLast?, ¬isKept t
    else ∀ t ∈ taken, isKept t

/-! ### What a header leaves -/

namespace HeaderRefs

section Steps
variable {r : HeaderRefs} {i : ℕ}

/-- What an object has too many. -/
def excess (r : HeaderRefs) (i : ℕ) : ℤ := r.counts.excess r.temp1 i

/-- The two objects of one header. -/
def newPair (r : HeaderRefs) : HeaderRefs := r.newBytes1.newBytes2

/-- What a header that is taken leaves. -/
def afterHeader (r : HeaderRefs) (h : HeaderItem) : HeaderRefs :=
  if isKept h then ((r.newPair.append r.newPair.bytes1).append r.newPair.bytes2).release else r.newPair

theorem newPair_created (r : HeaderRefs) : r.newPair.counts.created = r.counts.created + 2 := rfl

theorem newPair_bytes (r : HeaderRefs) : r.newPair.bytes1 = some r.counts.created ∧
    r.newPair.bytes2 = some (r.counts.created + 1) := ⟨rfl,rfl⟩

theorem excess_newPair (h : ∀ j ∈ r.temp1, j < r.counts.created) (hi : i < r.counts.created + 2) :
    r.newPair.excess i = if i < r.counts.created then r.excess i else 1 := by
  have h' : ∀ j ∈ r.temp1, j < r.counts.new.created := fun j hj => (h j hj).trans (Nat.lt_succ_self _)
  change RefCounts.excess (RefCounts.new (RefCounts.new r.counts)) r.temp1 i = _
  rw [RefCounts.excess_new h',RefCounts.excess_new h,RefCounts.new_created]
  unfold excess
  split_ifs <;> first | rfl | omega

theorem excess_release {p q : ℕ} (hp : r.bytes1 = some p) (hq : r.bytes2 = some q) :
    r.release.excess i = r.excess i - (if i = p then 1 else 0) - if i = q then 1 else 0 := by
  unfold release excess
  simp only [hp,hq,RefCounts.xdecref_some,RefCounts.excess_decref]

theorem excess_append (p : Option ℕ) : (r.append p).excess i = r.excess i := by
  cases p with
  | none => rfl
  | some j => exact RefCounts.excess_hold

@[simp] theorem append_created (r : HeaderRefs) (p : Option ℕ) :
    (r.append p).counts.created = r.counts.created := by
  cases p <;> rfl

@[simp] theorem append_bytes1 (r : HeaderRefs) (p : Option ℕ) : (r.append p).bytes1 = r.bytes1 := by
  cases p <;> rfl

@[simp] theorem append_bytes2 (r : HeaderRefs) (p : Option ℕ) : (r.append p).bytes2 = r.bytes2 := by
  cases p <;> rfl

@[simp] theorem release_created (r : HeaderRefs) : r.release.counts.created = r.counts.created := by
  simp [release]

theorem afterHeader_created (r : HeaderRefs) (h : HeaderItem) :
    (r.afterHeader h).counts.created = r.counts.created + 2 := by
  unfold afterHeader
  split
  · simp [newPair_created]
  · rfl

theorem afterHeader_bytes (r : HeaderRefs) (h : HeaderItem) :
    (r.afterHeader h).bytes1 = some r.counts.created ∧
      (r.afterHeader h).bytes2 = some (r.counts.created + 1) := by
  unfold afterHeader
  split
  · simp [release,newPair_bytes]
  · exact r.newPair_bytes

theorem mem_afterHeader {h : HeaderItem} {j : ℕ} (ht : ∀ j ∈ r.temp1, j < r.counts.created)
    (hj : j ∈ (r.afterHeader h).temp1) : j < r.counts.created + 2 := by
  have htemp : r.newPair.temp1 = r.temp1 := rfl
  unfold afterHeader at hj
  split at hj
  · simp only [release,append,newPair_bytes,htemp,List.append_assoc,List.mem_append,
      List.mem_singleton] at hj
    rcases hj with hj | rfl | rfl
    · have := ht j hj
      omega
    · omega
    · omega
  · have := ht j hj
    omega

theorem excess_afterHeader {h : HeaderItem} (ht : ∀ j ∈ r.temp1, j < r.counts.created)
    (hi : i < r.counts.created + 2) : (r.afterHeader h).excess i =
      if i < r.counts.created then r.excess i else if isKept h then 0 else 1 := by
  unfold afterHeader
  split
  · rw [excess_release (p := r.counts.created) (q := r.counts.created + 1) (by simp [newPair_bytes])
      (by simp [newPair_bytes]),excess_append,excess_append,excess_newPair ht hi]
    split_ifs <;> omega
  · rw [excess_newPair ht hi]

theorem excess_refused (ht : ∀ j ∈ r.temp1, j < r.counts.created) (hi : i < r.counts.created + 2) :
    r.newPair.release.excess i = if i < r.counts.created then r.excess i else 0 := by
  rw [excess_release r.newPair_bytes.1 r.newPair_bytes.2,excess_newPair ht hi]
  split_ifs <;> omega

end Steps

/-! ### Runs -/

/-- The state of the loop after the headers `taken`: two objects for each, in order. -/
structure Follows (taken : List HeaderItem) (r : HeaderRefs) : Prop where
  created : r.counts.created = 2 * taken.length
  temp1 : ∀ j ∈ r.temp1, j < r.counts.created
  excess : ∀ i < r.counts.created, r.excess i = if (taken[i / 2]?).any isKept then 0 else 1
  bytes : if taken = [] then r.bytes1 = none ∧ r.bytes2 = none
    else r.bytes1 = some (2 * taken.length - 2) ∧ r.bytes2 = some (2 * taken.length - 1)

theorem follows_start : Follows [] {} :=
  ⟨rfl,by simp,fun _ hi => absurd hi (Nat.not_lt_zero _),by simp⟩

theorem Follows.snoc {taken : List HeaderItem} {r : HeaderRefs} (hf : Follows taken r)
    (h : HeaderItem) : Follows (taken ++ [h]) (r.afterHeader h) := by
  have hlen : (taken ++ [h]).length = taken.length + 1 := by simp
  have hcreated := hf.created
  refine ⟨?_,fun j hj => ?_,fun i hi => ?_,?_⟩
  · rw [afterHeader_created,hlen]
    omega
  · rw [afterHeader_created]
    exact mem_afterHeader hf.temp1 hj
  · rw [afterHeader_created] at hi
    rw [excess_afterHeader hf.temp1 hi]
    by_cases hold : i < r.counts.created
    · rw [if_pos hold,hf.excess i hold,List.getElem?_append_left (by omega)]
    · have hhalf : i / 2 = taken.length := by omega
      rw [if_neg hold,hhalf,List.getElem?_concat_length,Option.any_some]
  · obtain ⟨h1,h2⟩ := r.afterHeader_bytes h
    rw [if_neg (by simp),h1,h2,hlen,hcreated]
    exact ⟨congrArg some (by omega),congrArg some (by omega)⟩

theorem follows_foldl (taken : List HeaderItem) : Follows taken (taken.foldl afterHeader {}) := by
  induction taken using List.reverseRecOn with
  | nil => exact follows_start
  | append_singleton taken h ih =>
    rw [List.foldl_concat]
    exact ih.snoc h

/-- How the loop ends, after the headers it has taken; `none` is a crash. -/
def stop (r : HeaderRefs) : Option HeaderItem → Option HeaderRefs
  | none => some r
  | some h =>
    if !isPair h then some r.release
    else if (headerBytes h).isSome then some r.newPair.release
    else none

end HeaderRefs

theorem addAllHeadersRefs_cons {h : HeaderItem} {hs : List HeaderItem} {c : Client} {b : WriteBucket}
    {r : HeaderRefs} {name value : Bytes} (hb : headerBytes h = some (name,value)) :
    addAllHeadersRefs (h :: hs) c b r =
      (addOneHeader c b name value).elim (.error c,r.newPair.release) fun s =>
        addAllHeadersRefs hs s.1 s.2 (r.afterHeader h) := by
  have hkept : isKept h = isEmitted (name,value) := by rw [isKept,hb,Option.any_some]
  obtain ⟨obj1,obj2,rfl,h1,h2⟩ := exists_tuple hb
  unfold HeaderRefs.afterHeader
  rw [hkept]
  cases hone : addOneHeader c b name value with
  | none =>
    simp only [addAllHeadersRefs,h1,h2,hone]
    rfl
  | some s =>
    simp only [addAllHeadersRefs,h1,h2,hone]
    cases isEmitted (name,value) <;> rfl

theorem addAllHeadersRefs_none {h : HeaderItem} {hs : List HeaderItem} {c : Client} {b : WriteBucket}
    {r : HeaderRefs} (hb : headerBytes h = none) :
    if isPair h then (addAllHeadersRefs (h :: hs) c b r).1 = .crash
    else addAllHeadersRefs (h :: hs) c b r = (.error c,r.release) := by
  cases h with
  | other => rfl
  | tuple xs =>
    rcases xs with _ | ⟨obj1,_ | ⟨obj2,_ | ⟨obj3,xs⟩⟩⟩
    · rfl
    · rfl
    · rw [isPair,if_pos rfl]
      cases h1 : wsgiToBytes obj1 with
      | none => simp [addAllHeadersRefs,h1]
      | some name =>
        cases h2 : wsgiToBytes obj2 with
        | none => simp [addAllHeadersRefs,h1,h2]
        | some value => simp [headerBytes,h1,h2] at hb
    · rfl

/-- What the loop leaves is what its taken headers and its end leave. -/
theorem addAllHeadersRefs_stop (hs : List HeaderItem) (c : Client) (b : WriteBucket) (r : HeaderRefs) :
    (((takenHeaders c.contentLengthSet hs).foldl HeaderRefs.afterHeader r).stop
        (stopsAt c.contentLengthSet hs) = none ∧ (addAllHeadersRefs hs c b r).1 = .crash) ∨
    (((takenHeaders c.contentLengthSet hs).foldl HeaderRefs.afterHeader r).stop
        (stopsAt c.contentLengthSet hs) = some (addAllHeadersRefs hs c b r).2 ∧
      (addAllHeadersRefs hs c b r).1 ≠ .crash) := by
  induction hs generalizing c b r with
  | nil => exact .inr ⟨rfl,by simp [addAllHeadersRefs]⟩
  | cons h hs ih =>
    cases hb : headerBytes h with
    | none =>
      have htaken : takenHeaders c.contentLengthSet (h :: hs) = [] := by
        rw [takenHeaders,takesHeader,hb]
        rfl
      have hnone := @addAllHeadersRefs_none h hs c b r hb
      rw [stopsAt,htaken]
      simp only [List.foldl_nil,List.length_nil,List.drop_zero,List.head?_cons,HeaderRefs.stop,hb]
      cases hp : isPair h with
      | true =>
        rw [if_pos hp] at hnone
        exact .inl ⟨by simp,hnone⟩
      | false =>
        rw [if_neg (by simp [hp])] at hnone
        rw [hnone]
        exact .inr ⟨by simp,by simp⟩
    | some p =>
      obtain ⟨name,value⟩ := p
      rw [addAllHeadersRefs_cons hb]
      cases hone : addOneHeader c b name value with
      | none =>
        have htakes : takesHeader c.contentLengthSet h = false := by
          rw [addOneHeader_eq hb] at hone
          simpa using hone
        have htaken : takenHeaders c.contentLengthSet (h :: hs) = [] := by
          rw [takenHeaders,htakes]
          rfl
        have hpair : isPair h = true := by
          obtain ⟨obj1,obj2,rfl,-,-⟩ := exists_tuple hb
          rfl
        rw [stopsAt,htaken]
        exact .inr ⟨by simp [HeaderRefs.stop,hpair,hb],by simp⟩
      | some s =>
        obtain ⟨htakes,hset,-,-⟩ := addOneHeader_count hb hone
        have htaken : takenHeaders c.contentLengthSet (h :: hs) =
            h :: takenHeaders s.1.contentLengthSet hs := by
          rw [takenHeaders,if_pos htakes,hset]
        have hstops : stopsAt c.contentLengthSet (h :: hs) = stopsAt s.1.contentLengthSet hs := by
          rw [stopsAt,htaken,List.length_cons,List.drop_succ_cons,stopsAt]
        rw [htaken,hstops,List.foldl_cons]
        exact ih s.1 s.2 (r.afterHeader h)

/-! ### The condition -/

namespace HeaderRefs

section Ends
variable {taken : List HeaderItem} {r : HeaderRefs}

theorem Follows.excess_eq (hf : Follows taken r) {i : ℕ} (hi : i < taken.length) (j : ℕ) (hj : j < 2) :
    r.excess (2 * i + j) = if isKept taken[i] then 0 else 1 := by
  have hcreated := hf.created
  have hhalf : (2 * i + j) / 2 = i := by omega
  rw [hf.excess _ (by omega),hhalf,List.getElem?_eq_getElem hi,Option.any_some]

theorem Follows.balanced_iff (hf : Follows taken r) :
    (∀ i < r.counts.created, r.excess i = 0) ↔ ∀ t ∈ taken, isKept t := by
  constructor
  · intro h t ht
    obtain ⟨i,hi,rfl⟩ := List.mem_iff_getElem.mp ht
    have hzero := h (2 * i + 0) (by rw [hf.created]; omega)
    rw [hf.excess_eq hi 0 (by decide)] at hzero
    by_contra hk
    rw [if_neg hk] at hzero
    exact one_ne_zero hzero
  · intro h i hi
    have hlt : i / 2 < taken.length := by
      rw [hf.created] at hi
      omega
    rw [hf.excess i hi,List.getElem?_eq_getElem hlt,Option.any_some,if_pos (h _ (List.getElem_mem hlt))]

theorem Follows.balanced_refused (hf : Follows taken r) :
    (∀ i < r.newPair.release.counts.created, r.newPair.release.excess i = 0) ↔
      ∀ t ∈ taken, isKept t := by
  rw [← hf.balanced_iff,release_created,newPair_created]
  constructor
  · intro h i hi
    have hzero := h i (by omega)
    rwa [excess_refused hf.temp1 (by omega),if_pos hi] at hzero
  · intro h i hi
    rw [excess_refused hf.temp1 hi]
    split
    next hlt => exact h i hlt
    · rfl

/-- After an item that is no pair the objects of the last header have been given up once more. -/
theorem Follows.balanced_release (hf : Follows taken r) :
    (∀ i < r.release.counts.created, r.release.excess i = 0) ↔
      taken = [] ∨ (∀ t ∈ taken.dropLast, isKept t) ∧ ∀ t ∈ taken.getLast?, ¬isKept t := by
  rw [release_created]
  induction taken using List.reverseRecOn with
  | nil =>
    have hcreated : r.counts.created = 0 := hf.created
    exact iff_of_true (fun i hi => by omega) (.inl rfl)
  | append_singleton init last =>
    have hlen : (init ++ [last]).length = init.length + 1 := by simp
    have hcreated := hf.created
    have hbytes := hf.bytes
    rw [if_neg (by simp),hlen] at hbytes
    have hrel : ∀ i, r.release.excess i = r.excess i - (if i = 2 * init.length then 1 else 0) -
        if i = 2 * init.length + 1 then 1 else 0 := fun i =>
      excess_release (hbytes.1.trans (congrArg some (by omega)))
        (hbytes.2.trans (congrArg some (by omega)))
    have hinit : ∀ (i : ℕ) (hi : i < init.length), ∀ j < 2,
        r.release.excess (2 * i + j) = if isKept init[i] then 0 else 1 := by
      intro i hi j hj
      rw [hrel,hf.excess_eq (by omega) j hj,List.getElem_append_left hi]
      split_ifs <;> omega
    have hlast : ∀ j < 2, r.release.excess (2 * init.length + j) = if isKept last then -1 else 0 := by
      intro j hj
      rw [hrel,hf.excess_eq (by omega) j hj,List.getElem_concat_length rfl]
      split_ifs <;> omega
    simp only [List.append_eq_nil_iff,List.cons_ne_self,and_false,false_or,List.dropLast_concat,
      List.getLast?_concat,Option.mem_some_iff,forall_eq']
    constructor
    · intro h
      constructor
      · intro t ht
        obtain ⟨i,hi,rfl⟩ := List.mem_iff_getElem.mp ht
        have hzero := h (2 * i + 0) (by omega)
        rw [hinit i hi 0 (by decide)] at hzero
        by_contra hk
        rw [if_neg hk] at hzero
        exact one_ne_zero hzero
      · intro hk
        have hzero := h (2 * init.length + 0) (by omega)
        rw [hlast 0 (by decide),if_pos hk] at hzero
        exact absurd hzero (by decide)
    · rintro ⟨hkept,hdropped⟩ i hi
      have hhalf : i = 2 * (i / 2) + i % 2 := by omega
      rw [hhalf]
      rcases Nat.lt_or_ge (i / 2) init.length with hlt | hge
      · rw [hinit _ hlt _ (by omega),if_pos (hkept _ (List.getElem_mem hlt))]
      · have heq : i / 2 = init.length := by omega
        rw [heq,hlast _ (by omega),if_neg hdropped]

end Ends

end HeaderRefs

/-- The references are kept exactly when each header's objects are given up or kept before the next
takes their place. -/
theorem references_kept_iff (headers : List HeaderItem) (c : Client) (b : WriteBucket) :
    ReferencesKept (addAllHeadersRefs (listedHeaders headers) c b {}) ↔
      EachReleased c.contentLengthSet (listedHeaders headers) := by
  have hkept : ∀ {res : HeadersResult × HeaderRefs} {r : HeaderRefs}, res.1 ≠ .crash → r = res.2 →
      (ReferencesKept res ↔ ∀ i < r.counts.created, r.excess i = 0) := by
    rintro res r hres rfl
    constructor
    · exact fun h => h.balanced
    · exact fun h => ⟨hres,h,fun i hi => (RefCounts.foldl_decref_refs _ _ i).trans (h i hi)⟩
  have hf := HeaderRefs.follows_foldl (takenHeaders c.contentLengthSet (listedHeaders headers))
  unfold EachReleased
  simp only
  rcases addAllHeadersRefs_stop (listedHeaders headers) c b {} with ⟨hstop,hcrash⟩ | ⟨hstop,hres⟩
  · refine iff_of_false (fun h => h.present hcrash) fun h => ?_
    cases hs : stopsAt c.contentLengthSet (listedHeaders headers) with
    | none => simp [hs,HeaderRefs.stop] at hstop
    | some x =>
      rw [hs,HeaderRefs.stop] at hstop
      cases hpair : isPair x with
      | false => simp [hpair] at hstop
      | true =>
        have hsome := h.1 x (by rw [hs]; rfl) hpair
        simp [hpair,hsome] at hstop
  · cases hs : stopsAt c.contentLengthSet (listedHeaders headers) with
    | none =>
      rw [hs,HeaderRefs.stop] at hstop
      rw [hkept hres (Option.some.inj hstop),hf.balanced_iff]
      simp
    | some x =>
      rw [hs,HeaderRefs.stop] at hstop
      cases hpair : isPair x with
      | false =>
        rw [hpair,if_pos (by rfl)] at hstop
        rw [hkept hres (Option.some.inj hstop),hf.balanced_release]
        simp [hpair]
      | true =>
        rw [hpair,if_neg (by simp)] at hstop
        cases hsome : (headerBytes x).isSome with
        | false => simp [hsome] at hstop
        | true =>
          rw [hsome,if_pos rfl] at hstop
          rw [hkept hres (Option.some.inj hstop),hf.balanced_refused]
          simp [hpair,hsome]

theorem addAllHeaders_none {h : HeaderItem} {hs : List HeaderItem} {c : Client} {b : WriteBucket}
    (hb : headerBytes h = none) :
    addAllHeaders (h :: hs) c b = if isPair h then .crash else .error c := by
  cases h with
  | other => rfl
  | tuple xs =>
    rcases xs with _ | ⟨obj1,_ | ⟨obj2,_ | ⟨obj3,xs⟩⟩⟩
    · rfl
    · rfl
    · cases h1 : wsgiToBytes obj1 with
      | none => simp [addAllHeaders,h1,isPair]
      | some name =>
        cases h2 : wsgiToBytes obj2 with
        | none => simp [addAllHeaders,h1,h2,isPair]
        | some value => simp [headerBytes,h1,h2] at hb
    · rfl

/-- The loop with its references is the one of `write_headers`. -/
theorem addAllHeadersRefs_fst (hs : List HeaderItem) (c : Client) (b : WriteBucket) (r : HeaderRefs) :
    (addAllHeadersRefs hs c b r).1 = addAllHeaders hs c b := by
  induction hs generalizing c b r with
  | nil => rfl
  | cons h hs ih =>
    cases hb : headerBytes h with
    | none =>
      have hrefs := @addAllHeadersRefs_none h hs c b r hb
      rw [addAllHeaders_none hb]
      cases hp : isPair h with
      | true =>
        rw [if_pos hp] at hrefs
        rw [hrefs]
        rfl
      | false =>
        rw [if_neg (by simp [hp])] at hrefs
        rw [hrefs]
        rfl
    | some p =>
      obtain ⟨name,value⟩ := p
      rw [addAllHeadersRefs_cons hb,addAllHeaders_cons hb]
      cases addOneHeader c b name value with
      | none => rfl
      | some s => exact ih s.1 s.2 _

/-- A `Server` leaves its two objects without a holder; a number as a value is a missing object;
what is no pair takes the objects of the header before it from `temp1`. -/
theorem references_not_kept :
    ¬ReferencesKept (addAllHeadersRefs (listedHeaders [.tuple [.str [83,101,114,118,101,114],.str [120]]])
      {} (newWriteBucket 46) {}) ∧
    ¬ReferencesKept (addAllHeadersRefs (listedHeaders [.tuple [.str [88],.other]]) {}
      (newWriteBucket 46) {}) ∧
    ¬ReferencesKept (addAllHeadersRefs (listedHeaders [.tuple [.str [88],.str [121]],.other]) {}
      (newWriteBucket 50) {}) := by
  refine ⟨fun h => ?_,fun h => h.present (by decide),fun h => ?_⟩
  · exact absurd (h.balanced 0 (by decide)) (by decide)
  · exact absurd (h.balanced 0 (by decide)) (by decide)

end Meinheld
