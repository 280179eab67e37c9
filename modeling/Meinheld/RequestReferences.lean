import Meinheld.HeaderLimits
import Meinheld.RefCounts
import Meinheld.Transition

/-! What the callbacks do to the objects a request points to, with `free_request`. -/
namespace Meinheld

/-! ### `field` and `value` -/

/-- The allocations that can fail in a callback. `header` is one of those in `add_header`, `path` the
one of the entry `PATH_INFO` or of `QUERY_STRING`, and `environ` one after the last header. -/
inductive Alloc
  | header | key | tail | concat | bytes | buffer | protocol | path | environ
  deriving DecidableEq, Repr

/-- The objects `field` and `value` point to, those they have pointed to, and those the environ has
taken a reference to as a key. What the environ does with its own references is left out. -/
structure Slots where
  counts : RefCounts := {}
  field : Option ℕ := none
  value : Option ℕ := none
  keys : List ℕ := []
  held : List ℕ := []

namespace Slots

/-- `get_http_header_key`, or `concat_string` on `field`; the text the piece is decoded to is the
first object the latter makes. -/
def newKey (fails : Alloc → Bool) (s : Slots) : Option ℕ × Slots :=
  match s.field with
  | none =>
    if fails .key then (none,s) else (some s.counts.created,{ s with counts := s.counts.new })
  | some o =>
    if fails .tail then (none,s)
    else
      let tail := s.counts.created
      let counts := s.counts.new
      if fails .concat then (none,{ s with counts := (counts.decref o).decref tail })
      else (some counts.created,{ s with counts := (counts.new.decref o).decref tail })

/-- `PyBytes_FromStringAndSize`, or `concat_bytes` on `value`. -/
def newBytes (fails : Alloc → Bool) (s : Slots) : Option ℕ × Slots :=
  match s.value with
  | none =>
    if fails .bytes then (none,s) else (some s.counts.created,{ s with counts := s.counts.new })
  | some o =>
    if fails .bytes then (none,{ s with counts := s.counts.decref o })
    else (some s.counts.created,{ s with counts := s.counts.new.decref o })

/-- `req->field = obj`. -/
def setField (s : Slots) (obj : ℕ) : Slots := { s with field := some obj, held := s.held ++ [obj] }

/-- `req->value = obj`. -/
def setValue (s : Slots) (obj : ℕ) : Slots := { s with value := some obj, held := s.held ++ [obj] }

/-- `PyDict_SetDefault` with a new key. -/
def keepKey (s : Slots) : Slots :=
  match s.field with
  | some i => { s with counts := s.counts.incref i, keys := s.keys ++ [i] }
  | none => s

/-- The references are given up and the pointers cleared, at the end of `add_header` and in
`free_request`. -/
def release (s : Slots) : Slots :=
  { s with counts := (s.counts.xdecref s.field).xdecref s.value, field := none, value := none }

end Slots

/-! ### The callbacks -/

/-- A request with its references. `made` and `returned` count the calls of `new_buffer` and
`free_buffer` for its path, `misused` says that the path was given to `Py_XDECREF`, and `stopped`
that a callback has failed. -/
structure RequestRefs where
  req : Request
  slots : Slots := {}
  made : ℕ := 0
  returned : ℕ := 0
  misused : Bool := false
  stopped : Bool := false
  freed : Bool := false

namespace RequestRefs

/-- A callback's `req->bad_request_code = code; return -1`. -/
def bad (r : RequestRefs) (code : ℕ) : Bool × RequestRefs :=
  (false,{ r with req := { r.req with badRequestCode := code } })

def addHeader (fails : Alloc → Bool) (r : RequestRefs) : Option (Bool × RequestRefs) :=
  (Meinheld.addHeader r.req).map fun req =>
    if fails .header then
      (false,{ r with
        req := { r.req with field := none, value := none }
        slots := r.slots.release })
    else
      let isNew := (r.req.environ.get? (r.req.field.getD [])).isNone
      (true,{ r with
        req := req
        slots := (if isNew then r.slots.keepKey else r.slots).release })

/-- The second half of `header_field_cb`. -/
def storeField (fails : Alloc → Bool) (buf : Bytes) (r : RequestRefs) : Bool × RequestRefs :=
  if !checkFieldName buf then r.bad 400
  else
    let k := r.slots.newKey fails
    let r := { r with slots := k.2 }
    match k.1 with
    | none => r.bad 500
    | some obj =>
      let s := Meinheld.storeField r.req buf
      if s.1 then (true,{ r with req := s.2, slots := r.slots.setField obj })
      else (false,{ r with req := s.2 })

/-- `header_field_cb`. -/
def headerField (fails : Alloc → Bool) (buf : Bytes) (r : RequestRefs) : Option (Bool × RequestRefs) :=
  if r.req.lastHeaderElement ≠ .FIELD then
    if LIMIT_REQUEST_FIELDS ≤ r.req.numHeaders then some (r.bad 400)
    else (r.addHeader fails).map fun h => if h.1 then h.2.storeField fails buf else h
  else some (r.storeField fails buf)

/-- `header_value_cb`. -/
def headerValue (fails : Alloc → Bool) (buf : Bytes) (r : RequestRefs) : Option (Bool × RequestRefs) :=
  let v := r.slots.newBytes fails
  let r := { r with slots := v.2 }
  match v.1 with
  | none => some (r.bad 500)
  | some obj =>
    (headerValueCb buf r.req).map fun s =>
      if s.1 then (true,{ r with req := s.2, slots := r.slots.setValue obj })
      else (false,{ r with req := s.2 })

/-- `url_cb`; `write2buf` allocates when the bytes reach the size, and the buffer is empty after it
has failed to. -/
def url (fails : Alloc → Bool) (buf : Bytes) (r : RequestRefs) : Option (Bool × RequestRefs) :=
  let b := r.req.path.getD (newBuffer 1024 LIMIT_PATH)
  let r := { r with made := if r.req.path.isNone then r.made + 1 else r.made }
  if fails .buffer ∧ b.bufSize ≤ b.len + buf.length then
    some ({ r with req := { r.req with path := some { b with buf := [], bufSize := 0 } } }.bad 500)
  else (urlCb buf r.req).map fun s => (s.1,{ r with req := s.2 })

/-- What `headers_complete_cb` does after the path. -/
def finishHeaders (fails : Alloc → Bool) (p : HttpParser) (r : RequestRefs) : Bool × RequestRefs :=
  if fails .environ then (false,r)
  else (true,{ r with req := { r.req with
    environ := finishEnv p r.req.environ
    method := p.method
    bodyLength := headersContentLength p
    pyclient := true } })

/-- `headers_complete_cb`. -/
def headersComplete (g : Globals) (fails : Alloc → Bool) (p : HttpParser) (r : RequestRefs) :
    Bool × RequestRefs :=
  if g.maxContentLength < headersContentLength p then r.bad 413
  else if fails .protocol then (false,r)
  else
    let r := { r with returned := if r.req.path.isSome then r.returned + 1 else r.returned }
    -- the path still points to the buffer when its entry could not be made
    if fails .path then (false,r)
    else
      let r := { r with req := { r.req with environ := requestLineEnv g p r.req, path := none } }
      match r.addHeader fails with
      | some h => if h.1 then h.2.finishHeaders fails p else h
      | none => r.finishHeaders fails p

/-- `free_request`. -/
def free (r : RequestRefs) : RequestRefs :=
  { r with misused := r.req.path.isSome, slots := r.slots.release, freed := true }

end RequestRefs

/-- A call of a callback, with the allocations that fail in it, or of `free_request`. -/
inductive RequestEvent
  | field (buf : Bytes) (fails : Alloc → Bool)
  | value (buf : Bytes) (fails : Alloc → Bool)
  | url (buf : Bytes) (fails : Alloc → Bool)
  | headersComplete (g : Globals) (p : HttpParser) (fails : Alloc → Bool)
  | body (g : Globals) (p : HttpParser) (buf : Bytes)
  | messageComplete
  | free

/-- A callback; `none` is the death of the process. -/
def RequestRefs.call (r : RequestRefs) : RequestEvent → Option (Bool × RequestRefs)
  | .field buf fails => r.headerField fails buf
  | .value buf fails => r.headerValue fails buf
  | .url buf fails => r.url fails buf
  | .headersComplete g p fails => some (r.headersComplete g fails p)
  | .body g p buf => (bodyCb g p buf r.req).map fun s => (s.1,{ r with req := s.2 })
  | .messageComplete => some (true,r)
  | .free => some (true,r.free)

def RequestEvent.isFree : RequestEvent → Bool
  | .free => true
  | _ => false

/-- The parser makes no call after one that has failed; the request is freed at any time, and once. -/
def requestStep (r : RequestRefs) (e : RequestEvent) : Option RequestRefs :=
  if r.freed || (r.stopped && !e.isFree) then none
  else (r.call e).map fun c => { c.2 with stopped := !c.1 }

/-- A pointer is null or holds a reference beside those of the environ. -/
def Slots.Live (s : Slots) : Prop :=
  ∀ i, s.field = some i ∨ s.value = some i → s.counts.refs i = 1 + s.keys.count i

/-- Both pointers are live after each call. When the request has been freed, what they have pointed to
has no reference left but those of the environ, and each path buffer has been returned once, and
not taken for an object. -/
structure RequestRefs.Kept (r : RequestRefs) : Prop where
  live : r.slots.Live
  released : r.freed → ∀ i ∈ r.slots.held, r.slots.counts.refs i = r.slots.keys.count i
  path : r.freed → r.returned = r.made ∧ r.misused = false

/-- A piece that is joined to what a pointer holds is not refused after it has been joined, and the
path is gone when the request is freed. -/
def KeepsReferences (r : RequestRefs) : RequestEvent → Prop
  | .field buf fails => r.req.lastHeaderElement = .FIELD → r.req.field.isSome →
    fails .tail ∨ (¬fails .concat ∧ (nextField r.req.field buf).length ≤ LIMIT_REQUEST_FIELD_SIZE)
  | .value buf fails => r.req.value.isSome →
    ¬fails .bytes ∧ (r.req.value.getD [] ++ buf).length ≤ LIMIT_REQUEST_FIELD_SIZE
  | .free => r.req.path = none
  | _ => True

/-! ### The ledger -/

/-- Each object a pointer has held has its references, the pointers are two, and all is known. -/
structure Slots.Owned (s : Slots) : Prop where
  field_held : ∀ i, s.field = some i → i ∈ s.held
  value_held : ∀ i, s.value = some i → i ∈ s.held
  distinct : ∀ i, s.field = some i → s.value ≠ some i
  held_lt : ∀ i ∈ s.held, i < s.counts.created
  keys_lt : ∀ i ∈ s.keys, i < s.counts.created
  balanced : ∀ i ∈ s.held, s.counts.refs i =
    (if s.field = some i then 1 else 0) + (if s.value = some i then 1 else 0) + s.keys.count i

namespace Slots

section Ledger
variable {s : Slots} {fails : Alloc → Bool} {i o obj : ℕ}

theorem owned_start : Owned {} := by
  refine ⟨?_,?_,?_,?_,?_,?_⟩ <;> simp

theorem Owned.live (h : s.Owned) : s.Live := by
  intro i hi
  rcases hi with hf | hv
  · have hne := h.distinct i hf
    rw [h.balanced i (h.field_held i hf),if_pos hf,if_neg hne]
    omega
  · have hne : s.field ≠ some i := fun hf => h.distinct i hf hv
    rw [h.balanced i (h.value_held i hv),if_neg hne,if_pos hv]
    omega

/-- An object nobody points to is made. -/
theorem Owned.new (h : s.Owned) : Owned { s with counts := s.counts.new } := by
  refine ⟨h.field_held,h.value_held,h.distinct,fun i hi => (h.held_lt i hi).trans (Nat.lt_succ_self _),
    fun i hi => (h.keys_lt i hi).trans (Nat.lt_succ_self _),fun i hi => ?_⟩
  have hlt := h.held_lt i hi
  rw [← h.balanced i hi]
  exact (RefCounts.new_refs ..).trans (if_neg (by omega))

theorem refs_xdecref (r : RefCounts) (p : Option ℕ) (i : ℕ) :
    (r.xdecref p).refs i = r.refs i - if p = some i then 1 else 0 := by
  cases p with
  | none => simp
  | some o =>
    rw [RefCounts.xdecref_some,RefCounts.decref_refs]
    simp only [Option.some.injEq,eq_comm]

theorem Owned.release_refs (h : s.Owned) (hi : i ∈ s.held) :
    s.release.counts.refs i = s.keys.count i := by
  unfold release
  rw [refs_xdecref,refs_xdecref,h.balanced i hi]
  split_ifs <;> omega

theorem Owned.release (h : s.Owned) : s.release.Owned := by
  have hcreated : s.release.counts.created = s.counts.created := by
    simp [Slots.release]
  refine ⟨by simp [Slots.release],by simp [Slots.release],by simp [Slots.release],?_,?_,?_⟩
  · exact fun i hi => hcreated ▸ h.held_lt i hi
  · exact fun i hi => hcreated ▸ h.keys_lt i hi
  · intro i hi
    rw [h.release_refs hi]
    simp [Slots.release]

theorem Owned.keepKey (h : s.Owned) : s.keepKey.Owned := by
  unfold Slots.keepKey
  cases hf : s.field with
  | none => exact h
  | some o =>
    have ho : o < s.counts.created := h.held_lt o (h.field_held o hf)
    refine ⟨fun i hi => h.field_held i (hf.trans hi),h.value_held,
      fun i hi => h.distinct i (hf.trans hi),h.held_lt,?_,?_⟩
    · intro i hi
      rcases List.mem_append.mp hi with hi | hi
      · exact h.keys_lt i hi
      · exact List.mem_singleton.mp hi ▸ ho
    · intro i hi
      have hb := h.balanced i hi
      rw [hf] at hb
      simp only [RefCounts.incref_refs,List.count_append,List.count_singleton,beq_iff_eq,hb]
      by_cases hio : i = o
      · subst hio
        simp
        omega
      · simp [hio,Ne.symm hio]

/-- An object that is new takes the place of what `field` has given up. -/
theorem Owned.setField {c : RefCounts} (h : s.Owned) (hnew : s.counts.created ≤ obj)
    (hobj : obj < c.created) (hone : c.refs obj = 1)
    (hrefs : ∀ i ∈ s.held, c.refs i = s.counts.refs i - if s.field = some i then 1 else 0) :
    Owned (Slots.setField { s with counts := c } obj) := by
  have hfresh : ∀ i ∈ s.held, i ≠ obj := fun i hi => by
    have := h.held_lt i hi
    omega
  have hcount : s.keys.count obj = 0 := List.count_eq_zero.mpr fun hm => by
    have := h.keys_lt obj hm
    omega
  unfold Slots.setField
  refine ⟨?_,?_,?_,?_,?_,?_⟩
  · rintro i hi
    obtain rfl := Option.some.inj hi
    simp
  · exact fun i hi => List.mem_append_left _ (h.value_held i hi)
  · rintro i hi hv
    obtain rfl := Option.some.inj hi
    exact hfresh _ (h.value_held _ hv) rfl
  · intro i hi
    rcases List.mem_append.mp hi with hi | hi
    · have := h.held_lt i hi
      exact lt_of_lt_of_le this (hnew.trans hobj.le)
    · exact List.mem_singleton.mp hi ▸ hobj
  · exact fun i hi => lt_of_lt_of_le (h.keys_lt i hi) (hnew.trans hobj.le)
  · intro i hi
    rcases List.mem_append.mp hi with hi | hi
    · have hne : ¬some obj = some i := fun he => hfresh i hi (Option.some.inj he).symm
      simp only
      rw [hrefs i hi,h.balanced i hi,if_neg hne]
      split_ifs <;> omega
    · obtain rfl := List.mem_singleton.mp hi
      have hv : s.value ≠ some i := fun hv => hfresh i (h.value_held i hv) rfl
      simp only [hone,if_true,if_neg hv,hcount]
      rfl

/-- The two pointers are alike. -/
theorem Owned.swap (h : s.Owned) : Owned { s with field := s.value, value := s.field } := by
  refine ⟨h.value_held,h.field_held,fun i hv hf => h.distinct i hf hv,h.held_lt,h.keys_lt,fun i hi => ?_⟩
  simp only
  rw [h.balanced i hi]
  omega

theorem Owned.setValue {c : RefCounts} (h : s.Owned) (hnew : s.counts.created ≤ obj)
    (hobj : obj < c.created) (hone : c.refs obj = 1)
    (hrefs : ∀ i ∈ s.held, c.refs i = s.counts.refs i - if s.value = some i then 1 else 0) :
    Owned (Slots.setValue { s with counts := c } obj) :=
  (h.swap.setField hnew hobj hone hrefs).swap

/-- What `newKey` makes can be stored. -/
theorem Owned.newKey (h : s.Owned) (hk : (s.newKey fails).1 = some obj) :
    ((s.newKey fails).2.setField obj).Owned := by
  have hlt := h.held_lt
  unfold Slots.newKey at hk ⊢
  cases hf : s.field with
  | none =>
    rw [hf] at hk
    simp only at hk ⊢
    split at hk
    · simp at hk
    next hkey =>
      obtain rfl := Option.some.inj hk
      rw [if_neg hkey]
      refine h.setField le_rfl (Nat.lt_succ_self _) ((RefCounts.new_refs ..).trans (if_pos rfl)) fun i hi => ?_
      have := hlt i hi
      rw [hf,RefCounts.new_refs,if_neg (by omega),if_neg (by simp)]
      omega
  | some o =>
    rw [hf] at hk
    have ho := hlt o (h.field_held o hf)
    simp only at hk ⊢
    split_ifs at hk with htail hconcat
    obtain rfl := Option.some.inj hk
    rw [if_neg htail,if_neg hconcat]
    refine h.setField (Nat.le_succ _) (by simp) ?_ fun i hi => ?_
    · simp only [RefCounts.decref_refs,RefCounts.new_refs,RefCounts.new_created]
      have hne : ¬s.counts.created + 1 = o := by omega
      simp [hne]
    · have := hlt i hi
      simp only [RefCounts.decref_refs,RefCounts.new_refs,RefCounts.new_created,hf,Option.some.injEq]
      rw [if_neg (by omega),if_neg (by omega),if_neg (by omega : ¬i = s.counts.created)]
      simp only [eq_comm]
      omega

theorem Owned.newKey_keep (h : s.Owned) (hs : s.field = none ∨ fails .tail) :
    (s.newKey fails).2.Owned ∧ (s.newKey fails).2.field = s.field ∧ (s.newKey fails).2.value = s.value := by
  unfold Slots.newKey
  cases hf : s.field with
  | none =>
    simp only
    split
    · exact ⟨h,hf,rfl⟩
    · have hnew := h.new
      rw [hf] at hnew
      exact ⟨hnew,rfl,rfl⟩
  | some o =>
    have htail : fails .tail = true := hs.resolve_left (by simp [hf])
    simp only
    rw [if_pos htail]
    exact ⟨h,hf,rfl⟩

theorem Owned.newKey_not_live (h : s.Owned) (hf : s.field = some o) (htail : ¬fails .tail) :
    ¬(s.newKey fails).2.Live := by
  have ho := h.held_lt o (h.field_held o hf)
  have hrefs : s.counts.refs o = 1 + s.keys.count o := h.live o (.inl hf)
  intro hlive
  have hone := hlive o (.inl (by
    unfold Slots.newKey
    rw [hf]
    simp only
    split_ifs <;> rfl))
  unfold Slots.newKey at hone
  rw [hf] at hone
  simp only at hone
  rw [if_neg htail] at hone
  split_ifs at hone
  · simp only [RefCounts.decref_refs,RefCounts.new_refs,if_true] at hone
    rw [if_neg (by omega),if_neg (by omega)] at hone
    omega
  · simp only [RefCounts.decref_refs,RefCounts.new_refs,RefCounts.new_created,if_true] at hone
    rw [if_neg (by omega),if_neg (by omega),if_neg (by omega)] at hone
    omega

theorem Owned.newBytes (h : s.Owned) (hk : (s.newBytes fails).1 = some obj) :
    ((s.newBytes fails).2.setValue obj).Owned := by
  have hlt := h.held_lt
  unfold Slots.newBytes at hk ⊢
  cases hv : s.value with
  | none =>
    rw [hv] at hk
    simp only at hk ⊢
    split at hk
    · simp at hk
    next hbytes =>
      obtain rfl := Option.some.inj hk
      rw [if_neg hbytes]
      refine h.setValue le_rfl (Nat.lt_succ_self _) ((RefCounts.new_refs ..).trans (if_pos rfl)) fun i hi => ?_
      have := hlt i hi
      rw [hv,RefCounts.new_refs,if_neg (by omega),if_neg (by simp)]
      omega
  | some o =>
    rw [hv] at hk
    have ho := hlt o (h.value_held o hv)
    simp only at hk ⊢
    split at hk
    · simp at hk
    next hbytes =>
      obtain rfl := Option.some.inj hk
      rw [if_neg hbytes]
      refine h.setValue le_rfl (Nat.lt_succ_self _) ?_ fun i hi => ?_
      · rw [RefCounts.decref_refs,RefCounts.new_refs,if_pos rfl,if_neg (by omega)]
        rfl
      · have := hlt i hi
        rw [RefCounts.decref_refs,RefCounts.new_refs,if_neg (by omega),hv]
        simp only [Option.some.injEq,eq_comm]

theorem Owned.newBytes_keep (h : s.Owned) (hv : s.value = none) :
    (s.newBytes fails).2.Owned ∧ (s.newBytes fails).2.field = s.field ∧ (s.newBytes fails).2.value = none := by
  unfold Slots.newBytes
  rw [hv]
  simp only
  split
  · exact ⟨h,rfl,hv⟩
  · have hnew := h.new
    rw [hv] at hnew
    exact ⟨hnew,rfl,rfl⟩

theorem Owned.newBytes_not_live (h : s.Owned) (hv : s.value = some o) : ¬(s.newBytes fails).2.Live := by
  have ho := h.held_lt o (h.value_held o hv)
  have hrefs : s.counts.refs o = 1 + s.keys.count o := h.live o (.inr hv)
  intro hlive
  have hone := hlive o (.inr (by
    unfold Slots.newBytes
    rw [hv]
    simp only
    split_ifs <;> rfl))
  unfold Slots.newBytes at hone
  rw [hv] at hone
  simp only at hone
  split_ifs at hone
  · simp only [RefCounts.decref_refs,if_true] at hone
    omega
  · simp only [RefCounts.decref_refs,RefCounts.new_refs,if_true] at hone
    rw [if_neg (by omega)] at hone
    omega

theorem newKey_isSome (hf : s.field = some o) :
    (s.newKey fails).1.isSome ↔ ¬fails .tail ∧ ¬fails .concat := by
  unfold Slots.newKey
  rw [hf]
  simp only
  split_ifs with htail hconcat <;> simp_all

theorem newBytes_isSome : (s.newBytes fails).1.isSome ↔ ¬fails .bytes := by
  unfold Slots.newBytes
  cases s.value <;> simp only <;> split_ifs with h <;> simp [h]

end Ledger

end Slots

/-! ### The calls -/

namespace RequestRefs

/-- The pointers of the request and of the ledger agree. A path that is gone has been returned, and
one that is there has not, unless a call has failed. -/
structure Wf (r : RequestRefs) (ok : Bool) : Prop where
  owned : r.slots.Owned
  field : r.slots.field.isSome = r.req.field.isSome
  value : r.slots.value.isSome = r.req.value.isSome
  gone : r.req.path = none → r.returned = r.made
  kept : ok → r.req.path.isSome → r.returned + 1 = r.made

/-- A call leaves the references in order exactly under the condition `C`. -/
structure Decides (C : Prop) (r : RequestRefs) (h : Bool × RequestRefs) : Prop where
  freed : h.2.freed = r.freed
  keeps : C → h.2.Wf h.1
  loses : ¬C → ¬h.2.slots.Live

section Calls
variable {r : RequestRefs} {h : Bool × RequestRefs} {fails : Alloc → Bool} {buf : Bytes}

theorem Decides.of_wf {C : Prop} (hf : h.2.freed = r.freed) (hC : C) (hw : h.2.Wf h.1) :
    Decides C r h := ⟨hf,fun _ => hw,fun hn => absurd hC hn⟩

theorem Decides.of_not {C : Prop} (hf : h.2.freed = r.freed) (hC : ¬C) (hl : ¬h.2.slots.Live) :
    Decides C r h := ⟨hf,fun hn => absurd hn hC,fun _ => hl⟩

theorem addHeader_eq {req req' : Request} (hadd : Meinheld.addHeader req = some req') :
    req'.field = none ∧ req'.value = none ∧ req'.path = req.path := by
  unfold Meinheld.addHeader at hadd
  split at hadd
  · obtain rfl := Option.some.inj hadd
    exact ⟨rfl,rfl,rfl⟩
  · simp at hadd

/-- `add_header` clears both pointers, however it ends. -/
theorem Wf.addHeader (hr : r.Wf true) (hadd : r.addHeader fails = some h) :
    h.2.Wf true ∧ h.2.freed = r.freed ∧ h.2.req.field = none ∧ h.2.req.path = r.req.path := by
  obtain ⟨req,hreq,rfl⟩ := Option.map_eq_some_iff.mp hadd
  obtain ⟨hfield,hvalue,hpath⟩ := addHeader_eq hreq
  split
  · exact ⟨⟨hr.owned.release,rfl,rfl,hr.gone,hr.kept⟩,rfl,rfl,rfl⟩
  · have howned : (if (r.req.environ.get? (r.req.field.getD [])).isNone then r.slots.keepKey
        else r.slots).Owned := by
      split
      · exact hr.owned.keepKey
      · exact hr.owned
    refine ⟨⟨howned.release,?_,?_,?_,?_⟩,rfl,hfield,hpath⟩
    · simp only [hfield]
      rfl
    · simp only [hvalue]
      rfl
    · simp only [hpath]
      exact hr.gone
    · simp only [hpath]
      exact fun _ => hr.kept rfl

theorem Wf.of_same {r' : RequestRefs} {ok : Bool} (hr : r.Wf true) (ho : r'.slots.Owned)
    (hslots : r'.slots.field = r.slots.field ∧ r'.slots.value = r.slots.value)
    (hreq : r'.req.field = r.req.field ∧ r'.req.value = r.req.value ∧ r'.req.path = r.req.path)
    (hpath : r'.returned = r.returned ∧ r'.made = r.made) : r'.Wf ok := by
  refine ⟨ho,?_,?_,?_,?_⟩
  · rw [hslots.1,hreq.1]
    exact hr.field
  · rw [hslots.2,hreq.2.1]
    exact hr.value
  · rw [hreq.2.2,hpath.1,hpath.2]
    exact hr.gone
  · rw [hreq.2.2,hpath.1,hpath.2]
    exact fun _ => hr.kept rfl

theorem storeField_decides (hr : r.Wf true) : Decides (r.req.field.isSome →
    fails .tail ∨ (¬fails .concat ∧ (nextField r.req.field buf).length ≤ LIMIT_REQUEST_FIELD_SIZE))
    r (r.storeField fails buf) := by
  have hslot := hr.field
  unfold RequestRefs.storeField
  rw [checkFieldName_true,if_neg (by simp)]
  simp only
  by_cases hkeep : r.slots.field = none ∨ fails .tail
  · have hC : r.req.field.isSome → fails .tail ∨ (¬fails .concat ∧
        (nextField r.req.field buf).length ≤ LIMIT_REQUEST_FIELD_SIZE) := by
      intro hsome
      rcases hkeep with hnone | htail
      · rw [hnone,hsome] at hslot
        simp at hslot
      · exact .inl htail
    obtain ⟨howned,hsame⟩ := hr.owned.newKey_keep hkeep
    cases hk : (r.slots.newKey fails).1 with
    | none => exact .of_wf rfl hC (hr.of_same howned hsame ⟨rfl,rfl,rfl⟩ ⟨rfl,rfl⟩)
    | some obj =>
      simp only
      by_cases hle : (nextField r.req.field buf).length ≤ LIMIT_REQUEST_FIELD_SIZE
      · rw [storeField_ok hle]
        exact .of_wf rfl hC ⟨hr.owned.newKey hk,rfl,hsame.2 ▸ hr.value,hr.gone,hr.kept⟩
      · rw [storeField_over (not_le.mp hle)]
        exact .of_wf rfl hC (hr.of_same howned hsame ⟨rfl,rfl,rfl⟩ ⟨rfl,rfl⟩)
  · obtain ⟨hne,htail⟩ := not_or.mp hkeep
    obtain ⟨o,ho⟩ := Option.ne_none_iff_exists'.mp hne
    have hsome : r.req.field.isSome := by rw [← hslot,ho]; rfl
    have hlive := hr.owned.newKey_not_live ho htail
    have hisSome := @Slots.newKey_isSome _ fails _ ho
    cases hk : (r.slots.newKey fails).1 with
    | none =>
      refine .of_not rfl (fun hC => ?_) hlive
      have hconcat := ((hC hsome).resolve_left htail).1
      rw [hk] at hisSome
      exact absurd (hisSome.mpr ⟨htail,hconcat⟩) (by simp)
    | some obj =>
      have hconcat : ¬fails .concat := (hisSome.mp (by rw [hk]; rfl)).2
      simp only
      by_cases hle : (nextField r.req.field buf).length ≤ LIMIT_REQUEST_FIELD_SIZE
      · rw [storeField_ok hle]
        have hnext := hr.owned.newKey hk
        have hvalue : ((r.slots.newKey fails).2.setField obj).value = r.slots.value := by
          unfold Slots.newKey Slots.setField
          rw [ho]
          simp only
          rw [if_neg htail,if_neg hconcat]
        exact .of_wf rfl (fun _ => .inr ⟨hconcat,hle⟩) ⟨hnext,rfl,hvalue ▸ hr.value,hr.gone,hr.kept⟩
      · rw [storeField_over (not_le.mp hle)]
        exact .of_not rfl (fun hC => hle ((hC hsome).resolve_left htail).2) hlive

theorem headerField_decides (hr : r.Wf true) (hcall : r.headerField fails buf = some h) :
    Decides (KeepsReferences r (.field buf fails)) r h := by
  unfold headerField at hcall
  split at hcall
  next hlast =>
    have hC : KeepsReferences r (.field buf fails) := fun he => absurd he hlast
    split at hcall
    · obtain rfl := Option.some.inj hcall
      exact .of_wf rfl hC (hr.of_same hr.owned ⟨rfl,rfl⟩ ⟨rfl,rfl,rfl⟩ ⟨rfl,rfl⟩)
    · obtain ⟨h',hadd,rfl⟩ := Option.map_eq_some_iff.mp hcall
      obtain ⟨hw,hfreed,hfield,-⟩ := hr.addHeader hadd
      split
      · have hstore := @storeField_decides _ fails buf hw
        exact .of_wf (hstore.freed.trans hfreed) hC (hstore.keeps fun hsome => by simp [hfield] at hsome)
      next hno =>
        exact .of_wf hfreed hC ⟨hw.owned,hw.field,hw.value,hw.gone,fun _ => hw.kept rfl⟩
  next hlast =>
    obtain rfl := Option.some.inj hcall
    have hstore := @storeField_decides _ fails buf hr
    exact ⟨hstore.freed,fun hC => hstore.keeps (hC (not_not.mp hlast)),
      fun hC => hstore.loses fun hn => hC fun _ => hn⟩

theorem headerValue_decides (hr : r.Wf true) (hcall : r.headerValue fails buf = some h) :
    Decides (KeepsReferences r (.value buf fails)) r h := by
  have hslot := hr.value
  have hisSome := @Slots.newBytes_isSome r.slots fails
  unfold headerValue at hcall
  simp only at hcall
  cases hv : r.slots.value with
  | none =>
    have hnone : r.req.value.isSome = false := by rw [← hslot,hv]; rfl
    have hC : KeepsReferences r (.value buf fails) := fun hsome => by simp [hnone] at hsome
    obtain ⟨howned,hfield,hvalue⟩ := @Slots.Owned.newBytes_keep _ fails hr.owned hv
    cases hk : (r.slots.newBytes fails).1 with
    | none =>
      rw [hk] at hcall
      obtain rfl := Option.some.inj hcall
      exact .of_wf rfl hC (hr.of_same howned ⟨hfield,hvalue.trans hv.symm⟩ ⟨rfl,rfl,rfl⟩ ⟨rfl,rfl⟩)
    | some obj =>
      rw [hk] at hcall
      obtain ⟨s,hs,rfl⟩ := Option.map_eq_some_iff.mp hcall
      simp only [headerValueCb] at hs
      split at hs
      · obtain rfl := Option.some.inj hs
        exact .of_wf rfl hC (hr.of_same howned ⟨hfield,hvalue.trans hv.symm⟩ ⟨rfl,rfl,rfl⟩ ⟨rfl,rfl⟩)
      · obtain rfl := Option.some.inj hs
        exact .of_wf rfl hC ⟨hr.owned.newBytes hk,hfield ▸ hr.field,rfl,hr.gone,hr.kept⟩
  | some o =>
    have hsome : r.req.value.isSome := by rw [← hslot,hv]; rfl
    have hlive := @Slots.Owned.newBytes_not_live _ fails _ hr.owned hv
    cases hk : (r.slots.newBytes fails).1 with
    | none =>
      rw [hk] at hcall hisSome
      obtain rfl := Option.some.inj hcall
      exact .of_not rfl (fun hC => absurd (hisSome.mpr (hC hsome).1) (by simp)) hlive
    | some obj =>
      rw [hk] at hcall hisSome
      obtain ⟨s,hs,rfl⟩ := Option.map_eq_some_iff.mp hcall
      simp only [headerValueCb] at hs
      split at hs
      next hover =>
        obtain rfl := Option.some.inj hs
        exact .of_not rfl (fun hC => absurd (hC hsome).2 (not_le.mpr hover)) hlive
      next hle =>
        obtain rfl := Option.some.inj hs
        have hfield : ((r.slots.newBytes fails).2.setValue obj).field = r.slots.field := by
          unfold Slots.newBytes Slots.setValue
          rw [hv]
          simp only
          split_ifs <;> rfl
        exact .of_wf rfl (fun _ => ⟨hisSome.mp rfl,not_lt.mp hle⟩)
          ⟨hr.owned.newBytes hk,hfield ▸ hr.field,rfl,hr.gone,hr.kept⟩

theorem url_wf (hr : r.Wf true) (hcall : r.url fails buf = some h) :
    h.2.Wf h.1 ∧ h.2.freed = r.freed := by
  have hmade : r.returned + 1 = if r.req.path.isNone then r.made + 1 else r.made := by
    cases hp : r.req.path with
    | none => rw [hr.gone hp]; rfl
    | some b => exact hr.kept rfl (by rw [hp]; rfl)
  unfold RequestRefs.url at hcall
  simp only at hcall
  split at hcall
  · obtain rfl := Option.some.inj hcall
    exact ⟨⟨hr.owned,hr.field,hr.value,fun hn => by simp [bad] at hn,fun _ _ => hmade⟩,rfl⟩
  · obtain ⟨s,hs,rfl⟩ := Option.map_eq_some_iff.mp hcall
    simp only [urlCb] at hs
    split at hs <;> obtain rfl := Option.some.inj hs <;>
      exact ⟨⟨hr.owned,hr.field,hr.value,fun hn => by simp [Request.bad] at hn,fun _ _ => hmade⟩,rfl⟩

theorem finishHeaders_wf (hr : r.Wf true) (p : HttpParser) :
    (r.finishHeaders fails p).2.Wf true ∧ (r.finishHeaders fails p).2.freed = r.freed := by
  unfold finishHeaders
  split
  · exact ⟨hr,rfl⟩
  · exact ⟨hr.of_same hr.owned ⟨rfl,rfl⟩ ⟨rfl,rfl,rfl⟩ ⟨rfl,rfl⟩,rfl⟩

theorem Wf.anyway {ok : Bool} (hr : r.Wf true) : r.Wf ok :=
  hr.of_same hr.owned ⟨rfl,rfl⟩ ⟨rfl,rfl,rfl⟩ ⟨rfl,rfl⟩

/-- The path is returned before its pointer is cleared. -/
theorem headersComplete_wf (hr : r.Wf true) (g : Globals) (p : HttpParser) :
    (r.headersComplete g fails p).2.Wf (r.headersComplete g fails p).1 ∧
      (r.headersComplete g fails p).2.freed = r.freed := by
  unfold RequestRefs.headersComplete
  split
  · exact ⟨hr.of_same hr.owned ⟨rfl,rfl⟩ ⟨rfl,rfl,rfl⟩ ⟨rfl,rfl⟩,rfl⟩
  · split
    · exact ⟨hr.anyway,rfl⟩
    · simp only
      split
      · refine ⟨⟨hr.owned,hr.field,hr.value,fun hn => ?_,fun hf => by simp at hf⟩,rfl⟩
        simp only at hn
        simp only [hn]
        exact hr.gone hn
      · have hreturned : (if r.req.path.isSome then r.returned + 1 else r.returned) = r.made := by
          cases hp : r.req.path with
          | none => exact hr.gone hp
          | some b => exact hr.kept rfl (by rw [hp]; rfl)
        have hw : Wf { r with
            returned := if r.req.path.isSome then r.returned + 1 else r.returned
            req := { r.req with environ := requestLineEnv g p r.req, path := none } } true :=
          ⟨hr.owned,hr.field,hr.value,fun _ => hreturned,fun _ hn => by simp at hn⟩
        split
        next h hadd =>
          obtain ⟨hnext,hfreed,-,-⟩ := hw.addHeader hadd
          split
          · have hfinish := @finishHeaders_wf _ fails hnext p
            exact ⟨hfinish.1.anyway,hfinish.2.trans hfreed⟩
          · exact ⟨hnext.anyway,hfreed⟩
        · have hfinish := @finishHeaders_wf _ fails hw p
          exact ⟨hfinish.1.anyway,hfinish.2⟩

theorem body_wf {g : Globals} {p : HttpParser} {b : Bool × Request} (hr : r.Wf true)
    (hcall : bodyCb g p buf r.req = some b) : Wf { r with req := b.2 } b.1 := by
  have hw : ∀ req req' : Request, writeBody req buf = some req' → req'.field = req.field ∧
      req'.value = req.value ∧ req'.path = req.path := by
    intro req req' hwrite
    unfold writeBody at hwrite
    split at hwrite <;> first
      | (obtain rfl := Option.some.inj hwrite; exact ⟨rfl,rfl,rfl⟩)
      | simp at hwrite
  have hsame : b.2.field = r.req.field ∧ b.2.value = r.req.value ∧ b.2.path = r.req.path := by
    unfold bodyCb at hcall
    split_ifs at hcall
    · obtain rfl := Option.some.inj hcall
      exact ⟨rfl,rfl,rfl⟩
    · obtain rfl := Option.some.inj hcall
      exact ⟨rfl,rfl,rfl⟩
    · obtain ⟨req',hb,rfl⟩ := Option.map_eq_some_iff.mp hcall
      exact hw { r.req with body := newBody g r.req } req' hb
    · obtain ⟨req',hb,rfl⟩ := Option.map_eq_some_iff.mp hcall
      exact hw r.req req' hb
  exact hr.of_same hr.owned ⟨rfl,rfl⟩ hsame ⟨rfl,rfl⟩

theorem call_decides {e : RequestEvent} (he : e.isFree = false) (hr : r.Wf true)
    (hcall : r.call e = some h) : Decides (KeepsReferences r e) r h := by
  cases e with
  | field buf fails => exact headerField_decides hr hcall
  | value buf fails => exact headerValue_decides hr hcall
  | url buf fails =>
    obtain ⟨hw,hfreed⟩ := url_wf hr hcall
    exact .of_wf hfreed trivial hw
  | headersComplete g p fails =>
    obtain rfl := Option.some.inj hcall
    obtain ⟨hw,hfreed⟩ := @headersComplete_wf _ fails hr g p
    exact .of_wf hfreed trivial hw
  | body g p buf =>
    obtain ⟨b,hb,rfl⟩ := Option.map_eq_some_iff.mp hcall
    exact .of_wf rfl trivial (body_wf hr hb)
  | messageComplete =>
    obtain rfl := Option.some.inj hcall
    exact .of_wf rfl trivial hr
  | free => simp [RequestEvent.isFree] at he

/-- While a request is in use its references are in order. -/
def Held (r : RequestRefs) : Prop := r.freed = false → r.Wf !r.stopped

theorem free_kept_iff {ok : Bool} (hr : r.Wf ok) : r.free.Kept ↔ r.req.path = none := by
  constructor
  · intro h
    have hmisused := (h.path rfl).2
    simpa [free] using hmisused
  · intro hpath
    refine ⟨hr.owned.release.live,fun _ i hi => hr.owned.release_refs hi,fun _ => ⟨hr.gone hpath,?_⟩⟩
    simp [free,hpath]

end Calls

theorem requestStep_eq {r r' : RequestRefs} {e : RequestEvent} (h : requestStep r e = some r') :
    r.freed = false ∧ (e.isFree = false → r.stopped = false) ∧
      ∃ c, r.call e = some c ∧ r' = { c.2 with stopped := !c.1 } := by
  unfold requestStep at h
  split at h
  · simp at h
  next hno =>
    simp only [Bool.or_eq_true,Bool.and_eq_true,not_or,not_and,Bool.not_eq_true] at hno
    obtain ⟨c,hc,rfl⟩ := Option.map_eq_some_iff.mp h
    refine ⟨hno.1,fun he => ?_,c,hc,rfl⟩
    by_contra hs
    have := hno.2 (by simpa using hs)
    simp [he] at this

/-- One step. -/
theorem requestStep_kept_iff {r r' : RequestRefs} {e : RequestEvent} (hr : r.Held)
    (h : requestStep r e = some r') :
    (r'.Kept ↔ KeepsReferences r e) ∧ (KeepsReferences r e → r'.Held) := by
  obtain ⟨hfreed,hstopped,c,hc,rfl⟩ := requestStep_eq h
  have hw := hr hfreed
  cases he : e.isFree with
  | true =>
    cases e with
    | free =>
      obtain rfl := Option.some.inj hc
      refine ⟨?_,fun _ hf => by simp [free] at hf⟩
      have hiff := free_kept_iff hw
      exact ⟨fun hk => hiff.mp ⟨hk.live,hk.released,hk.path⟩,
        fun hp => ⟨(hiff.mpr hp).live,(hiff.mpr hp).released,(hiff.mpr hp).path⟩⟩
    | _ => simp [RequestEvent.isFree] at he
  | false =>
    rw [hstopped he] at hw
    have hd := call_decides he hw hc
    have hnot : c.2.freed = false := hd.freed.trans hfreed
    have hheld : KeepsReferences r e → Held { c.2 with stopped := !c.1 } := by
      intro hC _
      have hnext := hd.keeps hC
      rw [← Bool.not_not c.1] at hnext
      exact ⟨hnext.owned,hnext.field,hnext.value,hnext.gone,hnext.kept⟩
    refine ⟨⟨fun hk => ?_,fun hC => ?_⟩,hheld⟩
    · by_contra hC
      exact hd.loses hC hk.live
    · exact ⟨(hd.keeps hC).owned.live,fun hf => by simp [hnot] at hf,fun hf => by simp [hnot] at hf⟩

end RequestRefs

/-- What `message_begin_cb` makes. -/
def newRequestRefs (g : Globals) (c : Client) : RequestRefs := { req := { environ := newEnviron g c } }

theorem newRequestRefs_wf (g : Globals) (c : Client) : (newRequestRefs g c).Wf true :=
  ⟨Slots.owned_start,rfl,rfl,fun _ => rfl,fun _ hp => by simp [newRequestRefs] at hp⟩

/-- A request's references are in order throughout its callbacks and after `free_request` exactly when
no callback fails after it has joined a piece to what a pointer holds, and the path is gone when
the request is freed. -/
theorem request_released_iff (g : Globals) (c : Client) (es : List RequestEvent) :
    Transition.Always requestStep RequestRefs.Kept (newRequestRefs g c) es ↔
      Transition.Meets requestStep KeepsReferences (newRequestRefs g c) es :=
  Transition.always_iff_meets_of
    (fun _ _ _ hr hC h => (RequestRefs.requestStep_kept_iff hr h).2 hC)
    (fun _ _ _ hr h => (RequestRefs.requestStep_kept_iff hr h).1)
    (fun _ => newRequestRefs_wf g c)
    ⟨Slots.owned_start.live,fun hf => by simp [newRequestRefs] at hf,
      fun hf => by simp [newRequestRefs] at hf⟩ es

theorem RequestRefs.headerValue_isSome (r : RequestRefs) (fails : Alloc → Bool) (buf : Bytes) :
    (r.headerValue fails buf).isSome := by
  unfold headerValue headerValueCb
  simp only
  cases (r.slots.newBytes fails).1 with
  | none => rfl
  | some obj =>
    simp only
    split_ifs <;> rfl

/-- A connection that is closed after the URL has come loses the path buffer, and a value over its
limit that comes in two pieces leaves its pointer to what has been released. -/
theorem request_not_released :
    ¬Transition.Always requestStep RequestRefs.Kept (newRequestRefs {} {})
      [.url (ascii "/") fun _ => false,.free] ∧
    ¬Transition.Always requestStep RequestRefs.Kept (newRequestRefs {} {})
      [.field (ascii "A") fun _ => false,.value (ascii "b") fun _ => false,
        .value (List.replicate LIMIT_REQUEST_FIELD_SIZE 0) fun _ => false] := by
  constructor
  · intro h
    have hkept := (h.2 _ rfl).2 _ rfl
    have hpath := (hkept.path rfl).1
    revert hpath
    decide
  · intro h
    have hstart : (newRequestRefs {} {}).Held := fun _ => newRequestRefs_wf {} {}
    obtain ⟨r1,h1⟩ : ∃ r1, requestStep (newRequestRefs {} {}) (.field (ascii "A") fun _ => false) = some r1 :=
      ⟨_,rfl⟩
    have hheld1 := (RequestRefs.requestStep_kept_iff hstart h1).2 fun _ hf => by simp [newRequestRefs] at hf
    have hvalue1 : r1.req.value = none := by
      obtain rfl := Option.some.inj h1
      rfl
    obtain ⟨r2,h2,hvalue2,hopen⟩ : ∃ r2, requestStep r1 (.value (ascii "b") fun _ => false) = some r2 ∧
        r2.req.value = some (ascii "b") ∧ r2.freed = false ∧ r2.stopped = false := by
      obtain rfl := Option.some.inj h1
      exact ⟨_,rfl,rfl,rfl,rfl⟩
    have hheld2 := (RequestRefs.requestStep_kept_iff hheld1 h2).2 fun hv => by simp [hvalue1] at hv
    obtain ⟨c,hc⟩ := Option.isSome_iff_exists.mp
      (r2.headerValue_isSome (fun _ => false) (List.replicate LIMIT_REQUEST_FIELD_SIZE 0))
    have h3 : requestStep r2 (.value (List.replicate LIMIT_REQUEST_FIELD_SIZE 0) fun _ => false) =
        some { c.2 with stopped := !c.1 } := by
      unfold requestStep RequestRefs.call
      simp only [hopen,hc]
      rfl
    have hkept := ((h.2 r1 h1).2 r2 h2).2 _ h3
    have hfits := ((RequestRefs.requestStep_kept_iff hheld2 h3).1.mp hkept (by rw [hvalue2]; rfl)).2
    rw [hvalue2,List.length_append,List.length_replicate] at hfits
    exact absurd hfits (by decide)

/-! ### Without failures of the allocator these are the callbacks on requests -/

namespace RequestRefs

/-- What a callback does to the request itself. -/
def data (h : Bool × RequestRefs) : Bool × Request := (h.1,h.2.req)

variable (r : RequestRefs) (buf : Bytes)

theorem newKey_of_no_failure (s : Slots) : ∃ obj, (s.newKey fun _ => false).1 = some obj := by
  unfold Slots.newKey
  cases s.field with
  | none => exact ⟨_,rfl⟩
  | some o => exact ⟨_,rfl⟩

theorem newBytes_of_no_failure (s : Slots) : ∃ obj, (s.newBytes fun _ => false).1 = some obj := by
  unfold Slots.newBytes
  cases s.value with
  | none => exact ⟨_,rfl⟩
  | some o => exact ⟨_,rfl⟩

theorem storeField_data : data (r.storeField (fun _ => false) buf) = Meinheld.storeField r.req buf := by
  obtain ⟨obj,hk⟩ := newKey_of_no_failure r.slots
  unfold RequestRefs.storeField data
  rw [checkFieldName_true,if_neg (by simp)]
  simp only [hk]
  cases hs : (Meinheld.storeField r.req buf).1 with
  | true => exact Prod.ext hs.symm rfl
  | false => exact Prod.ext hs.symm rfl

theorem addHeader_data : (r.addHeader fun _ => false).map data =
    (Meinheld.addHeader r.req).map (true,·) := by
  unfold addHeader
  rw [Option.map_map]
  rfl

theorem headerField_data : (r.headerField (fun _ => false) buf).map data = headerFieldCb buf r.req := by
  unfold headerField headerFieldCb
  split
  · split
    · rfl
    · unfold addHeader
      cases Meinheld.addHeader r.req with
      | none => rfl
      | some req =>
        simp only [Option.map_some,Bool.false_eq_true,if_false,if_true]
        exact congrArg some (storeField_data _ buf)
  · exact congrArg some (storeField_data r buf)

theorem headerValue_data : (r.headerValue (fun _ => false) buf).map data = headerValueCb buf r.req := by
  obtain ⟨obj,hk⟩ := newBytes_of_no_failure r.slots
  unfold headerValue
  simp only [hk]
  cases hs : headerValueCb buf r.req with
  | none => rfl
  | some s =>
    obtain ⟨ok,req⟩ := s
    cases ok <;> rfl

theorem url_data : (r.url (fun _ => false) buf).map data = urlCb buf r.req := by
  unfold RequestRefs.url
  simp only
  rw [if_neg (by simp)]
  cases urlCb buf r.req with
  | none => rfl
  | some s => rfl

theorem headersComplete_data (g : Globals) (p : HttpParser) :
    data (r.headersComplete g (fun _ => false) p) = Meinheld.headersComplete g p r.req := by
  unfold RequestRefs.headersComplete Meinheld.headersComplete lastHeader
  split
  · rfl
  · simp only
    rw [if_neg (by simp),if_neg (by simp)]
    unfold addHeader
    simp only
    cases Meinheld.addHeader { r.req with environ := requestLineEnv g p r.req, path := none } with
    | none => rfl
    | some req => rfl

end RequestRefs

end Meinheld
