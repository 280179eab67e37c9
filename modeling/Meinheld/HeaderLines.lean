import Meinheld.PathInfo

/-! The header lines of a request, as `header_field_cb` and `header_value_cb` put them together from
pieces. -/
namespace Meinheld

/-- A call of `header_field_cb` or of `header_value_cb`. -/
inductive HeaderCall
  | field (buf : Bytes)
  | value (buf : Bytes)
  deriving DecidableEq, Repr

def HeaderCall.apply : HeaderCall → Request → Option (Bool × Request)
  | .field buf => headerFieldCb buf
  | .value buf => headerValueCb buf

/-- Calls one after the other, up to the first that fails. -/
def headerCalls : List HeaderCall → Request → Option (Bool × Request)
  | [], req => some (true,req)
  | a :: as, req =>
    match a.apply req with
    | some (true,req) => headerCalls as req
    | r => r

theorem headerCalls_append {as bs : List HeaderCall} {req req' : Request}
    (h : headerCalls as req = some (true,req')) : headerCalls (as ++ bs) req = headerCalls bs req' := by
  induction as generalizing req with
  | nil =>
    cases h
    rfl
  | cons a as ih =>
    simp only [headerCalls,List.cons_append] at h ⊢
    cases ha : a.apply req with
    | none => simp [ha] at h
    | some r =>
      obtain ⟨ok,r⟩ := r
      cases ok with
      | true => exact ih (by simpa [ha] using h)
      | false => simp [ha] at h

/-- The pieces of a header line: the name in one piece or more, and the value. -/
structure CutLine where
  first : Bytes
  more : List Bytes := []
  value : List Bytes
  deriving DecidableEq, Repr

def CutLine.nameBytes (l : CutLine) : Bytes := l.first ++ l.more.flatten

def CutLine.valueBytes (l : CutLine) : Bytes := l.value.flatten

/-- The calls a line causes. -/
def CutLine.calls (l : CutLine) : List HeaderCall :=
  .field l.first :: l.more.map .field ++ l.value.map .value

/-- The key and the value of a line. -/
def CutLine.entry (l : CutLine) : Bytes × Bytes := (getHttpHeaderKey l.nameBytes,l.valueBytes)

/-! ### The pieces of one line -/

theorem getHttpHeaderKey_append (s t : Bytes) :
    getHttpHeaderKey (s ++ t) = getHttpHeaderKey s ++ t.map keyUpper := by
  simp [getHttpHeaderKey]

theorem checkFieldName_true (s : Bytes) : checkFieldName s = true := by
  have hall : ∀ c : Byte, signed c ≤ 127 := by decide +kernel
  simpa [checkFieldName] using fun c _ => hall c

/-- A piece of a name is stored up to the limit. -/
theorem storeField_ok {req : Request} {buf : Bytes}
    (h : (nextField req.field buf).length ≤ LIMIT_REQUEST_FIELD_SIZE) : storeField req buf =
      (true,{ req with field := some (nextField req.field buf), lastHeaderElement := .FIELD }) := by
  unfold storeField
  rw [checkFieldName_true,if_neg (by simp),if_neg (not_lt.mpr h)]

/-- Within a name, a piece is added to it. -/
theorem headerFieldCb_more {req : Request} (he : req.lastHeaderElement = .FIELD) (buf : Bytes) :
    headerFieldCb buf req = some (storeField req buf) := by
  unfold headerFieldCb
  rw [if_neg (by simp [he])]

theorem fieldCalls_ok {req : Request} {key : Bytes} {more : List Bytes}
    (he : req.lastHeaderElement = .FIELD) (hf : req.field = some key)
    (hlen : key.length + more.flatten.length ≤ LIMIT_REQUEST_FIELD_SIZE) :
    headerCalls (more.map .field) req =
      some (true,{ req with field := some (key ++ more.flatten.map keyUpper) }) := by
  induction more generalizing req key with
  | nil =>
    rw [show ([] : List Bytes).flatten.map keyUpper = [] from rfl,List.append_nil,← hf]
    rfl
  | cons s more ih =>
    rw [List.flatten_cons,List.length_append] at hlen
    have hnext : nextField req.field s = key ++ s.map keyUpper := by rw [hf]; rfl
    have hlen' : (key ++ s.map keyUpper).length = key.length + s.length := by simp
    have hstore := storeField_ok (by rw [hnext]; omega)
    rw [List.map_cons,headerCalls]
    simp only [HeaderCall.apply,headerFieldCb_more he,hstore]
    rw [ih rfl (congrArg some hnext) (by omega)]
    simp [he]

theorem valueCalls_ok {req : Request} {value : List Bytes} (hv : value ≠ [])
    (hlen : (req.value.getD []).length + value.flatten.length ≤ LIMIT_REQUEST_FIELD_SIZE) :
    headerCalls (value.map .value) req = some (true,{ req with
      value := some (req.value.getD [] ++ value.flatten), lastHeaderElement := .VALUE }) := by
  induction value generalizing req with
  | nil => exact absurd rfl hv
  | cons s value ih =>
    rw [List.flatten_cons,List.length_append] at hlen
    have hstore : headerValueCb s req = some (true,{ req with
        value := some (req.value.getD [] ++ s), lastHeaderElement := .VALUE }) := by
      unfold headerValueCb
      simp only [List.length_append]
      rw [if_neg (by omega)]
    rw [List.map_cons,headerCalls]
    simp only [HeaderCall.apply,hstore]
    by_cases hnil : value = []
    · subst hnil
      simp [headerCalls]
    · rw [ih hnil (by simp only [Option.getD_some,List.length_append]; omega)]
      simp

theorem lineCalls_ok {req : Request} {l : CutLine} (he : req.lastHeaderElement = .FIELD)
    (hf : req.field = none) (hval : req.value = none) (hv : l.value ≠ [])
    (hname : l.entry.1.length ≤ LIMIT_REQUEST_FIELD_SIZE)
    (hvalue : l.entry.2.length ≤ LIMIT_REQUEST_FIELD_SIZE) :
    headerCalls l.calls req = some (true,{ req with
      field := some l.entry.1, value := some l.entry.2, lastHeaderElement := .VALUE }) := by
  have hentry : l.entry.1 = getHttpHeaderKey l.first ++ l.more.flatten.map keyUpper :=
    getHttpHeaderKey_append _ _
  have hkey : (getHttpHeaderKey l.first).length + l.more.flatten.length ≤ LIMIT_REQUEST_FIELD_SIZE := by
    rw [hentry,List.length_append,List.length_map] at hname
    exact hname
  have hnext : nextField req.field l.first = getHttpHeaderKey l.first := by rw [hf]; rfl
  have hstore := storeField_ok (by rw [hnext]; omega)
  rw [CutLine.calls,List.cons_append,headerCalls]
  simp only [HeaderCall.apply,headerFieldCb_more he,hstore]
  rw [headerCalls_append (fieldCalls_ok rfl (congrArg some hnext) hkey),
    valueCalls_ok hv (by rw [hval]; exact (Nat.zero_add _).symm ▸ hvalue),hval]
  exact congrArg some (Prod.ext rfl (by rw [hentry]; rfl))

/-! ### The lines one after the other -/

/-- The merge of a list of entries. -/
def mergeHeaders (env : Environ) (entries : List (Bytes × Bytes)) : Environ :=
  entries.foldl (fun env e => mergeHeader env e.1 (cstr e.2)) env

/-- A request before its header lines. -/
structure Request.Bare (req : Request) : Prop where
  lastHeaderElement : req.lastHeaderElement = .FIELD
  field : req.field = none
  value : req.value = none
  numHeaders : req.numHeaders = 0

def Request.added (req : Request) (entries : List (Bytes × Bytes)) : Request :=
  { req with
    environ := mergeHeaders req.environ entries
    numHeaders := req.numHeaders + entries.length }

/-- A request with one more line, which waits to be added. -/
def Request.after (req : Request) (entries : List (Bytes × Bytes)) (last : Bytes × Bytes) : Request :=
  { req.added entries with
    field := some last.1
    value := some last.2
    lastHeaderElement := .VALUE }

theorem added_concat (req : Request) (entries : List (Bytes × Bytes)) (last : Bytes × Bytes) :
    req.added (entries ++ [last]) = { req with
      environ := mergeHeader (mergeHeaders req.environ entries) last.1 (cstr last.2)
      numHeaders := req.numHeaders + entries.length + 1 } := by
  simp [Request.added,mergeHeaders,List.foldl_append,add_assoc]

theorem addHeader_after {req : Request} (hreq : req.Bare) (entries : List (Bytes × Bytes))
    (last : Bytes × Bytes) : addHeader (req.after entries last) =
      some { req.added (entries ++ [last]) with lastHeaderElement := .VALUE } := by
  rw [added_concat]
  simp [addHeader,Request.after,Request.added,hreq.field,hreq.value]

theorem headerFieldCb_after {req : Request} (hreq : req.Bare) {entries : List (Bytes × Bytes)}
    {last : Bytes × Bytes} {buf : Bytes} (hnum : entries.length < LIMIT_REQUEST_FIELDS)
    (hkey : (getHttpHeaderKey buf).length ≤ LIMIT_REQUEST_FIELD_SIZE) :
    headerFieldCb buf (req.after entries last) =
      headerFieldCb buf (req.added (entries ++ [last])) := by
  have hnext : (nextField req.field buf).length ≤ LIMIT_REQUEST_FIELD_SIZE := by
    rw [hreq.field]
    exact hkey
  have hcount : ¬LIMIT_REQUEST_FIELDS ≤ (req.after entries last).numHeaders := by
    rw [show (req.after entries last).numHeaders = req.numHeaders + entries.length from rfl,
      hreq.numHeaders]
    omega
  have hfield : (req.added (entries ++ [last])).lastHeaderElement = .FIELD := hreq.lastHeaderElement
  rw [headerFieldCb_more hfield,storeField_ok (by exact hnext)]
  unfold headerFieldCb
  rw [if_pos (by simp [Request.after]),if_neg hcount,addHeader_after hreq,Option.map_some,
    storeField_ok (by exact hnext)]

/-- The pieces of a line are within the limits. -/
structure CutLine.Within (l : CutLine) : Prop where
  value : l.value ≠ []
  name_le : l.entry.1.length ≤ LIMIT_REQUEST_FIELD_SIZE
  value_le : l.entry.2.length ≤ LIMIT_REQUEST_FIELD_SIZE

/-- Lines within the limits are taken in, and the last one waits. -/
theorem linesCalls_ok {req : Request} (hreq : req.Bare) {lines : List CutLine} {l : CutLine}
    (hin : ∀ x ∈ lines ++ [l], x.Within) (hnum : lines.length ≤ LIMIT_REQUEST_FIELDS) :
    headerCalls ((lines ++ [l]).flatMap CutLine.calls) req =
      some (true,req.after (lines.map CutLine.entry) l.entry) := by
  induction lines using List.reverseRecOn generalizing l with
  | nil =>
    have hl := hin l (by simp)
    rw [List.nil_append,List.flatMap_singleton,lineCalls_ok hreq.lastHeaderElement hreq.field hreq.value
      hl.value hl.name_le hl.value_le]
    rfl
  | append_singleton lines l' ih =>
    have hl := hin l (by simp)
    rw [List.length_append,List.length_singleton] at hnum
    have hold := ih (l := l') (fun x hx => hin x (List.mem_append_left _ hx)) (by omega)
    rw [List.flatMap_append,headerCalls_append hold,List.flatMap_singleton,List.map_append]
    have hkey : (getHttpHeaderKey l.first).length ≤ LIMIT_REQUEST_FIELD_SIZE := by
      have hentry : l.entry.1 = getHttpHeaderKey l.first ++ l.more.flatten.map keyUpper :=
        getHttpHeaderKey_append _ _
      have hle := hl.name_le
      rw [hentry,List.length_append] at hle
      omega
    -- the line `l` meets the request as if `l'` had been added before
    have hopen : headerCalls l.calls (req.after (lines.map CutLine.entry) l'.entry) =
        headerCalls l.calls (req.added (lines.map CutLine.entry ++ [l'.entry])) := by
      rw [CutLine.calls,List.cons_append,headerCalls,headerCalls]
      simp only [HeaderCall.apply]
      rw [headerFieldCb_after hreq (by rw [List.length_map]; omega) hkey]
    rw [hopen,lineCalls_ok (by exact hreq.lastHeaderElement) (by exact hreq.field) (by exact hreq.value)
      hl.value hl.name_le hl.value_le]
    rfl

/-! ### What the environ has of the lines -/

def mergeValue (stored : Option Bytes) (v : Bytes) : Bytes :=
  match stored with
  | none => v
  | some tmp => if tmp = v ∧ v.length ≤ 1 then tmp else tmp ++ ascii ", " ++ v

theorem get?_mergeHeader (env : Environ) (field v k : Bytes) : (mergeHeader env field v).get? k =
    if k = field then some (mergeValue (env.get? field) v) else env.get? k := by
  unfold mergeHeader mergeValue
  by_cases hk : k = field
  · subst hk
    rw [if_pos rfl]
    cases h : env.get? k with
    | none => simp
    | some tmp =>
      simp only
      split
      · exact h
      · simp
  · rw [if_neg hk]
    cases env.get? field with
    | none => exact Environ.get?_set_of_ne _ _ hk
    | some tmp =>
      simp only
      split
      · rfl
      · exact Environ.get?_set_of_ne _ _ hk

/-- The values of the lines with a key. -/
def valuesOf (key : Bytes) (entries : List (Bytes × Bytes)) : List Bytes :=
  (entries.filter (·.1 = key)).map (·.2)

def joined (values : List Bytes) : Option Bytes :=
  if values = [] then none else some ((ascii ", ").intercalate values)

/-- Values merged one after the other. -/
def merged (stored : Option Bytes) (values : List Bytes) : Option Bytes :=
  values.foldl (fun o v => some (mergeValue o v)) stored

theorem get?_mergeHeaders (env : Environ) (entries : List (Bytes × Bytes)) (k : Bytes)
    (h0 : ∀ e ∈ entries, 0 ∉ e.2) :
    (mergeHeaders env entries).get? k = merged (env.get? k) (valuesOf k entries) := by
  induction entries generalizing env with
  | nil => rfl
  | cons e entries ih =>
    obtain ⟨he,hes⟩ := List.forall_mem_cons.mp h0
    rw [show mergeHeaders env (e :: entries) = mergeHeaders (mergeHeader env e.1 (cstr e.2)) entries from
      rfl,ih _ hes,get?_mergeHeader,cstr_eq_self he]
    by_cases hk : k = e.1
    · subst hk
      simp [valuesOf,merged]
    · rw [if_neg hk]
      simp [valuesOf,Ne.symm hk]

/-- The second value is the first one again, of at most one character. -/
def Swallowed (values : List Bytes) : Prop := ∃ v rest, values = v :: v :: rest ∧ v.length ≤ 1

theorem joined_cons (v : Bytes) (values : List Bytes) : joined (v :: values) =
    some (v ++ values.flatMap (ascii ", " ++ ·)) := by
  unfold joined
  rw [if_neg (by simp)]
  congr 1
  induction values generalizing v with
  | nil => simp [List.intercalate]
  | cons w values ih =>
    have hcons : (ascii ", ").intercalate (v :: w :: values) =
        v ++ (ascii ", " ++ (ascii ", ").intercalate (w :: values)) := by
      simp [List.intercalate,List.intersperse]
    rw [hcons,ih,List.flatMap_cons]
    simp

theorem merged_le (stored : Bytes) (values : List Bytes) : ∃ r, merged (some stored) values = some r ∧
    r.length ≤ (stored ++ values.flatMap (ascii ", " ++ ·)).length := by
  induction values generalizing stored with
  | nil => exact ⟨stored,rfl,by simp⟩
  | cons v values ih =>
    obtain ⟨r,hr,hlen⟩ := ih (mergeValue (some stored) v)
    refine ⟨r,hr,hlen.trans ?_⟩
    have hv : (mergeValue (some stored) v).length ≤ (stored ++ (ascii ", " ++ v)).length := by
      unfold mergeValue
      simp only
      split <;> simp
    simp only [List.length_append,List.flatMap_cons] at hv ⊢
    omega

theorem merged_long {stored : Bytes} (h : 2 ≤ stored.length) (values : List Bytes) :
    merged (some stored) values = some (stored ++ values.flatMap (ascii ", " ++ ·)) := by
  induction values generalizing stored with
  | nil => simp [merged]
  | cons v values ih =>
    have hv : mergeValue (some stored) v = stored ++ ascii ", " ++ v := by
      unfold mergeValue
      simp only
      rw [if_neg]
      rintro ⟨rfl,hlen⟩
      omega
    have hlen : 2 ≤ (stored ++ ascii ", " ++ v).length := by
      simp only [List.length_append]
      omega
    rw [show merged (some stored) (v :: values) = merged (some (mergeValue (some stored) v)) values from
      rfl,hv,ih hlen]
    simp

/-- The values are joined exactly when none is swallowed. -/
theorem merged_eq_joined_iff (values : List Bytes) :
    merged none values = joined values ↔ ¬Swallowed values := by
  rcases values with _ | ⟨v,_ | ⟨w,rest⟩⟩
  · refine iff_of_true rfl ?_
    rintro ⟨v,rest,h,-⟩
    cases h
  · refine iff_of_true ?_ ?_
    · rw [joined_cons]
      simp [merged,mergeValue]
    · rintro ⟨v,rest,h,-⟩
      cases h
  · have hstep : merged none (v :: w :: rest) = merged (some (mergeValue (some v) w)) rest := rfl
    rw [hstep,joined_cons]
    by_cases hsw : v = w ∧ w.length ≤ 1
    · obtain ⟨rfl,hlen⟩ := hsw
      have hv : mergeValue (some v) v = v := if_pos ⟨rfl,hlen⟩
      obtain ⟨r,hr,hle⟩ := merged_le v rest
      refine iff_of_false ?_ (not_not.mpr ⟨v,rest,rfl,hlen⟩)
      rw [hv,hr,Option.some.injEq]
      rintro rfl
      have hcomma : (ascii ", ").length = 2 := rfl
      simp only [List.length_append,List.flatMap_cons,hcomma] at hle
      omega
    · have hv : mergeValue (some v) w = v ++ ascii ", " ++ w := if_neg hsw
      refine iff_of_true ?_ ?_
      · rw [hv,merged_long (by simp [ascii]; omega)]
        simp
      · rintro ⟨x,rest',hx,hlen⟩
        cases hx
        exact hsw ⟨rfl,hlen⟩

/-! ### The end of the head -/

/-- A key of a header line. -/
def headerKey (s : Bytes) : Bytes := ascii "HTTP_" ++ s

theorem headerKey_ne {s k : Bytes} (h : k.take 5 ≠ ascii "HTTP_") : headerKey s ≠ k := by
  rintro rfl
  exact h rfl

theorem newEnviron_headerKey (g : Globals) (c : Client) (s : Bytes) :
    (newEnviron g c).get? (headerKey s) = none := by
  have hne : ∀ k ∈ [ascii "wsgi.url_scheme",ascii "SCRIPT_NAME",ascii "SERVER_NAME",
      ascii "SERVER_PORT",ascii "REMOTE_ADDR",ascii "REMOTE_PORT"], headerKey s ≠ k := by
    intro k hk
    refine headerKey_ne ?_
    revert k
    decide
  simp only [List.forall_mem_cons] at hne
  obtain ⟨h1,h2,h3,h4,h5,h6,-⟩ := hne
  simp only [newEnviron,Environ.get?,List.lookup_cons,List.lookup_nil,beq_false_of_ne h1,
    beq_false_of_ne h2,beq_false_of_ne h3,beq_false_of_ne h4,beq_false_of_ne h5,beq_false_of_ne h6]

theorem get?_setPath_of_ne (g : Globals) (env : Environ) (buf : Bytes) {k : Bytes}
    (hp : k ≠ ascii "PATH_INFO") (hq : k ≠ ascii "QUERY_STRING") :
    (setPath g env buf).get? k = env.get? k := by
  have hquery : ∀ s : Bytes, (setQuery env s).get? k = env.get? k := by
    intro s
    unfold setQuery
    simp only
    split
    · exact Environ.get?_set_of_ne _ _ hq
    · rfl
  have hloop : ∀ n s t, s.length ≤ n → (setPathLoop g env s t).1.get? k = env.get? k := by
    intro n
    induction n with
    | zero =>
      intro s t hs
      obtain rfl := List.length_eq_zero_iff.mp (Nat.le_zero.mp hs)
      rfl
    | succ n ih =>
      intro s t hs
      rcases s with _ | ⟨c,_ | ⟨c1,_ | ⟨c2,rest⟩⟩⟩
      · rfl
      all_goals
        simp only [List.length_cons,List.length_nil] at hs
        unfold setPathLoop
        repeat' split
        all_goals first
          | exact hquery _
          | rfl
          | exact ih _ _ (by grind)
  unfold setPath
  rw [Environ.get?_set_of_ne _ _ hp,hloop _ _ _ le_rfl]

theorem get?_requestLineEnv (g : Globals) (p : HttpParser) (req : Request) {k : Bytes}
    (hs : k ≠ ascii "SERVER_PROTOCOL") (hp : k ≠ ascii "PATH_INFO") (hq : k ≠ ascii "QUERY_STRING") :
    (requestLineEnv g p req).get? k = req.environ.get? k := by
  unfold requestLineEnv
  simp only
  cases req.path with
  | none => rw [Environ.get?_set_of_ne _ _ hp,Environ.get?_set_of_ne _ _ hs]
  | some path => rw [get?_setPath_of_ne g _ _ hp hq,Environ.get?_set_of_ne _ _ hs]

theorem get?_del_self (env : Environ) (k : Bytes) : (env.del k).get? k = none := by
  simp only [Environ.del,Environ.get?,List.lookup_eq_none_iff]
  simp +contextual [Ne.symm]

theorem get?_replaceEnvKey (env : Environ) {old new : Bytes} (h : old ≠ new) :
    (replaceEnvKey env old new).get? old = none ∧
      (replaceEnvKey env old new).get? new = (env.get? old).or (env.get? new) ∧
      ∀ k, k ≠ old → k ≠ new → (replaceEnvKey env old new).get? k = env.get? k := by
  unfold replaceEnvKey
  cases hv : env.get? old with
  | none => exact ⟨hv,rfl,fun k _ _ => rfl⟩
  | some value =>
    refine ⟨?_,by simp,fun k hk hk' => ?_⟩
    · rw [Environ.get?_set_of_ne _ _ h,get?_del_self]
    · rw [Environ.get?_set_of_ne _ _ hk',Environ.get?_del_of_ne _ hk]

/-- An environ that maps the key of each line to the values of the lines with that key. -/
structure Assembled (env : Environ) (entries : List (Bytes × Bytes)) : Prop where
  header : ∀ s, headerKey s ≠ ascii "HTTP_CONTENT_TYPE" → headerKey s ≠ ascii "HTTP_CONTENT_LENGTH" →
    env.get? (headerKey s) = joined (valuesOf (headerKey s) entries)
  contentType : env.get? (ascii "CONTENT_TYPE") = joined (valuesOf (ascii "HTTP_CONTENT_TYPE") entries)
  contentLength :
    env.get? (ascii "CONTENT_LENGTH") = joined (valuesOf (ascii "HTTP_CONTENT_LENGTH") entries)
  renamed : env.get? (ascii "HTTP_CONTENT_TYPE") = none ∧ env.get? (ascii "HTTP_CONTENT_LENGTH") = none

/-- The renaming of `headers_complete_cb` assembles what was joined before. -/
theorem assembled_finishEnv_iff {p : HttpParser} {env : Environ} {entries : List (Bytes × Bytes)}
    (htype : env.get? (ascii "CONTENT_TYPE") = none)
    (hlength : env.get? (ascii "CONTENT_LENGTH") = none) : Assembled (finishEnv p env) entries ↔
      ∀ s, env.get? (headerKey s) = joined (valuesOf (headerKey s) entries) := by
  have hkeys : headerKey (ascii "CONTENT_TYPE") = ascii "HTTP_CONTENT_TYPE" ∧
      headerKey (ascii "CONTENT_LENGTH") = ascii "HTTP_CONTENT_LENGTH" := ⟨rfl,rfl⟩
  obtain ⟨t1,t2,t3⟩ := get?_replaceEnvKey env
    (show ascii "HTTP_CONTENT_TYPE" ≠ ascii "CONTENT_TYPE" by decide)
  obtain ⟨l1,l2,l3⟩ := get?_replaceEnvKey (replaceEnvKey env (ascii "HTTP_CONTENT_TYPE")
    (ascii "CONTENT_TYPE")) (show ascii "HTTP_CONTENT_LENGTH" ≠ ascii "CONTENT_LENGTH" by decide)
  have hset : ∀ k, k ≠ ascii "REQUEST_METHOD" → (finishEnv p env).get? k = (replaceEnvKey (replaceEnvKey env
      (ascii "HTTP_CONTENT_TYPE") (ascii "CONTENT_TYPE")) (ascii "HTTP_CONTENT_LENGTH")
      (ascii "CONTENT_LENGTH")).get? k := fun k hk => Environ.get?_set_of_ne _ _ hk
  have htypeEnv : (finishEnv p env).get? (ascii "CONTENT_TYPE") =
      env.get? (ascii "HTTP_CONTENT_TYPE") := by
    rw [hset _ (by decide),l3 _ (by decide) (by decide),t2,htype,Option.or_none]
  have hlengthEnv : (finishEnv p env).get? (ascii "CONTENT_LENGTH") =
      env.get? (ascii "HTTP_CONTENT_LENGTH") := by
    rw [hset _ (by decide),l2,t3 _ (by decide) (by decide),t3 _ (by decide) (by decide),hlength,
      Option.or_none]
  have hother : ∀ s, headerKey s ≠ ascii "HTTP_CONTENT_TYPE" →
      headerKey s ≠ ascii "HTTP_CONTENT_LENGTH" →
      (finishEnv p env).get? (headerKey s) = env.get? (headerKey s) := fun s h1 h2 => by
    rw [hset _ (headerKey_ne (by decide)),l3 _ h2 (headerKey_ne (by decide)),
      t3 _ h1 (headerKey_ne (by decide))]
  constructor
  · intro h s
    by_cases h1 : headerKey s = ascii "HTTP_CONTENT_TYPE"
    · rw [h1,← htypeEnv,h.contentType]
    · by_cases h2 : headerKey s = ascii "HTTP_CONTENT_LENGTH"
      · rw [h2,← hlengthEnv,h.contentLength]
      · rw [← hother s h1 h2,h.header s h1 h2]
  · intro h
    refine ⟨fun s h1 h2 => (hother s h1 h2).trans (h s),htypeEnv.trans (hkeys.1 ▸ h _),
      hlengthEnv.trans (hkeys.2 ▸ h _),?_,?_⟩
    · rw [hset _ (by decide),l3 _ (by decide) (by decide),t1]
    · rw [hset _ (by decide),l1]

/-- The calls of the lines are taken, and `headers_complete_cb` leaves the environ assembled. -/
def Assembles (g : Globals) (p : HttpParser) (req : Request) (lines : List CutLine) : Prop :=
  ∃ req', headerCalls (lines.flatMap CutLine.calls) req = some (true,req') ∧
    (headersComplete g p req').1 = true ∧
    Assembled (headersComplete g p req').2.environ (lines.map CutLine.entry)

/-- Before the renaming the environ has the merged values of each key. -/
theorem headersComplete_entries {g : Globals} {p : HttpParser}
    (hp : headersContentLength p ≤ g.maxContentLength) {req : Request} (hreq : req.Bare)
    {lines : List CutLine} (hin : ∀ l ∈ lines, l.Within) (h0 : ∀ l ∈ lines, 0 ∉ l.valueBytes)
    (hnum : lines.length ≤ LIMIT_REQUEST_FIELDS + 1) :
    ∃ req' env, headerCalls (lines.flatMap CutLine.calls) req = some (true,req') ∧
      (headersComplete g p req').1 = true ∧
      (headersComplete g p req').2.environ = finishEnv p env ∧
      ∀ k, k ≠ ascii "SERVER_PROTOCOL" → k ≠ ascii "PATH_INFO" → k ≠ ascii "QUERY_STRING" →
        env.get? k = merged (req.environ.get? k) (valuesOf k (lines.map CutLine.entry)) := by
  have hcomplete : ∀ r, headersComplete g p r =
      (true,{ lastHeader { r with environ := requestLineEnv g p r, path := none } with
        environ := finishEnv p
          (lastHeader { r with environ := requestLineEnv g p r, path := none }).environ
        method := p.method
        bodyLength := headersContentLength p
        pyclient := true }) := fun r => if_neg (not_lt.mpr hp)
  rcases List.eq_nil_or_concat lines with rfl | ⟨ls,l,rfl⟩
  · refine ⟨req,requestLineEnv g p req,rfl,?_,?_,fun k hs hpath hq => ?_⟩
    · rw [hcomplete]
    · rw [hcomplete]
      simp [lastHeader,addHeader,hreq.field]
    · rw [get?_requestLineEnv g p req hs hpath hq]
      rfl
  · rw [List.concat_eq_append] at hin h0 hnum ⊢
    rw [List.length_append,List.length_singleton] at hnum
    refine ⟨_,mergeHeader (requestLineEnv g p (req.after (ls.map CutLine.entry) l.entry)) l.entry.1
      (cstr l.entry.2),linesCalls_ok hreq hin (by omega),?_,?_,fun k hs hpath hq => ?_⟩
    · rw [hcomplete]
    · rw [hcomplete]
      simp [lastHeader,addHeader,Request.after]
    · have hvals : ∀ e ∈ (ls ++ [l]).map CutLine.entry, 0 ∉ e.2 := by
        intro e he
        obtain ⟨x,hx,rfl⟩ := List.mem_map.mp he
        exact h0 x hx
      have hsame : ∀ env : Environ, env.get? k = (mergeHeaders req.environ (ls.map CutLine.entry)).get? k →
          (mergeHeader env l.entry.1 (cstr l.entry.2)).get? k =
          (mergeHeader (mergeHeaders req.environ (ls.map CutLine.entry)) l.entry.1
            (cstr l.entry.2)).get? k := by
        intro env henv
        rw [get?_mergeHeader,get?_mergeHeader]
        split
        next hk => rw [← hk,henv]
        · exact henv
      rw [hsame _ (get?_requestLineEnv g p _ hs hpath hq),← get?_mergeHeaders _ _ _ hvals]
      simp [mergeHeaders,List.foldl_append]

theorem valuesOf_not_header {k : Bytes} (hk : k.take 5 ≠ ascii "HTTP_") (lines : List CutLine) :
    valuesOf k (lines.map CutLine.entry) = [] := by
  unfold valuesOf
  rw [List.filter_eq_nil_iff.mpr,List.map_nil]
  intro e he
  obtain ⟨l,-,rfl⟩ := List.mem_map.mp he
  rw [decide_eq_true_eq]
  exact headerKey_ne (s := l.nameBytes.map keyUpper) hk

/-- The environ maps the key of each name to the joined values, however the lines are cut, exactly
when no key has two equal values of at most one character in front. -/
theorem assembles_iff {g : Globals} {p : HttpParser} (hp : headersContentLength p ≤ g.maxContentLength)
    (c : Client) (path : Option Buffer) {lines : List CutLine} (hin : ∀ l ∈ lines, l.Within)
    (h0 : ∀ l ∈ lines, 0 ∉ l.valueBytes) (hnum : lines.length ≤ LIMIT_REQUEST_FIELDS) :
    Assembles g p { environ := newEnviron g c, path } lines ↔
      ∀ s, ¬Swallowed (valuesOf (headerKey s) (lines.map CutLine.entry)) := by
  have hbare : Request.Bare { environ := newEnviron g c, path } := ⟨rfl,rfl,rfl,rfl⟩
  obtain ⟨req',env,hcalls,hok,henv,hget⟩ := headersComplete_entries hp hbare hin h0 (by omega)
  have hplain : ∀ k, k ∈ [ascii "CONTENT_TYPE",ascii "CONTENT_LENGTH"] → env.get? k = none := by
    intro k hk
    have hk5 : k.take 5 ≠ ascii "HTTP_" := by
      revert k
      decide
    have hne : k ≠ ascii "SERVER_PROTOCOL" ∧ k ≠ ascii "PATH_INFO" ∧ k ≠ ascii "QUERY_STRING" := by
      revert k
      decide
    rw [hget k hne.1 hne.2.1 hne.2.2,valuesOf_not_header hk5]
    have hnone : (newEnviron g c).get? k = none := by
      rcases List.mem_pair.mp hk with rfl | rfl <;> rfl
    exact hnone
  have hiff : Assembles g p { environ := newEnviron g c, path } lines ↔
      Assembled (finishEnv p env) (lines.map CutLine.entry) := by
    rw [← henv]
    refine ⟨?_,fun h => ⟨req',hcalls,hok,h⟩⟩
    rintro ⟨r,hr,-,h⟩
    obtain rfl : req' = r := by simpa using hcalls.symm.trans hr
    exact h
  rw [hiff,assembled_finishEnv_iff (hplain _ (by simp)) (hplain _ (by simp))]
  refine forall_congr' fun s => ?_
  rw [hget _ (headerKey_ne (by decide)) (headerKey_ne (by decide)) (headerKey_ne (by decide)),
    newEnviron_headerKey,merged_eq_joined_iff]

/-- `X-A: 12` in pieces, and `x-a: 3`. -/
def repeatedLines : List CutLine :=
  [{ first := ascii "X", more := [ascii "-A"], value := [ascii "1",ascii "2"] },
   { first := ascii "x-a", value := [[],ascii "3"] }]

theorem assembles_repeated : Assembles {} {} { environ := newEnviron {} {}, path := none } repeatedLines := by
  refine (assembles_iff (by decide) {} none ?_ (by decide) (by decide)).mpr ?_
  · intro l hl
    rcases List.mem_pair.mp hl with rfl | rfl <;> exact ⟨by decide,by decide,by decide⟩
  · rintro s ⟨v,rest,h,-⟩
    by_cases hs : headerKey s = ascii "HTTP_X_A"
    · rw [hs,show valuesOf (ascii "HTTP_X_A") (repeatedLines.map CutLine.entry) =
        [ascii "12",ascii "3"] from by decide] at h
      cases h
    · have hnil : valuesOf (headerKey s) (repeatedLines.map CutLine.entry) = [] := by
        have hkeys : ∀ e ∈ repeatedLines.map CutLine.entry, e.1 = ascii "HTTP_X_A" := by decide
        unfold valuesOf
        rw [List.filter_eq_nil_iff.mpr,List.map_nil]
        intro e he
        rw [decide_eq_true_eq,hkeys e he]
        exact Ne.symm hs
      rw [hnil] at h
      cases h

/-- `A: x`, twice. -/
def equalLines : List CutLine :=
  [{ first := ascii "A", value := [ascii "x"] },{ first := ascii "A", value := [ascii "x"] }]

/-- Of two equal values of one character only one is left. -/
theorem not_assembles : ¬Assembles {} {} { environ := newEnviron {} {}, path := none } equalLines := by
  rintro ⟨req',hcalls,-,h⟩
  have hreq : (headerCalls (equalLines.flatMap CutLine.calls)
      { environ := newEnviron {} {}, path := none }).map (fun r =>
        (headersComplete {} {} r.2).2.environ.get? (ascii "HTTP_A")) = some (some (ascii "x")) := by
    decide +kernel
  rw [hcalls] at hreq
  have hx := h.header (ascii "A") (by decide) (by decide)
  have hone : joined (valuesOf (ascii "HTTP_A") (equalLines.map CutLine.entry)) = some (ascii "x") :=
    hx.symm.trans (Option.some.inj hreq)
  revert hone
  decide +kernel

end Meinheld
