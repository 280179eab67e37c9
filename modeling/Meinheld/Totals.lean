import Meinheld.ResponseRuns

/-! What a response without chunks may have sent when it ends. A suspension in the head or in an
item is paid back by `write_bytes` in another way than a write that goes through, so several
totals can be possible. -/
namespace Meinheld

def Item.isBytes : Item → Bool
  | .bytes _ => true
  | _ => false

abbrev Cut (s p : Bytes) : Prop := Part (s.length < 2 ^ 32) s p

/-- The bytes `process_write` may send for its items, `w` being `write_bytes`: the length is looked
at only after an item that goes out in one call. -/
inductive ItemTotal (limit : Option ℕ) : ℕ → List Item → Bytes → Prop
  | done {w} : ItemTotal limit w [] []
  | stop {w d p n} {items} (hp : Cut d p) (hn : limit = some n) (hle : n ≤ w + d.length) :
    ItemTotal limit w (.bytes d :: items) p
  | next {w d p t k} {items} (hp : Cut d p) (hk : k = d.length ∨ k = d.length % 2 ^ 32)
    (h : ItemTotal limit (w + k) items t) : ItemTotal limit w (.bytes d :: items) (p ++ t)

/-- The bytes `process_sendfile` may send, `n` being `content_length` and `w` `write_bytes`: each
call is asked for the whole length again. -/
structure FileTotal (n : ℕ) (rest : Bytes) (w : ℕ) (t : Bytes) : Prop where
  sent : t <+: rest
  least : n - w ≤ t.length
  most : n ≤ w ∧ t = [] ∨ w < n ∧ t.length + 1 ≤ n - w + sendfileCount n

theorem FileTotal.done {n w : ℕ} (rest : Bytes) (h : n ≤ w) : FileTotal n rest w [] :=
  ⟨List.nil_prefix,by simp [h],.inl ⟨h,rfl⟩⟩

/-- All items can go out. -/
theorem itemTotal_flatten (limit : Option ℕ) (w : ℕ) (ds : List Bytes) :
    ItemTotal limit w (ds.map .bytes) ds.flatten := by
  induction ds generalizing w with
  | nil => exact .done
  | cons d ds ih => exact .next (Part.all _ d) (.inl rfl) (ih (w + d.length))

/-- The loop can stop after any item that brings `write_bytes` to the length. -/
theorem itemTotal_stop {limit : Option ℕ} {n w : ℕ} {ds : List Bytes} {k : ℕ}
    (hn : limit = some n) (hk : 0 < k) (hle : k ≤ ds.length)
    (h : n ≤ w + (ds.take k).flatten.length) :
    ItemTotal limit w (ds.map .bytes) (ds.take k).flatten := by
  induction ds generalizing w k with
  | nil => simp at hle; omega
  | cons d ds ih =>
    obtain ⟨k,rfl⟩ : ∃ j, k = j + 1 := ⟨k - 1,by omega⟩
    rcases Nat.eq_zero_or_pos k with rfl | hpos
    · simpa using ItemTotal.stop (Part.all _ d) hn (by simpa using h)
    · refine .next (Part.all _ d) (.inl rfl) (ih hpos (by simpa using hle) ?_)
      simp only [List.take_succ_cons,List.flatten_cons,List.length_append] at h
      omega

/-- Small items all go out, or as many as bring `write_bytes` to the length. -/
theorem itemTotal_cases {limit : Option ℕ} {w : ℕ} {ds : List Bytes} {t : Bytes}
    (hsmall : ∀ d ∈ ds, d.length < 2 ^ 32) (h : ItemTotal limit w (ds.map .bytes) t) :
    t = ds.flatten ∨ ∃ k n, 0 < k ∧ k ≤ ds.length ∧ limit = some n ∧
      n ≤ w + (ds.take k).flatten.length ∧ t = (ds.take k).flatten := by
  induction ds generalizing w t with
  | nil => cases h with | done => exact .inl rfl
  | cons d ds ih =>
    have hd := hsmall d (by simp)
    cases h with
    | stop hp hn hle => exact .inr ⟨1,_,by simp,by simp,hn,by simpa using hle,by simp [hp.eq hd]⟩
    | next hp hk h =>
      rw [hp.eq hd]
      obtain rfl := hk.elim id fun hk => by rw [hk,Nat.mod_eq_of_lt hd]
      rcases ih (fun e he => hsmall e (by simp [he])) h with rfl | ⟨k,n,hpos,hle,hn,hlen,rfl⟩
      · exact .inl rfl
      · refine .inr ⟨k + 1,n,by omega,by simpa using hle,hn,?_,by simp⟩
        simp only [List.take_succ_cons,List.flatten_cons,List.length_append]
        omega

/-- `process_sendfile` comes to its end when the rest of the file, asked for in pieces of some
bytes, brings `write_bytes` to the length. -/
def Reaches (n : ℕ) (rest : Bytes) (w : ℕ) : Prop :=
  n ≤ w ∨ 0 < sendfileCount n ∧ n - w ≤ rest.length

theorem FileTotal.reaches {n w : ℕ} {rest t : Bytes} (h : FileTotal n rest w t) :
    Reaches n rest w := by
  have hlen := h.sent.length_le
  have hleast := h.least
  rcases h.most with ⟨hle,_⟩ | ⟨hlt,hmost⟩
  · exact .inl hle
  · exact .inr ⟨by omega,by omega⟩

theorem Reaches.fileTotal {n w : ℕ} {rest : Bytes} (h : Reaches n rest w) :
    FileTotal n rest w (rest.take (n - w)) := by
  rcases Nat.lt_or_ge w n with hlt | hle
  · obtain ⟨hpos,hlen⟩ := h.resolve_left (by omega)
    have htake : (rest.take (n - w)).length = n - w := by
      rw [List.length_take]
      omega
    exact ⟨List.take_prefix _ _,htake.ge,.inr ⟨hlt,by omega⟩⟩
  · simpa [Nat.sub_eq_zero_of_le hle] using FileTotal.done rest hle

/-- The length `process_write` stops at. -/
def Client.limit (c : Client) : Option ℕ := if c.contentLengthSet then some c.contentLength else none

/-- What `process_write` or `process_sendfile` may still send. -/
def RestTotal (c : Client) (t : Bytes) : Prop :=
  match c.response.map Response.kind with
  | some (.file _ rest) => FileTotal c.contentLength rest c.writeBytes t
  | _ => match c.responseIter with
    | none => t = []
    | some items => ItemTotal c.limit c.writeBytes items t

def Client.Pends (c : Client) (p : Bytes) : Prop :=
  match c.bucket with
  | none => p = []
  | some b => Part b.Enough b.bytes p

theorem Client.pends_none {c : Client} (h : c.bucket = none) (p : Bytes) : c.Pends p ↔ p = [] := by
  simp [Client.Pends,h]

theorem Client.pends_some {c : Client} {b : WriteBucket} (h : c.bucket = some b) (p : Bytes) :
    c.Pends p ↔ Part b.Enough b.bytes p := by
  simp [Client.Pends,h]

/-- The client once `process_body` has written its bucket. -/
def Client.resumed (c : Client) : Client :=
  match c.bucket with
  | none => c
  | some b => { c with writeBytes := c.writeBytes + b.totalSize, bucket := none }

/-- A client between two calls whose response has no chunks. -/
structure Client.Ready (c : Client) : Prop where
  chunked : c.chunkedResponse = false
  bucket : ∀ b ∈ c.bucket, b.dangles = false

/-- The response of the client is a file, of which `rest` is left. -/
def Client.Sends (c : Client) (rest : Bytes) : Prop :=
  ∃ size, c.response.map Response.kind = some (.file size rest)

/-- The response is a file with a length that `sendfile` refuses. -/
def Client.Refuses (c : Client) : Prop :=
  (∃ rest, c.Sends rest) ∧ sendfileRefuses c.contentLength = true

/-- A run that ends in an error has met one on the socket, an item that is no bytes, or a length that
is refused. -/
def Fails (c : Client) (w : World) : Prop :=
  (∃ o ∈ w.outcomes, o.fatal) ∨ (∃ items ∈ c.responseIter, ∃ i ∈ items, i.isBytes = false) ∨ c.Refuses

/-- What a response leaves alone until it ends. -/
structure Kept (c c' : Client) : Prop where
  keepAlive : c'.keepAlive = c.keepAlive
  queue : c'.queue = c.queue
  chunked : c'.chunkedResponse = c.chunkedResponse

theorem Kept.refl (c : Client) : Kept c c := ⟨rfl,rfl,rfl⟩

theorem Kept.trans {c c1 c2 : Client} (h : Kept c c1) (h' : Kept c1 c2) : Kept c c2 :=
  ⟨h'.keepAlive.trans h.keepAlive,h'.queue.trans h.queue,h'.chunked.trans h.chunked⟩

/-- How a call ends that has to send one of the totals `T`: it is done, it waits with a rest that
completes what it sent to one of them, or it failed for the reason `F`. -/
inductive Progress (T : Bytes → Prop) (F : Prop) (c : Client) (w : World) :
    ResponseStatus → Client → World → Prop
  | done {s c' w'} (t : Bytes) (hs : s = .OK ∨ s = .ERROR ∧ c'.responseClosed = true) (ht : T t)
    (hsent : w'.sent = w.sent ++ t) (hkept : Kept c c') : Progress T F c w s c' w'
  | wait {c' w'} (t : Bytes) (hready : c'.Ready) (hsent : w'.sent = w.sent ++ t)
    (hT : ∀ p t', c'.Pends p → RestTotal c'.resumed t' → T (t ++ p ++ t')) (hF : Fails c' w' → F)
    (hkept : Kept c c') : Progress T F c w .SUSPEND c' w'
  | failed {c' w'} (hF : F) : Progress T F c w .ERROR c' w'

/-- What was sent before a call belongs to its total. -/
theorem Progress.after {T T1 : Bytes → Prop} {F F1 : Prop} {c c1 c' : Client} {w w1 w' : World}
    {s : ResponseStatus} {t : Bytes} (h : Progress T1 F1 c1 w1 s c' w')
    (hsent : w1.sent = w.sent ++ t) (hT : ∀ t', T1 t' → T (t ++ t')) (hF : F1 → F)
    (hkept : Kept c c1) : Progress T F c w s c' w' := by
  cases h with
  | done t1 hs ht hsent1 hkept1 =>
    exact .done (t ++ t1) hs (hT _ ht) (by rw [hsent1,hsent,List.append_assoc]) (hkept.trans hkept1)
  | wait t1 hready hsent1 hT1 hF1 hkept1 =>
    refine .wait (t ++ t1) hready (by rw [hsent1,hsent,List.append_assoc])
      (fun p t' hp ht' => ?_) (fun hf => hF (hF1 hf)) (hkept.trans hkept1)
    simpa using hT _ (hT1 p t' hp ht')
  | failed hf => exact .failed (hF hf)

theorem Fails.of_suffix {c : Client} {w w' : World} (hs : w'.outcomes <:+ w.outcomes)
    (h : Fails c w') : Fails c w :=
  h.imp (fun ⟨o,ho,hf⟩ => ⟨o,hs.mem ho,hf⟩) id

/-! One item after the other. -/

/-- The bucket of an item without chunks. -/
theorem itemBucket_plain {c : Client} (h : c.chunkedResponse = false) (d : Bytes) :
    (itemBucket c d).bytes = d ∧ (itemBucket c d).Counted := by
  simp only [itemBucket,h,Bool.false_eq_true,if_false]
  exact ⟨by simp,set2bucket_counted _ _ (newWriteBucket_counted 1)⟩

/-- The response is no file. -/
def Client.Iterates (c : Client) : Prop := ∀ size rest, c.response.map Response.kind ≠ some (.file size rest)

theorem RestTotal.of_iterates {c : Client} (h : c.Iterates) (t : Bytes) :
    RestTotal c t ↔ match c.responseIter with
      | none => t = []
      | some items => ItemTotal c.limit c.writeBytes items t := by
  unfold RestTotal
  split
  next size rest hk => exact absurd hk (h size rest)
  · rfl

theorem closeResponse_progress {T : Bytes → Prop} {F : Prop} {c c' : Client} {w w' : World}
    {s : ResponseStatus} (hT : T []) (h : closeResponse c w = .ret (s,c') w') :
    Progress T F c w s c' w' := by
  obtain ⟨s1,closed,n,hcl,hs⟩ := closeResponse_spec c w
  rw [hcl] at h
  simp only [Run.ret.injEq,Prod.mk.injEq] at h
  obtain ⟨⟨rfl,rfl⟩,rfl⟩ := h
  exact .done [] hs hT (by simp) ⟨rfl,rfl,rfl⟩

theorem finishWrite_plain {c : Client} (h : c.chunkedResponse = false) :
    finishWrite (.OK,c) = closeResponse c := by
  simp only [finishWrite,h,Bool.false_eq_true,if_false]

theorem waiting_item {c : Client} {d p : Bytes} {b b' : WriteBucket} {items : List Item} {k : ℕ}
    (hiter : c.Iterates) (hb : b.bytes = d) (hcounted : b.Counted) (hsus : Suspended b b' k)
    (hp : Part b'.Enough b'.bytes p) (t : Bytes)
    (ht : RestTotal { c with responseIter := some items, bucket := some b' }.resumed t) :
    ItemTotal c.limit c.writeBytes (.bytes d :: items) (d.take k ++ p ++ t) := by
  have hsize : b'.totalSize = d.length % 2 ^ 32 := by rw [hsus.totalSize,hcounted.totalSize,hb]
  rw [RestTotal.of_iterates (by exact hiter)] at ht
  simp only [Client.resumed,hsize] at ht
  rw [hsus.bytes,hb] at hp
  exact .next (hp.mono fun hlt => hsus.enough (hcounted.enough (by rwa [hb]))).after (.inr rfl) ht

/-- The loop of `process_write` on its items. -/
theorem processItems_progress {items : List Item} {c c' : Client} {w w' : World}
    {s : ResponseStatus} (hch : c.chunkedResponse = false) (hiter : c.Iterates)
    (h : (processItems items c >>= finishWrite) w = .ret (s,c') w') :
    Progress (ItemTotal c.limit c.writeBytes items)
      ((∃ o ∈ w.outcomes, o.fatal) ∨ ∃ i ∈ items, i.isBytes = false) c w s c' w' := by
  induction items generalizing c w with
  | nil =>
    rw [processItems,Action.pure_bind,finishWrite_plain (by exact hch)] at h
    exact (closeResponse_progress (T := ItemTotal c.limit c.writeBytes []) .done h).after
      (t := []) (by simp) (fun _ ht => ht) id ⟨rfl,rfl,rfl⟩
  | cons i items ih =>
    cases i with
    | raise =>
      simp only [processItems,Action.pure_bind,finishWrite,Action.pure_apply,Run.ret.injEq,
        Prod.mk.injEq] at h
      obtain ⟨⟨rfl,_⟩,_⟩ := h
      exact .failed (.inr ⟨.raise,by simp,rfl⟩)
    | other =>
      simp only [processItems,Action.pure_bind,finishWrite,Action.pure_apply,Run.ret.injEq,
        Prod.mk.injEq] at h
      obtain ⟨⟨rfl,_⟩,_⟩ := h
      exact .failed (.inr ⟨.other,by simp,rfl⟩)
    | bytes d =>
      obtain ⟨hbytes,hcounted⟩ := itemBucket_plain hch d
      simp only [processItems,Action.bind_assoc] at h
      obtain ⟨⟨s1,b1⟩,v,hv,h⟩ := Action.bind_eq_ret.mp h
      have hsuf := writevBucket_suffix hv
      have hres := writevBucket_result hv
      cases s1 with
      | OK =>
        cases hres with
        | ok p hp hsent _ =>
          rw [hbytes] at hp
          replace hp := hp.mono fun hlt => hcounted.enough (by rwa [hbytes])
          by_cases hcond : c.contentLengthSet = true ∧ c.contentLength ≤ c.writeBytes + d.length
          · simp only [if_pos hcond,Action.pure_bind] at h
            rw [finishWrite_plain (by exact hch)] at h
            have hlimit : c.limit = some c.contentLength := by simp [Client.limit,hcond.1]
            exact (closeResponse_progress (T := (· = [])) (F := False) rfl h).after hsent
              (fun t' ht' => by simpa [ht'] using ItemTotal.stop hp hlimit hcond.2) False.elim
              ⟨rfl,rfl,rfl⟩
          · simp only [if_neg hcond] at h
            refine (ih (by exact hch) (by exact hiter) h).after hsent
              (fun t' ht' => .next hp (.inl rfl) ht') ?_ ⟨rfl,rfl,rfl⟩
            rintro (⟨o,ho,hf⟩ | ⟨i,hi,hb⟩)
            · exact .inl ⟨o,hsuf.mem ho,hf⟩
            · exact .inr ⟨i,by simp [hi],hb⟩
      | SUSPEND =>
        simp only [Action.pure_bind,finishWrite,Action.pure_apply,Run.ret.injEq,
          Prod.mk.injEq] at h
        obtain ⟨⟨rfl,rfl⟩,rfl⟩ := h
        cases hres with
        | suspend k hsent hsus =>
          rw [hbytes] at hsent
          refine .wait (d.take k) ⟨hch,?_⟩ hsent (fun p t hp ht => waiting_item hiter hbytes hcounted
            hsus ((Client.pends_some rfl p).mp hp) t ht) ?_ ⟨rfl,rfl,rfl⟩
          · rintro b hb
            obtain rfl := Option.some.inj hb
            exact hsus.dangles hcounted.not_dangles
          · rintro (⟨o,ho,hf⟩ | ⟨items',hitems',i,hi,hb⟩ | ⟨⟨rest,size,hk⟩,-⟩)
            · exact .inl ⟨o,hsuf.mem ho,hf⟩
            · obtain rfl := Option.some.inj hitems'
              exact .inr ⟨i,by simp [hi],hb⟩
            · exact absurd hk (hiter size rest)
      | ERROR =>
        simp only [Action.pure_bind,finishWrite,Action.pure_apply,Run.ret.injEq,
          Prod.mk.injEq] at h
        obtain ⟨⟨rfl,_⟩,_⟩ := h
        rcases writevBucket_cause hv with h1 | ⟨h1,_⟩ | ⟨_,h1⟩
        · simp at h1
        · simp at h1
        · exact .failed (.inl h1)

/-! One `sendfile` after the other. -/

theorem FileTotal.next {n w k : ℕ} {rest t : Bytes} (hw : w < n)
    (h : FileTotal n (rest.drop (rest.take (min k (sendfileCount n))).length)
      (w + (rest.take (min k (sendfileCount n))).length) t) :
    FileTotal n rest w (rest.take (min k (sendfileCount n)) ++ t) := by
  obtain ⟨hsent,hleast,hmost⟩ := h
  have hcnt : (rest.take (min k (sendfileCount n))).length ≤ sendfileCount n := by
    rw [List.length_take]
    omega
  have hrest : rest.take (min k (sendfileCount n)) ++
      rest.drop (rest.take (min k (sendfileCount n))).length = rest := by
    rw [List.length_take]
    rcases Nat.le_total (min k (sendfileCount n)) rest.length with h | h
    · rw [Nat.min_eq_left h,List.take_append_drop]
    · rw [Nat.min_eq_right h,List.take_of_length_le h,List.drop_length,List.append_nil]
  generalize rest.take (min k (sendfileCount n)) = r at *
  refine ⟨?_,?_,.inr ⟨hw,?_⟩⟩
  · conv_rhs => rw [← hrest]
    exact List.prefix_append_right_inj r |>.mpr hsent
  · rw [List.length_append]
    omega
  · rw [List.length_append]
    rcases hmost with ⟨_,rfl⟩ | ⟨_,h⟩
    · rw [List.length_nil]
      omega
    · omega

/-- How the loop of `process_sendfile` leaves: with a total, in the middle of one, or with an
error, of the socket or for the length. -/
inductive SendfileResult (os : List Outcome) (rest : Bytes) (c : Client) (w : World) :
    ResponseStatus → Client → Bytes → World → Prop
  | ok {w'} (t : Bytes) (ht : FileTotal c.contentLength rest c.writeBytes t)
    (hsent : w'.sent = w.sent ++ t) : SendfileResult os rest c w .OK
      { c with writeBytes := c.writeBytes + t.length } (rest.drop t.length) w'
  | suspend {w'} (t : Bytes) (hsent : w'.sent = w.sent ++ t) (hos : w'.outcomes <:+ os)
    (ht : ∀ t', FileTotal c.contentLength (rest.drop t.length) (c.writeBytes + t.length) t' →
      FileTotal c.contentLength rest c.writeBytes (t ++ t')) : SendfileResult os rest c w .SUSPEND
      { c with writeBytes := c.writeBytes + t.length } (rest.drop t.length) w'
  | error {c' rest' w'} (h : (∃ o ∈ os, o.fatal) ∨ sendfileRefuses c.contentLength = true) :
    SendfileResult os rest c w .ERROR c' rest' w'

theorem sendfileLoop_result {os : List Outcome} {rest rest' : Bytes} {c c' : Client} {w w' : World}
    {s : ResponseStatus} (h : sendfileLoop os rest c w = .ret (s,c',rest') w') :
    SendfileResult os rest c w s c' rest' w' := by
  induction os generalizing rest c w with
  | nil =>
    rcases sendfileLoop_ret h with ⟨hle,rfl,rfl,rfl,rfl⟩ | ⟨-,hr,rfl,-⟩ | ⟨-,-,o,os,hnil⟩
    · exact .ok [] (.done _ hle) (by simp)
    · exact .error (.inr hr)
    · cases hnil
  | cons o os ih =>
    rcases sendfileLoop_ret h with ⟨hle,rfl,rfl,rfl,rfl⟩ | ⟨-,hr,rfl,-⟩ | ⟨hlt,hr,-⟩
    · exact .ok [] (.done _ hle) (by simp)
    · exact .error (.inr hr)
    rw [sendfileLoop_cons hlt hr] at h
    cases o with
    | eagain =>
      simp only [Run.ret.injEq,Prod.mk.injEq] at h
      obtain ⟨⟨rfl,rfl,rfl⟩,rfl⟩ := h
      exact .suspend [] (by simp) (List.suffix_cons _ _) (by simp)
    | error epipe =>
      simp only [Run.ret.injEq,Prod.mk.injEq] at h
      obtain ⟨⟨rfl,rfl,rfl⟩,rfl⟩ := h
      exact .error (.inl ⟨.error epipe,by simp,rfl⟩)
    | count n =>
      have hr := ih h
      have hstep : ∀ t, FileTotal c.contentLength _ _ t → FileTotal c.contentLength rest
          c.writeBytes (rest.take (min (n + 1) (sendfileCount c.contentLength)) ++ t) :=
        fun t => FileTotal.next hlt
      generalize rest.take (min (n + 1) (sendfileCount c.contentLength)) = r at hr hstep
      cases hr with
      | ok t ht hsent =>
        have hres : SendfileResult (.count n :: os) rest c w .OK
            { c with writeBytes := c.writeBytes + (r ++ t).length }
            (rest.drop (r ++ t).length) w' :=
          .ok (r ++ t) (hstep t ht) (by rw [hsent]; simp [World.send])
        simpa [Nat.add_assoc] using hres
      | suspend t hsent hos ht =>
        have hres : SendfileResult (.count n :: os) rest c w .SUSPEND
            { c with writeBytes := c.writeBytes + (r ++ t).length }
            (rest.drop (r ++ t).length) w' := by
          refine .suspend (r ++ t) (by rw [hsent]; simp [World.send])
            (hos.trans (List.suffix_cons _ _)) fun t' ht' => ?_
          rw [List.append_assoc]
          refine hstep _ (ht t' ?_)
          simpa [Nat.add_assoc] using ht'
        simpa [Nat.add_assoc] using hres
      | error hf =>
        refine .error (hf.imp_left fun hfatal => ?_)
        obtain ⟨o,ho,hf⟩ := hfatal
        exact ⟨o,List.mem_cons_of_mem _ ho,hf⟩

theorem Client.Sends.iff {c : Client} {rest : Bytes} (h : c.Sends rest) (t : Bytes) :
    RestTotal c t ↔ FileTotal c.contentLength rest c.writeBytes t := by
  obtain ⟨size,h⟩ := h
  simp [RestTotal,h]

theorem Client.Sends.seek {c c' : Client} {rest : Bytes} (h : c.Sends rest) (rest' : Bytes)
    (hc : c'.response = c.response.map (·.seek rest')) : c'.Sends rest' := by
  obtain ⟨size,h⟩ := h
  obtain ⟨r,hr,hk⟩ := Option.map_eq_some_iff.mp h
  exact ⟨size,by simp [hc,hr,Response.seek,hk]⟩

theorem processSendfile_progress {rest : Bytes} {c c' : Client} {w w' : World} {s : ResponseStatus}
    (hready : c.Ready) (hsends : c.Sends rest) (hbucket : c.bucket = none)
    (h : processSendfile c rest w = .ret (s,c') w') :
    Progress (FileTotal c.contentLength rest c.writeBytes) (Fails c w) c w s c' w' := by
  obtain ⟨⟨s1,c1,rest1⟩,v,hloop,h⟩ := Action.bind_eq_ret.mp h
  cases sendfileLoop_result hloop with
  | ok t ht hsent =>
    refine (closeResponse_progress (T := (· = [])) (F := False) rfl h).after hsent
      (fun t' ht' => by simpa [ht'] using ht) False.elim ⟨rfl,rfl,rfl⟩
  | suspend t hsent hos ht =>
    simp only [Action.pure_apply,Run.ret.injEq,Prod.mk.injEq] at h
    obtain ⟨⟨rfl,rfl⟩,rfl⟩ := h
    have hseek : ∀ rest', (∃ rest1, Client.Sends { c with
        writeBytes := c.writeBytes + t.length, response := c.response.map (·.seek rest') } rest1) →
        ∃ rest1, c.Sends rest1 := fun _ _ => ⟨rest,hsends⟩
    refine .wait t ⟨hready.chunked,hready.bucket⟩ hsent (fun p t' hp ht' => ?_)
      (fun hf => Fails.of_suffix hos (hf.imp_right (Or.imp_right fun ⟨hr,hc⟩ => ⟨hseek _ hr,hc⟩)))
      ⟨rfl,rfl,rfl⟩
    obtain rfl := (Client.pends_none (by exact hbucket) p).mp hp
    simp only [Client.resumed,hbucket,List.append_nil] at ht' ⊢
    exact ht t' (((hsends.seek (rest.drop t.length) rfl).iff t').mp ht')
  | error hf =>
    simp only [Action.pure_apply,Run.ret.injEq,Prod.mk.injEq] at h
    obtain ⟨⟨rfl,_⟩,_⟩ := h
    exact .failed (hf.imp_right fun hr => .inr ⟨⟨rest,hsends⟩,hr⟩)

theorem processRest_iterates {c : Client} (hiter : c.Iterates) (hresp : c.response.isSome) :
    processRest c = processWrite c := by
  obtain ⟨r,hr⟩ := Option.isSome_iff_exists.mp hresp
  cases hk : r.kind with
  | file size rest => exact absurd (by simp [hr,hk]) (hiter size rest)
  | iter items => simp only [processRest,hr,hk]
  | notIterable => simp only [processRest,hr,hk]

/-- The end of `process_body`, and of `response_start`. -/
theorem processRest_progress {c c' : Client} {w w' : World} {s : ResponseStatus}
    (hready : c.Ready) (hbucket : c.bucket = none) (h : processRest c w = .ret (s,c') w') :
    Progress (RestTotal c) (Fails c w) c w s c' w' := by
  cases hr : c.response with
  | none => simp [processRest,hr,die] at h
  | some r =>
    by_cases hfile : ∃ size rest, r.kind = .file size rest
    · obtain ⟨size,rest,hk⟩ := hfile
      have hsends : c.Sends rest := ⟨size,by simp [hr,hk]⟩
      simp only [processRest,hr,hk] at h
      refine (processSendfile_progress hready hsends hbucket h).after (t := []) (by simp)
        (fun t ht => (hsends.iff t).mpr ht) id (.refl c)
    · have hiter : c.Iterates := by
        intro size rest hk
        exact hfile ⟨size,rest,by simpa [hr] using hk⟩
      rw [processRest_iterates hiter (by simp [hr])] at h
      cases hi : c.responseIter with
      | none =>
        simp only [processWrite,hi,Action.pure_apply,Run.ret.injEq,Prod.mk.injEq] at h
        obtain ⟨⟨rfl,rfl⟩,rfl⟩ := h
        exact .done [] (.inl rfl) ((RestTotal.of_iterates hiter _).mpr (by simp [hi])) (by simp)
          (.refl c)
      | some items =>
        simp only [processWrite,hi] at h
        refine (processItems_progress hready.chunked hiter h).after
          (t := []) (by simp) (fun t ht => (RestTotal.of_iterates hiter t).mpr (by simpa [hi] using ht))
          ?_ (.refl c)
        exact Or.imp id fun hbad => .inl ⟨items,hi,hbad⟩

/-- `process_body` goes on where the response was suspended. -/
theorem processBody_progress {c c' : Client} {w w' : World} {s : ResponseStatus} (hready : c.Ready)
    (h : processBody c w = .ret (s,c') w') :
    Progress (fun t => ∃ p t', c.Pends p ∧ RestTotal c.resumed t' ∧ t = p ++ t') (Fails c w)
      c w s c' w' := by
  unfold processBody at h
  cases hb : c.bucket with
  | none =>
    simp only [hb] at h
    refine (processRest_progress hready hb h).after (t := []) (by simp)
      (fun t ht => ⟨[],t,?_,?_,rfl⟩) id (.refl c)
    · exact (Client.pends_none hb []).mpr rfl
    · simpa [Client.resumed,hb] using ht
  | some b =>
    simp only [hb] at h
    obtain ⟨⟨s1,b1⟩,v,hv,h⟩ := Action.bind_eq_ret.mp h
    have hdangles := hready.bucket b hb
    have hsuf := writevBucket_suffix hv
    cases writevBucket_result hv with
    | ok p hp hsent hsize =>
      have hready' : Client.Ready { c with
          writeBytes := c.writeBytes + b1.totalSize, bucket := none } :=
        ⟨hready.chunked,by simp⟩
      refine (processRest_progress hready' rfl h).after hsent
        (fun t ht => ⟨p,t,(Client.pends_some hb p).mpr hp,?_,rfl⟩) (Fails.of_suffix hsuf) ⟨rfl,rfl,rfl⟩
      simpa [Client.resumed,hb,hsize] using ht
    | suspend k hsent hsus =>
      simp only [Action.pure_apply,Run.ret.injEq,Prod.mk.injEq] at h
      obtain ⟨⟨rfl,rfl⟩,rfl⟩ := h
      have hready' : Client.Ready { c with bucket := some b1 } := by
        refine ⟨hready.chunked,?_⟩
        rintro b' hb'
        obtain rfl := Option.some.inj hb'
        exact hsus.dangles hdangles
      refine .wait _ hready' hsent (fun p t' hp ht' => ⟨_,t',(Client.pends_some hb _).mpr
        (Part.after ?_),?_,rfl⟩) (Fails.of_suffix hsuf) ⟨rfl,rfl,rfl⟩
      · rw [← hsus.bytes]
        exact ((Client.pends_some rfl p).mp hp).mono hsus.enough
      · simpa [Client.resumed,hb,hsus.totalSize] using ht'
    | error =>
      simp only [Action.pure_apply,Run.ret.injEq,Prod.mk.injEq] at h
      obtain ⟨⟨rfl,_⟩,_⟩ := h
      rcases writevBucket_cause hv with h1 | ⟨h1,_⟩ | ⟨_,h1⟩
      · simp at h1
      · simp at h1
      · exact .failed (.inl h1)

/-- How a response ends that has to send one of the totals `T`. -/
inductive Ended (T : Bytes → Prop) (F : Prop) (c : Client) (w : World) :
    ResponseStatus → Client → World → Prop
  | done {s c' w'} (t : Bytes) (hs : s = .OK ∨ s = .ERROR ∧ c'.responseClosed = true) (ht : T t)
    (hsent : w'.sent = w.sent ++ t) (hkept : Kept c c') : Ended T F c w s c' w'
  | failed {c' w'} (hF : F) : Ended T F c w .ERROR c' w'

theorem Ended.after {T T1 : Bytes → Prop} {F F1 : Prop} {c c1 c' : Client} {w w1 w' : World}
    {s : ResponseStatus} {t : Bytes} (h : Ended T1 F1 c1 w1 s c' w')
    (hsent : w1.sent = w.sent ++ t) (hT : ∀ t', T1 t' → T (t ++ t')) (hF : F1 → F)
    (hkept : Kept c c1) : Ended T F c w s c' w' := by
  cases h with
  | done t1 hs ht hsent1 hkept1 =>
    exact .done (t ++ t1) hs (hT _ ht) (by rw [hsent1,hsent,List.append_assoc]) (hkept.trans hkept1)
  | failed hf => exact .failed (hF hf)

theorem Progress.settled {T : Bytes → Prop} {F : Prop} {c c' : Client} {w w' : World}
    {s : ResponseStatus} (h : Progress T F c w s c' w') (hs : s ≠ .SUSPEND) :
    Ended T F c w s c' w' := by
  cases h with
  | done t hs ht hsent hkept => exact .done t hs ht hsent hkept
  | wait => exact absurd rfl hs
  | failed hf => exact .failed hf

/-- The loop of `app_handler` brings a call that makes progress to its end. -/
theorem Progress.ended {T : Bytes → Prop} {F : Prop} {c c1 c' : Client} {w w1 w' : World}
    {s s1 : ResponseStatus} (fuel : ℕ) (h : Progress T F c w s1 c1 w1)
    (hloop : appLoop fuel s1 c1 w1 = .ret (s,c') w') : Ended T F c w s c' w' := by
  induction fuel generalizing T F c c1 w w1 s1 with
  | zero =>
    by_cases hs : s1 = .SUSPEND
    · subst hs
      simp [appLoop,die] at hloop
    · rw [appLoop_of_ne hs] at hloop
      simp only [Run.ret.injEq,Prod.mk.injEq] at hloop
      obtain ⟨⟨rfl,rfl⟩,rfl⟩ := hloop
      exact h.settled hs
  | succ fuel ih =>
    by_cases hs : s1 = .SUSPEND
    · subst hs
      rw [appLoop] at hloop
      obtain ⟨⟨s2,c2⟩,v,hbody,hloop⟩ := Action.bind_eq_ret.mp hloop
      cases h with
      | done t hs => simp at hs
      | wait t hready hsent hT hF hkept =>
        refine (ih (processBody_progress hready hbody) hloop).after hsent ?_ hF hkept
        rintro _ ⟨p,t',hp,ht',rfl⟩
        simpa using hT p t' hp ht'
    · rw [appLoop_of_ne hs] at hloop
      simp only [Run.ret.injEq,Prod.mk.injEq] at hloop
      obtain ⟨⟨rfl,rfl⟩,rfl⟩ := hloop
      exact h.settled hs

/-! The whole response. -/

/-- The client once a suspended head has been written: all of the bucket is counted, the
head included. -/
def Answer.delayed (g : Globals) (a : Answer) : Client := { a.headed with
  bucket := none
  writeBytes := a.headed.writeBytes + (a.opening g).length % 2 ^ 32 }

/-- The first item outlives a suspension of the head. -/
def Answer.Delayable (a : Answer) : Prop := a.response.keepsItem = true ∨ a.first.getD [] = []

/-- What may follow the head when it goes out in one call. -/
def Answer.DirectTotal (a : Answer) (t : Bytes) : Prop :=
  if a.client.statusCode = 304 then t = [] else RestTotal a.direct t

/-- What may follow the head and the first item, however the head is suspended. -/
def Answer.Total (g : Globals) (a : Answer) (t : Bytes) : Prop :=
  a.DirectTotal t ∨ RestTotal (a.delayed g) t

/-- The application gave something that is no response of bytes. -/
def Answer.Malformed (a : Answer) : Prop := a.client.statusCode ≠ 304 ∧
  (a.response.kind = .notIterable ∨
    ∃ items, a.response.kind = .iter items ∧ ∃ i ∈ items, i.isBytes = false)

/-- The application gave a file with a length that `sendfile` refuses. -/
def Answer.Refused (a : Answer) : Prop := (∃ size rest, a.response.kind = .file size rest) ∧
  sendfileRefuses a.headed.contentLength = true

def Answer.Faulty (a : Answer) : Prop := a.Malformed ∨ a.Refused

theorem kept_headed (a : Answer) (h : a.headed.chunkedResponse = false) : Kept a.start a.headed := by
  refine ⟨?_,?_,h.trans a.fresh.chunkedResponse.symm⟩ <;> rw [headed_eq] <;> rfl

theorem headed_refuses {a : Answer} {c : Client} (h : c.Refuses)
    (hr : c.response = a.headed.response) (hn : c.contentLength = a.headed.contentLength) :
    a.Refused := by
  obtain ⟨⟨rest,size,hk⟩,href⟩ := h
  refine ⟨⟨size,rest,?_⟩,hn ▸ href⟩
  rw [hr,headed_response] at hk
  exact Option.some.inj hk

theorem malformed_of_items {a : Answer} {items : List Item} (hi : a.items = some items)
    (hbad : ∃ i ∈ items, i.isBytes = false) : a.Malformed := by
  unfold Answer.items at hi
  split at hi
  · simp at hi
  next h304 =>
    cases hk : a.response.kind with
    | iter items1 =>
      simp only [hk,Option.some.injEq] at hi
      obtain ⟨i,hmem,hb⟩ := hbad
      exact ⟨h304,.inr ⟨items1,hk,i,List.mem_of_mem_tail (hi ▸ hmem),hb⟩⟩
    | file size rest => simp [hk] at hi
    | notIterable => simp [hk] at hi

/-- The totals of a response, and why it may fail. -/
def Answer.Totals (g : Globals) (a : Answer) (t : Bytes) : Prop :=
  ∃ p t', Cut (a.opening g) p ∧ a.Total g t' ∧ t = p ++ t'

section
variable {g : Globals} {a : Answer} {w w' : World}

theorem firstBytes_plain (h : a.headed.chunkedResponse = false) :
    firstBytes a.headed a.first = a.first.getD [] := by
  cases hf : a.first <;> simp [firstBytes,h]

theorem headed_writeBytes (a : Answer) : a.headed.writeBytes = 0 := by
  rw [headed_eq]
  exact a.fresh.writeBytes

theorem opening_plain (hch : a.headed.chunkedResponse = false) :
    a.opening g = a.head g ++ a.first.getD [] := by
  rw [Answer.opening,firstBytes_plain hch]

theorem direct_writeBytes (a : Answer) : a.direct.writeBytes = (a.first.getD []).length := by
  simp only [Answer.direct,headed_writeBytes,Nat.zero_add]
  cases a.first <;> rfl

theorem delayed_writeBytes (g : Globals) (a : Answer) :
    (a.delayed g).writeBytes = (a.opening g).length % 2 ^ 32 := by
  simp [Answer.delayed,headed_writeBytes]

theorem direct_response (a : Answer) : a.direct.response.isSome := by
  simp [show a.direct.response = some a.response from headed_response a]

theorem delayed_response (g : Globals) (a : Answer) : (a.delayed g).response.isSome := by
  simp [show (a.delayed g).response = some a.response from headed_response a]

theorem first_of_file {size : ℕ} {rest : Bytes} (hk : a.response.kind = .file size rest) :
    a.first = none := by
  by_cases h304 : a.client.statusCode = 304 <;> simp [Answer.first,h304,hk]

theorem opening_of_file {size : ℕ} {rest : Bytes} (hk : a.response.kind = .file size rest) :
    a.opening g = a.head g := by
  simp [Answer.opening,first_of_file hk,firstBytes]

theorem waiting_head {b b' : WriteBucket} {k : ℕ} {freed : Bool}
    (hch : a.headed.chunkedResponse = false) (hb : Opening g a b) (hsus : Suspended b b' k)
     (hd : WriteBucket.dangles { b' with freed := freed } = false)
    (hsent : w'.sent = w.sent ++ b.bytes.take k) (hos : w'.outcomes <:+ w.outcomes) :
    Progress (a.Totals g) ((∃ o ∈ w.outcomes, o.fatal) ∨ a.Faulty) a.start w .SUSPEND
      { a.headed with bucket := some { b' with freed := freed } } w' := by
  have hsize : b'.totalSize = (a.opening g).length % 2 ^ 32 := by
    rw [hsus.totalSize,hb.counted.totalSize,hb.bytes]
  refine .wait _ ⟨hch,?_⟩ hsent (fun p t' hp ht' => ⟨_,t',?_,.inr ?_,rfl⟩) ?_ ?_
  · rintro b1 hb1
    obtain rfl := Option.some.inj hb1
    exact hd
  · have hp' : Part (WriteBucket.Enough { b' with freed := freed }) b'.bytes p :=
      (Client.pends_some rfl p).mp hp
    rw [hsus.bytes] at hp'
    rw [← hb.bytes]
    exact (hp'.mono fun hlt => hsus.enough (hb.counted.enough hlt)).after
  · simpa [Client.resumed,hsize,Answer.delayed] using ht'
  · rintro (⟨o,ho,hf⟩ | ⟨items,hi,hbad⟩ | hr)
    · exact .inl ⟨o,hos.mem ho,hf⟩
    · exact .inr (.inl (malformed_of_items ((headed_responseIter a).symm.trans hi) hbad))
    · exact .inr (.inr (headed_refuses hr rfl rfl))
  · exact (kept_headed a hch).trans ⟨rfl,rfl,rfl⟩

theorem direct_ready (hch : a.headed.chunkedResponse = false) : a.direct.Ready :=
  ⟨hch,by simp [Answer.direct]⟩

theorem opening_iov {b : WriteBucket} (hch : a.headed.chunkedResponse = false) (hb : b.Plain) :
    (a.first.getD [] = [] → (setFirstBodyData a.headed b a.first).iov.any
      (fun v => v.item && v.base ≠ []) = false) ∧
    (a.first.getD [] ≠ [] → (setFirstBodyData a.headed b a.first).EndsInItem) := by
  have hany : b.iov.any (fun v => v.item && v.base ≠ []) = false := by
    simp only [List.any_eq_false,Bool.and_eq_true,not_and]
    intro v hv hi
    simp [hb v hv] at hi
  cases hf : a.first with
  | none => simpa [setFirstBodyData] using hany
  | some d =>
    have hB : (setFirstBodyData a.headed b (some d)).iov = b.iov ++ [⟨d,true⟩] := by
      simp [setFirstBodyData,hch,set2bucket]
    refine ⟨fun hd => ?_,fun hd => ⟨b.iov,⟨d,true⟩,hB,rfl,by simpa using hd⟩⟩
    have hd : d = [] := by simpa using hd
    rw [hB,List.any_append,hany]
    simp [hd]

theorem direct_progress {s : ResponseStatus} {c' : Client}
    (hch : a.headed.chunkedResponse = false)
    (h : (if a.client.statusCode = 304 then pure (.OK,a.direct) else processRest a.direct) w =
      .ret (s,c') w') : Progress a.DirectTotal (Fails a.direct w) a.direct w s c' w' := by
  by_cases h304 : a.client.statusCode = 304
  · simp only [if_pos h304,Action.pure_apply,Run.ret.injEq,Prod.mk.injEq] at h
    obtain ⟨⟨rfl,rfl⟩,rfl⟩ := h
    exact .done [] (.inl rfl) (by simp [Answer.DirectTotal,h304]) (by simp) (.refl _)
  · have hT : a.DirectTotal = RestTotal a.direct := by
      funext t
      simp [Answer.DirectTotal,h304]
    rw [if_neg h304] at h
    rw [hT]
    exact processRest_progress (direct_ready hch) rfl h

/-- A response that does not begin with bytes sends nothing. -/
theorem responseStart_unstartable (h : ¬a.Startable) :
    ∃ items, responseStart g a.start = pure (.ERROR,{ a.start with responseIter := items }) := by
  simp only [Answer.Startable,not_or] at h
  obtain ⟨h304,hk⟩ := h
  have h304' : a.start.statusCode ≠ 304 := h304
  have hr : a.start.response = some a.response := rfl
  cases hkind : a.response.kind with
  | file size rest => simp [hkind] at hk
  | notIterable =>
    refine ⟨a.start.responseIter,?_⟩
    simp only [responseStart,hr,if_neg h304',hkind,startResponseWrite,Action.pure_bind]
    rfl
  | iter items =>
    rcases items with _ | ⟨i,items⟩
    · simp [hkind] at hk
    · refine ⟨some items,?_⟩
      cases i with
      | bytes d => simp [hkind] at hk
      | other =>
        simp only [responseStart,hr,if_neg h304',hkind,startResponseWrite,Action.pure_bind]
        rfl
      | raise =>
        simp only [responseStart,hr,if_neg h304',hkind,startResponseWrite,Action.pure_bind]
        rfl

theorem responseStart_malformed {s : ResponseStatus} {c' : Client} (hstart : ¬a.Startable)
    (h : responseStart g a.start w = .ret (s,c') w') : s = .ERROR ∧ a.Malformed := by
  obtain ⟨items,hc⟩ := responseStart_unstartable (g := g) hstart
  rw [hc,Action.pure_apply] at h
  refine ⟨(congrArg Prod.fst (Run.ret.inj h).1).symm,?_⟩
  simp only [Answer.Startable,not_or] at hstart
  obtain ⟨h304,hk⟩ := hstart
  refine ⟨h304,?_⟩
  cases hkind : a.response.kind with
  | file size rest => simp [hkind] at hk
  | notIterable => exact .inl rfl
  | iter items =>
    rcases items with _ | ⟨d | _ | _,items⟩
    · simp [hkind] at hk
    · simp [hkind] at hk
    · exact .inr ⟨_,rfl,.other,by simp,rfl⟩
    · exact .inr ⟨_,rfl,.raise,by simp,rfl⟩

/-- `response_start` makes progress, or waits with memory that is released. -/
theorem responseStart_progress {s : ResponseStatus} {c' : Client} (hacc : a.Accepted g)
    (hch : a.headed.chunkedResponse = false)
    (h : responseStart g a.start w = .ret (s,c') w') :
    Progress (a.Totals g) ((∃ o ∈ w.outcomes, o.fatal) ∨ a.Faulty) a.start w s c' w' ∨
      (s = .SUSPEND ∧ ¬a.Delayable ∧ ∃ b, c'.bucket = some b ∧ b.dangles = true) := by
  by_cases hstart : a.Startable
  swap
  · obtain ⟨rfl,hmal⟩ := responseStart_malformed hstart h
    exact .inl (.failed (.inr (.inl hmal)))
  obtain ⟨f,hf⟩ := exists_afterHead g hstart
  obtain ⟨b,hb,heq⟩ := writeHeaders_accepted hacc
  rw [hf.start,heq] at h
  obtain ⟨⟨s1,c1⟩,v,hhead,h⟩ := Action.bind_eq_ret.mp h
  have hop := hb.opening
  obtain ⟨hsuf,hcases⟩ := writeHead_cases hhead
  rcases hcases with ⟨rfl,⟨p,hp,hsent⟩,rfl⟩ | ⟨rfl,k,b1,hsus1,hsent,rfl⟩ | ⟨rfl,hfatal⟩
  · left
    have hp' : Cut (a.opening g) p := by
      rw [← hop.bytes]
      exact hp.mono hop.counted.enough
    replace h : f (.OK,a.direct) v = .ret (s,c') w' := h
    rw [hf.ok] at h
    refine (direct_progress hch h).after hsent (fun t ht => ⟨p,t,hp',.inl ht,rfl⟩) ?_
      ((kept_headed a hch).trans ⟨rfl,rfl,rfl⟩)
    rintro (⟨o,ho,hf⟩ | ⟨items,hi,hbad⟩ | hr)
    · exact .inl ⟨o,hsuf.mem ho,hf⟩
    · exact .inr (.inl (malformed_of_items ((headed_responseIter a).symm.trans hi) hbad))
    · exact .inr (.inr (headed_refuses hr rfl rfl))
  · rw [hf.suspend b1 (hsus1.freed.trans hop.counted.freed)] at h
    simp only [Action.pure_apply,Run.ret.injEq,Prod.mk.injEq] at h
    obtain ⟨⟨rfl,rfl⟩,rfl⟩ := h
    -- a bucket that has nothing left waits like one whose first item is kept
    by_cases hd : WriteBucket.dangles { b1 with freed := a.releases } = false
    · exact .inl (waiting_head hch hop hsus1 hd hsent hsuf)
    · refine .inr ⟨rfl,fun hdel => hd ?_,_,rfl,by simpa using hd⟩
      rcases hdel with hkeep | hfirst
      · simp [WriteBucket.dangles,Answer.releases,hkeep]
      · rw [WriteBucket.dangles,hsus1.items ((opening_iov hch hb.plain).1 hfirst),Bool.and_false]
  · obtain ⟨c2,hc2,-⟩ := hf.error c1
    rw [hc2] at h
    simp only [Action.pure_apply,Run.ret.injEq,Prod.mk.injEq] at h
    obtain ⟨⟨rfl,_⟩,_⟩ := h
    exact .inl (.failed (.inl hfatal))

theorem processBody_dangles {c : Client} {b : WriteBucket} {r : ResponseStatus × Client}
    (hb : c.bucket = some b) (hd : b.dangles = true) : processBody c w ≠ .ret r w' := by
  intro h
  simp only [processBody,hb] at h
  obtain ⟨x,v,hv,_⟩ := Action.bind_eq_ret.mp h
  unfold writevBucket at hv
  cases hos : w.outcomes with
  | nil => simp [hos,writevBucketLoop] at hv
  | cons o os => simp [hos,writevBucketLoop,hd] at hv

/-- Every run of a response without chunks sends one of its totals, unless it fails on the socket or
on what the application gave. -/
theorem writeResponse_ended {s : ResponseStatus} {c' : Client} (hacc : a.Accepted g)
    (hch : a.headed.chunkedResponse = false)
    (h : writeResponse g a.start w = .ret (s,c') w') :
    Ended (a.Totals g) ((∃ o ∈ w.outcomes, o.fatal) ∨ a.Faulty) a.start w s c' w' := by
  obtain ⟨⟨s1,c1⟩,v,hstart,h⟩ := Action.bind_eq_ret.mp h
  rcases responseStart_progress hacc hch hstart with hp | ⟨rfl,_,b,hb,hd⟩
  · exact hp.ended _ h
  · rw [appLoop] at h
    obtain ⟨r,x,hbody,_⟩ := Action.bind_eq_ret.mp h
    exact absurd hbody (processBody_dangles hb hd)

end

end Meinheld
