import Meinheld.Totals

/-! Schedules that bring about the totals of a response. -/
namespace Meinheld

/-- `close` of the response, if there is one, does not raise. -/
def Client.Quiet (c : Client) : Prop := ∀ r ∈ c.response, (r.hasClose && r.closeRaises) = false

/-- How a run ends that met no error but perhaps one of `close`. -/
structure EndsWell (c : Client) (s : ResponseStatus) (c' : Client) : Prop where
  status : s = .OK ∨ s = .ERROR ∧ c'.responseClosed = true
  ok : c.Quiet → s = .OK
  kept : Kept c c'

/-- On the outcomes `os` the action and the loop of `app_handler` after it send `t`. -/
def Realizes (x : Action (ResponseStatus × Client)) (c : Client) (os : List Outcome) (t : Bytes) :
    Prop :=
  ∀ fuel w, os.length ≤ fuel → w.outcomes = os → ∃ s c' w',
    (x >>= fun r => appLoop fuel r.1 r.2) w = .ret (s,c') w' ∧ w'.sent = w.sent ++ t ∧
      EndsWell c s c'

theorem EndsWell.of {c c1 c' : Client} {s : ResponseStatus} (h : EndsWell c1 s c')
    (hq : c.Quiet → c1.Quiet) (hk : Kept c c1) : EndsWell c s c' :=
  ⟨h.status,fun hc => h.ok (hq hc),hk.trans h.kept⟩

theorem closeResponse_quiet {c : Client} (hq : c.Quiet) {r : ResponseStatus × Client} {w w' : World}
    (h : closeResponse c w = .ret r w') : r.1 = .OK := by
  unfold closeResponse at h
  cases hr : c.response with
  | none =>
    simp only [hr,Run.ret.injEq] at h
    rw [← h.1]
  | some r1 =>
    have hq1 := hq r1 hr
    simp only [hr] at h
    split at h
    next hc =>
      simp only [Run.ret.injEq] at h
      rw [← h.1]
      simp only [hc.2,Bool.true_and] at hq1
      simp [hq1]
    next =>
      simp only [Run.ret.injEq] at h
      rw [← h.1]

/-- The end of a response, whatever is left of the schedule. -/
theorem realizes_close (c : Client) (os : List Outcome) : Realizes (closeResponse c) c os [] := by
  intro fuel w _ _
  obtain ⟨s,closed,n,hcl,hs⟩ := closeResponse_spec c w
  have hne : s ≠ .SUSPEND := by rcases hs with rfl | ⟨rfl,_⟩ <;> simp
  refine ⟨s,{ c with responseClosed := closed },{ w with closeCalls := n },?_,by simp,hs,fun hq => closeResponse_quiet hq hcl,⟨rfl,rfl,rfl⟩⟩
  rw [Action.bind_apply,hcl]
  exact appLoop_of_ne hne _ _ _

/-- What happens on the first outcomes decides how the rest goes on. -/
theorem Realizes.step {x y : Action (ResponseStatus × Client)} {c c1 : Client}
    {os os1 : List Outcome} {t t1 : Bytes} (h : Realizes y c1 os1 t1)
    (hx : ∀ fuel w, os.length ≤ fuel → w.outcomes = os → ∃ fuel1 w1, os1.length ≤ fuel1 ∧
      w1.outcomes = os1 ∧ w1.sent = w.sent ++ t ∧
      (x >>= fun r => appLoop fuel r.1 r.2) w = (y >>= fun r => appLoop fuel1 r.1 r.2) w1)
    (hq : c.Quiet → c1.Quiet) (hk : Kept c c1) : Realizes x c os (t ++ t1) := by
  intro fuel w hfuel hw
  obtain ⟨fuel1,w1,hfuel1,hw1,hsent,heq⟩ := hx fuel w hfuel hw
  obtain ⟨s,c',w',hrun,hsent',hend⟩ := h fuel1 w1 hfuel1 hw1
  exact ⟨s,c',w',heq.trans hrun,by rw [hsent',hsent,List.append_assoc],hend.of hq hk⟩

/-- The client after an item of `n` counted bytes. -/
def Client.afterItem (c : Client) (items : List Item) (n : ℕ) : Client :=
  { c with responseIter := some items, writeBytes := c.writeBytes + n, bucket := none }

/-- `process_write` on what is left of the items. -/
abbrev writeItems (items : List Item) (c : Client) : Action (ResponseStatus × Client) :=
  processItems items c >>= finishWrite

/-- An item that is suspended before its first byte goes out when the loop is back at it. -/
theorem writeItems_skip {c : Client} {d : Bytes} {items : List Item} {os : List Outcome} {w : World}
    (fuel : ℕ) (hch : c.chunkedResponse = false) (hiter : c.Iterates) (hresp : c.response.isSome)
    (hw : w.outcomes = .eagain :: .count d.length :: os) :
    (writeItems (.bytes d :: items) c >>= fun r => appLoop (fuel + 1) r.1 r.2) w =
      (writeItems items (c.afterItem items (d.length % 2 ^ 32)) >>= fun r => appLoop fuel r.1 r.2)
        { w with outcomes := os, sent := w.sent ++ d } := by
  obtain ⟨hbytes,hcnt⟩ := itemBucket_plain hch d
  have htake : d.take (d.length + 1) = d := List.take_of_length_le (Nat.le_succ _)
  have h1 := writevBucket_eagain hcnt.not_dangles hw
  have h2 := writevBucket_count (w := { w with outcomes := .count d.length :: os }) hcnt.not_dangles
    rfl (.inr (by rw [hcnt.total,hbytes,htake]; exact Nat.mod_le _ _))
  have hstart : writeItems (.bytes d :: items) c w =
      .ret (.SUSPEND,{ c with responseIter := some items, bucket := some (itemBucket c d) })
        { w with outcomes := .count d.length :: os } := by
    simp only [writeItems,processItems,Action.bind_apply,h1]
    rfl
  have hbody : processBody
      { c with responseIter := some items, bucket := some (itemBucket c d) }
      { w with outcomes := .count d.length :: os } =
      writeItems items (c.afterItem items (d.length % 2 ^ 32))
        { w with outcomes := os, sent := w.sent ++ d } := by
    have hsize : (itemBucket c d).totalSize = d.length % 2 ^ 32 := by rw [hcnt.totalSize,hbytes]
    simp only [processBody,Action.bind_apply,h2,hbytes,htake,hsize]
    exact congrFun (processRest_iterates (c := c.afterItem items (d.length % 2 ^ 32)) hiter hresp) _
  rw [Action.bind_apply,hstart]
  simp only [appLoop,Action.bind_apply,hbody]

theorem realizes_skip {c : Client} {d t : Bytes} {items : List Item} {os : List Outcome}
    (hch : c.chunkedResponse = false) (hiter : c.Iterates) (hresp : c.response.isSome)
    (h : Realizes (writeItems items (c.afterItem items (d.length % 2 ^ 32)))
      (c.afterItem items (d.length % 2 ^ 32)) os t) :
    Realizes (writeItems (.bytes d :: items) c) c (.eagain :: .count d.length :: os) (d ++ t) := by
  refine h.step (fun fuel w hfuel hw => ?_) id ⟨rfl,rfl,rfl⟩
  obtain ⟨fuel,rfl⟩ : ∃ n, fuel = n + 1 := ⟨fuel - 1,by simp only [List.length_cons] at hfuel; omega⟩
  refine ⟨fuel,{ w with outcomes := os, sent := w.sent ++ d },?_,rfl,rfl,
    writeItems_skip fuel hch hiter hresp hw⟩
  simp only [List.length_cons] at hfuel
  omega

theorem processItems_count {c : Client} {d : Bytes} {items : List Item} {k : ℕ} {os : List Outcome}
    {w : World} (hch : c.chunkedResponse = false) (hb : c.bucket = none)
    (hk : d.length % 2 ^ 32 ≤ (d.take (k + 1)).length) (hw : w.outcomes = .count k :: os) :
    processItems (.bytes d :: items) c w =
      (if c.contentLengthSet ∧ c.contentLength ≤ c.writeBytes + d.length
        then pure (.OK,c.afterItem items d.length)
        else processItems items (c.afterItem items d.length))
      { w with outcomes := os, sent := w.sent ++ d.take (k + 1) } := by
  obtain ⟨hbytes,hcnt⟩ := itemBucket_plain hch d
  have hv := writevBucket_count hcnt.not_dangles hw (.inr (by rw [hcnt.total,hbytes]; exact hk))
  have hc : c.afterItem items d.length =
      { c with responseIter := some items, writeBytes := c.writeBytes + d.length } := by
    simp only [Client.afterItem]
    rw [← hb]
  simp only [processItems,Action.bind_apply,hv,hbytes,hc]

theorem realizes_stop {c : Client} {d : Bytes} {items : List Item} {k : ℕ} (os : List Outcome)
    (hch : c.chunkedResponse = false) (hb : c.bucket = none)
    (hk : d.length % 2 ^ 32 ≤ (d.take (k + 1)).length)
    (hstop : c.contentLengthSet ∧ c.contentLength ≤ c.writeBytes + d.length) :
    Realizes (writeItems (.bytes d :: items) c) c (.count k :: os) (d.take (k + 1)) := by
  rw [← List.append_nil (d.take (k + 1))]
  refine (realizes_close (c.afterItem items d.length) os).step (fun fuel w hfuel hw => ?_) id
    ⟨rfl,rfl,rfl⟩
  refine ⟨fuel,{ w with outcomes := os, sent := w.sent ++ d.take (k + 1) },?_,rfl,rfl,?_⟩
  · simp only [List.length_cons] at hfuel
    omega
  rw [Action.bind_assoc,Action.bind_apply,processItems_count hch hb hk hw,if_pos hstop]
  simp only [Action.pure_apply]
  rw [finishWrite_plain (by exact hch)]

theorem realizes_go {c : Client} {d t : Bytes} {items : List Item} {k : ℕ} {os : List Outcome}
    (hch : c.chunkedResponse = false) (hb : c.bucket = none)
    (hk : d.length % 2 ^ 32 ≤ (d.take (k + 1)).length)
    (hgo : ¬(c.contentLengthSet ∧ c.contentLength ≤ c.writeBytes + d.length))
    (h : Realizes (writeItems items (c.afterItem items d.length)) (c.afterItem items d.length) os t) :
    Realizes (writeItems (.bytes d :: items) c) c (.count k :: os) (d.take (k + 1) ++ t) := by
  refine h.step (fun fuel w hfuel hw => ?_) id ⟨rfl,rfl,rfl⟩
  refine ⟨fuel,{ w with outcomes := os, sent := w.sent ++ d.take (k + 1) },?_,rfl,rfl,?_⟩
  · simp only [List.length_cons] at hfuel
    omega
  rw [Action.bind_assoc,Action.bind_apply,processItems_count hch hb hk hw,if_neg hgo,
    Action.bind_assoc,Action.bind_apply]

/-- No call fails on the socket. -/
def Nonfatal (os : List Outcome) : Prop := ∀ o ∈ os, o.fatal = false

theorem Nonfatal.cons {o : Outcome} {os : List Outcome} (ho : o.fatal = false) (h : Nonfatal os) :
    Nonfatal (o :: os) := by
  intro p hp
  rcases List.mem_cons.mp hp with rfl | hp
  · exact ho
  · exact h p hp

theorem Nonfatal.append {os os' : List Outcome} (h : Nonfatal os) (h' : Nonfatal os') :
    Nonfatal (os ++ os') := fun o ho => (List.mem_append.mp ho).elim (h o) (h' o)

theorem exists_realizes {c : Client} (ds : List Bytes) (hch : c.chunkedResponse = false)
    (hiter : c.Iterates) (hresp : c.response.isSome) : ∃ os, Nonfatal os ∧
      Realizes (writeItems (ds.map .bytes) c) c os ds.flatten := by
  induction ds generalizing c with
  | nil =>
    refine ⟨[],by simp [Nonfatal],?_⟩
    have h := realizes_close { c with responseIter := some [] } []
    intro fuel w hfuel hw
    obtain ⟨s,c',w',hrun,hsent,hend⟩ := h fuel w hfuel hw
    refine ⟨s,c',w',?_,by simpa using hsent,hend.of id ⟨rfl,rfl,rfl⟩⟩
    rw [writeItems,List.map_nil,processItems,Action.pure_bind,finishWrite_plain (by exact hch)]
    exact hrun
  | cons d ds ih =>
    obtain ⟨os,hos,h⟩ := ih (c := c.afterItem (ds.map .bytes) (d.length % 2 ^ 32)) hch hiter hresp
    exact ⟨_,.cons rfl (.cons rfl hos),by simpa using realizes_skip hch hiter hresp h⟩

/-- After a `writev` that ends an item without a suspension, the rest goes on in one way however
much of the item the `writev` took. -/
theorem exists_realizes_count {c : Client} (d : Bytes) (ds : List Bytes)
    (hch : c.chunkedResponse = false) (hb : c.bucket = none) (hiter : c.Iterates)
    (hresp : c.response.isSome) : ∃ os t, Nonfatal os ∧
      ∀ k, d.length % 2 ^ 32 ≤ (d.take (k + 1)).length →
        Realizes (writeItems (.bytes d :: ds.map .bytes) c) c (.count k :: os)
          (d.take (k + 1) ++ t) := by
  by_cases hstop : c.contentLengthSet ∧ c.contentLength ≤ c.writeBytes + d.length
  · exact ⟨[],[],by simp [Nonfatal],fun k hk => by
      simpa using realizes_stop [] hch hb hk hstop⟩
  · obtain ⟨os,hos,h⟩ := exists_realizes (c := c.afterItem (ds.map .bytes) d.length) ds hch hiter hresp
    exact ⟨os,ds.flatten,hos,fun k hk => realizes_go hch hb hk hstop h⟩

/-- Every total of small items has its schedule. -/
theorem ItemTotal.realizes {limit : Option ℕ} {n : ℕ} {items : List Item} {t : Bytes}
    (h : ItemTotal limit n items t) {c : Client} (hlimit : c.limit = limit)
    (hn : c.writeBytes = n) (hch : c.chunkedResponse = false) (hb : c.bucket = none)
    (hiter : c.Iterates) (hresp : c.response.isSome)
    (hsmall : ∀ d, .bytes d ∈ items → d.length < 2 ^ 32) :
    ∃ os, Nonfatal os ∧ Realizes (writeItems items c) c os t := by
  induction h generalizing c with
  | done => simpa using exists_realizes [] hch hiter hresp
  | @stop w d p n items hp hlim hle =>
    obtain rfl : p = d := hp.eq (hsmall d (by simp))
    rename Bytes => d
    have hall : d.take (d.length + 1) = d := List.take_of_length_le (Nat.le_succ _)
    have hset : c.contentLengthSet ∧ c.contentLength = n := by
      rw [← hlimit,Client.limit] at hlim
      split at hlim
      next hs => exact ⟨hs,Option.some.inj hlim⟩
      next => simp at hlim
    have hs : Realizes (writeItems (.bytes d :: items) c) _ _ _ := realizes_stop [] hch hb
      (by rw [hall]; exact Nat.mod_le _ _) ⟨hset.1,by rw [hset.2,hn]; exact hle⟩
    rw [hall] at hs
    exact ⟨_,.cons rfl (by simp [Nonfatal]),hs⟩
  | @next w d p t k items hp hk h ih =>
    have hlt := hsmall d (by simp)
    obtain rfl : p = d := hp.eq hlt
    obtain rfl : k = p.length := hk.elim id fun hk => by rw [hk,Nat.mod_eq_of_lt hlt]
    obtain ⟨os,hos,hr⟩ := ih (c := c.afterItem items p.length) hlimit
      (by simp [Client.afterItem,hn]) hch rfl hiter hresp fun e he => hsmall e (by simp [he])
    rw [← Nat.mod_eq_of_lt hlt] at hr
    exact ⟨_,.cons rfl (.cons rfl hos),realizes_skip hch hiter hresp hr⟩

/-! Files. -/

/-- One `sendfile` that is asked for at least `k + 1` bytes. -/
theorem sendfileLoop_count {c : Client} {rest : Bytes} {k : ℕ} {os : List Outcome} {w : World}
    (hlt : c.writeBytes < c.contentLength) (hk : k + 1 ≤ sendfileCount c.contentLength)
    (hrest : k + 1 ≤ rest.length) : sendfileLoop (.count k :: os) rest c w =
      sendfileLoop os (rest.drop (k + 1)) { c with writeBytes := c.writeBytes + (k + 1) }
        { w with outcomes := os, sent := w.sent ++ rest.take (k + 1) } := by
  have hlen : (rest.take (k + 1)).length = k + 1 := by
    rw [List.length_take]
    omega
  have hr : sendfileRefuses c.contentLength = false := by
    by_contra hr
    simp only [Bool.not_eq_false] at hr
    simp [sendfileCount,hr] at hk
  rw [sendfileLoop_cons hlt hr]
  simp only [Nat.min_eq_left hk,hlen]
  rfl

/-- Every total of a file has its schedule: single bytes up to a last call that passes the
length. -/
theorem FileTotal.schedule {n : ℕ} {rest t : Bytes} {w0 : ℕ} (h : FileTotal n rest w0 t) :
    ∃ os, Nonfatal os ∧ ∀ (c : Client) (w : World), c.contentLength = n → c.writeBytes = w0 →
      w.outcomes = os → sendfileLoop os rest c w =
        .ret (.OK,{ c with writeBytes := w0 + t.length },rest.drop t.length)
          { w with outcomes := [], sent := w.sent ++ t } := by
  obtain ⟨hsent,hleast,⟨hle,rfl⟩ | ⟨hlt,hmost⟩⟩ := h
  · refine ⟨[],by simp [Nonfatal],?_⟩
    rintro c w rfl rfl hw
    rw [sendfileLoop_done hle]
    simp only [List.length_nil,Nat.add_zero,List.drop_zero,List.append_nil]
    rw [← hw]
  · induction hd : n - w0 using Nat.strong_induction_on generalizing w0 rest t with
    | _ m ih =>
      obtain ⟨tail,rfl⟩ := hsent
      by_cases hone : t.length ≤ sendfileCount n
      · refine ⟨[.count (t.length - 1)],by simp [Nonfatal,Outcome.fatal],?_⟩
        rintro c w rfl rfl hw
        have ht : t.length - 1 + 1 = t.length := by omega
        rw [sendfileLoop_count hlt (by omega) (by rw [List.length_append]; omega),ht]
        have hdone : c.contentLength ≤ c.writeBytes + t.length := by omega
        rw [sendfileLoop_done hdone,List.take_left]
      · obtain ⟨b,t,rfl⟩ : ∃ b t1, t = b :: t1 := by
          cases t with
          | nil => simp at hone
          | cons b t1 => exact ⟨b,t1,rfl⟩
        rw [List.length_cons] at hone hleast hmost
        obtain ⟨os,hos,hrun⟩ := ih (n - (w0 + 1)) (by omega)
          (List.prefix_append t tail) (by omega) (by omega) (by omega) rfl
        refine ⟨.count 0 :: os,.cons rfl hos,?_⟩
        rintro c w rfl rfl hw
        rw [sendfileLoop_count hlt (by omega) (by simp)]
        simp only [Nat.zero_add,List.cons_append,List.drop_succ_cons,List.drop_zero,
          List.take_succ_cons,List.take_zero]
        rw [hrun { c with writeBytes := c.writeBytes + 1 }
          { w with outcomes := os, sent := w.sent ++ [b] } rfl rfl rfl]
        simp [Nat.add_assoc,Nat.add_comm 1]

theorem FileTotal.realizes {c : Client} {rest t : Bytes}
    (h : FileTotal c.contentLength rest c.writeBytes t) :
    ∃ os, Nonfatal os ∧ Realizes (processSendfile c rest) c os t := by
  obtain ⟨os,hos,hrun⟩ := h.schedule
  refine ⟨os,hos,?_⟩
  rw [← List.append_nil t]
  refine (realizes_close { c with
      writeBytes := c.writeBytes + t.length
      response := c.response.map (·.seek (rest.drop t.length)) } []).step
    (fun fuel w hfuel hw => ⟨fuel,{ w with outcomes := [], sent := w.sent ++ t },by simp,rfl,rfl,?_⟩)
    ?_ ⟨rfl,rfl,rfl⟩
  · have hloop := hrun c w rfl rfl hw
    rw [← hw] at hloop
    simp only [processSendfile,Action.bind_assoc]
    rw [Action.bind_apply,hloop]
  · intro hq r hr
    obtain ⟨r1,hr1,rfl⟩ := Option.map_eq_some_iff.mp hr
    have hq1 := hq r1 hr1
    unfold Response.seek
    split <;> exact hq1

/-- Items of bytes before others can all be skipped. -/
theorem exists_realizes_append {c : Client} (ds : List Bytes) (items : List Item)
    (hch : c.chunkedResponse = false) (hb : c.bucket = none) (hiter : c.Iterates)
    (hresp : c.response.isSome) : ∃ os0 c1, Nonfatal os0 ∧ c1.chunkedResponse = false ∧
      c1.bucket = none ∧ c1.Iterates ∧ c1.response.isSome ∧ ∀ os t,
        Realizes (writeItems items c1) c1 os t →
        Realizes (writeItems (ds.map .bytes ++ items) c) c (os0 ++ os) (ds.flatten ++ t) := by
  induction ds generalizing c with
  | nil => exact ⟨[],c,by simp [Nonfatal],hch,hb,hiter,hresp,fun os t h => h⟩
  | cons d ds ih =>
    obtain ⟨os0,c1,hos,hch1,hb1,hiter1,hresp1,hrun⟩ :=
      ih (c := c.afterItem (ds.map .bytes ++ items) (d.length % 2 ^ 32)) hch rfl hiter hresp
    refine ⟨.eagain :: .count d.length :: os0,c1,.cons rfl (.cons rfl hos),hch1,hb1,hiter1,hresp1,
      fun os t h => ?_⟩
    simpa using realizes_skip hch hiter hresp (hrun os t h)

theorem RestTotal.realizes {c : Client} {t : Bytes} (h : RestTotal c t)
    (hch : c.chunkedResponse = false) (hb : c.bucket = none) (hresp : c.response.isSome)
    (hsmall : ∀ items ∈ c.responseIter, ∀ d, .bytes d ∈ items → d.length < 2 ^ 32) :
    ∃ os, Nonfatal os ∧ Realizes (processRest c) c os t := by
  by_cases hiter : c.Iterates
  · rw [processRest_iterates hiter hresp]
    rw [RestTotal.of_iterates hiter] at h
    cases hi : c.responseIter with
    | none =>
      simp only [hi] at h
      refine ⟨[],by simp [Nonfatal],fun fuel w _ _ => ⟨.OK,c,w,?_,by simp [h],.inl rfl,fun _ => rfl,
        .refl c⟩⟩
      simp only [processWrite,hi,Action.pure_bind]
      exact appLoop_of_ne (by simp) _ _ _
    | some items =>
      simp only [hi] at h
      simp only [processWrite,hi]
      exact h.realizes rfl rfl hch hb hiter hresp (hsmall items hi)
  · obtain ⟨size,rest,hk⟩ : ∃ size rest, c.response.map Response.kind = some (.file size rest) := by
      simpa [Client.Iterates] using hiter
    have hsends : c.Sends rest := ⟨size,hk⟩
    obtain ⟨r,hr,hkind⟩ := Option.map_eq_some_iff.mp hk
    have hproc : processRest c = processSendfile c rest := by simp only [processRest,hr,hkind]
    rw [hproc]
    exact ((hsends.iff t).mp h).realizes

/-! The whole response. -/

theorem take_all (s : Bytes) : s.take (s.length + 1) = s := List.take_of_length_le (Nat.le_succ _)

/-- On the outcomes `os` the response sends `t`. -/
def Sends (g : Globals) (a : Answer) (os : List Outcome) (t : Bytes) : Prop :=
  ∃ s c' w', writeResponse g a.start ⟨os,[],0⟩ = .ret (s,c') w' ∧ w'.sent = t ∧
    EndsWell a.start s c'

/-- What follows a head that went out at once. -/
def Answer.after (a : Answer) : Action (ResponseStatus × Client) :=
  if a.client.statusCode = 304 then pure (.OK,a.direct) else processRest a.direct

variable {g : Globals} {a : Answer} {os : List Outcome} {t : Bytes}

theorem direct_iterates {kinds : List Item} (hk : a.response.kind = .iter kinds) : a.direct.Iterates := by
  intro size rest hc
  rw [show a.direct.response = some a.response from headed_response a] at hc
  simp [hk] at hc

theorem delayed_iterates {kinds : List Item} (hk : a.response.kind = .iter kinds) (g : Globals) : (a.delayed g).Iterates := by
  intro size rest hc
  rw [show (a.delayed g).response = some a.response from headed_response a] at hc
  simp [hk] at hc

theorem processRest_delayed {size : ℕ} {rest : Bytes} (hk : a.response.kind = .file size rest) :
    processRest (a.delayed g) = processSendfile (a.delayed g) rest := by
  have hr : (a.delayed g).response = some a.response := headed_response a
  simp only [processRest,hr,hk]

theorem processRest_delayed_iter {items : List Item} (h304 : a.client.statusCode ≠ 304)
    (hk : a.response.kind = .iter items) :
    processRest (a.delayed g) = writeItems items.tail (a.delayed g) := by
  have hitems : (a.delayed g).responseIter = some items.tail := by
    refine (headed_responseIter a).trans ?_
    simp [Answer.items,h304,hk]
  rw [processRest_iterates (delayed_iterates hk g) (delayed_response g a),processWrite,hitems]

theorem direct_quiet (h : a.start.Quiet) : a.direct.Quiet := by
  have hr : a.direct.response = a.start.response := headed_response a
  rwa [Client.Quiet,hr]

theorem direct_kept (hch : a.headed.chunkedResponse = false) : Kept a.start a.direct :=
  (kept_headed a hch).trans ⟨rfl,rfl,rfl⟩

/-- The first bucket in one `writev`, which may take less than all when the counter is wrong. -/
theorem writeResponse_direct {n0 : ℕ} (hacc : a.Accepted g) (hstart : a.Startable)
    (hn : (a.opening g).length % 2 ^ 32 ≤ ((a.opening g).take (n0 + 1)).length) (os : List Outcome) :
    writeResponse g a.start ⟨.count n0 :: os,[],0⟩ =
      (a.after >>= fun r => appLoop (os.length + 2) r.1 r.2)
        ⟨os,(a.opening g).take (n0 + 1),0⟩ := by
  obtain ⟨f,hf⟩ := exists_afterHead g hstart
  obtain ⟨b,hb,heq⟩ := writeHeaders_accepted hacc
  have hhead := writeHead_count hb (w := ⟨.count n0 :: os,[],0⟩) rfl hn
  simp only [writeResponse,hf.start,heq,Action.bind_assoc]
  rw [Action.bind_apply,hhead]
  simp only [hf.ok,List.length_cons,List.nil_append]
  rfl

theorem sends_direct {n0 : ℕ} (hacc : a.Accepted g) (hstart : a.Startable)
    (hch : a.headed.chunkedResponse = false)
    (hn : (a.opening g).length % 2 ^ 32 ≤ ((a.opening g).take (n0 + 1)).length)
    (h : Realizes a.after a.direct os t) :
    Sends g a (.count n0 :: os) ((a.opening g).take (n0 + 1) ++ t) := by
  obtain ⟨s,c',w',hrun,hsent,hend⟩ := h (os.length + 2) ⟨os,(a.opening g).take (n0 + 1),0⟩
    (by omega) rfl
  exact ⟨s,c',w',(writeResponse_direct hacc hstart hn os).trans hrun,hsent,
    hend.of direct_quiet (direct_kept hch)⟩

/-- The first bucket after a suspension before its first byte. -/
theorem writeResponse_delayed {m : ℕ} (hacc : a.Accepted g) (hstart : a.Startable)
    (hch : a.headed.chunkedResponse = false) (hdelay : a.Delayable)
    (hn : (a.opening g).length % 2 ^ 32 ≤ ((a.opening g).take (m + 1)).length) (os : List Outcome) :
    writeResponse g a.start ⟨.eagain :: .count m :: os,[],0⟩ =
      (processRest (a.delayed g) >>= fun r => appLoop (os.length + 2) r.1 r.2)
        ⟨os,(a.opening g).take (m + 1),0⟩ := by
  obtain ⟨f,hf⟩ := exists_afterHead g hstart
  obtain ⟨b,hb,heq⟩ := writeHeaders_accepted hacc
  have hop := hb.opening
  have hhead := writeHead_eagain hb (w := ⟨.eagain :: .count m :: os,[],0⟩) rfl
  have hd : WriteBucket.dangles
      { setFirstBodyData a.headed b a.first with freed := a.releases } = false := by
    rcases hdelay with hk | hfirst
    · simp [WriteBucket.dangles,Answer.releases,hk]
    · rw [WriteBucket.dangles,(opening_iov hch hb.plain).1 hfirst,Bool.and_false]
  have hbytes : WriteBucket.bytes
      { setFirstBodyData a.headed b a.first with freed := a.releases } = a.opening g := hop.bytes
  have hsize : (setFirstBodyData a.headed b a.first).totalSize = (a.opening g).length % 2 ^ 32 := by
    rw [hop.counted.totalSize,hop.bytes]
  have htotal : (setFirstBodyData a.headed b a.first).total = (a.opening g).length % 2 ^ 32 := by
    rw [hop.counted.total,hop.bytes]
  have hv := writevBucket_count (w := ⟨.count m :: os,[],0⟩) hd rfl
    (.inr (by rw [hbytes]; exact htotal.trans_le hn))
  rw [hbytes] at hv
  simp only [writeResponse,hf.start,heq,Action.bind_assoc]
  rw [Action.bind_apply,hhead]
  simp only [hf.suspend _ hop.counted.freed,Action.pure_bind,List.length_cons,appLoop,processBody]
  rw [Action.bind_apply,Action.bind_apply,hv]
  simp only [hsize,List.nil_append]
  rfl

theorem sends_delayed {n0 : ℕ} (hacc : a.Accepted g) (hstart : a.Startable)
    (hch : a.headed.chunkedResponse = false) (hdelay : a.Delayable)
    (hn : (a.opening g).length % 2 ^ 32 ≤ ((a.opening g).take (n0 + 1)).length)
    (h : Realizes (processRest (a.delayed g)) (a.delayed g) os t) :
    Sends g a (.eagain :: .count n0 :: os) ((a.opening g).take (n0 + 1) ++ t) := by
  obtain ⟨s,c',w',hrun,hsent,hend⟩ := h (os.length + 2) ⟨os,(a.opening g).take (n0 + 1),0⟩
    (by omega) rfl
  refine ⟨s,c',w',(writeResponse_delayed hacc hstart hch hdelay hn os).trans hrun,hsent,
    hend.of ?_ ((kept_headed a hch).trans ⟨rfl,rfl,rfl⟩)⟩
  intro hq
  have hr : (a.delayed g).response = a.start.response := headed_response a
  rwa [Client.Quiet,hr]

end Meinheld
