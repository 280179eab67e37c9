import Meinheld.StartCalls
import Meinheld.FailedResponses
import Meinheld.Retries

/-! What a response sends that must not have a body. -/
namespace Meinheld

/-! ### Responses with nothing to send -/

def Client.Silent (c : Client) : Prop :=
  match c.response.map Response.kind with
  | some (.file _ rest) =>
    rest = [] ∨ sendfileCount c.contentLength = 0 ∨ c.contentLength ≤ c.writeBytes
  | _ => ∀ items ∈ c.responseIter, ∀ i ∈ items.takeWhile Item.isBytes, i = .bytes []

/-- What the application gave does not make the response fail. -/
def Client.Sound (c : Client) : Prop :=
  match c.response.map Response.kind with
  | some (.file _ _) => sendfileRefuses c.contentLength = true → c.contentLength ≤ c.writeBytes
  | _ => ∀ items ∈ c.responseIter, ∀ i ∈ items, i.isBytes = true

theorem Client.silent_iterates {c : Client} (h : c.Iterates) : c.Silent ↔
    ∀ items ∈ c.responseIter, ∀ i ∈ items.takeWhile Item.isBytes, i = .bytes [] := by
  unfold Client.Silent
  split
  next size rest hk => exact absurd hk (h size rest)
  · rfl

theorem Client.sound_iterates {c : Client} (h : c.Iterates) : c.Sound ↔
    ∀ items ∈ c.responseIter, ∀ i ∈ items, i.isBytes = true := by
  unfold Client.Sound
  split
  next size rest hk => exact absurd hk (h size rest)
  · rfl

section Sends
variable {c : Client} {rest : Bytes}

theorem Client.Sends.silent (h : c.Sends rest) : c.Silent ↔
    rest = [] ∨ sendfileCount c.contentLength = 0 ∨ c.contentLength ≤ c.writeBytes := by
  obtain ⟨size,hk⟩ := h
  simp only [Client.Silent,hk]

theorem Client.Sends.sound (h : c.Sends rest) :
    c.Sound ↔ (sendfileRefuses c.contentLength = true → c.contentLength ≤ c.writeBytes) := by
  obtain ⟨size,hk⟩ := h
  simp only [Client.Sound,hk]

end Sends

def Spared (c : Client) (w : World) (sound : Prop) : Prop :=
  c.pages = false ∨ Nonfatal w.outcomes ∧ sound

theorem Spared.mono {c c' : Client} {w w' : World} {p q : Prop} (h : Spared c w p)
    (hpages : c'.pages = c.pages) (hos : w'.outcomes <:+ w.outcomes) (hq : p → q) : Spared c' w' q :=
  h.imp (fun h => hpages.trans h) fun h => ⟨h.1.suffix hos,hq h.2⟩

/-- A client that waits, and sends no more than `T` in all. -/
structure Client.Mute (T : Bytes) (c : Client) (w : World) : Prop where
  sent : w.sent ++ c.waiting <+: T
  chunked : c.chunkedResponse = false
  silent : c.resumed.Silent
  spared : Spared c w c.resumed.Sound

/-- A call has ended, and no more than `T` is sent in all. -/
structure Settled (T : Bytes) (r : ResponseStatus × Client) (w : World) : Prop where
  sent : w.sent <+: T
  mute : r.1 = .SUSPEND → r.2.Mute T w
  quiet : r.1 = .ERROR → r.2.pages = false

/-- The action sends no more than `T` in all. -/
abbrev Settles (T : Bytes) (x : Action (ResponseStatus × Client)) (w : World) : Prop :=
  x.Ends w (fun w' => w'.sent <+: T) (Settled T)

/-- How a call of `writev_bucket` ends. -/
structure BucketEnd (b : WriteBucket) (w : World) (r : ResponseStatus × WriteBucket) (w' : World) :
    Prop where
  sent : w'.sent <+: w.sent ++ b.bytes
  outcomes : w'.outcomes <:+ w.outcomes
  totalSize : r.1 ≠ .ERROR → r.2.totalSize = b.totalSize
  rest : r.1 = .SUSPEND → w'.sent ++ r.2.bytes = w.sent ++ b.bytes
  freed : r.1 = .SUSPEND → r.2.freed = b.freed
  fatal : r.1 = .ERROR → ¬Nonfatal w.outcomes

theorem Nonfatal.not_fatal {os : List Outcome} (h : Nonfatal os) : ¬∃ o ∈ os, o.fatal := by
  rintro ⟨o,ho,hf⟩
  rw [h o ho] at hf
  cases hf

section Mute
variable {T : Bytes} {c : Client} {w : World}

theorem writevBucket_ends (b : WriteBucket) (w : World) :
    (writevBucket b).Ends w (fun w' => w'.sent <+: w.sent ++ b.bytes) (BucketEnd b w) := by
  obtain ⟨p,hp,hworld⟩ := writevBucketLoop_world w.outcomes b w
  replace hworld : (writevBucketLoop w.outcomes b w).world.sent <+: w.sent ++ b.bytes :=
    hworld ▸ (List.prefix_append_right_inj _).mpr hp
  unfold Action.Ends writevBucket
  cases h : writevBucketLoop w.outcomes b w with
  | stop s w' =>
    rw [h] at hworld
    exact hworld
  | ret r w' =>
    obtain ⟨s,b'⟩ := r
    obtain ⟨hsent,hrest⟩ := writevBucketLoop_sent h
    have hos : w'.outcomes <:+ w.outcomes := writevBucketLoop_suffix h
    have hfatal : s = .ERROR → ¬Nonfatal w.outcomes := by
      rintro rfl hnon
      rcases writevBucketLoop_cause h with hs | ⟨hs,-⟩ | ⟨-,hf⟩
      · cases hs
      · cases hs
      · exact hnon.not_fatal hf
    cases writevBucketLoop_result h with
    | ok p _ _ hsize => exact ⟨hsent,hos,fun _ => hsize,by simp,by simp,hfatal⟩
    | suspend k _ hsus => exact ⟨hsent,hos,fun _ => hsus.totalSize,hrest,fun _ => hsus.freed,hfatal⟩
    | error => exact ⟨hsent,hos,fun hs => absurd rfl hs,by simp,by simp,hfatal⟩

theorem Spared.pages_of_fatal {p : Prop} (h : Spared c w p) (hw : ¬Nonfatal w.outcomes) :
    c.pages = false := h.resolve_right fun h => hw h.1

theorem closeResponse_settles (c : Client) (h : w.sent <+: T) : Settles T (closeResponse c) w := by
  obtain ⟨s,closed,n,hcl,hs⟩ := closeResponse_spec c w
  unfold Settles Action.Ends
  simp only [hcl]
  refine ⟨h,fun hsus => ?_,fun herr => ?_⟩
  · rcases hs with rfl | ⟨rfl,-⟩ <;> cases hsus
  · rcases hs with rfl | ⟨-,rfl⟩
    · cases herr
    · simp [Client.pages]

/-- The loop of `process_write` over empty items. -/
theorem writeItems_settles {items : List Item} (hch : c.chunkedResponse = false) (hiter : c.Iterates)
    (hitems : ∀ i ∈ items.takeWhile Item.isBytes, i = .bytes [])
    (hspared : Spared c w (∀ i ∈ items, i.isBytes = true)) (h : w.sent <+: T) :
    Settles T (writeItems items c) w := by
  induction items generalizing c w with
  | nil =>
    rw [writeItems,processItems,Action.pure_bind,finishWrite_plain (by exact hch)]
    exact closeResponse_settles _ h
  | cons i items ih =>
    have hbad : i.isBytes = false → c.pages = false := fun hi =>
      hspared.resolve_right fun hs => by simp [hi] at hs
    cases i with
    | raise => exact ⟨h,by simp,fun _ => hbad rfl⟩
    | other => exact ⟨h,by simp,fun _ => hbad rfl⟩
    | bytes d =>
      rw [List.takeWhile_cons_of_pos rfl] at hitems
      obtain rfl : d = [] := by simpa using hitems (.bytes d) (by simp)
      replace hitems : ∀ i ∈ items.takeWhile Item.isBytes, i = .bytes [] := fun i hi =>
        hitems i (List.mem_cons_of_mem _ hi)
      have hsound : (∀ i ∈ Item.bytes [] :: items, i.isBytes = true) → ∀ i ∈ items, i.isBytes = true :=
        fun hall i hi => hall i (List.mem_cons_of_mem _ hi)
      obtain ⟨hbytes,hcounted⟩ := itemBucket_plain hch []
      have hv := writevBucket_ends (itemBucket c []) w
      rw [hbytes,List.append_nil] at hv
      unfold writeItems
      rw [processItems,Action.bind_assoc]
      refine (hv.mono (fun _ hw => hw.trans h) fun _ _ => id).bind fun r w' hr => ?_
      have hsent : w'.sent <+: w.sent := by simpa [hbytes] using hr.sent
      cases hs : r.1 with
      | ERROR =>
        simp only
        exact ⟨hsent.trans h,by simp,fun _ => hspared.pages_of_fatal (hr.fatal hs)⟩
      | SUSPEND =>
        have hrest : w'.sent ++ r.2.bytes = w.sent := by simpa [hbytes] using hr.rest hs
        simp only
        refine ⟨hsent.trans h,fun _ => ⟨?_,hch,?_,?_⟩,by simp⟩
        · simp only [Client.waiting,Option.map_some,Option.getD_some,hrest]
          exact h
        · refine (Client.silent_iterates (by exact hiter)).mpr fun items' hi' => ?_
          obtain rfl := Option.some.inj hi'
          exact hitems
        · refine hspared.mono rfl hr.outcomes fun hall => ?_
          refine (Client.sound_iterates (by exact hiter)).mpr fun items' hi' => ?_
          obtain rfl := Option.some.inj hi'
          exact hsound hall
      | OK =>
        simp only
        split
        · rw [Action.pure_bind,finishWrite_plain (by exact hch)]
          exact closeResponse_settles _ (hsent.trans h)
        · exact ih (by exact hch) (by exact hiter) hitems (hspared.mono rfl hr.outcomes hsound)
            (hsent.trans h)

/-- How the loop of `process_sendfile` ends with nothing to send. -/
structure FileEnd (c : Client) (rest : Bytes) (w : World) (r : ResponseStatus × Client × Bytes)
    (w' : World) : Prop where
  sent : w'.sent = w.sent
  outcomes : w'.outcomes <:+ w.outcomes
  same : r.1 ≠ .ERROR → r.2 = (c,rest)
  failed : r.1 = .ERROR → r.2.1.pages = c.pages ∧ r.2.1.response = c.response ∧
    (Nonfatal w.outcomes → sendfileRefuses c.contentLength = true ∧ c.writeBytes < c.contentLength)

theorem sendfileLoop_ends {os : List Outcome} {rest : Bytes}
    (hc : rest = [] ∨ sendfileCount c.contentLength = 0 ∨ c.contentLength ≤ c.writeBytes)
    (hw : w.outcomes = os) : Action.Ends (sendfileLoop os rest c) w (fun w' => w'.sent = w.sent)
      (FileEnd c rest w) := by
  induction os generalizing w with
  | nil =>
    refine sendfileLoop_cases (P := fun run => Action.Ends (fun _ => run) w
      (fun w' => w'.sent = w.sent) (FileEnd c rest w)) ?_ ?_ ?_ ?_
    · exact fun _ => ⟨rfl,List.suffix_rfl,fun _ => rfl,by simp⟩
    · exact fun hlt hr => ⟨rfl,List.suffix_rfl,by simp,fun _ => ⟨rfl,rfl,fun _ => ⟨hr,hlt⟩⟩⟩
    · exact fun _ => rfl
    · rintro _ _ _ _ ⟨⟩
  | cons o os ih =>
    refine sendfileLoop_cases (P := fun run => Action.Ends (fun _ => run) w
      (fun w' => w'.sent = w.sent) (FileEnd c rest w)) ?_ ?_ ?_ ?_
    · exact fun _ => ⟨rfl,List.suffix_rfl,fun _ => rfl,by simp⟩
    · exact fun hlt hr => ⟨rfl,List.suffix_rfl,by simp,fun _ => ⟨rfl,rfl,fun _ => ⟨hr,hlt⟩⟩⟩
    · exact fun _ => rfl
    rintro hlt hr _ _ ⟨⟩
    have hos : os <:+ w.outcomes := hw ▸ List.suffix_cons o os
    rw [sendfileLoop_cons hlt hr]
    cases o with
    | eagain => exact ⟨rfl,hos,fun _ => rfl,by simp⟩
    | error epipe =>
      refine ⟨rfl,hos,by simp,fun _ => ⟨rfl,rfl,fun hnon => ?_⟩⟩
      simpa [Outcome.fatal] using hnon (.error epipe) (by simp [hw])
    | count n =>
      have hnone : rest.take (min (n + 1) (sendfileCount c.contentLength)) = [] := by
        rcases hc with rfl | h0 | hle
        · exact List.take_nil
        · rw [h0,Nat.min_zero,List.take_zero]
        · exact absurd hlt (not_lt.mpr hle)
      have hrun := ih (w := { w with outcomes := os }) rfl
      simp only [hnone,World.send,List.append_nil,List.length_nil,List.drop_zero,Nat.add_zero]
      refine Action.Ends.mono (x := fun _ => sendfileLoop os rest c { w with outcomes := os }) hrun
        (fun _ => id) fun r w' hr => ?_
      refine ⟨hr.sent,hr.outcomes.trans hos,hr.same,fun hs => ?_⟩
      obtain ⟨h1,h2,h3⟩ := hr.failed hs
      exact ⟨h1,h2,fun hnon => h3 (hnon.suffix hos)⟩

theorem pages_seek (c : Client) (rest : Bytes) :
    Client.pages { c with response := c.response.map (·.seek rest) } = c.pages := by
  simp only [Client.pages,closes_seek]

theorem processSendfile_settles {rest : Bytes} (hch : c.chunkedResponse = false)
    (hsends : c.Sends rest) (hbucket : c.bucket = none)
    (hc : rest = [] ∨ sendfileCount c.contentLength = 0 ∨ c.contentLength ≤ c.writeBytes)
    (hspared : Spared c w c.Sound) (h : w.sent <+: T) : Settles T (processSendfile c rest) w := by
  have hloop : Action.Ends (fun w => sendfileLoop w.outcomes rest c w) w _ _ :=
    sendfileLoop_ends (w := w) hc rfl
  refine (hloop.mono (R := fun w' => w'.sent <+: T) (fun w' hw => hw ▸ h) fun _ _ => id).bind
    fun r w' hr => ?_
  have hw' : w'.sent <+: T := hr.sent ▸ h
  cases hs : r.1 with
  | ERROR =>
    simp only
    refine ⟨hw',by simp,fun _ => ?_⟩
    obtain ⟨hpages,-,href⟩ := hr.failed hs
    rw [pages_seek,hpages]
    refine hspared.resolve_right fun ⟨hnon,hsound⟩ => ?_
    obtain ⟨h1,h2⟩ := href hnon
    exact absurd (hsends.sound.mp hsound h1) (not_le.mpr h2)
  | OK =>
    simp only
    exact closeResponse_settles _ hw'
  | SUSPEND =>
    simp only
    rw [hr.same (by rw [hs]; simp)]
    have hsends' : Client.Sends { c with response := c.response.map (·.seek rest) } rest :=
      hsends.seek rest rfl
    refine ⟨hw',fun _ => ⟨?_,hch,?_,?_⟩,by simp⟩
    · simpa only [Client.waiting,hbucket,Option.map_none,Option.getD_none,List.append_nil] using hw'
    · simpa only [Client.resumed,hbucket] using hsends'.silent.mpr hc
    · refine hspared.mono (pages_seek c rest) hr.outcomes fun hsound => ?_
      simpa only [Client.resumed,hbucket] using hsends'.sound.mpr (hsends.sound.mp hsound)

theorem processRest_settles (hch : c.chunkedResponse = false) (hbucket : c.bucket = none)
    (hc : c.Silent) (hspared : Spared c w c.Sound) (h : w.sent <+: T) :
    Settles T (processRest c) w := by
  by_cases hresp : c.response.isSome
  swap
  · rw [Option.not_isSome_iff_eq_none] at hresp
    unfold processRest
    rw [hresp]
    exact h
  by_cases hiter : c.Iterates
  · rw [processRest_iterates hiter hresp,processWrite]
    rw [Client.silent_iterates hiter] at hc
    rw [Client.sound_iterates hiter] at hspared
    cases hitems : c.responseIter with
    | none => exact ⟨h,by simp,by simp⟩
    | some items =>
      exact writeItems_settles hch hiter (hc items hitems)
        (hspared.mono rfl List.suffix_rfl fun hall => hall items hitems) h
  · obtain ⟨size,rest,hk⟩ : ∃ size rest, c.response.map Response.kind = some (.file size rest) := by
      simpa [Client.Iterates] using hiter
    have hsends : c.Sends rest := ⟨size,hk⟩
    obtain ⟨r,hr,hkind⟩ := Option.map_eq_some_iff.mp hk
    simp only [processRest,hr,hkind]
    exact processSendfile_settles hch hsends hbucket (hsends.silent.mp hc) hspared h

theorem Client.Mute.processBody (h : c.Mute T w) : Settles T (processBody c) w := by
  obtain ⟨hsent,hch,hsilent,hspared⟩ := h
  unfold Meinheld.processBody
  cases hb : c.bucket with
  | none =>
    simp only [Client.waiting,hb,Option.map_none,Option.getD_none,List.append_nil] at hsent
    simp only [Client.resumed,hb] at hsilent hspared
    exact processRest_settles hch hb hsilent hspared hsent
  | some b =>
    simp only [Client.waiting,hb,Option.map_some,Option.getD_some] at hsent
    simp only [Client.resumed,hb] at hsilent hspared
    refine ((writevBucket_ends b w).mono (fun _ hw => hw.trans hsent) fun _ _ => id).bind
      fun r w' hr => ?_
    cases hs : r.1 with
    | ERROR =>
      simp only
      exact ⟨hr.sent.trans hsent,by simp,fun _ => hspared.pages_of_fatal (hr.fatal hs)⟩
    | SUSPEND =>
      have hsize := hr.totalSize (by simp [hs])
      simp only
      refine ⟨hr.sent.trans hsent,fun _ => ⟨?_,hch,?_,?_⟩,by simp⟩
      · simpa only [Client.waiting,Option.map_some,Option.getD_some,hr.rest hs] using hsent
      · simpa only [Client.resumed,hsize] using hsilent
      · refine hspared.mono rfl hr.outcomes fun hsound => ?_
        simpa only [Client.resumed,hsize] using hsound
    | OK =>
      have hsize := hr.totalSize (by simp [hs])
      simp only [hsize]
      exact processRest_settles hch rfl hsilent (hspared.mono rfl hr.outcomes id)
        (hr.sent.trans hsent)

theorem Settled.appLoop {r : ResponseStatus × Client} (h : Settled T r w) (fuel : ℕ) :
    Settles T (appLoop fuel r.1 r.2) w := by
  induction fuel generalizing r w with
  | zero =>
    obtain ⟨s,c⟩ := r
    cases s with
    | OK => exact ⟨h.sent,by simp,by simp⟩
    | SUSPEND => exact h.sent
    | ERROR => exact ⟨h.sent,by simp,h.quiet⟩
  | succ fuel ih =>
    obtain ⟨s,c⟩ := r
    cases s with
    | OK => exact ⟨h.sent,by simp,by simp⟩
    | ERROR => exact ⟨h.sent,by simp,h.quiet⟩
    | SUSPEND => exact (h.mute rfl).processBody.bind fun r w' hr => ih hr

end Mute

/-! ### Bytes after the head -/

/-- The length `write_headers` declares, or the application does. -/
def Answer.declaredLength (a : Answer) : ℕ := ((appLength a.headers).or a.fileSize).getD 0

/-- The application gives bytes that the loops of the server get to. -/
def Answer.HasBody (g : Globals) (a : Answer) : Prop :=
  match a.response.kind with
  | .notIterable => False
  | .iter items => a.client.statusCode ≠ 304 ∧ ∃ i ∈ items.takeWhile Item.isBytes, i ≠ .bytes []
  | .file _ rest => rest ≠ [] ∧ sendfileCount a.declaredLength ≠ 0 ∧
      (if a.client.statusCode = 304 then (a.head g).length % 2 ^ 32 else 0) < a.declaredLength

/-- A response that fails on what the application gave once a head that was suspended is out, and that
has no `close` method to keep the error page away. -/
def Answer.Relapses (g : Globals) (a : Answer) : Prop := a.response.hasClose = false ∧
  match a.response.kind with
  | .notIterable => False
  | .iter items => a.client.statusCode ≠ 304 ∧ ∃ i ∈ items, i.isBytes = false
  | .file _ _ => sendfileRefuses a.declaredLength = true ∧
      (a.head g).length % 2 ^ 32 < a.declaredLength

theorem headed_contentLength (a : Answer) : a.headed.contentLength = a.declaredLength := by
  have hset : a.starting.contentLengthSet = false := a.fresh.contentLengthSet
  have hlen : a.starting.contentLength = 0 := a.fresh.contentLength
  unfold Answer.headed headClient Answer.declaredLength Client.withLength
  cases appLength a.headers <;> cases a.fileSize <;> simp [hset,hlen]

theorem headed_noBody {a : Answer} (h : isNoBody a.start = true) :
    a.headed.chunkedResponse = false := by
  have hno : isNoBody (a.starting.withLength (appLength a.headers)) = true := by
    rw [withLength_eq]
    exact h
  rw [headed_chunkedResponse]
  simp [choosesChunked,hno]

section Head
variable {g : Globals} {a : Answer}

theorem silent_of_not_hasBody (h : ¬a.HasBody g) (hstart : a.Startable) {c : Client}
    (hresp : c.response = some a.response) (hitems : c.responseIter = a.items)
    (hlen : c.contentLength = a.declaredLength)
    (hn : a.client.statusCode = 304 → (a.head g).length % 2 ^ 32 ≤ c.writeBytes) : c.Silent := by
  unfold Answer.HasBody at h
  have hmap : c.response.map Response.kind = some a.response.kind := by rw [hresp]; rfl
  cases hk : a.response.kind with
  | file size rest =>
    simp only [hk] at h
    push Not at h
    rw [hk] at hmap
    refine (Client.Sends.silent ⟨size,hmap⟩).mpr ?_
    rw [hlen]
    by_cases hrest : rest = []
    · exact .inl hrest
    by_cases hcount : sendfileCount a.declaredLength = 0
    · exact .inr (.inl hcount)
    refine .inr (.inr ((h hrest hcount).trans ?_))
    split
    next h304 => exact hn h304
    · exact Nat.zero_le _
  | notIterable =>
    rw [hk] at hmap
    refine (Client.silent_iterates fun size rest => by simp [hmap]).mpr fun items hi => ?_
    simp [hitems,Answer.items,hk] at hi
  | iter items =>
    simp only [hk] at h
    rw [hk] at hmap
    refine (Client.silent_iterates fun size rest => by simp [hmap]).mpr fun items' hi => ?_
    rw [hitems,Answer.items] at hi
    split at hi
    · simp at hi
    next h304 =>
      simp only [hk] at hi
      obtain rfl := Option.some.inj hi
      push Not at h
      intro i hmem
      refine h h304 i ?_
      replace hstart := hstart.resolve_left h304
      simp only [hk] at hstart
      cases items with
      | nil => exact hmem
      | cons d items =>
        obtain ⟨d,rfl⟩ := hstart d rfl
        rw [List.takeWhile_cons_of_pos rfl]
        exact List.mem_cons_of_mem _ hmem

/-- A head that waited is followed by what does not fail, unless the response relapses. -/
theorem sound_of_not_relapses (h : ¬a.Relapses g) (hclose : a.response.hasClose = false) {c : Client}
    (hresp : c.response = some a.response) (hitems : c.responseIter = a.items)
    (hlen : c.contentLength = a.declaredLength)
    (hn : (a.head g).length % 2 ^ 32 ≤ c.writeBytes) : c.Sound := by
  unfold Answer.Relapses at h
  have hmap : c.response.map Response.kind = some a.response.kind := by rw [hresp]; rfl
  cases hk : a.response.kind with
  | file size rest =>
    simp only [hk,hclose,true_and] at h
    push Not at h
    rw [hk] at hmap
    refine (Client.Sends.sound ⟨size,hmap⟩).mpr fun hr => ?_
    rw [hlen] at hr ⊢
    exact (h hr).trans hn
  | notIterable =>
    rw [hk] at hmap
    refine (Client.sound_iterates fun size rest => by simp [hmap]).mpr fun items hi => ?_
    simp [hitems,Answer.items,hk] at hi
  | iter items =>
    simp only [hk,hclose,true_and] at h
    push Not at h
    rw [hk] at hmap
    refine (Client.sound_iterates fun size rest => by simp [hmap]).mpr fun items' hi i hmem => ?_
    rw [hitems,Answer.items] at hi
    split at hi
    · simp at hi
    next h304 =>
      simp only [hk] at hi
      obtain rfl := Option.some.inj hi
      simpa using h h304 i (List.mem_of_mem_tail hmem)

theorem first_noBody (h : ¬a.HasBody g) : a.first.getD [] = [] := by
  unfold Answer.first
  split
  · rfl
  next h304 =>
    cases hk : a.response.kind with
    | notIterable => rfl
    | file size rest => rfl
    | iter items =>
      rcases items with _ | ⟨d | _ | _,items⟩
      · rfl
      · simp only [Answer.HasBody,hk] at h
        push Not at h
        have hd := h h304 (.bytes d) (by rw [List.takeWhile_cons_of_pos rfl]; exact List.mem_cons_self)
        exact Item.bytes.inj hd
      · rfl
      · rfl

theorem responseStart_silent (h : ¬a.Opens g) :
    (∃ c, responseStart g a.start = pure (.ERROR,c)) ∨ responseStart g a.start = die .crash := by
  by_cases hcrash : a.Crashes g
  · right
    funext w
    exact responseStart_crashes hcrash
  · obtain ⟨c,hc,-⟩ := responseStart_refused h hcrash
    exact .inl ⟨c,hc⟩

theorem responseStart_settles (hno : isNoBody a.start = true) (hopen : a.Opens g)
    (hbody : ¬a.HasBody g) {w : World}
    (hspared : a.response.hasClose = true ∨ Nonfatal w.outcomes ∧ ¬a.Relapses g) :
    Settles (w.sent ++ a.head g) (responseStart g a.start) w := by
  obtain ⟨hstart,hacc⟩ := hopen
  have hch := headed_noBody hno
  obtain ⟨f,hf⟩ := exists_afterHead g hstart
  obtain ⟨b,hb,heq⟩ := writeHeaders_accepted hacc
  have hopen : a.opening g = a.head g := by
    rw [Answer.opening,firstBytes_plain hch,first_noBody hbody,List.append_nil]
  have hop := hb.opening
  have hv := writevBucket_ends (setFirstBodyData a.headed b a.first) w
  rw [hop.bytes,hopen] at hv
  rw [hf.start,heq,writeHead,Action.bind_assoc]
  refine hv.bind fun r w' hr => ?_
  have hsent : w'.sent <+: w.sent ++ a.head g := by simpa [hop.bytes,hopen] using hr.sent
  cases hs : r.1 with
  | ERROR =>
    obtain ⟨c',hc',hsame⟩ := hf.error { a.headed with headerDone := true, bucket := none }
    simp only [Action.pure_bind]
    rw [hc']
    exact ⟨hsent,by simp,fun _ => hsame.pages⟩
  | OK =>
    simp only [Action.pure_bind]
    rw [show f (.OK,{ a.headed with
      headerDone := true
      bucket := none
      writeBytes := a.headed.writeBytes + (a.first.map List.length).getD 0 }) = _ from hf.ok]
    split
    · exact ⟨hsent,by simp,by simp⟩
    next h304 =>
      exact processRest_settles hch rfl (silent_of_not_hasBody hbody hstart (headed_response a)
        (headed_responseIter a) (headed_contentLength a) fun h => absurd h h304)
        (.inl (direct_pages a)) hsent
  | SUSPEND =>
    have hrest : w'.sent ++ r.2.bytes = w.sent ++ a.head g := by
      simpa [hop.bytes,hopen] using hr.rest hs
    have htotal : r.2.totalSize = (a.head g).length % 2 ^ 32 := by
      rw [hr.totalSize (by simp [hs]),hop.counted.totalSize,hop.bytes,hopen]
    simp only [Action.pure_bind]
    rw [hf.suspend r.2 ((hr.freed hs).trans hop.counted.freed)]
    refine ⟨hsent,fun _ => ⟨?_,hch,?_,?_⟩,by simp⟩
    · simp only [Client.waiting,Option.map_some,Option.getD_some]
      exact hrest ▸ List.prefix_rfl
    · refine silent_of_not_hasBody hbody hstart (headed_response a) (headed_responseIter a)
        (headed_contentLength a) fun _ => ?_
      simp only [Client.resumed,htotal]
      exact Nat.le_add_left _ _
    · have hpages : a.headed.pages = !a.response.hasClose :=
        (headed_flags a).pages.trans (start_pages a)
      cases hclose : a.response.hasClose with
      | true => exact .inl (hpages.trans (by rw [hclose]; rfl))
      | false =>
        obtain ⟨hnon,hrel⟩ := hspared.resolve_left (by simp [hclose])
        refine .inr ⟨hnon.suffix hr.outcomes,sound_of_not_relapses hrel hclose (headed_response a)
          (headed_responseIter a) (headed_contentLength a) ?_⟩
        simp only [Client.resumed,htotal]
        exact Nat.le_add_left _ _

end Head

/-! ### Schedules that reach the body -/

theorem Action.prefix_bind {α β : Type} {x : Action α} {f : α → Action β} {w : World} {t : Bytes}
    (h : t <+: (x w).world.sent) (hf : ∀ a, (f a).Appends) : t <+: ((x >>= f) w).world.sent := by
  rw [Action.bind_apply]
  cases hx : x w with
  | ret a w' =>
    rw [hx] at h
    exact h.trans (hf a w')
  | stop s w' =>
    rw [hx] at h
    exact h

/-- On the outcomes `os` the action and the loop after it send `t`, and perhaps more. -/
def Reveals (x : Action (ResponseStatus × Client)) (os : List Outcome) (t : Bytes) : Prop :=
  ∀ fuel w, os.length ≤ fuel → w.outcomes = os →
    w.sent ++ t <+: ((x >>= fun r => appLoop fuel r.1 r.2) w).world.sent

theorem takeWhile_isBytes (items : List Item) :
    ∃ ds : List Bytes, items.takeWhile Item.isBytes = ds.map .bytes := by
  induction items with
  | nil => exact ⟨[],rfl⟩
  | cons i items ih =>
    obtain ⟨ds,hds⟩ := ih
    cases i with
    | raise => exact ⟨[],rfl⟩
    | other => exact ⟨[],rfl⟩
    | bytes d => exact ⟨d :: ds,by rw [List.takeWhile_cons_of_pos rfl,hds]; rfl⟩

theorem exists_reveals_items {c : Client} (ds : List Bytes) (items : List Item)
    (hch : c.chunkedResponse = false) (hiter : c.Iterates) (hresp : c.response.isSome) :
    ∃ os, Nonfatal os ∧ Reveals (writeItems (ds.map .bytes ++ items) c) os ds.flatten := by
  induction ds generalizing c with
  | nil =>
    refine ⟨[],by simp [Nonfatal],fun fuel w _ _ => ?_⟩
    rw [List.flatten_nil,List.append_nil]
    exact ((Action.Appends.bind (processItems_appends _ c) finishWrite_appends).bind fun r =>
      appLoop_appends fuel r.1 r.2) w
  | cons d ds ih =>
    obtain ⟨os,hos,h⟩ := ih (c := c.afterItem (ds.map .bytes ++ items) (d.length % 2 ^ 32)) hch hiter hresp
    refine ⟨.eagain :: .count d.length :: os,.cons rfl (.cons rfl hos),fun fuel w hfuel hw => ?_⟩
    simp only [List.length_cons] at hfuel
    obtain ⟨fuel,rfl⟩ : ∃ n, fuel = n + 1 := ⟨fuel - 1,by omega⟩
    have hrest := h fuel { w with outcomes := os, sent := w.sent ++ d } (by omega) rfl
    rw [List.map_cons,List.cons_append,writeItems_skip fuel hch hiter hresp hw,List.flatten_cons,
      ← List.append_assoc]
    exact hrest

theorem reveals_file {c : Client} {b : Byte} {rest : Bytes}
    (hcount : sendfileCount c.contentLength ≠ 0) (hlt : c.writeBytes < c.contentLength) :
    Reveals (processSendfile c (b :: rest)) [.count 0] [b] := by
  intro fuel w _ hw
  refine Action.prefix_bind ?_ fun r => appLoop_appends fuel r.1 r.2
  refine Action.prefix_bind ?_ fun r => ?_
  · rw [hw,sendfileLoop_count hlt (Nat.one_le_iff_ne_zero.mpr hcount) (by simp)]
    exact sendfileLoop_appends [] rest { c with writeBytes := c.writeBytes + (0 + 1) }
      { w with outcomes := [], sent := w.sent ++ [b] }
  · simp only
    split
    · exact closeResponse_appends _
    · exact .pure _

/-- The action fails once `os` is used up and `t` sent, whatever comes then, and an error page is to
follow. -/
def Relapsing (x : Action (ResponseStatus × Client)) (c : Client) (os : List Outcome) (t : Bytes) :
    Prop := ∀ fuel os' w, os.length ≤ fuel → w.outcomes = os ++ os' → ∃ c',
  (x >>= fun r => appLoop fuel r.1 r.2) w =
    .ret (.ERROR,c') { w with outcomes := os', sent := w.sent ++ t } ∧ c'.pages = c.pages

/-- Items of bytes go out before one that is no bytes. -/
theorem exists_relapsing_items {c : Client} (ds : List Bytes) {i : Item} (items : List Item)
    (hi : i.isBytes = false) (hch : c.chunkedResponse = false) (hiter : c.Iterates)
    (hresp : c.response.isSome) : ∃ os, Nonfatal os ∧
      Relapsing (writeItems (ds.map .bytes ++ i :: items) c) c os ds.flatten := by
  induction ds generalizing c with
  | nil =>
    refine ⟨[],by simp [Nonfatal],fun fuel os' w _ hw => ?_⟩
    obtain rfl : w.outcomes = os' := hw
    have hrun : ∃ c', writeItems (i :: items) c w = .ret (.ERROR,c') w ∧ c'.pages = c.pages := by
      cases i with
      | bytes d => cases hi
      | raise => exact ⟨{ c with responseIter := some [] },rfl,rfl⟩
      | other => exact ⟨{ c with responseIter := some items, statusCode := 500 },rfl,rfl⟩
    obtain ⟨c',hrun,hpages⟩ := hrun
    refine ⟨c',?_,hpages⟩
    rw [List.map_nil,List.nil_append,Action.bind_apply,hrun]
    simp only [appLoop_of_ne (show ResponseStatus.ERROR ≠ .SUSPEND by simp),List.flatten_nil,
      List.append_nil]
  | cons d ds ih =>
    obtain ⟨os,hos,h⟩ :=
      ih (c := c.afterItem (ds.map .bytes ++ i :: items) (d.length % 2 ^ 32)) hch hiter hresp
    refine ⟨.eagain :: .count d.length :: os,.cons rfl (.cons rfl hos),fun fuel os' w hfuel hw => ?_⟩
    simp only [List.length_cons] at hfuel
    obtain ⟨fuel,rfl⟩ : ∃ n, fuel = n + 1 := ⟨fuel - 1,by omega⟩
    obtain ⟨c',hrun,hpages⟩ := h fuel os' { w with outcomes := os ++ os', sent := w.sent ++ d }
      (by omega) rfl
    refine ⟨c',?_,hpages⟩
    rw [List.map_cons,List.cons_append,writeItems_skip fuel hch hiter hresp hw,List.flatten_cons,
      ← List.append_assoc]
    exact hrun

theorem relapsing_file {c : Client} {rest : Bytes} (hr : sendfileRefuses c.contentLength = true)
    (hlt : c.writeBytes < c.contentLength) : Relapsing (processSendfile c rest) c [] [] := by
  intro fuel os' w _ hw
  obtain rfl : w.outcomes = os' := hw
  refine ⟨{ c with
    keepAlive := false
    statusCode := 500
    response := c.response.map (·.seek rest) },?_,pages_seek c rest⟩
  have hloop := sendfileLoop_refused hlt hr w.outcomes rest w
  simp only [processSendfile,Action.bind_assoc]
  rw [Action.bind_apply,hloop]
  simp only [Action.pure_bind,appLoop_of_ne (show ResponseStatus.ERROR ≠ .SUSPEND by simp),
    List.append_nil]

theorem not_prefix_append {s t : Bytes} (ht : t ≠ []) : ¬s ++ t <+: s := by
  intro h
  have hle := h.length_le
  rw [List.length_append] at hle
  exact ht (List.length_eq_zero_iff.mp (by omega))

/-- A response that must not have a body has none, on every list of results with `P`: no byte is sent
after the head while the response is written, and none when `app_handler` ends it with the head
sent. -/
def Answer.Bodiless (g : Globals) (a : Answer) (P : List Outcome → Prop) : Prop := ∀ w, P w.outcomes →
  (writeResponse g a.start w).world.sent <+: w.sent ++ a.head g ∧
    ∀ r w', writeResponse g a.start w = .ret r w' → w'.sent = w.sent ++ a.head g →
      (respond g a.start w).world.sent = w'.sent

section
variable {g : Globals} {a : Answer}

theorem opening_of_noBody (hno : isNoBody a.start = true) (hfirst : a.first.getD [] = []) :
    a.opening g = a.head g := by
  rw [Answer.opening,firstBytes_plain (headed_noBody hno),hfirst,List.append_nil]

theorem exceeds_of_reveals {t : Bytes} (hno : isNoBody a.start = true) (hopen : a.Opens g)
    (hfirst : a.first.getD [] = []) {os : List Outcome} (ht : t ≠ []) (hos : Nonfatal os)
    (h : Reveals a.after os t ∨ Reveals (processRest (a.delayed g)) os t) :
    ¬a.Bodiless g Nonfatal := by
  intro hbodiless
  obtain ⟨hstart,hacc⟩ := hopen
  have hch := headed_noBody hno
  have hopen := opening_of_noBody (g := g) hno hfirst
  have htake : (a.opening g).take ((a.opening g).length + 1) = a.head g := by rw [take_all,hopen]
  have hn : (a.opening g).length % 2 ^ 32 ≤
      ((a.opening g).take ((a.opening g).length + 1)).length := by
    rw [take_all]
    exact Nat.mod_le _ _
  refine not_prefix_append (s := a.head g) ht ?_
  rcases h with h | h
  · have hp := (hbodiless ⟨.count (a.opening g).length :: os,[],0⟩ (.cons rfl hos)).1
    rw [writeResponse_direct hacc hstart hn,htake] at hp
    exact (h (os.length + 2) ⟨os,a.head g,0⟩ (by omega) rfl).trans hp
  · have hp := (hbodiless ⟨.eagain :: .count (a.opening g).length :: os,[],0⟩
      (.cons rfl (.cons rfl hos))).1
    rw [writeResponse_delayed hacc hstart hch (.inr hfirst) hn,htake] at hp
    exact (h (os.length + 2) ⟨os,a.head g,0⟩ (by omega) rfl).trans hp

theorem not_bodiless_of_file {size : ℕ} {rest : Bytes} (hno : isNoBody a.start = true) (hopen : a.Opens g)
    (hk : a.response.kind = .file size rest) (hbody : a.HasBody g) : ¬a.Bodiless g Nonfatal := by
  unfold Answer.HasBody at hbody
  simp only [hk] at hbody
  obtain ⟨hrest,hcount,hlt⟩ := hbody
  obtain ⟨b,rest,rfl⟩ := List.exists_cons_of_ne_nil hrest
  have hfirst := first_of_file hk
  rw [← headed_contentLength] at hcount hlt
  suffices hreveals : Reveals a.after [.count 0] [b] ∨
      Reveals (processRest (a.delayed g)) [.count 0] [b] from
    exceeds_of_reveals hno hopen (by rw [hfirst]; rfl) (List.cons_ne_nil b [])
      (.cons rfl (by simp [Nonfatal])) hreveals
  by_cases h304 : a.client.statusCode = 304
  · right
    rw [if_pos h304] at hlt
    rw [processRest_delayed hk]
    refine reveals_file hcount ?_
    rw [delayed_writeBytes,opening_of_file hk]
    exact hlt
  · left
    rw [if_neg h304] at hlt
    rw [Answer.after,if_neg h304,processRest_direct hk]
    refine reveals_file hcount ?_
    rw [direct_writeBytes,hfirst]
    exact hlt

/-- Some item behind an empty first one has bytes. -/
theorem not_bodiless_of_later {items : List Item} (hno : isNoBody a.start = true) (hopen : a.Opens g)
    (h304 : ¬a.client.statusCode = 304) (hk : a.response.kind = .iter (.bytes [] :: items)) {i : Item}
    (hi : i ∈ items.takeWhile Item.isBytes) (hne : i ≠ .bytes []) : ¬a.Bodiless g Nonfatal := by
  have hfirst : a.first = some [] := by simp [Answer.first,h304,hk]
  obtain ⟨ds,hds⟩ := takeWhile_isBytes items
  have hflat : ds.flatten ≠ [] := by
    rw [hds] at hi
    obtain ⟨e,he,rfl⟩ := List.mem_map.mp hi
    intro hnil
    exact hne (congrArg _ (List.flatten_eq_nil_iff.mp hnil e he))
  have hproc : processRest (a.delayed g) = writeItems (ds.map .bytes ++ items.dropWhile Item.isBytes)
      (a.delayed g) := by
    rw [processRest_delayed_iter h304 hk,List.tail_cons,← hds,List.takeWhile_append_dropWhile]
  obtain ⟨os,hos,h⟩ := exists_reveals_items (c := a.delayed g) ds (items.dropWhile Item.isBytes)
    (headed_noBody hno) (delayed_iterates hk g) (delayed_response g a)
  exact exceeds_of_reveals hno hopen (by rw [hfirst]; rfl) hflat hos (.inr (hproc ▸ h))

/-- The first item goes out with the head. -/
theorem not_bodiless_of_first {d : Bytes} (hno : isNoBody a.start = true) (hopen : a.Opens g)
    (hfirst : a.first = some d) (hd : d ≠ []) : ¬a.Bodiless g Nonfatal := by
  have hopening : a.opening g = a.head g ++ d := by
    rw [Answer.opening,firstBytes_plain (headed_noBody hno),hfirst,Option.getD_some]
  intro hbodiless
  refine not_prefix_append (s := a.head g) hd ?_
  have hp := (hbodiless ⟨[.count (a.opening g).length],[],0⟩ (.cons rfl (by simp [Nonfatal]))).1
  rw [writeResponse_direct hopen.2 hopen.1 (by rw [take_all]; exact Nat.mod_le _ _),take_all,
    hopening] at hp
  refine List.IsPrefix.trans ?_ hp
  refine Action.prefix_bind ?_ fun r => appLoop_appends _ r.1 r.2
  unfold Answer.after
  split
  · exact List.prefix_rfl
  · exact processRest_appends a.direct ⟨[],a.head g ++ d,0⟩

theorem not_bodiless_of_hasBody (hno : isNoBody a.start = true) (hopen : a.Opens g)
    (hbody : a.HasBody g) : ¬a.Bodiless g Nonfatal := by
  cases hk : a.response.kind with
  | notIterable => simp [Answer.HasBody,hk] at hbody
  | file size rest => exact not_bodiless_of_file hno hopen hk hbody
  | iter items =>
    simp only [Answer.HasBody,hk] at hbody
    obtain ⟨h304,i,hi,hne⟩ := hbody
    obtain ⟨d,items,rfl⟩ : ∃ d items', items = .bytes d :: items' := by
      rcases items with _ | ⟨d | _ | _,items⟩
      · simp at hi
      · exact ⟨d,items,rfl⟩
      · simp [Item.isBytes] at hi
      · simp [Item.isBytes] at hi
    by_cases hd : d = []
    · subst hd
      rw [List.takeWhile_cons_of_pos rfl,List.mem_cons] at hi
      exact not_bodiless_of_later hno hopen h304 hk (hi.resolve_left hne) hne
    · exact not_bodiless_of_first hno hopen (by simp [Answer.first,h304,hk]) hd

/-! ### Error pages after the head -/

/-- An error page is sent when the response of such a client fails. -/
theorem respond_of_pages {c c' : Client} {w w' : World} {n : ℕ}
    (h : writeResponse g c w = .ret (.ERROR,c') w') (hpages : c'.pages = true)
    (hw : w'.outcomes = [.count n]) : (respond g c w).world.sent ≠ w'.sent := by
  have hflags : c'.headerDone = false ∧ c'.responseClosed = false ∧ c'.closes = false := by
    simpa [Client.pages,and_assoc] using hpages
  obtain ⟨hdone,hclosed,hcloses⟩ := hflags
  have hclose : closeResponse { c' with statusCode := 500 } w' =
      .ret (.OK,{ c' with statusCode := 500 }) w' := by
    unfold closeResponse
    unfold Client.closes at hcloses
    cases hr : c'.response with
    | none => simp only
    | some r =>
      rw [hr,Option.any_some] at hcloses
      simp only [hcloses,Bool.false_eq_true,and_false,if_false]
  have hlong : ∃ b rest, errorHead 500 ++ errorBody 500 = b :: rest := ⟨_,_,rfl⟩
  obtain ⟨b,rest,hpage⟩ := hlong
  have hcond : ¬(c'.headerDone = true ∨ c'.responseClosed = true) := by simp [hdone,hclosed]
  rw [respond_eq,Action.bind_apply,h]
  simp only [endResponse,appError,Action.bind_apply,hclose,sendErrorPage,if_neg hcond,hpage,
    blockingWrite,hw,blockingWriteLoop]
  intro heq
  cases hrest : (b :: rest).drop (n + 1) with
  | nil => simp [hrest,blockingWriteLoop,Run.world,World.send] at heq
  | cons e es => simp [hrest,blockingWriteLoop,Run.world,World.send] at heq

theorem not_bodiless_of_relapsing (hno : isNoBody a.start = true) (hopen : a.Opens g)
    (hfirst : a.first.getD [] = []) (hclose : a.response.hasClose = false) {os : List Outcome}
    (hos : Nonfatal os) (h : Relapsing (processRest (a.delayed g)) (a.delayed g) os []) :
    ¬a.Bodiless g Nonfatal := by
  intro hbodiless
  have hch := headed_noBody hno
  obtain ⟨c',hrun,hpages⟩ := h ((os ++ [Outcome.count 0]).length + 2) [.count 0]
    ⟨os ++ [.count 0],a.head g,0⟩ (by rw [List.length_append]; omega) rfl
  have hret := writeResponse_delayed (m := (a.opening g).length) hopen.2 hopen.1 hch (.inr hfirst)
    (by rw [take_all]; exact Nat.mod_le _ _) (os ++ [.count 0])
  rw [take_all,opening_of_noBody hno hfirst,hrun] at hret
  have hp : c'.pages = true := by
    have hdelayed : (a.delayed g).pages = a.start.pages := (headed_flags a).pages
    rw [hpages,hdelayed,start_pages,hclose]
    rfl
  refine respond_of_pages hret hp rfl ((hbodiless _ ?_).2 _ _ hret (by simp))
  exact .cons rfl (.cons rfl (hos.append (.cons rfl (by simp [Nonfatal]))))

theorem not_bodiless_of_relapses (hno : isNoBody a.start = true) (hopen : a.Opens g)
    (hbody : ¬a.HasBody g) (hrel : a.Relapses g) : ¬a.Bodiless g Nonfatal := by
  have hfirst := first_noBody hbody
  obtain ⟨hclose,hrel⟩ := hrel
  cases hk : a.response.kind with
  | notIterable => simp [hk] at hrel
  | file size rest =>
    simp only [hk] at hrel
    obtain ⟨hr,hlt⟩ := hrel
    rw [← headed_contentLength] at hr hlt
    have hrun : Relapsing (processRest (a.delayed g)) (a.delayed g) [] [] := by
      rw [processRest_delayed hk]
      refine relapsing_file hr ?_
      rw [delayed_writeBytes,opening_of_file hk]
      exact hlt
    exact not_bodiless_of_relapsing hno hopen hfirst hclose (by simp [Nonfatal]) hrun
  | iter items =>
    simp only [hk] at hrel
    obtain ⟨h304,i,hi,hbad⟩ := hrel
    -- the items before the first that is no bytes are empty
    simp only [Answer.HasBody,hk] at hbody
    push Not at hbody
    replace hbody := hbody h304
    obtain ⟨d,items,rfl⟩ : ∃ d items', items = .bytes d :: items' := by
      have hstart := hopen.1.resolve_left h304
      simp only [hk] at hstart
      cases items with
      | nil => simp at hi
      | cons d items =>
        obtain ⟨d,rfl⟩ := hstart d rfl
        exact ⟨d,items,rfl⟩
    rw [List.takeWhile_cons_of_pos rfl] at hbody
    replace hi : i ∈ items := by
      refine (List.mem_cons.mp hi).resolve_left ?_
      rintro rfl
      cases hbad
    obtain ⟨ds,hds⟩ := takeWhile_isBytes items
    have hempty : ds.flatten = [] := by
      refine List.flatten_eq_nil_iff.mpr fun e he => ?_
      have he' := hbody (.bytes e) (by rw [hds]; exact List.mem_cons_of_mem _ (List.mem_map.mpr ⟨e,he,rfl⟩))
      exact Item.bytes.inj he'
    obtain ⟨j,later,hlater,hj⟩ : ∃ j later, items.dropWhile Item.isBytes = j :: later ∧
        j.isBytes = false := by
      cases hdrop : items.dropWhile Item.isBytes with
      | nil => simp [List.dropWhile_eq_nil_iff.mp hdrop i hi] at hbad
      | cons j later =>
        refine ⟨j,later,rfl,?_⟩
        have hhead := List.head_dropWhile_not Item.isBytes (l := items) (by simp [hdrop])
        simpa [hdrop] using hhead
    obtain ⟨os,hos,h⟩ := exists_relapsing_items (c := a.delayed g) ds later hj (headed_noBody hno)
      (delayed_iterates hk g) (delayed_response g a)
    have hproc : processRest (a.delayed g) = writeItems (ds.map .bytes ++ j :: later) (a.delayed g) := by
      rw [processRest_delayed_iter h304 hk,List.tail_cons,← hds,← hlater,
        List.takeWhile_append_dropWhile]
    rw [hempty] at h
    exact not_bodiless_of_relapsing hno hopen hfirst hclose hos (hproc ▸ h)

/-! ### A head that goes out without its end being noticed -/

theorem advanceLeft_append {w : ℕ} {pre : List Iovec} (vs : List Iovec)
    (h : (pre.flatMap (·.base)).length < w) :
    advanceLeft w (pre ++ vs) = advanceLeft (w - (pre.flatMap (·.base)).length) vs := by
  induction pre generalizing w with
  | nil => rfl
  | cons v pre ih =>
    rw [List.flatMap_cons,List.length_append] at h
    rw [List.cons_append,advanceLeft,if_pos (by omega),ih (by omega),List.flatMap_cons,
      List.length_append,Nat.sub_sub]

/-- When all but the last byte of a head goes out, and then that byte, its counter does not tell that
it is out: `writev` is called once more. -/
theorem writevBucketLoop_exhausts {b : WriteBucket} {pre tail : List Iovec}
    (hiov : b.iov = pre ++ ⟨CRLF,false⟩ :: tail) (htail : tail.flatMap (·.base) = [])
    (hd : b.dangles = false) (htotal : b.total = b.bytes.length) (hlen : 2 < b.bytes.length)
    (os : List Outcome) (w : World) : ∃ b',
      writevBucketLoop (.count (b.bytes.length - 2) :: .count 0 :: .error false :: os) b w =
        .ret (.ERROR,b') { w with outcomes := os, sent := w.sent ++ b.bytes } := by
  have hbytes : b.bytes = pre.flatMap (·.base) ++ CRLF := by
    rw [WriteBucket.bytes,hiov,List.flatMap_append,List.flatMap_cons,htail,List.append_nil]
  have hpre : (pre.flatMap (·.base)).length + 2 = b.bytes.length := by
    rw [hbytes,List.length_append]
    rfl
  have htake : (b.bytes.take (b.bytes.length - 2 + 1)).length = b.bytes.length - 1 := by
    rw [List.length_take]
    omega
  have hleft : advanceLeft (b.bytes.length - 1) b.iov = 1 := by
    rw [hiov,advanceLeft_append _ (by omega),show b.bytes.length - 1 -
      (pre.flatMap (·.base)).length = 1 by omega]
    rfl
  have hsus := suspended_advance b (b.bytes.length - 1)
  have hd1 := hsus.dangles hd
  rw [hleft] at hsus hd1
  have hrest : (b.bytes.drop (b.bytes.length - 1)).length = 1 := by
    rw [List.length_drop]
    omega
  have hall : (b.bytes.drop (b.bytes.length - 1)).take (0 + 1) = b.bytes.drop (b.bytes.length - 1) :=
    List.take_of_length_le (by omega)
  obtain ⟨b2,hd2,hlast⟩ : ∃ b2 : WriteBucket, b2.dangles = false ∧ ∀ os w,
      writevBucketLoop (.count 0 :: os)
        { b with iov := advance (b.bytes.length - 1) b.iov, total := b.total - 1 } w =
      writevBucketLoop os b2
        (World.send { w with outcomes := os } (b.bytes.drop (b.bytes.length - 1))) := by
    refine ⟨_,(suspended_advance _ 1).dangles hd1,fun os w => ?_⟩
    rw [writevBucketLoop_turn hd1 (by rw [hsus.bytes,hall,hrest]; omega)
      (by rw [hsus.bytes,hall,hrest]; simp only; omega)]
    simp only [hsus.bytes,hall,hrest]
  refine ⟨b2,?_⟩
  rw [writevBucketLoop_turn hd (by omega) (by omega),htake,hleft,hlast,writevBucketLoop_error hd2]
  simp only [World.send,List.append_assoc,show b.bytes.length - 2 + 1 = b.bytes.length - 1 by omega,
    List.take_append_drop]

/-- The first bucket ends with the empty line, but for an empty item. -/
theorem firstBucket_iov (hch : a.headed.chunkedResponse = false) (hfirst : a.first.getD [] = [])
    {b : WriteBucket} (hb : a.firstBucket g = some b) : ∃ pre tail,
      b.iov = pre ++ ⟨CRLF,false⟩ :: tail ∧ tail.flatMap (·.base) = [] := by
  obtain ⟨hs,hhs,hb⟩ := Option.bind_eq_some_iff.mp hb
  cases hbuild : buildHead g a.starting hs a.first a.fileSize with
  | error c => simp [hbuild] at hb
  | crash => simp [hbuild] at hb
  | ok c b1 =>
    simp only [hbuild,Option.some.injEq] at hb
    have hc : c = a.headed := by
      rw [(buildHead_ok hbuild).2,Answer.headed,Answer.headers,hhs,Option.getD_some]
    have hlast : ∃ pre, b1.iov = pre ++ [⟨CRLF,false⟩] := by
      unfold buildHead at hbuild
      split at hbuild
      · obtain ⟨-,rfl⟩ := HeadersResult.ok.inj hbuild
        exact ⟨_,rfl⟩
      next hno => exact absurd hbuild (hno _ _)
    obtain ⟨pre,hpre⟩ := hlast
    subst hc hb
    cases hf : a.first with
    | none => exact ⟨pre,[],hpre,rfl⟩
    | some d =>
      have hd : d = [] := by simpa [hf] using hfirst
      refine ⟨pre,[⟨d,true⟩],?_,by simp [hd]⟩
      simp only [setFirstBodyData,hch,Bool.false_eq_true,if_false,set2bucket,hpre,List.append_assoc,
        List.cons_append,List.nil_append]

theorem head_two_lt (g : Globals) (a : Answer) : 2 < (a.head g).length := by
  simp [Answer.head,headBytes,headLines,headerLine]
  omega

/-- An error of the socket after a head that waited. -/
theorem not_bodiless_of_open (hno : isNoBody a.start = true) (hopen : a.Opens g)
    (hbody : ¬a.HasBody g) (hclose : a.response.hasClose = false)
    (hlen : (a.head g).length < 2 ^ 32) : ¬a.Bodiless g fun _ => True := by
  intro hbodiless
  have hch := headed_noBody hno
  have hfirst := first_noBody hbody
  obtain ⟨f,hf⟩ := exists_afterHead g hopen.1
  obtain ⟨b,hb,heq⟩ := writeHeaders_accepted hopen.2
  have hop := hb.opening
  have hbytes : (setFirstBodyData a.headed b a.first).bytes = a.head g :=
    hop.bytes.trans (opening_of_noBody hno hfirst)
  obtain ⟨pre,tail,hiov,htail⟩ := firstBucket_iov hch hfirst hb.built
  have hd : WriteBucket.dangles
      { setFirstBodyData a.headed b a.first with freed := a.releases } = false := by
    rw [WriteBucket.dangles,(opening_iov hch hb.plain).1 hfirst,Bool.and_false]
  have htotal : (setFirstBodyData a.headed b a.first).total = (a.head g).length := by
    rw [hop.counted.total,hbytes,Nat.mod_eq_of_lt hlen]
  obtain ⟨b',hv⟩ := writevBucketLoop_exhausts (b := { setFirstBodyData a.headed b a.first with
    freed := a.releases }) hiov htail hd (htotal.trans (congrArg List.length hbytes).symm)
    ((head_two_lt g a).trans_eq (congrArg List.length hbytes).symm) [.count 0]
    ⟨.count ((a.head g).length - 2) :: .count 0 :: .error false :: [.count 0],[],0⟩
  rw [show WriteBucket.bytes { setFirstBodyData a.headed b a.first with freed := a.releases } =
    a.head g from hbytes] at hv
  have hhead := writeHead_eagain hb
    (w := ⟨.eagain :: .count ((a.head g).length - 2) :: .count 0 :: .error false :: [.count 0],[],0⟩) rfl
  have hret : writeResponse g a.start
      ⟨.eagain :: .count ((a.head g).length - 2) :: .count 0 :: .error false :: [.count 0],[],0⟩ =
        .ret (.ERROR,{ a.headed with bucket := none }) ⟨[.count 0],a.head g,0⟩ := by
    simp only [writeResponse,hf.start,heq,Action.bind_assoc]
    rw [Action.bind_apply,hhead]
    simp only [hf.suspend _ hop.counted.freed,Action.pure_bind,List.length_cons,appLoop,processBody]
    rw [Action.bind_apply,Action.bind_apply,writevBucket,hv]
    rfl
  have hpages : Client.pages { a.headed with bucket := none } = true := by
    have hheaded : a.headed.pages = a.start.pages := (headed_flags a).pages
    refine hheaded.trans ?_
    rw [start_pages,hclose]
    rfl
  exact respond_of_pages hret hpages rfl ((hbodiless _ trivial).2 _ _ hret (by simp))

/-! ### The condition -/

theorem bodiless_of_spared {P : List Outcome → Prop} (hno : isNoBody a.start = true)
    (h : a.Opens g → ¬a.HasBody g ∧ ∀ os, P os →
      a.response.hasClose = true ∨ Nonfatal os ∧ ¬a.Relapses g) : a.Bodiless g P := by
  intro w hw
  by_cases hopen : a.Opens g
  · obtain ⟨hbody,hspared⟩ := h hopen
    have hrun : Settles (w.sent ++ a.head g) (writeResponse g a.start) w :=
      (responseStart_settles hno hopen hbody (hspared _ hw)).bind fun r w' hr => hr.appLoop _
    refine ⟨(hrun.mono (fun _ => id) fun _ _ hr => hr.sent).world,fun r w' hret _ => ?_⟩
    obtain ⟨c',w1,hend,hsent⟩ := endResponse_quiet (hrun.of_ret hret).quiet w'
    rw [respond_eq,Action.bind_apply,hret]
    simp only
    rw [hend]
    exact hsent
  · have hnone : (writeResponse g a.start w).world.sent = w.sent := by
      unfold writeResponse
      rw [Action.bind_apply]
      rcases responseStart_silent hopen with ⟨c,hc⟩ | hc
      · rw [hc]
        simp only [Action.pure_apply,appLoop_of_ne (show ResponseStatus.ERROR ≠ .SUSPEND by simp)]
        rfl
      · rw [hc]
        rfl
    refine ⟨hnone ▸ List.prefix_append _ _,fun r w' hret hsent => ?_⟩
    rw [hret] at hnone
    have hhead : a.head g = [] := List.self_eq_append_right.mp (hnone.symm.trans hsent)
    have hpos := head_pos g a
    simp [hhead] at hpos

end

/-- A `204 No Content` with these items. -/
def noContent (items : List Item) : Answer where
  client := {
    currentReq := some { method := .GET }
    httpParser := { httpMinor := 1 }
    statusCode := 204
    httpStatus := some (ascii "HTTP/1.1 204 No Content\r\n")
    headers := some [] }
  response := { kind := .iter items }
  fresh := ⟨rfl,rfl,rfl,rfl,rfl,rfl⟩
  notClosed := rfl

end Meinheld
