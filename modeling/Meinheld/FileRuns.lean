import Meinheld.KeepAlive
import Meinheld.Liveness

/-! How a file goes out behind its head, also when the loop of `process_sendfile` never comes to its
end. -/
namespace Meinheld

/-! ### The loop of `app_handler` -/

/-- A turn of the loop comes to the end `R`, or leaves what the next one needs. -/
def LoopTurn (R : ResponseStatus × Client → World → Prop) (I : Client → World → Prop) (n : ℕ)
    (r : ResponseStatus × Client) (w : World) : Prop :=
  R r w ∨ r.1 = .SUSPEND ∧ I r.2 w ∧ w.outcomes.length < n

section Rule
variable {S : World → Prop} {R : ResponseStatus × Client → World → Prop}
  {I : Client → World → Prop}

theorem appLoop_rule (hR : ∀ r w, R r w → r.1 ≠ .SUSPEND)
    (hturn : ∀ c w, I c w → (processBody c).Ends w S (LoopTurn R I w.outcomes.length)) {fuel : ℕ}
    {r : ResponseStatus × Client} {w : World} (h : LoopTurn R I fuel r w) :
    (appLoop fuel r.1 r.2).Ends w S R := by
  have hdone : ∀ {fuel} {r : ResponseStatus × Client} {w}, R r w → (appLoop fuel r.1 r.2).Ends w S R := by
    intro fuel r w hr
    unfold Action.Ends
    rw [appLoop_of_ne (hR r w hr)]
    exact hr
  induction fuel generalizing r w with
  | zero => exact hdone (h.resolve_right fun hs => Nat.not_lt_zero _ hs.2.2)
  | succ fuel ih =>
    rcases h with hr | ⟨hs,hi,hfuel⟩
    · exact hdone hr
    · obtain ⟨s,c⟩ := r
      obtain rfl : s = .SUSPEND := hs
      rw [appLoop]
      refine (hturn c w hi).bind fun r' w' hr' => ih (hr'.imp_right fun hs' => ?_)
      obtain ⟨hs',hi',hless⟩ := hs'
      exact ⟨hs',hi',by omega⟩

end Rule

/-! ### A bucket -/

/-- A bucket that goes out in full: each call takes a byte of it or ends it. -/
theorem writevBucketLoop_fills {os : List Outcome} {b : WriteBucket} {w : World} {k : ℕ} {L : Bytes}
    (hd : b.dangles = false) (hb : b.Enough) (hos : Nonfatal os) (hw : w.outcomes = os)
    (hL : w.sent ++ b.bytes = L) (hk : k ≤ takings os + w.sent.length) :
    Action.Ends (writevBucketLoop os b) w (fun w' => w'.sent <+: L ∧ k ≤ w'.sent.length)
      fun r w' => Nonfatal w'.outcomes ∧ w'.outcomes.length < os.length ∧
        (r.1 = .OK ∧ r.2.totalSize = b.totalSize ∧ w'.sent = L ∧
            k ≤ takings w'.outcomes + L.length + 1 ∨
          r.1 = .SUSPEND ∧ w'.sent ++ r.2.bytes = L ∧ k ≤ takings w'.outcomes + w'.sent.length ∧
            ∃ j, Suspended b r.2 j) := by
  induction os generalizing b w with
  | nil =>
    simp only [takings,List.countP_nil,Nat.zero_add] at hk
    exact ⟨hL ▸ List.prefix_append _ _,hk⟩
  | cons o os ih =>
    have hos' : Nonfatal os := fun p hp => hos p (List.mem_cons_of_mem _ hp)
    rw [takings_cons] at hk
    cases o with
    | error epipe => simpa [Outcome.fatal] using hos (.error epipe) List.mem_cons_self
    | eagain =>
      unfold Action.Ends
      rw [writevBucketLoop_eagain hd]
      exact ⟨hos',Nat.lt_succ_self _,.inr ⟨rfl,hL,by simpa using hk,0,.refl b⟩⟩
    | count n =>
      simp only [ne_eq,reduceCtorEq,not_false_eq_true,if_true] at hk
      have hlen : (b.bytes.take (n + 1)).length ≤ b.bytes.length := List.length_take_le' _ _
      by_cases hmore : (b.bytes.take (n + 1)).length ≠ 0 ∧ (b.bytes.take (n + 1)).length < b.total
      · have hsus := suspended_advance b (b.bytes.take (n + 1)).length
        have hsplit : b.bytes.take (n + 1) ++ b.bytes.drop (b.bytes.take (n + 1)).length = b.bytes :=
          (List.prefix_iff_eq_append.mp (List.take_prefix _ _))
        unfold Action.Ends
        rw [writevBucketLoop_turn hd hmore.1 hmore.2]
        have hrun := ih (w := World.send { w with outcomes := os } (b.bytes.take (n + 1)))
          (hsus.dangles hd) (hsus.enough hb) hos' rfl
          (by rw [hsus.bytes,World.send,List.append_assoc,hsplit,hL]) (by
            simp only [World.send,List.length_append]
            omega)
        refine Action.Ends.mono hrun (fun _ => id) fun r w' hr => ?_
        obtain ⟨h1,h2,h3⟩ := hr
        refine ⟨h1,h2.trans (Nat.lt_succ_self _),h3.imp_right fun hs => ?_⟩
        obtain ⟨hs,hsent,hleft,j,hj⟩ := hs
        exact ⟨hs,hsent,hleft,_,hsus.trans hj⟩
      · unfold Action.Ends
        rw [writevBucketLoop]
        simp only [hd,Bool.false_eq_true,if_false]
        rw [if_neg hmore]
        have hall : b.bytes.take (n + 1) = b.bytes := by
          refine List.take_of_length_le ?_
          have hb' : b.bytes.length ≤ b.total := hb
          rw [List.length_take] at hmore hlen
          omega
        refine ⟨hos',Nat.lt_succ_self _,.inl ⟨rfl,rfl,?_,?_⟩⟩
        · rw [World.send,hall]
          exact hL
        · have hsum := congrArg List.length hL
          rw [List.length_append] at hsum
          show k ≤ takings os + L.length + 1
          omega

theorem writevBucket_fills {b : WriteBucket} {w : World} {k : ℕ} {L : Bytes} (hd : b.dangles = false)
    (hb : b.Enough) (hos : Nonfatal w.outcomes) (hL : w.sent ++ b.bytes = L)
    (hk : k ≤ takings w.outcomes + w.sent.length) :
    (writevBucket b).Ends w (fun w' => w'.sent <+: L ∧ k ≤ w'.sent.length)
      fun r w' => Nonfatal w'.outcomes ∧ w'.outcomes.length < w.outcomes.length ∧
        (r.1 = .OK ∧ r.2.totalSize = b.totalSize ∧ w'.sent = L ∧
            k ≤ takings w'.outcomes + L.length + 1 ∨
          r.1 = .SUSPEND ∧ w'.sent ++ r.2.bytes = L ∧ k ≤ takings w'.outcomes + w'.sent.length ∧
            ∃ j, Suspended b r.2 j) :=
  writevBucketLoop_fills hd hb hos rfl hL hk

/-! ### The head -/

/-- The head is out, and calls are left for all but one of `k`, those that took it not counted. -/
structure HeadSent (L : Bytes) (k : ℕ) (w : World) : Prop where
  nonfatal : Nonfatal w.outcomes
  sent : w.sent = L
  enough : k ≤ takings w.outcomes + L.length + 1

/-- A client that waits with a part of the head. -/
structure Answer.Waits (g : Globals) (a : Answer) (k : ℕ) (c : Client) (w : World) : Prop where
  nonfatal : Nonfatal w.outcomes
  bucket : ∃ b : WriteBucket, c = { a.headed with bucket := some b } ∧ b.dangles = false ∧ b.Enough ∧
    b.totalSize = (a.opening g).length % 2 ^ 32 ∧ w.sent ++ b.bytes = a.opening g
  enough : k ≤ takings w.outcomes + w.sent.length

section Head
variable {g : Globals} {a : Answer} {S : World → Prop}
  {R : ResponseStatus × Client → World → Prop} {I : Client → World → Prop} {k : ℕ}

theorem LoopTurn.mono {J : Client → World → Prop} {n : ℕ} {r : ResponseStatus × Client} {w : World}
    (h : LoopTurn R I n r w) (hI : ∀ c w, I c w → J c w) : LoopTurn R J n r w :=
  h.imp_right fun ⟨hs,hi,hless⟩ => ⟨hs,hI _ _ hi,hless⟩

/-- `process_body` for a client that waits with a part of the head. -/
theorem Answer.Waits.processBody {c : Client} {w : World} (h : a.Waits g k c w)
    (hS : ∀ w', w'.sent <+: a.opening g → k ≤ w'.sent.length → S w')
    (hrest : ∀ w n, HeadSent (a.opening g) k w → w.outcomes.length < n →
      (processRest (a.delayed g)).Ends w S (LoopTurn R I n)) :
    (processBody c).Ends w S (LoopTurn R (fun c w => I c w ∨ a.Waits g k c w) w.outcomes.length) := by
  obtain ⟨hos,⟨b,rfl,hd,henough,hsize,hL⟩,hk⟩ := h
  have hwrite := writevBucket_fills hd henough hos hL hk
  unfold Meinheld.processBody
  refine (hwrite.mono (fun w' hw' => hS w' hw'.1 hw'.2) fun _ _ => id).bind fun r w' hr => ?_
  obtain ⟨s,b'⟩ := r
  obtain ⟨hnf,hless,⟨hs,hsame,hsent,hleft⟩ | ⟨hs,hsent,hleft,j,hsus⟩⟩ := hr
  · obtain rfl : s = .OK := hs
    have hsize' : b'.totalSize = (a.opening g).length % 2 ^ 32 := hsame.trans hsize
    simp only [hsize']
    exact (hrest w' _ ⟨hnf,hsent,hleft⟩ hless).mono (fun _ => id) fun _ _ hr => hr.mono fun _ _ => .inl
  · obtain rfl : s = .SUSPEND := hs
    refine .inr ⟨rfl,.inr ⟨hnf,⟨b',rfl,hsus.dangles hd,hsus.enough henough,?_,hsent⟩,hleft⟩,hless⟩
    exact hsus.totalSize.trans hsize

/-- A response whose head goes out in full: what follows the head decides how it ends, with what
stops in the head being only a part of it. -/
theorem writeResponse_rule (hacc : a.Accepted g) (hstart : a.Startable)
    (hch : a.headed.chunkedResponse = false) (hlt : (a.opening g).length < 2 ^ 32)
    (hdelay : a.Delayable) (hR : ∀ r w, R r w → r.1 ≠ .SUSPEND)
    (hS : ∀ w', w'.sent <+: a.opening g → k ≤ w'.sent.length → S w')
    (hdirect : ∀ w n, HeadSent (a.opening g) k w → w.outcomes.length < n →
      a.after.Ends w S (LoopTurn R I n))
    (hdelayed : ∀ w n, HeadSent (a.opening g) k w → w.outcomes.length < n →
      (processRest (a.delayed g)).Ends w S (LoopTurn R I n))
    (hturn : ∀ c w, I c w → (processBody c).Ends w S (LoopTurn R I w.outcomes.length))
    {os : List Outcome} (hos : Nonfatal os) (hk : k ≤ takings os) :
    (writeResponse g a.start).Ends ⟨os,[],0⟩ S R := by
  obtain ⟨f,hf⟩ := exists_afterHead g hstart
  obtain ⟨b,hb,heq⟩ := writeHeaders_accepted hacc
  have hop := hb.opening
  have hloop : ∀ c w, I c w ∨ a.Waits g k c w → (processBody c).Ends w S
      (LoopTurn R (fun c w => I c w ∨ a.Waits g k c w) w.outcomes.length) := by
    rintro c w (hi | hwait)
    · exact (hturn c w hi).mono (fun _ => id) fun _ _ hr => hr.mono fun _ _ => .inl
    · exact hwait.processBody hS hdelayed
  have hfirst : (responseStart g a.start).Ends ⟨os,[],0⟩ S
      (LoopTurn R (fun c w => I c w ∨ a.Waits g k c w) (os.length + 1)) := by
    have hwrite := writevBucket_fills (w := ⟨os,[],0⟩) hop.counted.not_dangles
      (hop.counted.enough (by rwa [hop.bytes])) hos (L := a.opening g) hop.bytes (k := k) (by omega)
    rw [hf.start,heq,writeHead,Action.bind_assoc]
    refine (hwrite.mono (fun w' hw' => hS w' hw'.1 hw'.2) fun _ _ => id).bind fun r w' hr => ?_
    obtain ⟨s,b'⟩ := r
    obtain ⟨hnf,hless,⟨hs,-,hsent,hleft⟩ | ⟨hs,hsent,hleft,j,hsus⟩⟩ := hr
    · obtain rfl : s = .OK := hs
      have hok : f (.OK,a.direct) = a.after := hf.ok
      show (f (.OK,a.direct)).Ends w' S _
      rw [hok]
      refine (hdirect w' _ ⟨hnf,hsent,hleft⟩ (hless.trans (Nat.lt_succ_self _))).mono (fun _ => id) ?_
      exact fun _ _ hr => hr.mono fun _ _ => .inl
    · obtain rfl : s = .SUSPEND := hs
      show (f (.SUSPEND,{ a.headed with bucket := some b' })).Ends w' S _
      rw [hf.suspend b' (hsus.freed.trans hop.counted.freed)]
      refine .inr ⟨rfl,.inr ⟨hnf,⟨_,rfl,?_,hsus.enough (hop.counted.enough (by rwa [hop.bytes])),?_,
        hsent⟩,hleft⟩,hless.trans (Nat.lt_succ_self _)⟩
      · rcases hdelay with hkeep | hnil
        · simp [WriteBucket.dangles,Answer.releases,hkeep]
        · rw [WriteBucket.dangles,hsus.items ((opening_iov hch hb.plain).1 hnil),Bool.and_false]
      · rw [← hop.bytes]
        exact hsus.totalSize.trans hop.counted.totalSize
  exact hfirst.bind fun r w' hr => appLoop_rule hR hloop hr

end Head

/-! ### The file -/

/-- The loop of `process_sendfile` is left before its first `sendfile`. -/
def Client.Skips (c : Client) : Prop :=
  c.contentLength ≤ c.writeBytes ∨ sendfileRefuses c.contentLength = true

/-- The loop of `process_sendfile` never comes to its end: `sendfile` is asked for nothing, or the
rest of the file is shorter than what is missing. -/
structure Client.Spins (c : Client) (rest : Bytes) : Prop where
  missing : c.writeBytes < c.contentLength
  accepted : sendfileRefuses c.contentLength = false
  short : sendfileCount c.contentLength = 0 ∨ c.writeBytes + rest.length < c.contentLength

/-- What `sendfile` sends of the file when it is called for ever. -/
def streamed (n : ℕ) (rest : Bytes) : Bytes := if sendfileCount n = 0 then [] else rest

/-- All of `L` is sent, or calls are left for all but one of `k`. -/
structure Streaming (L : Bytes) (k : ℕ) (w : World) : Prop where
  nonfatal : Nonfatal w.outcomes
  enough : w.sent = L ∨ k ≤ takings w.outcomes + w.sent.length + 1

/-- Where such a run stops. -/
def Dry (L : Bytes) (k : ℕ) (w : World) : Prop :=
  w.sent <+: L ∧ (w.sent = L ∨ k ≤ w.sent.length + 1)

/-- How the loop returns: it waits, `n` being the number of calls there were. -/
structure Spun (L : Bytes) (k n : ℕ) (c : Client) (r : ResponseStatus × Client × Bytes) (w : World) :
    Prop where
  status : r.1 = .SUSPEND
  streaming : Streaming L k w
  shorter : w.outcomes.length < n
  client : ∃ m, r.2.1 = { c with writeBytes := m }
  spins : r.2.1.Spins r.2.2
  sent : w.sent ++ streamed c.contentLength r.2.2 = L

theorem streamed_eq_nil {rest : Bytes} {n k : ℕ} (hr : rest.take (min (k + 1) (sendfileCount n)) = []) :
    streamed n rest = [] := by
  unfold streamed
  split
  · rfl
  · cases rest with
    | nil => rfl
    | cons x xs =>
      have hlen := congrArg List.length hr
      simp only [List.length_take,List.length_cons,List.length_nil] at hlen
      omega

/-- What a call takes is the front of what is sent. -/
theorem streamed_take {rest r : Bytes} {n k : ℕ} (hr : rest.take (min (k + 1) (sendfileCount n)) = r) :
    r ++ streamed n (rest.drop r.length) = streamed n rest := by
  have hpre : r <+: rest := hr ▸ List.take_prefix _ _
  unfold streamed
  split
  next h0 => simp [← hr,h0]
  · exact List.prefix_iff_eq_append.mp hpre

theorem Client.Spins.take {rest r : Bytes} {c : Client} {k : ℕ} (hc : c.Spins rest)
    (hr : rest.take (min (k + 1) (sendfileCount c.contentLength)) = r) :
    Client.Spins { c with writeBytes := c.writeBytes + r.length } (rest.drop r.length) := by
  have hpre : r <+: rest := hr ▸ List.take_prefix _ _
  have hlen := congrArg List.length (List.prefix_iff_eq_append.mp hpre)
  rw [List.length_append] at hlen
  refine ⟨?_,hc.accepted,hc.short.imp_right fun hlt => ?_⟩
  · show c.writeBytes + r.length < c.contentLength
    rcases hc.short with h0 | hlt
    · simpa [← hr,h0] using hc.missing
    · omega
  · show c.writeBytes + r.length + (rest.drop r.length).length < c.contentLength
    omega

theorem sendfileLoop_spins {os : List Outcome} {rest L : Bytes} {c : Client} {w : World} {k : ℕ}
    (hc : c.Spins rest) (hw : w.outcomes = os) (hL : w.sent ++ streamed c.contentLength rest = L)
    (h : Streaming L k w) :
    Action.Ends (sendfileLoop os rest c) w (Dry L k) (Spun L k os.length c) := by
  induction os generalizing rest c w with
  | nil =>
    unfold Action.Ends
    rw [sendfileLoop_nil hc.missing hc.accepted]
    refine ⟨hL ▸ List.prefix_append _ _,h.enough.imp_right fun hk => ?_⟩
    simpa [hw,takings] using hk
  | cons o os ih =>
    have hos : Nonfatal (o :: os) := hw ▸ h.nonfatal
    have hos' : Nonfatal os := fun p hp => hos p (List.mem_cons_of_mem _ hp)
    have hk := h.enough
    rw [hw,takings_cons] at hk
    unfold Action.Ends
    rw [sendfileLoop_cons hc.missing hc.accepted]
    cases o with
    | error epipe => simpa [Outcome.fatal] using hos (.error epipe) List.mem_cons_self
    | eagain =>
      exact ⟨rfl,⟨hos',by simpa using hk⟩,Nat.lt_succ_self _,⟨c.writeBytes,rfl⟩,hc,hL⟩
    | count n =>
      simp only [ne_eq,reduceCtorEq,not_false_eq_true,if_true] at hk
      dsimp only
      generalize hr : rest.take (min (n + 1) (sendfileCount c.contentLength)) = r
      have hstream := streamed_take hr
      have hrun := ih (w := World.send { w with outcomes := os } r) (hc.take hr) rfl
        (by rw [World.send,List.append_assoc]; exact (congrArg (w.sent ++ ·) hstream).trans hL)
        ⟨hos',by
          by_cases hnil : r = []
          · -- the call sends nothing only when nothing is left to send
            rw [streamed_eq_nil (hnil ▸ hr),List.append_nil] at hL
            exact .inl (by simpa [World.send,hnil] using hL)
          · refine hk.elim (fun hall => ?_) fun hk => .inr ?_
            · have htail : streamed c.contentLength rest = [] := by
                rw [hall] at hL
                simpa using hL
              rw [htail] at hstream
              exact absurd (List.append_eq_nil_iff.mp hstream).1 hnil
            · have hpos := List.length_pos_of_ne_nil hnil
              simp only [World.send,List.length_append]
              omega⟩
      have hspun : Action.Ends (sendfileLoop os (rest.drop r.length)
          { c with writeBytes := c.writeBytes + r.length }) (World.send { w with outcomes := os } r)
          (Dry L k) (Spun L k (os.length + 1) c) := by
        refine hrun.mono (fun _ => id) fun r' w' hr' => ?_
        obtain ⟨m,hm⟩ := hr'.client
        exact ⟨hr'.status,hr'.streaming,hr'.shorter.trans (Nat.lt_succ_self _),⟨m,hm⟩,hr'.spins,
          hr'.sent⟩
      exact hspun

def Client.Streams (L : Bytes) (k : ℕ) (c : Client) (w : World) : Prop :=
  c.bucket = none ∧ Streaming L k w ∧ ∃ rest, c.Sends rest ∧ c.Spins rest ∧
    w.sent ++ streamed c.contentLength rest = L

theorem processRest_sends {c : Client} {rest : Bytes} (h : c.Sends rest) :
    processRest c = processSendfile c rest := by
  obtain ⟨size,hk⟩ := h
  obtain ⟨r,hr,hkind⟩ := Option.map_eq_some_iff.mp hk
  simp only [processRest,hr,hkind]

theorem Client.Streams.processRest {L : Bytes} {k : ℕ} {c : Client} {w : World}
    (h : c.Streams L k w) : (processRest c).Ends w (Dry L k)
      (LoopTurn (fun _ _ => False) (Client.Streams L k) w.outcomes.length) := by
  obtain ⟨hb,hw,rest,hsends,hspins,hL⟩ := h
  have hloop : Action.Ends (fun w => sendfileLoop w.outcomes rest c w) w (Dry L k)
      (Spun L k w.outcomes.length c) := sendfileLoop_spins hspins rfl hL hw
  rw [processRest_sends hsends]
  refine hloop.bind fun r w' hr => ?_
  obtain ⟨s,c1,rest1⟩ := r
  obtain ⟨hs,hw',hless,⟨n,hc1⟩,hspins1,hL1⟩ := hr
  obtain rfl : s = .SUSPEND := hs
  obtain rfl : c1 = { c with writeBytes := n } := hc1
  exact .inr ⟨rfl,⟨hb,hw',rest1,hsends.seek rest1 rfl,⟨hspins1.1,hspins1.2,hspins1.3⟩,hL1⟩,hless⟩

theorem Client.Streams.processBody {L : Bytes} {k : ℕ} {c : Client} {w : World}
    (h : c.Streams L k w) : (processBody c).Ends w (Dry L k)
      (LoopTurn (fun _ _ => False) (Client.Streams L k) w.outcomes.length) := by
  have hbody : Meinheld.processBody c = Meinheld.processRest c := by
    simp only [Meinheld.processBody,h.1]
  rw [hbody]
  exact h.processRest

/-- A file that `process_sendfile` leaves at once. -/
theorem processRest_skips {c : Client} {rest : Bytes} (hsends : c.Sends rest) (hskips : c.Skips)
    (w : World) : ∃ s c' n, processRest c w = .ret (s,c') { w with closeCalls := n } ∧
      s ≠ .SUSPEND ∧ (c.contentLength ≤ c.writeBytes → s = .ERROR → c'.responseClosed = true) ∧
      (c.writeBytes < c.contentLength → s = .ERROR ∧ c'.pages = c.pages) := by
  rw [processRest_sends hsends]
  rcases Nat.lt_or_ge c.writeBytes c.contentLength with hlt | hle
  · have hr := hskips.resolve_left (not_le.mpr hlt)
    have hpages := closes_seek c rest
    refine ⟨.ERROR,{ c with
      keepAlive := false, statusCode := 500, response := c.response.map (·.seek rest) },w.closeCalls,?_,
      by simp,fun h => absurd h (not_le.mpr hlt),fun _ => ⟨rfl,?_⟩⟩
    · simp only [processSendfile,Action.bind_apply,sendfileLoop_refused hlt hr]
      rfl
    · simp only [Client.pages]
      rw [← hpages]
      rfl
  · obtain ⟨s,closed,n,hcl,hs⟩ :=
      closeResponse_spec { c with response := c.response.map (·.seek rest) } w
    refine ⟨s,{ c with response := c.response.map (·.seek rest), responseClosed := closed },n,?_,?_,
      fun _ h => ?_,fun h => absurd hle (not_le.mpr h)⟩
    · simp only [processSendfile,Action.bind_apply,sendfileLoop_done hle]
      exact hcl
    · rcases hs with rfl | ⟨rfl,-⟩ <;> simp
    · rcases hs with rfl | ⟨-,hclosed⟩
      · cases h
      · exact hclosed

/-- With its head out, a client whose file spins never comes to an end. -/
theorem streams_for_ever {c : Client} {rest : Bytes} {w : World} {fuel : ℕ} (hsends : c.Sends rest)
    (hspins : c.Spins rest) (hb : c.bucket = none) (hos : Nonfatal w.outcomes)
    (hfuel : w.outcomes.length ≤ fuel) :
    (processRest c >>= fun r => appLoop fuel r.1 r.2).Ends w
      (Dry (w.sent ++ streamed c.contentLength rest) (takings w.outcomes)) fun _ _ => False := by
  have hstreams : c.Streams (w.sent ++ streamed c.contentLength rest) (takings w.outcomes) w :=
    ⟨hb,⟨hos,.inr (by omega)⟩,rest,hsends,hspins,rfl⟩
  refine hstreams.processRest.bind fun r w' hr => ?_
  obtain ⟨hs,hi,hl⟩ := hr.resolve_left id
  exact appLoop_rule (fun _ _ hf => hf.elim) (fun _ _ hi => hi.processBody)
    (.inr ⟨hs,hi,hl.trans_le hfuel⟩)

/-! ### A response with a file -/

section File
variable {g : Globals} {a : Answer} {size : ℕ} {rest : Bytes}

theorem chunked_of_file (hk : a.response.kind = .file size rest) : a.headed.chunkedResponse = false := by
  by_contra hch
  rw [Bool.not_eq_false] at hch
  have hsome := (headed_of_chunked hch).1
  simp [first_of_file hk] at hsome

variable (hk : a.response.kind = .file size rest)
include hk

theorem delayable_of_file : a.Delayable := .inr (by simp [first_of_file hk])

theorem startable_of_file : a.Startable := .inr (by simp [hk])

theorem direct_sends : a.direct.Sends rest := ⟨size,by
  rw [show a.direct.response = some a.response from headed_response a]
  simp [hk]⟩

theorem delayed_sends (g : Globals) : (a.delayed g).Sends rest := ⟨size,by
  rw [show (a.delayed g).response = some a.response from headed_response a]
  simp [hk]⟩

theorem direct_counts : a.direct.writeBytes = 0 := by simp [direct_writeBytes,first_of_file hk]

theorem delayed_counts (g : Globals) :
    (a.delayed g).writeBytes = (a.head g).length % 2 ^ 32 := by
  rw [delayed_writeBytes,opening_of_file hk]

variable (hacc : a.Accepted g) (hlt : (a.head g).length < 2 ^ 32) {os : List Outcome}
  (hos : Nonfatal os)
include hacc hlt hos

/-- A file that is skipped, whether the head waited or not, without an error page: what goes out is
the head. -/
theorem respond_skips (hdirect : a.client.statusCode = 304 ∨ a.direct.Skips)
    (hdelayed : (a.delayed g).Skips)
    (hpage : a.headed.contentLength ≤ (a.head g).length ∨ a.response.hasClose = true) {k : ℕ}
    (hn : k ≤ takings os) : (respond g a.start).Ends ⟨os,[],0⟩
      (fun w' => w'.sent <+: a.head g ∧ k ≤ w'.sent.length) fun _ w' => w'.sent = a.head g := by
  have hlt' : (a.opening g).length < 2 ^ 32 := by rwa [opening_of_file hk]
  have hcounts : (a.delayed g).writeBytes = (a.head g).length := by
    rw [delayed_counts hk,Nat.mod_eq_of_lt hlt]
  -- the flags of the client decide whether a page is sent, and they are those of the head
  have htail : ∀ c : Client, c.Sends rest → c.Skips →
      (c.writeBytes < c.contentLength → c.pages = false) → ∀ w n, HeadSent (a.opening g) k w →
      w.outcomes.length < n → (processRest c).Ends w
        (fun w' => w'.sent <+: a.head g ∧ k ≤ w'.sent.length)
        (LoopTurn (fun r w' => r.1 ≠ .SUSPEND ∧ w'.sent = a.head g ∧ (r.1 = .ERROR → r.2.pages = false))
          (fun _ _ => False) n) := by
    intro c hsends hskips hp w n hw _
    obtain ⟨s,c',m,hrun,hs,hle,hgt⟩ := processRest_skips hsends hskips w
    unfold Action.Ends
    rw [hrun]
    refine .inl ⟨hs,hw.sent.trans (opening_of_file hk),fun herr => ?_⟩
    rcases Nat.lt_or_ge c.writeBytes c.contentLength with hmiss | hdone
    · rw [(hgt hmiss).2,hp hmiss]
    · simp [Client.pages,hle hdone herr]
  have hrun := writeResponse_rule (I := fun _ _ => False) (k := k) hacc (startable_of_file hk)
    (chunked_of_file hk) hlt' (delayable_of_file hk) (fun _ _ hr => hr.1)
    (S := fun w' => w'.sent <+: a.head g ∧ k ≤ w'.sent.length)
    (fun w' h1 h2 => ⟨opening_of_file (g := g) hk ▸ h1,h2⟩)
    (R := fun r w' => r.1 ≠ .SUSPEND ∧ w'.sent = a.head g ∧ (r.1 = .ERROR → r.2.pages = false))
    (fun w n hw hless => ?_) (htail (a.delayed g) (delayed_sends hk g) hdelayed fun hmiss => ?_)
    (fun _ _ hi => hi.elim) hos hn
  · rw [respond_eq]
    refine hrun.bind fun r w' hr => ?_
    obtain ⟨s,c⟩ := r
    obtain ⟨-,hsent,hquiet⟩ := hr
    obtain ⟨c',w1,hend,hsame⟩ := endResponse_quiet hquiet w'
    unfold Action.Ends
    rw [hend]
    exact hsame.trans hsent
  · unfold Answer.after
    split
    · exact .inl ⟨by simp,hw.sent.trans (opening_of_file hk),by simp⟩
    next h304 =>
      exact htail a.direct (direct_sends hk) (hdirect.resolve_left h304) (fun _ => direct_pages a) w n
        hw hless
  · have hpages : (a.delayed g).pages = !a.response.hasClose :=
      (headed_flags a).pages.trans (start_pages a)
    have hmiss' : (a.head g).length < a.headed.contentLength := hcounts ▸ hmiss
    simp [hpages,hpage.resolve_left (not_le.mpr hmiss')]

/-- A file that is sent for ever, whether the head waited or not. -/
theorem respond_spins (h304 : a.client.statusCode ≠ 304) (hdirect : a.direct.Spins rest)
    (hdelayed : (a.delayed g).Spins rest) :
    (respond g a.start).Ends ⟨os,[],0⟩
      (Dry (a.head g ++ streamed a.headed.contentLength rest) (takings os)) fun _ _ => False := by
  have hlt' : (a.opening g).length < 2 ^ 32 := by rwa [opening_of_file hk]
  have htail : ∀ c : Client, c.Sends rest → c.Spins rest → c.bucket = none →
      c.contentLength = a.headed.contentLength → ∀ w n, HeadSent (a.opening g) (takings os) w →
      w.outcomes.length < n → (processRest c).Ends w
        (Dry (a.head g ++ streamed a.headed.contentLength rest) (takings os))
        (LoopTurn (fun _ _ => False) (Client.Streams
          (a.head g ++ streamed a.headed.contentLength rest) (takings os)) n) := by
    intro c hsends hspins hb hn w n hw hless
    have hsent : w.sent = a.head g := hw.sent.trans (opening_of_file hk)
    have hstreams : c.Streams (a.head g ++ streamed a.headed.contentLength rest) (takings os) w := by
      refine ⟨hb,⟨hw.nonfatal,.inr ?_⟩,rest,hsends,hspins,by rw [hsent,hn]⟩
      rw [hw.sent]
      exact hw.enough
    refine hstreams.processRest.mono (fun _ => id) fun r w' hr => ?_
    obtain ⟨hs,hi,hl⟩ := hr.resolve_left id
    exact .inr ⟨hs,hi,hl.trans hless⟩
  have hrun := writeResponse_rule (k := takings os) hacc (startable_of_file hk) (chunked_of_file hk)
    hlt' (delayable_of_file hk) (R := fun _ _ => False) (fun _ _ hr => hr.elim)
    (S := Dry (a.head g ++ streamed a.headed.contentLength rest) (takings os))
    (fun w' h1 h2 => ⟨(opening_of_file (g := g) hk ▸ h1).trans (List.prefix_append _ _),
      .inr (Nat.le_succ_of_le h2)⟩)
    (fun w n hw hless => ?_) (htail (a.delayed g) (delayed_sends hk g) hdelayed rfl rfl)
    (fun _ _ hi => hi.processBody) hos le_rfl
  · rw [respond_eq]
    exact hrun.bind fun _ _ hr => hr.elim
  · simp only [Answer.after,if_neg h304]
    exact htail a.direct (direct_sends hk) hdirect rfl rfl w n hw hless

end File

end Meinheld
