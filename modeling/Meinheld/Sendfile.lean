import Meinheld.Response

/-! The file of a response: what the calls of `sendfile` in `process_sendfile` transfer, over all its
resumptions. -/
namespace Meinheld

/-- The result of a `sendfile`: `EAGAIN`, or so many bytes. -/
inductive FileOutcome
  | eagain
  | count (n : ℕ)
  deriving DecidableEq, Repr

def FileOutcome.bytes : FileOutcome → ℕ
  | .eagain => 0
  | .count n => n

/-- What `process_sendfile` works on: two fields of the client, and the file with its bytes, where the
file object is in it, and the offset of the descriptor, from which `sendfile` reads. -/
structure FileSend where
  contentLength : ℕ
  writeBytes : ℕ
  content : Bytes
  position : ℕ
  offset : ℕ
  deriving DecidableEq, Repr

/-- What the descriptor still gives. -/
def FileSend.rest (s : FileSend) : Bytes := s.content.drop s.offset

/-- The bytes from the position of the file object on. -/
def FileSend.available (s : FileSend) : ℕ := s.content.length - s.position

/-- The loop is left: `content_length` is reached, or the next `sendfile` fails. -/
def FileSend.finished (s : FileSend) : Prop :=
  s.contentLength ≤ s.writeBytes ∨ sendfileRefuses s.contentLength = true

instance (s : FileSend) : Decidable s.finished := inferInstanceAs (Decidable (_ ∨ _))

/-- The loop once more. `EAGAIN` suspends it, and it goes on where it was. -/
def FileSend.step (s : FileSend) (o : FileOutcome) : FileSend :=
  if s.finished then s
  else
    let r := s.rest.take (min o.bytes (sendfileCount s.contentLength))
    { s with writeBytes := s.writeBytes + r.length, offset := s.offset + r.length }

@[simp] theorem FileSend.step_eagain (s : FileSend) : s.step .eagain = s := by
  unfold FileSend.step
  split
  · rfl
  · simp [FileOutcome.bytes]

@[simp] theorem FileSend.step_contentLength (s : FileSend) (o : FileOutcome) :
    (s.step o).contentLength = s.contentLength := by
  unfold FileSend.step
  split <;> rfl

/-- After `k` results of a run. -/
def FileSend.run (s : FileSend) (o : ℕ → FileOutcome) : ℕ → FileSend
  | 0 => s
  | k + 1 => (s.run o k).step (o k)

def Outcome.fileOutcome : Outcome → FileOutcome
  | .count n => .count (n + 1)
  | _ => .eagain

def FileSend.after (s : FileSend) (os : List Outcome) : FileSend :=
  os.foldl (fun s o => s.step o.fileOutcome) s

theorem FileSend.step_count {s : FileSend} (h : ¬s.finished) (n : ℕ) :
    s.step (.count n) = { s with
      writeBytes := s.writeBytes + (s.rest.take (min n (sendfileCount s.contentLength))).length
      offset := s.offset + (s.rest.take (min n (sendfileCount s.contentLength))).length } :=
  if_neg h

theorem FileSend.take_rest (s : FileSend) (k m : ℕ) :
    s.rest.take k ++ (s.rest.drop (s.rest.take k).length).take m =
      s.rest.take ((s.rest.take k).length + m) := by
  rw [List.take_add]
  congr 1
  rw [List.length_take]
  rcases Nat.le_total k s.rest.length with hle | hle
  · rw [Nat.min_eq_left hle]
  · rw [Nat.min_eq_right hle,List.take_of_length_le hle,List.take_length]

/-- The loop of `process_sendfile` makes these steps; a suspended one has used up its results so far,
and what is left of them is there for the next. -/
theorem sendfileLoop_after {os : List Outcome} {rest' : Bytes} {c c' : Client} {w w' : World}
    {st : ResponseStatus} (s : FileSend) (hst : st ≠ .ERROR) (hw : w.outcomes = os)
    (hlen : s.contentLength = c.contentLength) (hwb : s.writeBytes = c.writeBytes)
    (h : sendfileLoop os s.rest c w = .ret (st,c',rest') w') :
    ∃ used, os = used ++ w'.outcomes ∧ (s.after used).contentLength = c'.contentLength ∧
      (s.after used).writeBytes = c'.writeBytes ∧ (s.after used).rest = rest' ∧
      s.offset ≤ (s.after used).offset ∧
      w'.sent = w.sent ++ s.rest.take ((s.after used).offset - s.offset) ∧
      (st = .OK ↔ c'.contentLength ≤ c'.writeBytes) := by
  induction os generalizing s c w with
  | nil =>
    rcases sendfileLoop_ret h with ⟨hle,rfl,rfl,rfl,rfl⟩ | ⟨-,-,rfl,-⟩ | ⟨-,-,o,os',hnil⟩
    · exact ⟨[],hw.symm,hlen,hwb,rfl,le_rfl,by simp [FileSend.after],iff_of_true rfl hle⟩
    · exact absurd rfl hst
    · cases hnil
  | cons o os ih =>
    rcases sendfileLoop_ret h with ⟨hle,rfl,rfl,rfl,rfl⟩ | ⟨-,-,rfl,-⟩ | ⟨hlt,hr,-⟩
    · exact ⟨[],hw.symm,hlen,hwb,rfl,le_rfl,by simp [FileSend.after],iff_of_true rfl hle⟩
    · exact absurd rfl hst
    rw [sendfileLoop_cons hlt hr] at h
    cases o with
    | error e => exact absurd (congrArg Prod.fst (Run.ret.inj h).1).symm hst
    | eagain =>
      simp only [Run.ret.injEq,Prod.mk.injEq] at h
      obtain ⟨⟨rfl,rfl,rfl⟩,rfl⟩ := h
      have hstep : s.after [.eagain] = s := FileSend.step_eagain s
      refine ⟨[.eagain],rfl,?_⟩
      rw [hstep]
      exact ⟨hlen,hwb,rfl,le_rfl,by simp,iff_of_false (by simp) (not_le.mpr hlt)⟩
    | count n =>
      have hgoes : ¬s.finished := by
        unfold FileSend.finished
        rw [hlen,hwb,hr]
        simpa using hlt
      have hstep := FileSend.step_count hgoes (n + 1)
      have htake := s.take_rest (min (n + 1) (sendfileCount s.contentLength))
      simp only [← hlen] at h
      generalize hk : (s.rest.take (min (n + 1) (sendfileCount s.contentLength))).length = k at h hstep htake
      generalize hs1 : s.step (.count (n + 1)) = s1 at hstep
      have hrest : s1.rest = s.rest.drop k := by
        rw [hstep]
        simp only [FileSend.rest,List.drop_drop]
      have hoff : s1.offset = s.offset + k := by rw [hstep]
      rw [← hrest] at h
      obtain ⟨used,hos,h1,h2,h3,hle,hsent,hdone⟩ := ih s1 (by exact rfl) (by rw [hstep,hlen])
        (by rw [hstep,hwb]) h
      have hafter : s.after (.count n :: used) = s1.after used := by rw [← hs1]; rfl
      refine ⟨.count n :: used,by rw [hos,List.cons_append],?_⟩
      rw [hafter]
      refine ⟨h1,h2,h3,by omega,?_,hdone⟩
      rw [hsent,World.send,List.append_assoc,hrest,htake]
      congr 2
      omega

/-! ### Sums of what the socket takes -/

/-- The bytes of the first `k` results. -/
def bytesTaken (o : ℕ → FileOutcome) (k : ℕ) : ℕ := ∑ i ∈ Finset.range k, (o i).bytes

@[simp] theorem bytesTaken_zero (o : ℕ → FileOutcome) : bytesTaken o 0 = 0 := rfl

theorem bytesTaken_succ (o : ℕ → FileOutcome) (k : ℕ) : bytesTaken o (k + 1) = bytesTaken o k + (o k).bytes :=
  Finset.sum_range_succ _ _

theorem bytesTaken_mono (o : ℕ → FileOutcome) : Monotone (bytesTaken o) :=
  monotone_nat_of_le_succ fun k => by rw [bytesTaken_succ]; omega

/-- Each call of `sendfile` takes no more than it is asked for and than there is. -/
def FileSend.Allows (s : FileSend) (o : ℕ → FileOutcome) : Prop := ∀ k,
  (o k).bytes ≤ sendfileCount s.contentLength ∧ bytesTaken o (k + 1) ≤ s.rest.length

/-- The calls that do not return `EAGAIN` do not end. -/
def Lively (o : ℕ → FileOutcome) : Prop := ∀ k, ∃ j ≥ k, o j ≠ .eagain

/-- A call that does not return `EAGAIN` takes a byte when there is one and one is asked for. -/
def FileSend.Takes (s : FileSend) (o : ℕ → FileOutcome) : Prop := ∀ k, o k ≠ .eagain →
  0 < sendfileCount s.contentLength → bytesTaken o k < s.rest.length → 0 < (o k).bytes

/-- The run ends, and the smaller of the length and of what comes after the position is sent. -/
def FileSend.Sends (s : FileSend) (o : ℕ → FileOutcome) : Prop := ∃ k, (s.run o k).finished ∧
  (s.run o k).offset - s.offset = min s.contentLength s.available

theorem FileSend.run_finished {s : FileSend} {o : ℕ → FileOutcome} {j k : ℕ} (hjk : j ≤ k)
    (h : (s.run o j).finished) : s.run o k = s.run o j := by
  induction k, hjk using Nat.le_induction with
  | base => rfl
  | succ k hjk ih =>
    rw [FileSend.run,ih]
    exact if_pos h

theorem FileSend.sends_of_finished {s : FileSend} (h : s.finished) (o : ℕ → FileOutcome) :
    s.Sends o ↔ s.contentLength = 0 ∨ s.available = 0 := by
  have hrun : ∀ k, s.run o k = s := fun k => FileSend.run_finished (j := 0) (Nat.zero_le k) h
  unfold FileSend.Sends
  simp only [hrun,Nat.sub_self,h,true_and,exists_const]
  omega

theorem FileSend.run_eq {s : FileSend} {o : ℕ → FileOutcome} (ho : s.Allows o)
    (hr : sendfileRefuses s.contentLength = false) {k : ℕ}
    (hk : ∀ j < k, s.writeBytes + bytesTaken o j < s.contentLength) : s.run o k = { s with
      writeBytes := s.writeBytes + bytesTaken o k
      offset := s.offset + bytesTaken o k } := by
  induction k with
  | zero => rfl
  | succ k ih =>
    have hlt := hk k (Nat.lt_succ_self k)
    obtain ⟨hcount,hle⟩ := ho k
    rw [FileSend.run,ih fun j hj => hk j (hj.trans (Nat.lt_succ_self k)),FileSend.step,
      if_neg (by simp only [FileSend.finished,hr,Bool.false_eq_true,or_false]; exact not_le.mpr hlt)]
    have hmin : min (o k).bytes (sendfileCount s.contentLength) = (o k).bytes := min_eq_left hcount
    have hlen : ((s.content.drop (s.offset + bytesTaken o k)).take (o k).bytes).length = (o k).bytes := by
      rw [bytesTaken_succ,FileSend.rest,List.length_drop] at hle
      rw [List.length_take,List.length_drop]
      omega
    simp only [FileSend.rest,hmin,hlen,bytesTaken_succ,add_assoc]

/-- A run ends as it should exactly when the bytes taken come to the right sum, that sum ends the
loop, and no smaller one did. -/
theorem FileSend.sends_iff_sum {s : FileSend} {o : ℕ → FileOutcome} (ho : s.Allows o)
    (hr : sendfileRefuses s.contentLength = false) :
    s.Sends o ↔ ∃ k, bytesTaken o k = min s.contentLength s.available ∧
      s.contentLength ≤ s.writeBytes + bytesTaken o k ∧
      ∀ j, bytesTaken o j < bytesTaken o k → s.writeBytes + bytesTaken o j < s.contentLength := by
  have hend : ∀ n m, FileSend.finished { s with writeBytes := n, offset := m } ↔
      s.contentLength ≤ n := by
    intro n m
    simp only [FileSend.finished,hr,Bool.false_eq_true,or_false]
  -- at the first sum that ends the loop, the run is known
  have hfirst : ∀ k, s.contentLength ≤ s.writeBytes + bytesTaken o k → ∃ j ≤ k,
      s.contentLength ≤ s.writeBytes + bytesTaken o j ∧
      (∀ i < j, s.writeBytes + bytesTaken o i < s.contentLength) ∧ (s.run o j).finished ∧
      (s.run o j).offset - s.offset = bytesTaken o j := by
    intro k hk
    have hex : ∃ k, s.contentLength ≤ s.writeBytes + bytesTaken o k := ⟨k,hk⟩
    have hbefore : ∀ i < Nat.find hex, s.writeBytes + bytesTaken o i < s.contentLength := fun i hi =>
      not_le.mp (Nat.find_min hex hi)
    refine ⟨Nat.find hex,Nat.find_min' hex hk,Nat.find_spec hex,hbefore,?_,?_⟩
    · rw [FileSend.run_eq ho hr hbefore]
      exact (hend _ _).mpr (Nat.find_spec hex)
    · rw [FileSend.run_eq ho hr hbefore]
      exact Nat.add_sub_cancel_left _ _
  constructor
  · rintro ⟨k,hfin,hsent⟩
    have hreach : ∃ j ≤ k, s.contentLength ≤ s.writeBytes + bytesTaken o j := by
      by_contra hno
      push Not at hno
      have hrun := FileSend.run_eq ho hr (k := k) fun j hj => hno j hj.le
      rw [hrun] at hfin
      exact not_lt.mpr ((hend _ _).mp hfin) (hno k le_rfl)
    obtain ⟨k',hk',hle⟩ := hreach
    obtain ⟨j,hj,hjend,hbefore,hjfin,hjsent⟩ := hfirst k' hle
    rw [FileSend.run_finished (hj.trans hk') hjfin,hjsent] at hsent
    refine ⟨j,hsent,hjend,fun i hi => hbefore i ?_⟩
    by_contra hji
    exact not_le.mpr hi (bytesTaken_mono o (not_lt.mp hji))
  · rintro ⟨k,hsum,hle,hsmall⟩
    obtain ⟨j,hj,hjend,-,hjfin,hjsent⟩ := hfirst k hle
    refine ⟨j,hjfin,?_⟩
    rw [hjsent,← hsum]
    refine le_antisymm (bytesTaken_mono o hj) (not_lt.mp fun hlt => ?_)
    exact not_lt.mpr hjend (hsmall j hlt)

/-- A length that `sendfile` refuses sends nothing. Otherwise the counts come to what has to be sent,
and pass the end of the loop there and not before. -/
def FileSend.Hits (s : FileSend) (o : ℕ → FileOutcome) : Prop :=
  if sendfileRefuses s.contentLength then s.available = 0
  else ∃ k, bytesTaken o k = min s.contentLength s.available ∧
    s.contentLength ≤ s.writeBytes + bytesTaken o k ∧
    ∀ j, bytesTaken o j < bytesTaken o k → s.writeBytes + bytesTaken o j < s.contentLength

theorem FileSend.sends_iff_hits {s : FileSend} {o : ℕ → FileOutcome} (ho : s.Allows o) :
    s.Sends o ↔ s.Hits o := by
  unfold FileSend.Hits
  cases hr : sendfileRefuses s.contentLength with
  | false => simpa using FileSend.sends_iff_sum ho hr
  | true =>
    have hpos : s.contentLength ≠ 0 := by
      intro h0
      rw [h0] at hr
      exact absurd hr (by decide)
    rw [FileSend.sends_of_finished (.inr hr),if_pos rfl]
    exact or_iff_right hpos

/-! ### Sockets that take something -/

/-- With something asked for, a lively socket takes all of a file. -/
theorem FileSend.Takes.reaches {s : FileSend} {o : ℕ → FileOutcome} (ht : s.Takes o) (hl : Lively o)
    (hcount : 0 < sendfileCount s.contentLength) {m : ℕ} (hm : m ≤ s.rest.length) :
    ∃ k, m ≤ bytesTaken o k := by
  induction m with
  | zero => exact ⟨0,Nat.zero_le _⟩
  | succ m ih =>
    obtain ⟨k,hk⟩ := ih (Nat.le_of_succ_le hm)
    obtain ⟨j,hj,hne⟩ := hl k
    have hkj : bytesTaken o k ≤ bytesTaken o j := bytesTaken_mono o hj
    by_cases hlt : bytesTaken o j < s.rest.length
    · have hpos := ht j hne hcount hlt
      refine ⟨j + 1,?_⟩
      rw [bytesTaken_succ]
      omega
    · exact ⟨j,hm.trans (not_lt.mp hlt)⟩

/-- Results that take `f (k + 1) - f k` bytes. -/
def growing (f : ℕ → ℕ) (k : ℕ) : FileOutcome := .count (f (k + 1) - f k)

theorem bytesTaken_growing {f : ℕ → ℕ} (hf : Monotone f) (h0 : f 0 = 0) (k : ℕ) :
    bytesTaken (growing f) k = f k := by
  induction k with
  | zero => exact h0.symm
  | succ k ih =>
    rw [bytesTaken_succ,ih]
    have hle : f k ≤ f (k + 1) := hf (Nat.le_succ k)
    simp only [growing,FileOutcome.bytes]
    omega

theorem lively_growing (f : ℕ → ℕ) : Lively (growing f) := fun k => ⟨k,le_rfl,by simp [growing]⟩

theorem FileSend.growing_allowed {s : FileSend} {f : ℕ → ℕ} (hf : Monotone f) (h0 : f 0 = 0)
    (hstep : ∀ k, f (k + 1) - f k ≤ sendfileCount s.contentLength) (hle : ∀ k, f k ≤ s.rest.length)
    (hpos : 0 < sendfileCount s.contentLength → ∀ k, f k < s.rest.length → f k < f (k + 1)) :
    s.Allows (growing f) ∧ s.Takes (growing f) := by
  refine ⟨fun k => ⟨hstep k,?_⟩,fun k _ hcount hlt => ?_⟩
  · rw [bytesTaken_growing hf h0]
    exact hle _
  · rw [bytesTaken_growing hf h0] at hlt
    exact Nat.sub_pos_of_lt (hpos hcount k hlt)

/-- What the length, the positions and the file have to be for every socket that takes something. -/
def FileSend.Fitting (s : FileSend) : Prop :=
  if s.finished then s.contentLength = 0 ∨ s.available = 0
  else min s.contentLength s.available = s.contentLength - s.writeBytes ∧
    sendfileCount s.contentLength ≠ 0 ∧
    (s.rest.length = s.contentLength - s.writeBytes ∨
      sendfileCount s.contentLength = 1 ∧ s.contentLength - s.writeBytes ≤ s.rest.length)

theorem FileSend.Fitting.sends {s : FileSend} (h : s.Fitting) {o : ℕ → FileOutcome} (ho : s.Allows o)
    (ht : s.Takes o) (hl : Lively o) : s.Sends o := by
  unfold FileSend.Fitting at h
  split at h
  next hfin => exact (FileSend.sends_of_finished hfin o).mpr h
  next hgoes =>
    obtain ⟨hmin,hcount,hfit⟩ := h
    have hr : sendfileRefuses s.contentLength = false := by simpa using (not_or.mp hgoes).2
    have hlt : s.writeBytes < s.contentLength := not_le.mp (not_or.mp hgoes).1
    -- a sum that is what is missing is enough
    have key : (∃ k, bytesTaken o k = s.contentLength - s.writeBytes) → s.Sends o := by
      rintro ⟨k,hk⟩
      exact (FileSend.sends_iff_sum ho hr).mpr ⟨k,hk.trans hmin.symm,by omega,fun j hj => by omega⟩
    have hle : ∀ k, bytesTaken o k ≤ s.rest.length := by
      intro k
      cases k with
      | zero => exact Nat.zero_le _
      | succ k => exact (ho k).2
    rcases hfit with hlen | ⟨hone,hlen⟩
    · obtain ⟨k,hk⟩ := ht.reaches hl (Nat.pos_of_ne_zero hcount) le_rfl
      exact key ⟨k,(le_antisymm (hle k) hk).trans hlen⟩
    · obtain ⟨k,hk⟩ := ht.reaches hl (Nat.pos_of_ne_zero hcount) hlen
      have hex : ∃ k, s.contentLength - s.writeBytes ≤ bytesTaken o k := ⟨k,hk⟩
      refine key ⟨Nat.find hex,le_antisymm ?_ (Nat.find_spec hex)⟩
      cases hfind : Nat.find hex with
      | zero => exact Nat.zero_le _
      | succ j =>
        have hbefore : bytesTaken o j < s.contentLength - s.writeBytes :=
          not_le.mp (Nat.find_min hex (by omega))
        have hstep := (ho j).1
        rw [bytesTaken_succ]
        omega

/-- A socket that takes a byte at a time sends what it should only when that is what is missing. -/
theorem FileSend.sends_bytewise (s : FileSend) : ∃ o, s.Allows o ∧ s.Takes o ∧ Lively o ∧
    (¬s.finished → s.Sends o → min s.contentLength s.available = s.contentLength - s.writeBytes ∧
      sendfileCount s.contentLength ≠ 0 ∧ s.contentLength - s.writeBytes ≤ s.rest.length) := by
  let f : ℕ → ℕ := fun k => if sendfileCount s.contentLength = 0 then 0 else min k s.rest.length
  have hf : Monotone f := by
    refine monotone_nat_of_le_succ fun k => ?_
    simp only [f]
    split <;> omega
  have h0 : f 0 = 0 := by simp [f]
  obtain ⟨ha,ht⟩ := FileSend.growing_allowed (s := s) hf h0
    (fun k => by simp only [f]; split <;> omega)
    (fun k => by simp only [f]; split <;> omega)
    (fun hc k => by simp only [f]; split <;> omega)
  refine ⟨growing f,ha,ht,lively_growing f,fun hgoes hs => ?_⟩
  have hr : sendfileRefuses s.contentLength = false := by simpa using (not_or.mp hgoes).2
  have hlt : s.writeBytes < s.contentLength := not_le.mp (not_or.mp hgoes).1
  obtain ⟨k,hsum,hle,hsmall⟩ := (FileSend.sends_iff_sum ha hr).mp hs
  simp only [bytesTaken_growing hf h0] at hsum hle hsmall
  have hneed := hsmall (s.contentLength - s.writeBytes)
  simp only [f] at hsum hle hneed
  by_cases hc : sendfileCount s.contentLength = 0
  · simp only [if_pos hc] at hle
    omega
  · simp only [if_neg hc] at hsum hle hneed
    exact ⟨by omega,hc,by omega⟩

/-- Without that there is a socket on which the file is not sent as it should. -/
theorem FileSend.exists_not_sends {s : FileSend} (h : ¬s.Fitting) :
    ∃ o, s.Allows o ∧ s.Takes o ∧ Lively o ∧ ¬s.Sends o := by
  obtain ⟨o,ho,ht,hl,hbyte⟩ := s.sends_bytewise
  by_cases hs : s.Sends o
  swap
  · exact ⟨o,ho,ht,hl,hs⟩
  unfold FileSend.Fitting at h
  split at h
  next hfin => exact absurd ((FileSend.sends_of_finished hfin o).mp hs) h
  next hgoes =>
    obtain ⟨hmin,hcount,hlen⟩ := hbyte hgoes hs
    have hr : sendfileRefuses s.contentLength = false := by simpa using (not_or.mp hgoes).2
    have hlt : s.writeBytes < s.contentLength := not_le.mp (not_or.mp hgoes).1
    obtain ⟨hne,hone⟩ := not_or.mp fun hfit => h ⟨hmin,hcount,hfit⟩
    have htwo : 2 ≤ sendfileCount s.contentLength := by
      by_contra hc
      exact hone ⟨by omega,hlen⟩
    -- two bytes when one is missing
    let f : ℕ → ℕ := fun k =>
      if k < s.contentLength - s.writeBytes then k else min (k + 1) s.rest.length
    have hf : Monotone f := by
      refine monotone_nat_of_le_succ fun k => ?_
      simp only [f]
      split <;> split <;> omega
    have h0 : f 0 = 0 := if_pos (by omega)
    obtain ⟨ha,ht⟩ := FileSend.growing_allowed (s := s) hf h0
      (fun k => by simp only [f]; split <;> split <;> omega)
      (fun k => by simp only [f]; split <;> omega)
      (fun _ k => by simp only [f]; split <;> split <;> omega)
    refine ⟨growing f,ha,ht,lively_growing f,fun hs => ?_⟩
    obtain ⟨k,hk,-⟩ := (FileSend.sends_iff_sum ha hr).mp hs
    rw [bytesTaken_growing hf h0,hmin] at hk
    simp only [f] at hk
    split at hk <;> omega

/-- A file response ends with the right bytes on the results that come to them; and on every socket
that takes something, exactly when the length fits the file. -/
theorem fileSend_iff (s : FileSend) : (∀ o, s.Allows o → (s.Sends o ↔ s.Hits o)) ∧
    ((∀ o, s.Allows o → s.Takes o → Lively o → s.Sends o) ↔ s.Fitting) := by
  refine ⟨fun o ho => FileSend.sends_iff_hits ho,fun hall => ?_,fun h o ho ht hl => h.sends ho ht hl⟩
  by_contra hno
  obtain ⟨o,ho,ht,hl,hnot⟩ := FileSend.exists_not_sends hno
  exact hnot (hall o ho ht hl)

/-- A file of three bytes of which the first has been read, the descriptor being where the file object
is. -/
def oneRead : FileSend := ⟨2,0,[104,105,106],1,1⟩

/-- A socket that takes a byte, is full for a while, and takes the other byte. -/
def byteByByte : ℕ → FileOutcome
  | 0 => .count 1
  | 1 => .eagain
  | 2 => .count 1
  | _ + 3 => .count 0

theorem fileSend_oneRead : oneRead.Sends byteByByte := by
  have hsum : ∀ k, bytesTaken byteByByte (k + 3) = 2 := by
    intro k
    induction k with
    | zero => rfl
    | succ k ih => rw [bytesTaken_succ,ih]; rfl
  have ha : oneRead.Allows byteByByte := by
    intro k
    rcases k with _ | _ | _ | k
    · decide
    · decide
    · decide
    · rw [hsum (k + 1)]
      exact ⟨Nat.zero_le _,le_rfl⟩
  have ht : oneRead.Takes byteByByte := by
    intro k hne _ hk
    rcases k with _ | _ | _ | k
    · decide
    · exact absurd rfl hne
    · decide
    · rw [hsum k] at hk
      exact absurd hk (by decide)
  have hl : Lively byteByByte := fun k => ⟨k + 3,by omega,by simp [byteByByte]⟩
  exact (fileSend_iff oneRead).2.mpr (by unfold FileSend.Fitting; decide) _ ha ht hl

/-- Some socket that takes a byte again and again is not sent what it should be. -/
def FileSend.Misses (s : FileSend) : Prop := ∃ o, s.Allows o ∧ Lively o ∧ ¬s.Sends o

theorem FileSend.misses_of_not_fitting {s : FileSend} (h : ¬s.Fitting) : s.Misses := by
  obtain ⟨o,ho,-,hl,hnot⟩ := FileSend.exists_not_sends h
  exact ⟨o,ho,hl,hnot⟩

/-- Two bytes, and a length of three. -/
def shortFile : FileSend := ⟨3,0,[104,105],0,0⟩

/-- Three bytes, and a length of two. -/
def longFile : FileSend := ⟨2,0,[104,105,106],0,0⟩

/-- The file object has read a byte while its buffer took all. -/
def bufferedFile : FileSend := ⟨2,0,[104,105,106],1,3⟩

/-- A length of 3 GiB. -/
def hugeLength : FileSend := ⟨3 * 2 ^ 30,0,[104,105],0,0⟩

theorem not_fileSend : shortFile.Misses ∧ longFile.Misses ∧ bufferedFile.Misses ∧ hugeLength.Misses := by
  have hshort : ¬shortFile.Fitting := by unfold FileSend.Fitting; decide
  have hlong : ¬longFile.Fitting := by unfold FileSend.Fitting; decide
  have hbuffered : ¬bufferedFile.Fitting := by unfold FileSend.Fitting; decide
  have hhuge : ¬hugeLength.Fitting := by unfold FileSend.Fitting; decide
  exact ⟨FileSend.misses_of_not_fitting hshort,FileSend.misses_of_not_fitting hlong,
    FileSend.misses_of_not_fitting hbuffered,FileSend.misses_of_not_fitting hhuge⟩

end Meinheld
