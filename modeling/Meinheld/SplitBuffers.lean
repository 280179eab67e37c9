import Meinheld.Marks

/-! `http_parser_execute` on a buffer that is cut in two. -/
namespace Meinheld

/-! ### Runs without an error -/

section Feed
variable {σ : Type} {cb : Settings σ} {R : σ → σ → Prop}

/-- The loop of `http_parser_execute` as long as no byte and no callback fails, up to the end of
the buffer; an upgrade may stop it only there. -/
def feed (cb : Settings σ) : HttpParser → Marked σ → Bytes → Option (HttpParser × Marked σ)
  | p, m, [] => some (p,m)
  | p, m, ch :: rest =>
    match step p ch with
    | .next acts q =>
      match runActs cb ch acts m with
      | .ok m' => feed cb q (m'.push ch) rest
      | .error _ => none
    | .stop acts q =>
      match runActs cb ch acts m with
      | .ok m' => if rest = [] then some (q,m') else none
      | .error _ => none
    | .bail _ | .error _ => none

/-- The mark that a state allows. -/
def Marked.Fits (m : Marked σ) (s : State) : Prop :=
  match m.mark with
  | none => s.mark = none ∨ s.mark = some .body
  | some (k,_) => s.mark = some k

theorem entryMark_eq_none {s : State} (h : s.mark = none ∨ s.mark = some .body) :
    entryMark s = none := by
  cases s <;> first | rfl | exact absurd h (by decide)

theorem entryMark_eq_some {s : State} {k : Mark} (h : s.mark = some k) (hk : k ≠ .body) :
    entryMark s = some (k,[]) := by
  cases s <;> cases k <;> first | rfl | exact absurd h (by decide) | exact absurd rfl hk

theorem entryMark_fits (d : σ) (s : State) : Marked.Fits { data := d, mark := entryMark s } s := by
  cases s <;> simp [Marked.Fits,entryMark,State.mark]

/-- What it takes for the bytes of a data callback to come in two pieces. `R` relates the data of
two parsers of which one was given some bytes in pieces. -/
structure Additive (cb : Settings σ) (R : σ → σ → Prop) : Prop where
  trans {d e f} : R d e → R e f → R d f
  notify {n p d d' e} : R d d' → cb.onNotify n p d = (true,e) →
    ∃ e', cb.onNotify n p d' = (true,e') ∧ R e e'
  data {k p buf d d' e} : R d d' → cb.onData k p buf d = (true,e) →
    ∃ e', cb.onData k p buf d' = (true,e') ∧ R e e'
  /-- Of the parser only the flags are read, and only by the body. -/
  flags {k p p' buf d} : (k = .body → p.flags = p'.flags) →
    cb.onData k p buf d = cb.onData k p' buf d
  split {k p a b d e} : R d d → cb.onData k p (a ++ b) d = (true,e) →
    ∃ d1 e', cb.onData k p a d = (true,d1) ∧ cb.onData k p b d1 = (true,e') ∧ R e e'

theorem runActs_notify {as : List Act} (h : ∀ a ∈ as, a.isNotify) {ch : Byte} {m m' : Marked σ}
    (hr : runActs cb ch as m = .ok m') : m'.mark = m.mark := by
  induction as generalizing m with
  | nil =>
    cases hr
    rfl
  | cons a as ih =>
    obtain ⟨ha,has⟩ := List.forall_mem_cons.mp h
    cases a with
    | notify n adv p =>
      simp only [runActs] at hr
      split at hr
      next d _ =>
        have hm := ih has hr
        exact hm
      · cases hr
    | mark k => exact ha.elim
    | data k incl adv p => exact ha.elim

theorem runActs_data_ok {k k' : Mark} {incl : Bool} {adv : ℕ} {p : HttpParser} {as : List Act}
    {ch : Byte} {buf : Bytes} {d : σ} {m : Marked σ} :
    runActs cb ch (.data k incl adv p :: as) ⟨d,some (k',buf)⟩ = .ok m ↔
      ∃ e, cb.onData k p (if incl then buf ++ [ch] else buf) d = (true,e) ∧
        runActs cb ch as ⟨e,none⟩ = .ok m := by
  simp only [runActs]
  constructor
  · intro h
    split at h
    next e he => exact ⟨e,he,h⟩
    · cases h
  · rintro ⟨e,he,h⟩
    simpa only [he] using h

/-- Of two parsers at the same byte, the second has already handed the first bytes of a callback
over. -/
inductive Behind (cb : Settings σ) (R : σ → σ → Prop) (p : HttpParser) :
    Marked σ → Marked σ → Prop
  | level {d d' k} : R d d' → Behind cb R p ⟨d,k⟩ ⟨d',k⟩
  | handed {d d' e k a b} : cb.onData k p a d = (true,e) → R e d' →
      Behind cb R p ⟨d,some (k,a ++ b)⟩ ⟨d',some (k,b)⟩
  | body {d d' e a} : cb.onData .body p a d = (true,e) → R e d' →
      Behind cb R p ⟨d,some (.body,a)⟩ ⟨d',none⟩

theorem Turn.fits {p q : HttpParser} {acts : List Act} (ht : Turn p acts q) {ch : Byte}
    {m m1 : Marked σ} (hm : m.Fits p.state) (hr : runActs cb ch acts m = .ok m1) :
    (m1.push ch).Fits q.state := by
  obtain ⟨d,mk⟩ := m
  cases ht with
  | quiet h0 hacts hq =>
    have h1 : m1.mark = none := by
      rw [runActs_notify hacts hr]
      cases mk with
      | none => rfl
      | some kb => simp [Marked.Fits,h0] at hm
    simpa [Marked.push,Marked.Fits,h1] using hq
  | inside hk hne hq =>
    cases hr
    cases mk with
    | none => simp [Marked.Fits,hk,hne] at hm
    | some kb => simpa [Marked.Fits,Marked.push,hk,hq] using hm
  | start h0 hq =>
    cases hr
    cases mk with
    | none => simpa [Marked.Fits,Marked.push] using hq
    | some kb => simp [Marked.Fits,h0] at hm
  | empty h0 hq =>
    cases mk with
    | none =>
      obtain ⟨e,-,hr⟩ := runActs_data_ok.mp hr
      cases hr
      exact .inl hq
    | some kb => simp [Marked.Fits,h0] at hm
  | finish hk hq hf =>
    cases mk with
    | none =>
      cases hr
      exact .inl hq
    | some kb =>
      obtain ⟨e,-,hr⟩ := runActs_data_ok.mp hr
      cases hr
      exact .inl hq
  | bodyByte hk hq hf =>
    cases hr
    cases mk with
    | none => simpa [Marked.Fits,Marked.push] using hq
    | some kb => simpa [Marked.Fits,Marked.push,hk,hq] using hm
  | bodyLast hk hq hf =>
    have h1 : m1.mark = none := by
      cases mk with
      | none =>
        obtain ⟨e,-,hr⟩ := runActs_data_ok.mp hr
        exact runActs_notify (m := ⟨e,none⟩) (by simp [Act.isNotify]) hr
      | some kb =>
        obtain ⟨e,-,hr⟩ := runActs_data_ok.mp hr
        exact runActs_notify (m := ⟨e,none⟩) (by simp [Act.isNotify]) hr
    simpa [Marked.push,Marked.Fits,h1] using .inl hq

theorem feed_append {a b : Bytes} {p q : HttpParser} {m m1 : Marked σ} (hb : b ≠ [])
    (hm : m.Fits p.state) (h : feed cb p m (a ++ b) = some (q,m1)) :
    ∃ p1 m2, feed cb p m a = some (p1,m2) ∧ m2.Fits p1.state ∧ p1.httpErrno = p.httpErrno ∧
      feed cb p1 m2 b = some (q,m1) := by
  induction a generalizing p m with
  | nil => exact ⟨p,m,rfl,hm,rfl,h⟩
  | cons ch rest ih =>
    simp only [List.cons_append,feed] at h ⊢
    split at h
    next acts q' hs =>
      split at h
      next m' hr =>
        rw [← step_errno hs]
        exact ih ((step_turn hs).fits hm hr) h
      · cases h
    · split at h
      · simp [hb] at h
      · cases h
    · cases h
    · cases h

theorem executeLoop_of_feed {data : Bytes} {p q : HttpParser} {m m1 : Marked σ} (pos : ℕ)
    (hm : m.Fits p.state) (h : feed cb p m data = some (q,m1)) :
    executeLoop cb p m pos data =
      ((flushMark cb q m1).1,(flushMark cb q m1).2,((pos + data.length : ℕ) : ℤ)) := by
  induction data generalizing p m pos with
  | nil =>
    cases h
    rfl
  | cons ch rest ih =>
    simp only [feed] at h
    split at h
    next acts q' hs =>
      split at h
      next m' hr =>
        simp only [executeLoop,hs,hr,ih (pos + 1) ((step_turn hs).fits hm hr) h,List.length_cons]
        rw [Nat.add_right_comm,Nat.add_assoc]
      · cases h
    next acts q' hs =>
      split at h
      next m' hr =>
        split at h
        next hrest =>
          obtain ⟨rfl,rfl⟩ : q' = q ∧ m' = m1 := by simpa using h
          obtain ⟨h0,hacts,-⟩ := step_stop hs
          have hnone : m'.mark = none := by
            rw [runActs_notify hacts hr]
            cases hk : m.mark with
            | none => rfl
            | some kb => simp [Marked.Fits,hk,h0] at hm
          simp [executeLoop,hs,hr,flushMark,hnone,hrest]
        · cases h
      · cases h
    · cases h
    · cases h

/-- What `http_parser_execute` returns for a buffer that is read without an error. -/
theorem httpParserExecute_of_feed {data : Bytes} {p q : HttpParser} {d : σ} {m : Marked σ}
    (hp : p.httpErrno = .OK) (hdata : data ≠ [])
    (h : feed cb p ⟨d,entryMark p.state⟩ data = some (q,m)) :
    httpParserExecute cb p d data =
      ((flushMark cb q m).1,(flushMark cb q m).2,(data.length : ℤ)) := by
  unfold httpParserExecute
  rw [if_neg (by simpa using hp),if_neg hdata,executeLoop_of_feed 0 (entryMark_fits d _) h,Nat.zero_add]

theorem runActs_keeps {I : σ → Prop}
    (hn : ∀ n p d e, n ≠ .messageComplete → I d → cb.onNotify n p d = (true,e) → I e)
    (hd : ∀ k p buf d e, I d → cb.onData k p buf d = (true,e) → I e) {as : List Act} {ch : Byte}
    {m m1 : Marked σ} (has : as.any Act.completes = false) (hI : I m.data)
    (h : runActs cb ch as m = .ok m1) : I m1.data := by
  induction as generalizing m with
  | nil =>
    cases h
    exact hI
  | cons a as ih =>
    simp only [List.any_cons,Bool.or_eq_false_iff] at has
    cases a with
    | mark k => exact ih (m := { m with mark := m.mark.or (some (k,[])) }) has.2 hI h
    | data k incl adv p =>
      simp only [runActs] at h
      split at h
      · exact ih has.2 hI h
      next buf _ =>
        split at h
        next e he => exact ih (m := { data := e }) has.2 (hd k p _ _ e hI he) h
        · cases h
    | notify n adv p =>
      simp only [runActs] at h
      split at h
      next e he =>
        have hne : n ≠ .messageComplete := by
          rintro rfl
          cases has.1
        exact ih (m := { m with data := e }) has.2 (hn n p _ e hne hI he) h
      · cases h

theorem oneMessage_cons {p : HttpParser} {ch : Byte} {rest : Bytes} (h : rest ≠ []) :
    oneMessage p (ch :: rest) = (!(step p ch).completes && oneMessage (step p ch).parser rest) := by
  cases rest with
  | nil => exact absurd rfl h
  | cons b rest => rfl

/-- What the callbacks keep when they succeed, as long as no message is completed. -/
theorem feed_keeps {I : σ → Prop}
    (hn : ∀ n p d e, n ≠ .messageComplete → I d → cb.onNotify n p d = (true,e) → I e)
    (hd : ∀ k p buf d e, I d → cb.onData k p buf d = (true,e) → I e) {a data : Bytes}
    {p q : HttpParser} {m m1 : Marked σ} (ha : a ≠ []) (hone : oneMessage p (data ++ a))
    (hI : I m.data) (h : feed cb p m data = some (q,m1)) : I m1.data ∧ oneMessage q a := by
  induction data generalizing p m with
  | nil =>
    cases h
    exact ⟨hI,hone⟩
  | cons ch rest ih =>
    rw [List.cons_append,oneMessage_cons (by simp [ha]),Bool.and_eq_true,Bool.not_eq_true'] at hone
    simp only [feed] at h
    split at h
    next acts q' hs =>
      rw [hs] at hone
      split at h
      next m2 hr =>
        have hI2 : I m2.data := runActs_keeps hn hd hone.1 hI hr
        exact ih (m := m2.push ch) hone.2 hI2 h
      · cases h
    next acts q' hs =>
      rw [hs] at hone
      exact absurd (step_stop hs).2.2 (by simpa [Step.completes] using hone.1)
    · cases h
    · cases h

theorem runActs_error {F : σ → Prop} (hnF : ∀ n p d e, cb.onNotify n p d = (false,e) → F e)
    (hdF : ∀ k p buf d e, cb.onData k p buf d = (false,e) → F e) {as : List Act} {ch : Byte}
    {m : Marked σ} {r : HttpParser × σ × ℕ} (h : runActs cb ch as m = .error r) : F r.2.1 := by
  induction as generalizing m with
  | nil => cases h
  | cons a as ih =>
    cases a with
    | mark k => exact ih h
    | data k incl adv p =>
      simp only [runActs] at h
      split at h
      · exact ih h
      · split at h
        · exact ih h
        next e he =>
          cases h
          exact hdF _ _ _ _ _ he
    | notify n adv p =>
      simp only [runActs] at h
      split at h
      · exact ih h
      next e he =>
        cases h
        exact hnF _ _ _ _ he

theorem Turn.completes_mark {p q : HttpParser} {acts : List Act} (ht : Turn p acts q)
    (hc : acts.any Act.completes) {ch : Byte} {m m1 : Marked σ} (hm : m.Fits p.state)
    (hr : runActs cb ch acts m = .ok m1) : m1.mark = none := by
  obtain ⟨d,mk⟩ := m
  cases ht with
  | quiet h0 hacts hq =>
    rw [runActs_notify hacts hr]
    cases mk with
    | none => rfl
    | some kb => simp [Marked.Fits,h0] at hm
  | bodyLast hk hq hf =>
    cases mk with
    | none =>
      obtain ⟨e,-,hr⟩ := runActs_data_ok.mp hr
      exact runActs_notify (m := ⟨e,none⟩) (by simp [Act.isNotify]) hr
    | some kb =>
      obtain ⟨e,-,hr⟩ := runActs_data_ok.mp hr
      exact runActs_notify (m := ⟨e,none⟩) (by simp [Act.isNotify]) hr
  | inside | start | empty | finish | bodyByte => simp [Act.completes] at hc

theorem oneMessage_feed {data : Bytes} {p q : HttpParser} {m m1 : Marked σ}
    (hone : oneMessage p data) (hm : m.Fits p.state) (h : feed cb p m data = some (q,m1)) :
    m1.mark = none := by
  induction data generalizing p m with
  | nil => cases hone
  | cons ch rest ih =>
    simp only [feed] at h
    split at h
    next acts q' hs =>
      split at h
      next m2 hr =>
        have hm2 := (step_turn hs).fits hm hr
        by_cases hrest : rest = []
        · subst hrest
          cases h
          simp only [oneMessage,hs,Step.completes] at hone
          simp [Marked.push,(step_turn hs).completes_mark hone hm hr]
        · rw [oneMessage_cons hrest,hs,Bool.and_eq_true] at hone
          exact ih hone.2 hm2 h
      · cases h
    next acts q' hs =>
      split at h
      next m2 hr =>
        split at h
        · cases h
          obtain ⟨h0,hacts,-⟩ := step_stop hs
          rw [runActs_notify hacts hr]
          cases hk : m.mark with
          | none => rfl
          | some kb => simp [Marked.Fits,hk,h0] at hm
        · cases h
      · cases h
    · cases h
    · cases h

/-- A read of one message goes through, or a callback fails in it, or it stops before its last
byte. -/
theorem executeLoop_cases {I F : σ → Prop}
    (hn : ∀ n p d e, n ≠ .messageComplete → I d → cb.onNotify n p d = (true,e) → I e)
    (hd : ∀ k p buf d e, I d → cb.onData k p buf d = (true,e) → I e)
    (hnF : ∀ n p d e, cb.onNotify n p d = (false,e) → F e)
    (hdF : ∀ k p buf d e, cb.onData k p buf d = (false,e) → F e) {data : Bytes} {p : HttpParser}
    {m : Marked σ} (pos : ℕ) (hone : oneMessage p data) (hI : I m.data) :
    (∃ r, feed cb p m data = some r) ∨ F (executeLoop cb p m pos data).2.1 ∨
      I (executeLoop cb p m pos data).2.1 ∧
        (executeLoop cb p m pos data).2.2 ≠ ((pos + data.length : ℕ) : ℤ) := by
  induction data generalizing p m pos with
  | nil => cases hone
  | cons ch rest ih =>
    have hF : ∀ acts r, runActs cb ch acts m = .error r → F r.2.1 := fun acts r hr =>
      runActs_error hnF hdF hr
    cases hs : step p ch with
    | error q =>
      refine .inr (.inr ?_)
      simp only [executeLoop,hs,List.length_cons]
      exact ⟨hI,by omega⟩
    | bail q =>
      refine .inr (.inr ?_)
      simp only [executeLoop,hs,List.length_cons]
      exact ⟨hI,by omega⟩
    | stop acts q =>
      have hrest : rest = [] := by
        by_contra hne
        rw [oneMessage_cons hne,hs,Bool.and_eq_true,Bool.not_eq_true'] at hone
        exact absurd (step_stop hs).2.2 (by simpa [Step.completes] using hone.1)
      cases hr : runActs cb ch acts m with
      | ok m' => exact .inl ⟨(q,m'),by simp [feed,hs,hr,hrest]⟩
      | error r =>
        refine .inr (.inl ?_)
        simp only [executeLoop,hs,hr]
        exact hF acts r hr
    | next acts q =>
      cases hr : runActs cb ch acts m with
      | ok m' =>
        by_cases hrest : rest = []
        · exact .inl ⟨(q,m'.push ch),by simp [feed,hs,hr,hrest]⟩
        · rw [oneMessage_cons hrest,hs,Bool.and_eq_true,Bool.not_eq_true'] at hone
          have hI' : I m'.data := runActs_keeps hn hd hone.1 hI hr
          have h := @ih _ (m'.push ch) (pos + 1) hone.2 hI'
          rw [Nat.add_assoc,Nat.add_comm 1] at h
          simpa only [feed,executeLoop,hs,hr,Step.parser,List.length_cons] using h
      | error r =>
        refine .inr (.inl ?_)
        simp only [executeLoop,hs,hr]
        exact hF acts r hr

/-- The length of the marked bytes. -/
def Marked.length (m : Marked σ) : ℕ := m.mark.elim 0 fun kb => kb.2.length

theorem Marked.length_push (m : Marked σ) (ch : Byte) : (m.push ch).length ≤ m.length + 1 := by
  obtain ⟨d,_ | kb⟩ := m <;> simp [Marked.length,Marked.push]

theorem runActs_notify_size {size : σ → ℕ}
    (hn : ∀ n p d e, cb.onNotify n p d = (true,e) → size e ≤ size d) {as : List Act} {ch : Byte}
    {m m1 : Marked σ} (has : ∀ a ∈ as, a.isNotify) (h : runActs cb ch as m = .ok m1) :
    size m1.data ≤ size m.data := by
  induction as generalizing m with
  | nil =>
    cases h
    exact le_rfl
  | cons a as ih =>
    obtain ⟨ha,has'⟩ := List.forall_mem_cons.mp has
    cases a with
    | notify n adv p =>
      simp only [runActs] at h
      split at h
      next e he => exact (ih has' h).trans (hn n p _ _ he)
      · cases h
    | mark k => exact ha.elim
    | data k incl adv p => exact ha.elim

/-- What grows by at most the bytes handed to the data callbacks grows by at most the bytes
read. -/
theorem Turn.size {size : σ → ℕ} (hn : ∀ n p d e, cb.onNotify n p d = (true,e) → size e ≤ size d)
    (hd : ∀ k p buf d e, cb.onData k p buf d = (true,e) → size e ≤ size d + buf.length)
    {p q : HttpParser} {acts : List Act} (ht : Turn p acts q) {ch : Byte} {m m1 : Marked σ}
    (hr : runActs cb ch acts m = .ok m1) :
    size m1.data + (m1.push ch).length ≤ size m.data + m.length + 1 := by
  obtain ⟨d,mk⟩ := m
  cases ht with
  | quiet h0 hacts hq =>
    have h1 := runActs_notify_size hn hacts hr
    have h2 := runActs_notify hacts hr
    have h3 := m1.length_push ch
    have h4 : m1.length = Marked.length ⟨d,mk⟩ := by simp only [Marked.length,h2]
    omega
  | inside =>
    cases hr
    have h3 := Marked.length_push ⟨d,mk⟩ ch
    simp only at h3 ⊢
    omega
  | start | bodyByte =>
    cases hr
    cases mk <;> simp [Marked.length,Marked.push,Nat.add_assoc]
  | empty =>
    cases mk <;> obtain ⟨e,he,hr⟩ := runActs_data_ok.mp hr <;> cases hr
    all_goals
      have h1 := hd _ _ _ _ _ he
      simp [Marked.length,Marked.push] at h1 ⊢
      omega
  | finish =>
    cases mk with
    | none =>
      cases hr
      simp [Marked.length,Marked.push]
    | some kb =>
      obtain ⟨e,he,hr⟩ := runActs_data_ok.mp hr
      cases hr
      have h1 := hd _ _ _ _ _ he
      simp [Marked.length,Marked.push] at h1 ⊢
      omega
  | bodyLast =>
    cases mk <;> obtain ⟨e,he,hr⟩ := runActs_data_ok.mp hr
    all_goals
      have h1 := hd _ _ _ _ _ he
      have h2 := runActs_notify_size (m := ⟨e,none⟩) hn (by simp [Act.isNotify]) hr
      have h3 : m1.mark = none := runActs_notify (m := ⟨e,none⟩) (by simp [Act.isNotify]) hr
      simp [Marked.length,Marked.push,h3] at h1 h2 ⊢
      omega

theorem feed_size {size : σ → ℕ} (hn : ∀ n p d e, cb.onNotify n p d = (true,e) → size e ≤ size d)
    (hd : ∀ k p buf d e, cb.onData k p buf d = (true,e) → size e ≤ size d + buf.length)
    {data : Bytes} {p q : HttpParser} {m m1 : Marked σ} (h : feed cb p m data = some (q,m1)) :
    size m1.data + m1.length ≤ size m.data + m.length + data.length := by
  induction data generalizing p m with
  | nil =>
    cases h
    exact le_rfl
  | cons ch rest ih =>
    simp only [feed] at h
    split at h
    next acts q' hs =>
      split at h
      next m2 hr =>
        have h1 := (step_turn hs).size hn hd hr
        have h2 := ih h
        rw [show (m2.push ch).data = m2.data from rfl] at h2
        simp only [List.length_cons]
        omega
      · cases h
    next acts q' hs =>
      split at h
      next m2 hr =>
        split at h
        · obtain ⟨rfl,rfl⟩ : q' = q ∧ m2 = m1 := by simpa using h
          obtain ⟨-,hacts,-⟩ := step_stop hs
          have h1 := runActs_notify_size hn hacts hr
          have h2 : m2.length = m.length := by
            simp only [Marked.length,runActs_notify hacts hr]
          omega
        · cases h
      · cases h
    · cases h
    · cases h

namespace Additive
variable (hA : Additive cb R)
include hA

theorem runActs_congr {as : List Act} {ch : Byte} {d d' : σ} {k : Option (Mark × Bytes)}
    {m : Marked σ} (hR : R d d') (h : runActs cb ch as ⟨d,k⟩ = .ok m) :
    ∃ e', runActs cb ch as ⟨d',k⟩ = .ok ⟨e',m.mark⟩ ∧ R m.data e' := by
  induction as generalizing d d' k with
  | nil =>
    cases h
    exact ⟨d',rfl,hR⟩
  | cons a as ih =>
    cases a with
    | mark k => exact ih hR h
    | data k incl adv p =>
      simp only [runActs] at h ⊢
      split at h
      · exact ih hR h
      next buf _ =>
        split at h
        next e he =>
          obtain ⟨e',he',hR'⟩ := hA.data hR he
          simp only [he']
          exact ih hR' h
        · cases h
    | notify n adv p =>
      simp only [runActs] at h ⊢
      split at h
      next e he =>
        obtain ⟨e',he',hR'⟩ := hA.notify hR he
        simp only [he']
        exact ih hR' h
      · cases h

theorem runActs_refl {as : List Act} {ch : Byte} {m m' : Marked σ} (hR : R m.data m.data)
    (h : runActs cb ch as m = .ok m') : R m'.data m'.data := by
  obtain ⟨e,he,hR'⟩ := hA.runActs_congr hR h
  have hd : m'.data = e := congrArg Marked.data (Except.ok.inj (h.symm.trans he))
  rwa [← hd] at hR'

theorem runActs_level {as : List Act} {ch : Byte} {d d' : σ} {k : Option (Mark × Bytes)}
    {m : Marked σ} {q : HttpParser} (hR : R d d') (h : runActs cb ch as ⟨d,k⟩ = .ok m) :
    ∃ m', runActs cb ch as ⟨d',k⟩ = .ok m' ∧ Behind cb R q (m.push ch) (m'.push ch) := by
  obtain ⟨e',he',hR'⟩ := hA.runActs_congr hR h
  exact ⟨_,he',.level hR'⟩

theorem handOver {k : Mark} {p r : HttpParser} {a b : Bytes} {d d' d1 e : σ} (hd : R d d)
    (hf : k = .body → r.flags = p.flags) (h1 : cb.onData k p a d = (true,d1)) (hR : R d1 d')
    (h : cb.onData k r (a ++ b) d = (true,e)) : ∃ e', cb.onData k r b d' = (true,e') ∧ R e e' := by
  obtain ⟨d2,e',h2,he',hR'⟩ := hA.split hd h
  rw [hA.flags hf,h1] at h2
  cases h2
  obtain ⟨e'',he'',hR''⟩ := hA.data hR he'
  exact ⟨e'',he'',hA.trans hR' hR''⟩

theorem behind_step {p q : HttpParser} {ch : Byte} {acts : List Act} {m m' m1 : Marked σ}
    (ht : Turn p acts q) (hm : m.Fits p.state) (hd : R m.data m.data) (hb : Behind cb R p m m')
    (hr : runActs cb ch acts m = .ok m1) :
    ∃ m1', runActs cb ch acts m' = .ok m1' ∧ Behind cb R q (m1.push ch) (m1'.push ch) := by
  cases hb with
  | level hR => exact hA.runActs_level hR hr
  | @handed d d' e k a b h1 hR =>
    have hk : p.state.mark = some k := hm
    cases ht with
    | quiet h0 => simp [hk] at h0
    | start h0 => simp [hk] at h0
    | empty h0 => simp [hk] at h0
    | @inside k' q hk' hne hq =>
      cases hr
      have hkk : k = k' := by simpa [hk] using hk'
      refine ⟨_,rfl,?_⟩
      simp only [Marked.push,Option.map_some,List.append_assoc]
      exact .handed ((hA.flags fun h => absurd (hkk ▸ h) hne).symm.trans h1) hR
    | @finish k' adv r q hk' hq hf =>
      have hkk : k' = k := by simpa [hk] using hk'.symm
      subst hkk
      obtain ⟨e1,he1,hr⟩ := runActs_data_ok.mp hr
      cases hr
      obtain ⟨e',he',hR'⟩ := hA.handOver hd hf h1 hR he1
      exact ⟨⟨e',none⟩,runActs_data_ok.mpr ⟨e',he',rfl⟩,.level hR'⟩
    | @bodyByte q hk' hq hf =>
      have hkk : .body = k := by simpa [hk] using hk'.symm
      subst hkk
      cases hr
      refine ⟨_,rfl,?_⟩
      change Behind cb R q ⟨d,some (.body,a ++ b ++ [ch])⟩ ⟨d',some (.body,b ++ [ch])⟩
      rw [List.append_assoc]
      exact .handed ((hA.flags fun _ => hf).trans h1) hR
    | @bodyLast n r q hk' hq hf =>
      have hkk : .body = k := by simpa [hk] using hk'.symm
      subst hkk
      obtain ⟨e1,he1,hr⟩ := runActs_data_ok.mp hr
      rw [if_pos rfl,List.append_assoc] at he1
      obtain ⟨e',he',hR'⟩ := hA.handOver hd (fun _ => hf) h1 hR he1
      obtain ⟨m2,hm2,hb⟩ := hA.runActs_level (q := q) hR' hr
      exact ⟨m2,runActs_data_ok.mpr ⟨e',he',hm2⟩,hb⟩
  | @body d d' e a h1 hR =>
    have hk : p.state.mark = some .body := hm
    cases ht with
    | quiet h0 => simp [hk] at h0
    | start h0 => simp [hk] at h0
    | empty h0 => simp [hk] at h0
    | inside hk' hne hq => exact absurd (by simpa [hk] using hk'.symm) hne
    | @finish k' adv r q hk' hq hf =>
      have hkk : k' = .body := by simpa [hk] using hk'.symm
      subst hkk
      obtain ⟨e1,he1,hr⟩ := runActs_data_ok.mp hr
      cases hr
      rw [if_neg (by simp),hA.flags hf,h1] at he1
      cases he1
      exact ⟨⟨d',none⟩,rfl,.level hR⟩
    | @bodyByte q hk' hq hf =>
      cases hr
      exact ⟨_,rfl,.handed (b := [ch]) ((hA.flags fun _ => hf).trans h1) hR⟩
    | @bodyLast n r q hk' hq hf =>
      obtain ⟨e1,he1,hr⟩ := runActs_data_ok.mp hr
      obtain ⟨e',he',hR'⟩ := hA.handOver hd (fun _ => hf) h1 hR he1
      obtain ⟨m2,hm2,hb⟩ := hA.runActs_level (q := q) hR' hr
      exact ⟨m2,runActs_data_ok.mpr ⟨e',he',hm2⟩,hb⟩

/-- The bytes still marked somewhere in a run that reaches its end are taken by their callback. -/
theorem pending_ok {data : Bytes} {p q : HttpParser} {k : Mark} {buf : Bytes} {d : σ}
    {m1 : Marked σ} (hk : p.state.mark = some k) (hd : R d d)
    (h : feed cb p ⟨d,some (k,buf)⟩ data = some (q,m1)) (hend : m1.mark = none) :
    ∃ e, cb.onData k p buf d = (true,e) := by
  induction data generalizing p buf with
  | nil =>
    cases h
    cases hend
  | cons ch rest ih =>
    simp only [feed] at h
    split at h
    next acts q' hs =>
      split at h
      next m' hr =>
        cases step_turn hs with
        | quiet h0 => simp [hk] at h0
        | start h0 => simp [hk] at h0
        | empty h0 => simp [hk] at h0
        | @inside k' q hk' hne hq =>
          have hkk : k = k' := by simpa [hk] using hk'
          subst hkk
          cases hr
          obtain ⟨e,he⟩ := ih hq h
          obtain ⟨d1,-,h1,-,-⟩ := hA.split hd he
          exact ⟨d1,(hA.flags fun hb => absurd hb hne).trans h1⟩
        | @finish k' adv r q hk' hq hf =>
          have hkk : k = k' := by simpa [hk] using hk'
          subst hkk
          obtain ⟨e,he,-⟩ := runActs_data_ok.mp hr
          exact ⟨e,(hA.flags fun hb => (hf hb).symm).trans he⟩
        | @bodyByte q hk' hq hf =>
          have hkk : k = .body := by simpa [hk] using hk'
          subst hkk
          cases hr
          obtain ⟨e,he⟩ := ih hq h
          obtain ⟨d1,-,h1,-,-⟩ := hA.split hd he
          exact ⟨d1,(hA.flags fun _ => hf.symm).trans h1⟩
        | @bodyLast n r q hk' hq hf =>
          have hkk : k = .body := by simpa [hk] using hk'
          subst hkk
          obtain ⟨e,he,-⟩ := runActs_data_ok.mp hr
          obtain ⟨d1,-,h1,-,-⟩ := hA.split hd he
          exact ⟨d1,(hA.flags fun _ => hf.symm).trans h1⟩
      · cases h
    next acts q' hs => simp [(step_stop hs).1] at hk
    · cases h
    · cases h

theorem behind_feed {data : Bytes} {p q : HttpParser} {m m' m1 : Marked σ} (hm : m.Fits p.state)
    (hd : R m.data m.data) (hb : Behind cb R p m m') (h : feed cb p m data = some (q,m1)) :
    ∃ m1', feed cb p m' data = some (q,m1') ∧ Behind cb R q m1 m1' := by
  induction data generalizing p m m' with
  | nil =>
    cases h
    exact ⟨m',rfl,hb⟩
  | cons ch rest ih =>
    simp only [feed] at h ⊢
    split at h
    next acts q' hs =>
      split at h
      next m2 hr =>
        obtain ⟨m2',hr',hb'⟩ := hA.behind_step (step_turn hs) hm hd hb hr
        simp only [hr']
        have hd2 : R m2.data m2.data := hA.runActs_refl hd hr
        exact ih ((step_turn hs).fits hm hr) hd2 hb' h
      · cases h
    next acts q' hs =>
      split at h
      next m2 hr =>
        obtain ⟨h0,hacts,-⟩ := step_stop hs
        cases hb with
        | level hR =>
          obtain ⟨e',he',hR'⟩ := hA.runActs_congr hR hr
          split at h
          next hrest =>
            cases h
            simp only [he']
            exact ⟨_,if_pos hrest,.level hR'⟩
          · cases h
        | handed h1 hR => simp [Marked.Fits,h0] at hm
        | body h1 hR => simp [Marked.Fits,h0] at hm
      · cases h
    · cases h
    · cases h

theorem feed_refl {data : Bytes} {p q : HttpParser} {m m1 : Marked σ} (hd : R m.data m.data)
    (h : feed cb p m data = some (q,m1)) : R m1.data m1.data := by
  induction data generalizing p m with
  | nil =>
    cases h
    exact hd
  | cons ch rest ih =>
    simp only [feed] at h
    split at h
    next acts q' hs =>
      split at h
      next m2 hr =>
        have hd2 : R m2.data m2.data := hA.runActs_refl hd hr
        exact ih (m := m2.push ch) hd2 h
      · cases h
    next acts q' hs =>
      split at h
      next m2 hr =>
        split at h
        · cases h
          exact hA.runActs_refl hd hr
        · cases h
      · cases h
    · cases h
    · cases h

/-- The callback at the end of a piece succeeds when the run goes on to its end. -/
theorem flush_behind {b : Bytes} {p q : HttpParser} {m m1 : Marked σ} (hd : R m.data m.data)
    (hm : m.Fits p.state) (h : feed cb p m b = some (q,m1)) (hend : m1.mark = none) :
    ∃ e, flushMark cb p m = (p,e) ∧ (e = m.data ∨ ∃ k buf, cb.onData k p buf m.data = (true,e)) ∧
      R e e ∧ Behind cb R p m ⟨e,entryMark p.state⟩ := by
  obtain ⟨d,mk⟩ := m
  cases mk with
  | none => 
    refine ⟨d,rfl,.inl rfl,hd,?_⟩
    rw [entryMark_eq_none hm]
    exact .level hd
  | some kb =>
    obtain ⟨k,buf⟩ := kb
    obtain ⟨e,he⟩ := hA.pending_ok hm hd h hend
    obtain ⟨e',he',hR⟩ := hA.data hd he
    cases he.symm.trans he'
    refine ⟨e,by simp [flushMark,he],.inr ⟨k,buf,he⟩,hR,?_⟩
    by_cases hk : k = .body
    · subst hk
      rw [entryMark_eq_none (.inr hm)]
      exact .body he hR
    · rw [entryMark_eq_some hm hk]
      have hb := Behind.handed (a := buf) (b := []) he hR
      simpa using hb

/-- The same bytes read by two parsers whose data is related. -/
theorem feed_congr {data : Bytes} {p q : HttpParser} {d d' : σ} {k : Option (Mark × Bytes)}
    {m1 : Marked σ} (hm : Marked.Fits ⟨d,k⟩ p.state) (hd : R d d) (hR : R d d')
    (h : feed cb p ⟨d,k⟩ data = some (q,m1)) (hend : m1.mark = none) :
    ∃ m1', feed cb p ⟨d',k⟩ data = some (q,m1') ∧ m1'.mark = none ∧ R m1.data m1'.data := by
  obtain ⟨m1',h',hb⟩ := hA.behind_feed hm hd (.level hR) h
  cases hb with
  | level hR' => exact ⟨_,h',hend,hR'⟩
  | handed h4 hR => cases hend
  | body h4 hR => cases hend

/-- A run over two pieces at once, and the same run with the callbacks called at the end of the
first piece. -/
theorem feed_cut {a b : Bytes} {p q : HttpParser} {m m1 : Marked σ} (hm : m.Fits p.state)
    (hd : R m.data m.data) (h : feed cb p m (a ++ b) = some (q,m1)) (hb : b ≠ [])
    (hend : m1.mark = none) :
    ∃ p1 m2 e m3, feed cb p m a = some (p1,m2) ∧ p1.httpErrno = p.httpErrno ∧
      flushMark cb p1 m2 = (p1,e) ∧
      (e = m2.data ∨ ∃ k buf, cb.onData k p1 buf m2.data = (true,e)) ∧ R e e ∧
      feed cb p1 ⟨e,entryMark p1.state⟩ b = some (q,m3) ∧ m3.mark = none ∧ R m1.data m3.data := by
  obtain ⟨p1,m2,h1,hfit,herr,h2⟩ := feed_append hb hm h
  have hd2 : R m2.data m2.data := hA.feed_refl hd h1
  obtain ⟨e,he,hcall,hde,hbeh⟩ := hA.flush_behind hd2 hfit h2 hend
  obtain ⟨m3,h3,hbeh'⟩ := hA.behind_feed hfit hd2 hbeh h2
  cases hbeh' with
  | level hR => exact ⟨p1,m2,e,_,h1,herr,he,hcall,hde,h3,hend,hR⟩
  | handed h4 hR => cases hend
  | body h4 hR => cases hend

end Additive

end Feed

end Meinheld
