import Meinheld.WebSocketRuns

/-! The messages that RFC 6455 sees in a sequence of frames, and those `wait` returns. -/
namespace Meinheld

def Message.isText : Message → Bool
  | .text _ => true
  | .binary _ => false

/-- A message from all of its payload. -/
def Message.ofPayload (isText : Bool) (d : Bytes) : Option Message :=
  if isText then (Utf8.decode d).map .text else some (.binary d)

theorem Message.ofPayload_eq_some {t : Bool} {d : Bytes} {m : Message} :
    Message.ofPayload t d = some m ↔ m.isText = t ∧ m.payload = d := by
  cases t <;> cases m <;>
    simp [Message.ofPayload,Message.isText,Message.payload,Utf8.decode_eq_some]
  all_goals exact eq_comm

/-- The payload so far when a data frame comes: the frame starts a message where none is open, or
continues the open one. -/
def Frame.joins (f : Frame) (pending : Option (Bool × Bytes)) : Option (Bool × Bytes) :=
  match f.opcode, pending with
  | 0, some (isText,d) => some (isText,d ++ f.data)
  | 1, none => some (true,f.data)
  | 2, none => some (false,f.data)
  | _, _ => none

/-- The messages of the frames of RFC 6455 after a part of a message, `none` where they are not
valid. -/
def assemble : Option (Bool × Bytes) → List Frame → Option (List Message)
  | _, [] => some []
  | pending, f :: fs =>
    if 8 ≤ f.opcode then
      if f.opcode ∈ [8,9,10] ∧ f.fin = true ∧ f.data.length ≤ 125 then
        if f.opcode = 8 then (if fs = [] then some [] else none) else assemble pending fs
      else none
    else
      (f.joins pending).bind fun r =>
        if f.fin then (Message.ofPayload r.1 r.2).bind fun m => (assemble none fs).map (m :: ·)
        else assemble (some r) fs

def Frame.Completes (f : Frame) : Prop := f.opcode < 8 ∧ f.fin = true

/-- What the loop gets right when one `recv` completes the frames. `inside` is the kind of the
message that is open: a continuation needs one, each frame of a text is UTF-8, and a ping or a pong
comes between messages, with no end of a message after it but a close. -/
def Fine : Option Bool → List Frame → Prop
  | _, [] => True
  | inside, f :: fs =>
    if 8 ≤ f.opcode then
      f.opcode = 8 ∨ (inside = none ∧ (∀ g ∈ fs, ¬ g.Completes) ∧ (∃ g ∈ fs, g.opcode = 8) ∧
        Fine none fs)
    else
      ∃ isText, (if f.opcode = 0 then inside = some isText else isText = decide (f.opcode = 1)) ∧
        (isText = true → (Utf8.decode f.data).isSome) ∧
        Fine (if f.fin then none else some isText) fs

/-- The part of a message in the locals of the loop. -/
def Parsing.held (p : Parsing) : Option (Bool × Bytes) := p.msg.map fun m => (m.isText,m.payload)

/-- `is_text` tells of which kind the part of a message is. -/
def Parsing.Sound (p : Parsing) : Prop := ∀ m ∈ p.msg, m.isText = p.isText

theorem Frame.joins_cases {f : Frame} {pending : Option (Bool × Bytes)} {t : Bool} {d : Bytes}
    (h : f.joins pending = some (t,d)) :
    (f.opcode = 0 ∧ ∃ d0, pending = some (t,d0) ∧ d = d0 ++ f.data) ∨
      (f.opcode = 1 ∧ pending = none ∧ t = true ∧ d = f.data) ∨
      (f.opcode = 2 ∧ pending = none ∧ t = false ∧ d = f.data) := by
  unfold Frame.joins at h
  split at h
  next hop =>
    obtain ⟨rfl,rfl⟩ := Prod.mk.inj (Option.some.inj h)
    exact .inl ⟨hop,_,rfl,rfl⟩
  next hop =>
    obtain ⟨rfl,rfl⟩ := Prod.mk.inj (Option.some.inj h)
    exact .inr (.inl ⟨hop,rfl,rfl,rfl⟩)
  next hop =>
    obtain ⟨rfl,rfl⟩ := Prod.mk.inj (Option.some.inj h)
    exact .inr (.inr ⟨hop,rfl,rfl,rfl⟩)
  next => simp at h

namespace Parsing

variable {p : Parsing} {f : Frame} {t : Bool} {d : Bytes}

theorem handle_joins (hs : p.Sound) (hj : f.joins p.held = some (t,d))
    (hd : t = true → (Utf8.decode f.data).isSome) : ∃ m : Message, m.isText = t ∧ m.payload = d ∧
      p.handle f = .goesOn (Parsing.finish ⟨p.msgs,some m,t⟩ f.fin) := by
  rcases Frame.joins_cases hj with ⟨hop,d0,hheld,rfl⟩ | ⟨hop,-,rfl,rfl⟩ | ⟨hop,-,rfl,rfl⟩
  · obtain ⟨m0,hm0,hpair⟩ := Option.map_eq_some_iff.mp hheld
    obtain ⟨rfl,rfl⟩ := Prod.mk.inj hpair
    have htext := hs m0 hm0
    cases m0 with
    | text s =>
      obtain ⟨s',hs'⟩ := Option.isSome_iff_exists.mp (hd rfl)
      refine ⟨.text (s ++ s'),rfl,?_,?_⟩
      · simp [Message.payload,Utf8.decode_eq_some.mp hs']
      · simp [handle,hop,extend,← htext,Message.isText,hs',hm0]
    | binary d0 =>
      refine ⟨.binary (d0 ++ f.data),rfl,rfl,?_⟩
      simp [handle,hop,extend,← htext,Message.isText,hm0]
  · obtain ⟨s,hs⟩ := Option.isSome_iff_exists.mp (hd rfl)
    exact ⟨.text s,rfl,(Utf8.decode_eq_some.mp hs).symm,by simp [handle,hop,hs]⟩
  · exact ⟨.binary f.data,rfl,rfl,by simp [handle,hop]⟩

theorem handle_undecodable (hs : p.Sound) (hj : f.joins p.held = some (true,d))
    (hd : Utf8.decode f.data = none) : p.handle f = .raises := by
  rcases Frame.joins_cases hj with ⟨hop,d0,hheld,rfl⟩ | ⟨hop,-⟩ | ⟨-,-,hfalse,-⟩
  · obtain ⟨m0,hm0,hpair⟩ := Option.map_eq_some_iff.mp hheld
    obtain ⟨htrue,rfl⟩ := Prod.mk.inj hpair
    have htext : p.isText = true := by rw [← hs m0 hm0,htrue]
    simp [handle,hop,extend,htext,hd]
  · simp [handle,hop,hd]
  · cases hfalse

theorem handle_stray (hp : p.msg = none) (hop : f.opcode = 0) : p.handle f = .raises := by
  have hextend : p.extend f.data = none := by
    unfold extend
    rw [hp]
    split
    · cases Utf8.decode f.data <;> rfl
    · rfl
  simp only [handle,hop,hextend]

theorem handle_close (hop : f.opcode = 8) : p.handle f = .closes := by
  simp only [handle,hop]

theorem handle_ping (hop : f.opcode = 9 ∨ f.opcode = 10) : p.handle f = .goesOn (p.finish f.fin) := by
  rcases hop with hop | hop <;> simp only [handle,hop]

end Parsing

section

variable {pending : Option (Bool × Bytes)} {f : Frame} {fs g rest : List Frame} {ms : List Message}

theorem assemble_data (hop : ¬ 8 ≤ f.opcode) (h : assemble pending (f :: fs) = some ms) :
    ∃ t d, f.joins pending = some (t,d) ∧
      if f.fin then ∃ m ms', Message.ofPayload t d = some m ∧ assemble none fs = some ms' ∧
        ms = m :: ms'
      else assemble (some (t,d)) fs = some ms := by
  simp only [assemble,if_neg hop] at h
  obtain ⟨⟨t,d⟩,hj,h⟩ := Option.bind_eq_some_iff.mp h
  refine ⟨t,d,hj,?_⟩
  cases hfin : f.fin with
  | false => simpa [hfin] using h
  | true =>
    simp only [hfin,if_true] at h ⊢
    obtain ⟨m,hm,h⟩ := Option.bind_eq_some_iff.mp h
    obtain ⟨ms',hms,rfl⟩ := Option.map_eq_some_iff.mp h
    exact ⟨m,ms',hm,hms,rfl⟩

theorem assemble_control (hop : 8 ≤ f.opcode) (h : assemble pending (f :: fs) = some ms) :
    f.fin = true ∧ ((f.opcode = 8 ∧ fs = [] ∧ ms = []) ∨
      ((f.opcode = 9 ∨ f.opcode = 10) ∧ assemble pending fs = some ms)) := by
  simp only [assemble,if_pos hop] at h
  split at h
  next hvalid =>
    obtain ⟨hmem,hfin,-⟩ := hvalid
    refine ⟨hfin,?_⟩
    split at h
    next h8 =>
      split at h
      · exact .inl ⟨h8,‹_›,(Option.some.inj h).symm⟩
      · simp at h
    next h8 => exact .inr ⟨by simpa [h8] using hmem,h⟩
  next => simp at h

theorem assemble_eq_nil (h : assemble pending fs = some ms) (hno : ∀ f ∈ fs, ¬ f.Completes) :
    ms = [] := by
  induction fs generalizing pending with
  | nil => simpa [assemble,eq_comm] using h
  | cons f fs ih =>
    have hrest : ∀ g ∈ fs, ¬ g.Completes := fun g hg => hno g (List.mem_cons_of_mem f hg)
    by_cases hop : 8 ≤ f.opcode
    · obtain ⟨-,⟨-,-,hms⟩ | ⟨-,h⟩⟩ := assemble_control hop h
      · exact hms
      · exact ih h hrest
    · obtain ⟨t,d,-,h⟩ := assemble_data hop h
      have hfin : f.fin = false := by
        have hf := hno f List.mem_cons_self
        simpa [Frame.Completes,not_le.mp hop] using hf
      exact ih (by simpa [hfin] using h) hrest

/-- Nothing follows a close. -/
theorem assemble_close (h : assemble pending (g ++ rest) = some ms) (hg : ∃ f ∈ g, f.opcode = 8) :
    rest = [] := by
  induction g generalizing pending ms with
  | nil => simp at hg
  | cons f g ih =>
    by_cases hop : 8 ≤ f.opcode
    · obtain ⟨-,⟨-,hnil,-⟩ | ⟨h9,h⟩⟩ := assemble_control hop h
      · exact (List.append_eq_nil_iff.mp hnil).2
      · obtain ⟨c,hc,h8⟩ := hg
        refine ih h ⟨c,(List.mem_cons.mp hc).resolve_left ?_,h8⟩
        rintro rfl
        omega
    · obtain ⟨c,hc,h8⟩ := hg
      have hcg : c ∈ g := (List.mem_cons.mp hc).resolve_left (by rintro rfl; omega)
      obtain ⟨t,d,-,h⟩ := assemble_data hop h
      cases hfin : f.fin with
      | true =>
        simp only [hfin,if_true] at h
        obtain ⟨-,ms',-,h,-⟩ := h
        exact ih h ⟨c,hcg,h8⟩
      | false =>
        simp only [hfin,Bool.false_eq_true,if_false] at h
        exact ih h ⟨c,hcg,h8⟩

theorem not_completes (h : assemble pending fs = some []) : ∀ f ∈ fs, ¬ f.Completes := by
  induction fs generalizing pending with
  | nil => simp
  | cons f fs ih =>
    by_cases hop : 8 ≤ f.opcode
    · have hf : ¬ f.Completes := fun hf => absurd hf.1 (not_lt.mpr hop)
      obtain ⟨-,⟨-,rfl,-⟩ | ⟨-,h⟩⟩ := assemble_control hop h
      · simpa using hf
      · exact List.forall_mem_cons.mpr ⟨hf,ih h⟩
    · obtain ⟨t,d,-,h⟩ := assemble_data hop h
      cases hfin : f.fin with
      | true => simp [hfin] at h
      | false =>
        simp only [hfin,Bool.false_eq_true,if_false] at h
        exact List.forall_mem_cons.mpr ⟨fun hf => by simp [hf.2] at hfin,ih h⟩

end

namespace Parsing

variable {p p' : Parsing} {f : Frame} {fs g rest : List Frame} {pending : Option (Bool × Bytes)}
  {ms : List Message}

theorem feed_closes (h : p.feed g = .closes p') : ∃ f ∈ g, f.opcode = 8 := by
  induction g generalizing p with
  | nil => cases h
  | cons f g ih =>
    simp only [feed] at h
    cases hp : p.handle f with
    | goesOn p1 =>
      simp only [hp] at h
      obtain ⟨f',hf',hop⟩ := ih h
      exact ⟨f',List.mem_cons_of_mem f hf',hop⟩
    | closes =>
      refine ⟨f,List.mem_cons_self,?_⟩
      unfold handle at hp
      split at hp
      all_goals first | assumption | (split at hp <;> cases hp) | cases hp
    | raises => simp [hp] at h

theorem feed_goesOn (h : p.feed g = .goesOn p') : ∀ f ∈ g, f.opcode ≠ 8 := by
  induction g generalizing p with
  | nil => simp
  | cons f g ih =>
    simp only [feed] at h
    refine List.forall_mem_cons.mpr ⟨fun hop => by simp [handle_close hop] at h,?_⟩
    cases hp : p.handle f with
    | goesOn p1 => exact ih (by simpa only [hp] using h)
    | closes => simp [hp] at h
    | raises => simp [hp] at h

theorem handle_goesOn (h : p.handle f = .goesOn p') :
    ∃ msg t, p' = Parsing.finish ⟨p.msgs,msg,t⟩ f.fin := by
  unfold handle at h
  split at h
  · split at h
    · exact ⟨_,_,(Handled.goesOn.inj h).symm⟩
    · cases h
  · split at h
    · exact ⟨_,_,(Handled.goesOn.inj h).symm⟩
    · cases h
  · exact ⟨_,_,(Handled.goesOn.inj h).symm⟩
  · cases h
  · exact ⟨_,_,(Handled.goesOn.inj h).symm⟩
  · exact ⟨_,_,(Handled.goesOn.inj h).symm⟩
  · cases h

theorem feed_msgs (h : p.feed g = .goesOn p' ∨ p.feed g = .closes p') :
    ∃ out, p'.msgs = p.msgs ++ out := by
  induction g generalizing p with
  | nil =>
    obtain rfl : p = p' := by simpa [feed] using h
    exact ⟨[],by simp⟩
  | cons f g ih =>
    simp only [feed] at h
    cases hp : p.handle f with
    | goesOn p1 =>
      simp only [hp] at h
      obtain ⟨out,hout⟩ := ih h
      obtain ⟨msg,t,rfl⟩ := handle_goesOn hp
      cases hfin : f.fin with
      | true => exact ⟨msg :: out,by simpa [hfin,finish] using hout⟩
      | false => exact ⟨out,by simpa [hfin,finish] using hout⟩
    | closes =>
      obtain rfl : p = p' := by simpa [hp] using h
      exact ⟨[],by simp⟩
    | raises => simp [hp] at h

theorem feed_lost (hp : p.msg = none) (h : p.feed g = .goesOn p' ∨ p.feed g = .closes p')
    {o : Bool × Bytes} (ha : assemble (some o) (g ++ rest) = some ms) :
    ms = [] ∨ (p.feed g = .goesOn p' ∧ assemble (some o) rest = some ms) := by
  induction g generalizing p with
  | nil =>
    obtain rfl : p = p' := by simpa [feed] using h
    exact .inr ⟨rfl,ha⟩
  | cons f g ih =>
    simp only [feed] at h
    by_cases hop : 8 ≤ f.opcode
    · obtain ⟨hfin,⟨-,-,hms⟩ | ⟨h9,ha⟩⟩ := assemble_control hop ha
      · exact .inl hms
      · simp only [handle_ping h9] at h
        simp only [feed,handle_ping h9]
        exact ih (by simp [finish,hfin]) h ha
    · obtain ⟨t,d,hj,-⟩ := assemble_data hop ha
      rcases Frame.joins_cases hj with ⟨h0,-⟩ | ⟨-,hnone,-⟩ | ⟨-,hnone,-⟩
      · simp [handle_stray hp h0] at h
      · cases hnone
      · cases hnone

/-- The loop on frames that are fine. -/
theorem feed_of_fine {pending : Option (Bool × Bytes)} (hs : p.Sound)
    (hrel : p.msg = none ∨ p.held = pending) (hf : Fine (p.held.map Prod.fst) g)
    (ha : assemble pending (g ++ rest) = some ms) :
    (∃ p' ms1 ms2 pending', p.feed g = .goesOn p' ∧ p'.msgs = p.msgs ++ ms1.map some ∧
        ms = ms1 ++ ms2 ∧ assemble pending' rest = some ms2) ∨
      ∃ p' j, p.feed g = .closes p' ∧ rest = [] ∧
        p'.msgs = p.msgs ++ ms.map some ++ List.replicate j none := by
  induction g generalizing p pending ms with
  | nil => exact .inl ⟨p,[],ms,pending,rfl,by simp,rfl,ha⟩
  | cons f g ih =>
    simp only [Fine] at hf
    simp only [feed]
    by_cases hop : 8 ≤ f.opcode
    · rw [if_pos hop] at hf
      obtain ⟨hfin,⟨h8,hnil,rfl⟩ | ⟨h9,ha⟩⟩ := assemble_control hop ha
      · obtain ⟨rfl,rfl⟩ := List.append_eq_nil_iff.mp hnil
        exact .inr ⟨p,0,by simp only [handle_close h8],rfl,by simp⟩
      · obtain ⟨hinside,hno,hclose,hf⟩ := hf.resolve_left (by omega)
        have hnone : p.msg = none := by simpa [held] using hinside
        have hping := handle_ping (p := p) h9
        simp only [hping]
        have hfinish : p.finish f.fin = ⟨p.msgs ++ [none],none,p.isText⟩ := by
          simp [finish,hfin,hnone]
        rw [hfinish]
        rcases ih (p := ⟨p.msgs ++ [none],none,p.isText⟩) (by simp [Sound]) (.inl rfl) hf ha with
          ⟨p',-,-,-,hfeed,-⟩ | ⟨p',j,hfeed,rfl,hmsgs⟩
        · obtain ⟨c,hc,h8⟩ := hclose
          exact absurd h8 (feed_goesOn hfeed c hc)
        · obtain rfl := assemble_eq_nil ha (by simpa using hno)
          exact .inr ⟨p',j + 1,hfeed,rfl,by simp [hmsgs,List.replicate_succ]⟩
    · rw [if_neg hop] at hf
      obtain ⟨isText,hkind,hdecode,hf⟩ := hf
      obtain ⟨t,d,hj,hdata⟩ := assemble_data hop ha
      have hheld : p.held = pending := by
        rcases hrel with hnone | hheld
        · have hno : p.held = none := by simp [held,hnone]
          rcases Frame.joins_cases hj with ⟨h0,-⟩ | ⟨-,rfl,-⟩ | ⟨-,rfl,-⟩
          · simp [h0,hno] at hkind
          · exact hno
          · exact hno
        · exact hheld
      have hisText : isText = t := by
        rcases Frame.joins_cases hj with ⟨h0,d0,rfl,-⟩ | ⟨h1,-,rfl,-⟩ | ⟨h2,-,rfl,-⟩
        · simpa [h0,hheld,eq_comm] using hkind
        · simpa [h1] using hkind
        · simpa [h2] using hkind
      subst hisText hheld
      obtain ⟨m,hm,hpayload,hhandle⟩ := handle_joins hs hj hdecode
      simp only [hhandle]
      cases hfin : f.fin with
      | true =>
        simp only [hfin,if_true] at hdata hf
        obtain ⟨m',ms',hm',hdata,rfl⟩ := hdata
        obtain rfl : m = m' := by
          rw [Message.ofPayload_eq_some.mpr ⟨hm,hpayload⟩] at hm'
          exact Option.some.inj hm'
        rcases ih (p := ⟨p.msgs ++ [some m],none,isText⟩) (by simp [Sound]) (.inl rfl) hf hdata with
          ⟨p',ms1,ms2,pending',hfeed,hmsgs,rfl,ha'⟩ | ⟨p',j,hfeed,hrest,hmsgs⟩
        · exact .inl ⟨p',m :: ms1,ms2,pending',hfeed,by simp [hmsgs],rfl,ha'⟩
        · exact .inr ⟨p',j,hfeed,hrest,by simp [hmsgs]⟩
      | false =>
        simp only [hfin,Bool.false_eq_true,if_false] at hdata hf
        have hheld1 : Parsing.held ⟨p.msgs,some m,isText⟩ = some (isText,d) := by
          simp [held,hm,hpayload]
        refine ih (p := ⟨p.msgs,some m,isText⟩) (by simp [Sound,hm]) (.inr hheld1) ?_ hdata
        rw [hheld1]
        exact hf

/-- Frames on which the loop gives the messages as they are, and then `None` up to a close, are
fine. -/
theorem fine_of_feed {R : List WaitResult} {j : ℕ} (hs : p.Sound)
    (hrel : p.msg = none ∨ p.held = pending) (ha : assemble pending (g ++ rest) = some ms)
    (hlost : ∀ o ms', assemble (some o) rest = some ms' → ms' = [])
    (hend : (p.feed g = .goesOn p' ∧ none ∉ p'.msgs) ∨ (p.feed g = .closes p' ∧ R = []))
    (hout : p'.msgs.map .returns ++ R =
      (p.msgs ++ ms.map some).map .returns ++ List.replicate j (.returns none)) :
    Fine (p.held.map Prod.fst) g ∧ (p.feed g = .goesOn p' → ∃ pending' ms1 ms2, ms = ms1 ++ ms2 ∧
      p'.msgs = p.msgs ++ ms1.map some ∧ assemble pending' rest = some ms2) := by
  have hfed : p.feed g = .goesOn p' ∨ p.feed g = .closes p' := hend.imp And.left And.left
  induction g generalizing p pending ms j with
  | nil =>
    obtain rfl : p = p' := by simpa [feed] using hfed
    exact ⟨trivial,fun _ => ⟨pending,[],ms,rfl,by simp,ha⟩⟩
  | cons f g ih =>
    simp only [Fine]
    simp only [feed] at hend hfed ⊢
    by_cases hop : 8 ≤ f.opcode
    · rw [if_pos hop]
      obtain ⟨hfin,⟨h8,-⟩ | ⟨h9,ha⟩⟩ := assemble_control hop ha
      · simp only [handle_close h8]
        exact ⟨.inl h8,by simp⟩
      · have hping : p.finish f.fin = ⟨p.msgs ++ [p.msg],none,p.isText⟩ := by simp [finish,hfin]
        simp only [handle_ping h9,hping] at hend hfed ⊢
        obtain ⟨out,hmsgs⟩ := feed_msgs hfed
        have hhead : .returns p.msg :: (out.map .returns ++ R) =
            ms.map (WaitResult.returns ∘ some) ++ List.replicate j (.returns none) := by
          simpa [hmsgs] using hout
        have hnil : ms = [] := by
          cases hp : p.msg with
          | none =>
            cases ms with
            | nil => rfl
            | cons m ms => simp [hp] at hhead
          | some m =>
            have hheld : pending = some (m.isText,m.payload) := by
              rw [← hrel.resolve_left (by simp [hp])]
              simp [held,hp]
            subst hheld
            rcases feed_lost rfl hfed ha with hnil | ⟨-,hrest⟩
            · exact hnil
            · exact hlost _ _ hrest
        subst hnil
        obtain ⟨j,rfl⟩ : ∃ i, j = i + 1 := Nat.exists_eq_succ_of_ne_zero (by rintro rfl; simp at hhead)
        obtain ⟨hp,htail⟩ : p.msg = none ∧ out.map .returns ++ R = List.replicate j (.returns none) := by
          simpa [List.replicate_succ] using hhead
        have hcloses : Parsing.feed g ⟨p.msgs ++ [p.msg],none,p.isText⟩ = .closes p' ∧ R = [] :=
          hend.resolve_left fun h => h.2 (by simp [hmsgs,hp])
        obtain ⟨hfine,-⟩ := ih (p := ⟨p.msgs ++ [p.msg],none,p.isText⟩) (j := j) (by simp [Sound])
          (.inl rfl) ha hend (by simp [hmsgs,htail]) hfed
        have hno := not_completes ha
        refine ⟨.inr ⟨by simp [held,hp],fun c hc => hno c (List.mem_append_left rest hc),
          feed_closes hcloses.1,hfine⟩,fun h => ?_⟩
        rw [hcloses.1] at h
        cases h
    · rw [if_neg hop]
      obtain ⟨t,d,hj,hdata⟩ := assemble_data hop ha
      have hgoes : p.handle f ≠ .raises := fun h => by simp [h] at hfed
      have hheld : p.held = pending := by
        rcases hrel with hnone | hheld
        · rcases Frame.joins_cases hj with ⟨h0,-⟩ | ⟨-,rfl,-⟩ | ⟨-,rfl,-⟩
          · exact absurd (handle_stray hnone h0) hgoes
          · simp [held,hnone]
          · simp [held,hnone]
        · exact hheld
      subst hheld
      have hdecode : t = true → (Utf8.decode f.data).isSome := by
        rintro rfl
        by_contra hno
        exact hgoes (handle_undecodable hs hj (by simpa using hno))
      have hkind : if f.opcode = 0 then p.held.map Prod.fst = some t else t = decide (f.opcode = 1) := by
        rcases Frame.joins_cases hj with ⟨h0,d0,hheld,-⟩ | ⟨h1,-,rfl,-⟩ | ⟨h2,-,rfl,-⟩
        · simp [h0,hheld]
        · simp [h1]
        · simp [h2]
      obtain ⟨m,hm,hpayload,hhandle⟩ := handle_joins hs hj hdecode
      simp only [hhandle] at hend hfed ⊢
      cases hfin : f.fin with
      | true =>
        simp only [hfin,if_true] at hdata
        obtain ⟨m',ms',hm',hdata,rfl⟩ := hdata
        obtain rfl : m = m' := by
          rw [Message.ofPayload_eq_some.mpr ⟨hm,hpayload⟩] at hm'
          exact Option.some.inj hm'
        have hfinish : Parsing.finish ⟨p.msgs,some m,t⟩ f.fin = ⟨p.msgs ++ [some m],none,t⟩ := by
          simp [finish,hfin]
        simp only [hfinish] at hend hfed ⊢
        obtain ⟨hfine,hrest⟩ := ih (p := ⟨p.msgs ++ [some m],none,t⟩) (j := j) (by simp [Sound])
          (.inl rfl) hdata hend (by simpa using hout) hfed
        refine ⟨⟨t,hkind,hdecode,hfine⟩,fun h => ?_⟩
        obtain ⟨pending',ms1,ms2,rfl,hmsgs,ha'⟩ := hrest h
        exact ⟨pending',m :: ms1,ms2,rfl,by simp [hmsgs],ha'⟩
      | false =>
        simp only [hfin,Bool.false_eq_true,if_false] at hdata
        have hheld1 : Parsing.held ⟨p.msgs,some m,t⟩ = some (t,d) := by simp [held,hm,hpayload]
        have hfinish : Parsing.finish ⟨p.msgs,some m,t⟩ f.fin = ⟨p.msgs,some m,t⟩ := by
          simp [finish,hfin]
        simp only [hfinish] at hend hfed ⊢
        obtain ⟨hfine,hrest⟩ := ih (p := ⟨p.msgs,some m,t⟩) (j := j) (by simp [Sound,hm])
          (.inr hheld1) hdata hend hout hfed
        rw [hheld1] at hfine
        exact ⟨⟨t,hkind,hdecode,hfine⟩,hrest⟩

end Parsing

/-- Some results are the messages in order, and then `None`, with `None` only at the end. -/
def Proper (out : List (WaitResult × Bool)) (ms : List Message) : Prop :=
  (∃ j, out.map Prod.fst = ms.map (WaitResult.returns ∘ some) ++ List.replicate j (.returns none)) ∧
    ∀ r ∈ out, r.1 = .returns none → r.2 = true

theorem Proper.not_raises {out : List (WaitResult × Bool)} {ms : List Message} (h : Proper out ms) :
    (.raises,false) ∉ out := by
  intro hmem
  obtain ⟨j,hj⟩ := h.1
  have hraises : WaitResult.raises ∈ out.map Prod.fst := List.mem_map_of_mem hmem
  simp [hj] at hraises

theorem assemble_lost {gs : List (List Frame)} {o : Bool × Bytes} {ms : List Message}
    (hquiet : (.raises,false) ∉ outputs gs) (ha : assemble (some o) gs.flatten = some ms) :
    ms = [] := by
  induction gs with
  | nil => simpa [assemble,eq_comm] using ha
  | cons g gs ih =>
    rw [List.flatten_cons] at ha
    simp only [outputs] at hquiet
    cases hfeed : Parsing.feed g {} with
    | goesOn p =>
      simp only [hfeed,List.mem_append,not_or] at hquiet
      rcases Parsing.feed_lost rfl (.inl hfeed) ha with hnil | ⟨-,ha⟩
      · exact hnil
      · exact ih hquiet.2 ha
    | closes p =>
      rcases Parsing.feed_lost rfl (.inr hfeed) ha with hnil | ⟨hgoes,-⟩
      · exact hnil
      · rw [hfeed] at hgoes
        cases hgoes
    | raises => simp [hfeed] at hquiet

theorem proper_of_fine {gs : List (List Frame)} {pending : Option (Bool × Bytes)} {ms : List Message}
    (ha : assemble pending gs.flatten = some ms) (hf : ∀ g ∈ gs, Fine none g) :
    Proper (outputs gs) ms := by
  induction gs generalizing pending ms with
  | nil =>
    obtain rfl : ms = [] := by simpa [assemble,eq_comm] using ha
    exact ⟨⟨0,rfl⟩,by simp [outputs]⟩
  | cons g gs ih =>
    rw [List.flatten_cons] at ha
    obtain ⟨hg,hgs⟩ := List.forall_mem_cons.mp hf
    simp only [outputs]
    rcases Parsing.feed_of_fine (p := {}) (by simp [Parsing.Sound]) (.inl rfl) hg ha with
      ⟨p,ms1,ms2,pending',hfeed,hmsgs,rfl,ha'⟩ | ⟨p,j,hfeed,-,hmsgs⟩
    · obtain ⟨⟨j,hj⟩,hnone⟩ := ih ha' hgs
      simp only [hfeed,hmsgs,List.nil_append]
      refine ⟨⟨j,by simp [hj,Function.comp_def]⟩,fun r hr => ?_⟩
      rcases List.mem_append.mp hr with hr | hr
      · obtain ⟨m,hm,rfl⟩ := List.mem_map.mp hr
        obtain ⟨m,-,rfl⟩ := List.mem_map.mp hm
        simp
      · exact hnone r hr
    · simp only [hfeed,hmsgs,List.nil_append]
      refine ⟨⟨j,by simp [Function.comp_def]⟩,fun r hr _ => ?_⟩
      obtain ⟨m,-,rfl⟩ := List.mem_map.mp hr
      rfl

theorem fine_of_proper {gs : List (List Frame)} {pending : Option (Bool × Bytes)} {ms : List Message}
    (ha : assemble pending gs.flatten = some ms) (hp : Proper (outputs gs) ms) :
    ∀ g ∈ gs, Fine none g := by
  induction gs generalizing pending ms with
  | nil => simp
  | cons g gs ih =>
    have hraises := hp.not_raises
    obtain ⟨⟨j,hj⟩,hnone⟩ := hp
    rw [List.flatten_cons] at ha
    simp only [outputs] at hj hnone hraises
    cases hfeed : Parsing.feed g {} with
    | goesOn p =>
      simp only [hfeed,List.mem_append,not_or,List.map_append] at hj hnone hraises
      have hflag : none ∉ p.msgs := fun hmem => by
        simpa using hnone (.returns none,false) (.inl (List.mem_map_of_mem hmem)) rfl
      have hout : p.msgs.map WaitResult.returns ++ (outputs gs).map Prod.fst =
          (({} : Parsing).msgs ++ ms.map some).map WaitResult.returns ++ List.replicate j (.returns none) := by
        simpa [Function.comp_def] using hj
      obtain ⟨hg,hrest⟩ := Parsing.fine_of_feed (p := {}) (by simp [Parsing.Sound]) (.inl rfl) ha
        (fun o ms' => assemble_lost hraises.2) (.inl ⟨hfeed,hflag⟩) hout
      obtain ⟨pending',ms1,ms2,rfl,hmsgs,ha'⟩ := hrest hfeed
      refine List.forall_mem_cons.mpr ⟨hg,ih ha' ⟨⟨j,?_⟩,fun r hr => hnone r (.inr hr)⟩⟩
      simpa [hmsgs] using hout
    | closes p =>
      simp only [hfeed] at hj
      have hout : p.msgs.map WaitResult.returns ++ [] =
          (({} : Parsing).msgs ++ ms.map some).map WaitResult.returns ++ List.replicate j (.returns none) := by
        simpa [Function.comp_def] using hj
      have hnil := assemble_close ha (Parsing.feed_closes hfeed)
      obtain ⟨hg,-⟩ := Parsing.fine_of_feed (p := {}) (by simp [Parsing.Sound]) (.inl rfl) ha
        (fun o ms' h => by simpa [hnil,assemble,eq_comm] using h) (.inr ⟨hfeed,rfl⟩) hout
      refine List.forall_mem_cons.mpr ⟨hg,fun g' hg' => ?_⟩
      rw [List.flatten_eq_nil_iff.mp hnil g' hg']
      trivial
    | raises => simp [hfeed] at hraises

/-- Successive calls of `wait` return the messages, and then `None`, which they return only when the
stream has come to its end. -/
def Receives (reads : List Bytes) (ms : List Message) : Prop :=
  ∀ n, ((WebSocket.waits n { socket := reads }).map Prod.fst =
      (ms.map (WaitResult.returns ∘ some) ++ List.replicate n (WaitResult.returns none)).take n) ∧
    ∀ r ∈ WebSocket.waits n { socket := reads }, r.1 = .returns none → r.2 = true

/-- The calls from the results up to the end. -/
theorem receives_iff_proper {reads : List Bytes} {out : List (WaitResult × Bool)} {ws : WebSocket}
    {ms : List Message} (hgives : WebSocket.Gives { socket := reads } out ws)
    (hend : (.raises,false) ∉ out → ∀ n, ws.waits n = List.replicate n (.returns none,true)) :
    Receives reads ms ↔ Proper out ms := by
  constructor
  · intro h
    have hout : WebSocket.waits out.length { socket := reads } = out := by
      simpa [WebSocket.waits] using hgives 0
    have hraises : (.raises,false) ∉ out := by
      intro hmem
      have hmap : WaitResult.raises ∈ out.map Prod.fst := List.mem_map_of_mem hmem
      rw [← hout,(h out.length).1] at hmap
      simpa using List.mem_of_mem_take hmap
    refine ⟨?_,fun r hr => (h out.length).2 r (hout.symm ▸ hr)⟩
    have hall := (h (out.length + ms.length)).1
    rw [hgives,hend hraises,List.map_append,List.map_replicate,List.take_append,
      List.take_of_length_le (by simp),List.take_replicate] at hall
    rcases List.append_eq_append_iff.mp hall with ⟨c,hms,hc⟩ | ⟨c,hl,hc⟩
    · refine ⟨0,?_⟩
      cases c with
      | nil => simpa using hms.symm
      | cons r c =>
        have hr : r = .returns none := by
          have hmem : r ∈ r :: c ++ List.replicate (min (out.length + ms.length -
              (ms.map (WaitResult.returns ∘ some)).length) (out.length + ms.length)) (.returns none) := by simp
          rw [← hc] at hmem
          exact List.eq_of_mem_replicate hmem
        have hmem : r ∈ ms.map (WaitResult.returns ∘ some) := by simp [hms]
        simp [hr] at hmem
    · refine ⟨c.length,?_⟩
      rw [hl,List.append_cancel_left_eq,List.eq_replicate_iff]
      refine ⟨rfl,fun r hr => ?_⟩
      exact List.eq_of_mem_replicate (hc ▸ List.mem_append_left _ hr)
  · intro h n
    rw [hgives.waits,hend h.not_raises]
    obtain ⟨⟨j,hj⟩,hnone⟩ := h
    refine ⟨?_,fun r hr => ?_⟩
    · rw [List.map_take,List.map_append,hj,List.map_replicate,List.append_assoc,
        List.replicate_append_replicate,List.take_append,List.take_append,List.take_replicate,
        List.take_replicate]
      congr 2
      omega
    · rcases List.mem_append.mp (List.mem_of_mem_take hr) with hr | hr
      · exact hnone r hr
      · rw [List.eq_of_mem_replicate hr]
        simp

/-- The frames that each `recv` completes. -/
def groups (reads : List Bytes) (fs : List WireFrame) : List (List Frame) :=
  (Framing.arrivals WireFrame.encode reads 0 fs).map fun g => g.map WireFrame.frame

section

variable {fs : List WireFrame} {ms : List Message} {reads : List Bytes}

theorem groups_flatten (hbytes : reads.flatten = fs.flatMap WireFrame.encode) :
    (groups reads fs).flatten = fs.map WireFrame.frame := by
  have hpart : ∀ x ∈ fs.head?, 0 < x.encode.length := fun x _ => by
    have h2 := two_le_encoding parseFrame_encode x
    omega
  have hflatten := Framing.arrivals_flatten WireFrame.encode reads hpart (by simp [hbytes])
  rw [groups,← List.map_flatten,hflatten]

theorem receives_iff_outputs (hreads : [] ∉ reads)
    (hbytes : reads.flatten = fs.flatMap WireFrame.encode) :
    Receives reads ms ↔ Proper (outputs (groups reads fs)) ms := by
  have hinit : WebSocket.Receiving WireFrame.encode { socket := reads } 0 fs [] :=
    .init hreads (by rw [hbytes,List.append_nil]) parseFrame_encode
  obtain ⟨ws,hgives,hend⟩ := hinit.outputs parseFrame_encode
  exact receives_iff_proper hgives hend

end

/-- `wait` returns the messages of a valid sequence of frames exactly when the frames that each
`recv` completes are fine. -/
theorem receives_iff_fine (fs : List WireFrame) {ms : List Message} {reads : List Bytes}
    (hvalid : assemble none (fs.map WireFrame.frame) = some ms) (hreads : [] ∉ reads)
    (hbytes : reads.flatten = fs.flatMap WireFrame.encode) :
    Receives reads ms ↔ ∀ g ∈ groups reads fs, Fine none g := by
  rw [receives_iff_outputs hreads hbytes]
  rw [← groups_flatten hbytes] at hvalid
  exact ⟨fine_of_proper hvalid,proper_of_fine hvalid⟩

theorem noKey_length : ∀ k ∈ (none : Option Bytes), k.length = 4 := by simp

theorem nil_length_lt : ([] : Bytes).length < 2 ^ 64 := by decide

theorem seven_length_lt : ([7] : Bytes).length < 2 ^ 64 := by decide

theorem text_length_lt : ([104] : Bytes).length < 2 ^ 64 := by decide

theorem end_length_lt : ([105] : Bytes).length < 2 ^ 64 := by decide

theorem mask_length : ∀ k ∈ some ([1,2,3,4] : Bytes), k.length = 4 := by decide

theorem text_lt : 1 < 16 := by decide

theorem continuation_lt : 0 < 16 := by decide

theorem ping_lt : 9 < 16 := by decide

theorem binary_lt : 2 < 16 := by decide

def pingFrame : WireFrame where
  fin := true
  opcode := ⟨9,ping_lt⟩
  payload := []
  key_length := noKey_length
  payload_length := nil_length_lt

def byteFrame : WireFrame where
  fin := true
  opcode := ⟨2,binary_lt⟩
  payload := [7]
  key_length := noKey_length
  payload_length := seven_length_lt

def textFrame : WireFrame where
  fin := false
  opcode := ⟨1,text_lt⟩
  payload := [104]
  key_length := noKey_length
  payload_length := text_length_lt

def endFrame : WireFrame where
  fin := true
  opcode := ⟨0,continuation_lt⟩
  key := some [1,2,3,4]
  payload := [105]
  key_length := mask_length
  payload_length := end_length_lt

def threeReads : List Bytes := [[1],[1,104,0x80,0x81,1,2,3,4,104,0x82],[1,7]]

/-- A text in two frames, which one `recv` completes, and a binary message over two of them. -/
theorem receives_iff_fine_three : Receives threeReads [.text ['h','i'],.binary [7]] := by
  have hvalid : assemble none ([textFrame,endFrame,byteFrame].map WireFrame.frame) =
      some [.text ['h','i'],.binary [7]] := by decide +kernel
  have hbytes : threeReads.flatten = [textFrame,endFrame,byteFrame].flatMap WireFrame.encode := rfl
  refine (receives_iff_fine _ hvalid (by decide) hbytes).mpr ?_
  have hgroups : groups threeReads [textFrame,endFrame,byteFrame] =
      [[],[textFrame.frame,endFrame.frame],[byteFrame.frame]] := rfl
  rw [hgroups]
  intro g hg
  simp only [List.mem_cons,List.not_mem_nil,or_false] at hg
  rcases hg with rfl | rfl | rfl
  · trivial
  · exact ⟨true,rfl,fun _ => by decide,true,rfl,fun _ => by decide,trivial⟩
  · exact ⟨false,rfl,fun h => (by cases h),trivial⟩

/-- A ping and then a message. -/
theorem not_receives_ping : ¬ ∀ (fs : List WireFrame) (ms : List Message) (reads : List Bytes),
    assemble none (fs.map WireFrame.frame) = some ms → [] ∉ reads →
    reads.flatten = fs.flatMap WireFrame.encode → Receives reads ms := by
  intro h
  have hall := h [pingFrame,byteFrame] [.binary [7]] [[0x89,0],[0x82,1,7]] rfl (by decide) rfl
  have hfirst := (hall 1).1
  have hwaits : (WebSocket.waits 1 { socket := [[0x89,0],[0x82,1,7]] }).map Prod.fst =
      [.returns none] := rfl
  rw [hwaits] at hfirst
  cases hfirst

/-- The frame of a message, as the loop sees it. -/
def Message.frame (m : Message) : Frame := ⟨true,m.opcode,m.payload⟩

theorem Message.joins_frame (m : Message) : m.frame.joins none = some (m.isText,m.payload) := by
  cases m <;> rfl

theorem Message.frame_opcode (m : Message) : ¬ 8 ≤ m.frame.opcode := by
  cases m <;> simp [frame,opcode]

theorem assemble_messages (ms : List Message) : assemble none (ms.map Message.frame) = some ms := by
  induction ms with
  | nil => rfl
  | cons m ms ih =>
    have hm : Message.ofPayload m.isText m.payload = some m :=
      Message.ofPayload_eq_some.mpr ⟨rfl,rfl⟩
    rw [List.map_cons,assemble,if_neg m.frame_opcode,m.joins_frame]
    simp [Message.frame,hm,ih]

theorem fine_messages {g : List Frame} (h : ∀ f ∈ g, ∃ m : Message, f = m.frame) : Fine none g := by
  induction g with
  | nil => trivial
  | cons f g ih =>
    obtain ⟨⟨m,rfl⟩,hg⟩ := List.forall_mem_cons.mp h
    rw [Fine,if_neg m.frame_opcode]
    refine ⟨m.isText,?_,?_,by simpa [Message.frame] using ih hg⟩
    · cases m <;> simp [Message.frame,Message.opcode,Message.isText]
    · cases m <;> simp [Message.frame,Message.payload,Message.isText]

theorem packMessages {ms : List Message} (h : ∀ m ∈ ms, m.payload.length < 2 ^ 64) :
    ∃ fs : List WireFrame, fs.map WireFrame.frame = ms.map Message.frame ∧
      ms.mapM packMessage = some (fs.map WireFrame.encode) := by
  induction ms with
  | nil => exact ⟨[],rfl,rfl⟩
  | cons m ms ih =>
    obtain ⟨hm,hms⟩ := List.forall_mem_cons.mp h
    obtain ⟨fs,hframes,hpack⟩ := ih hms
    refine ⟨m.wire hm :: fs,by rw [List.map_cons,List.map_cons,hframes]; rfl,?_⟩
    simp [List.mapM_cons,packMessage_eq m hm,hpack]

/-- Messages that are packed, and whose bytes are cut into non-empty results of `recv`, are what
`wait` returns. -/
theorem receives_packed {ms : List Message} (h : ∀ m ∈ ms, m.payload.length < 2 ^ 64) :
    ∃ packed, ms.mapM packMessage = some packed ∧ ∀ reads : List Bytes, [] ∉ reads →
      reads.flatten = packed.flatten → Receives reads ms := by
  obtain ⟨fs,hframes,hpack⟩ := packMessages h
  refine ⟨_,hpack,fun reads hreads hbytes => ?_⟩
  rw [← List.flatMap_def] at hbytes
  have hall := (groups_flatten hbytes).trans hframes
  rw [receives_iff_outputs hreads hbytes]
  refine proper_of_fine (hall ▸ assemble_messages ms) fun g hg => fine_messages fun f hf => ?_
  have hmem : f ∈ ms.map Message.frame := hall ▸ List.mem_flatten_of_mem hg hf
  obtain ⟨m,-,rfl⟩ := List.mem_map.mp hmem
  exact ⟨m,rfl⟩

theorem receives_packed_two : ∃ packed, [.text ['a'],.binary [7]].mapM packMessage = some packed ∧
    ∀ reads : List Bytes, [] ∉ reads → reads.flatten = packed.flatten →
      Receives reads [.text ['a'],.binary [7]] :=
  receives_packed (by decide)

end Meinheld
