import Meinheld.WebSocketRuns

/-! Messages before a frame that `_parse_messages` cannot read. -/
namespace Meinheld

/-- Bytes that are one frame to `_parse_messages`. -/
structure RawFrame where
  bytes : Bytes
  frame : Frame
  parsed : parseFrame bytes = some (frame,[])

theorem RawFrame.encodes : Framing.Encodes parseFrame RawFrame.frame RawFrame.bytes := by
  intro x e
  simpa using parseFrame_stable _ _ _ x.parsed e

/-- The message of a data frame that is not fragmented. -/
def Frame.message (f : Frame) : Option Message :=
  match f.fin, f.opcode with
  | true, 1 => (Utf8.decode f.data).map .text
  | true, 2 => some (.binary f.data)
  | _, _ => none

/-- An unknown opcode, a text that is not UTF-8, or a continuation of nothing. -/
def Frame.Bad (f : Frame) : Prop :=
  f.opcode ∉ [0,1,2,8,9,10] ∨ (f.opcode = 1 ∧ Utf8.decode f.data = none) ∨ f.opcode = 0

theorem Parsing.handle_message {f : Frame} {m : Message} (h : f.message = some m) (p : Parsing) :
    ∃ isText, p.handle f = .goesOn ⟨p.msgs ++ [some m],none,isText⟩ := by
  obtain ⟨fin,opcode,data⟩ := f
  unfold Frame.message at h
  split at h
  next hfin hop =>
    dsimp only at hfin hop h
    subst hfin hop
    obtain ⟨s,hs,rfl⟩ := Option.map_eq_some_iff.mp h
    exact ⟨true,by simp [Parsing.handle,hs,Parsing.finish]⟩
  next hfin hop =>
    dsimp only at hfin hop h
    subst hfin hop
    obtain rfl := Option.some.inj h
    exact ⟨false,by simp [Parsing.handle,Parsing.finish]⟩
  next => simp at h

theorem Parsing.handle_bad {f : Frame} (h : f.Bad) {p : Parsing} (hp : p.msg = none) :
    p.handle f = .raises := by
  rcases h with h | ⟨hop,hdata⟩ | hop
  · simp only [List.mem_cons,List.not_mem_nil,or_false,not_or] at h
    obtain ⟨h0,h1,h2,h8,h9,h10⟩ := h
    simp only [Parsing.handle]
  · simp only [Parsing.handle,hop,hdata]
  · have hextend : p.extend f.data = none := by
      unfold Parsing.extend
      rw [hp]
      split
      · cases Utf8.decode f.data <;> rfl
      · rfl
    simp only [Parsing.handle,hop,hextend]

theorem Parsing.feed_messages {fs : List Frame} {ms : List Message}
    (h : fs.map Frame.message = ms.map some) (rest : List Frame) {p : Parsing} (hp : p.msg = none) :
    ∃ p' : Parsing, p.feed (fs ++ rest) = p'.feed rest ∧ p'.msgs = p.msgs ++ ms.map some ∧ p'.msg = none := by
  induction fs generalizing p ms with
  | nil =>
    obtain rfl : ms = [] := by simpa using h
    exact ⟨p,rfl,by simp,hp⟩
  | cons f fs ih =>
    obtain _ | ⟨m,ms⟩ := ms
    · simp at h
    · obtain ⟨hm,hms⟩ := List.cons.inj h
      obtain ⟨isText,hf⟩ := handle_message hm p
      obtain ⟨p',hfeed,hmsgs,hp'⟩ := ih hms (p := ⟨p.msgs ++ [some m],none,isText⟩) rfl
      refine ⟨p',?_,by simp [hmsgs],hp'⟩
      simp only [List.cons_append,feed,hf]
      exact hfeed

/-- The messages among some results of `wait`. -/
def delivered (out : List (WaitResult × Bool)) : List Message :=
  out.filterMap fun r =>
    match r.1 with
    | .returns m => m
    | .raises => none

theorem delivered_append (out1 out2 : List (WaitResult × Bool)) :
    delivered (out1 ++ out2) = delivered out1 ++ delivered out2 := by
  simp [delivered]

theorem delivered_returns (ms : List Message) (b : Bool) :
    delivered ((ms.map some).map fun m => (.returns m,b)) = ms := by
  simp [delivered,List.filterMap_map,Function.comp_def]

namespace WebSocket

/-- However often `wait` is called from some number on, the messages are `ms`. -/
def Delivers (ws : WebSocket) (ms : List Message) : Prop :=
  ∃ N, ∀ n ≥ N, delivered (ws.waits n) = ms

theorem Gives.delivers {ws ws' : WebSocket} {out : List (WaitResult × Bool)} (h : ws.Gives out ws')
    (ms : List Message) : ws.Delivers (delivered out ++ ms) ↔ ws'.Delivers ms := by
  constructor
  · rintro ⟨N,hN⟩
    refine ⟨N,fun n hn => ?_⟩
    have hn := hN (out.length + n) (by omega)
    rwa [h n,delivered_append,List.append_cancel_left_eq] at hn
  · rintro ⟨N,hN⟩
    refine ⟨out.length + N,fun n hn => ?_⟩
    obtain ⟨m,rfl⟩ := Nat.exists_eq_add_of_le (show out.length ≤ n by omega)
    rw [h m,delivered_append,hN m (by omega)]

/-- The buffer starts with a frame that is bad. -/
structure Stuck (ws : WebSocket) : Prop where
  msgs : ws.msgs = []
  opened : ws.websocketClosed = false
  reads : [] ∉ ws.socket
  buf : ∃ x : RawFrame, x.frame.Bad ∧ ∃ rest, ws.buf = x.bytes ++ rest

theorem Stuck.wait {ws : WebSocket} (h : ws.Stuck) :
    (ws.wait.1 = .returns none ∨ ws.wait.1 = .raises) ∧ ws.wait.2.Stuck := by
  obtain ⟨x,hbad,rest,hbuf⟩ := h.buf
  cases hs : ws.socket with
  | nil =>
    rw [wait_ended h.msgs h.opened hs]
    exact ⟨.inl rfl,h.msgs,h.opened,h.reads,h.buf⟩
  | cons d ds =>
    have hd : d ≠ [] := fun hd => h.reads (by rw [hs,hd]; exact List.mem_cons_self)
    have hds : [] ∉ ds := fun hmem => h.reads (by rw [hs]; exact List.mem_cons_of_mem d hmem)
    have hloop := parseAll_frame RawFrame.encodes x (rest ++ d) {}
    simp only [Parsing.handle_bad hbad] at hloop
    rw [← List.append_assoc,← hbuf] at hloop
    rw [wait_raises h.msgs h.opened hs hd hloop]
    exact ⟨.inr rfl,h.msgs,h.opened,hds,x,hbad,rest ++ d,by rw [hbuf,List.append_assoc]⟩

theorem Stuck.delivered {ws : WebSocket} (h : ws.Stuck) (n : ℕ) :
    Meinheld.delivered (ws.waits n) = [] := by
  induction n generalizing ws with
  | zero => rfl
  | succ n ih =>
    have hrest := ih h.wait.2
    rcases h.wait.1 with hr | hr <;> simpa [waits,Meinheld.delivered,hr] using hrest

theorem Stuck.delivers {ws : WebSocket} (h : ws.Stuck) (ms : List Message) :
    ws.Delivers ms ↔ ms = [] := by
  constructor
  · rintro ⟨N,hN⟩
    rw [← hN N le_rfl,h.delivered]
  · rintro rfl
    exact ⟨0,fun n _ => h.delivered n⟩

end WebSocket

/-- The bytes of the first `j` results of `recv`. -/
def ahead (reads : List Bytes) (j : ℕ) : ℕ := (reads.take j).flatten.length

@[simp] theorem ahead_zero (reads : List Bytes) : ahead reads 0 = 0 := rfl

@[simp] theorem ahead_cons (d : Bytes) (ds : List Bytes) (j : ℕ) :
    ahead (d :: ds) (j + 1) = d.length + ahead ds j := by
  simp [ahead]

/-- With `k` of its bytes read, a `recv` ends between the messages and the end of the bad frame. -/
def Parted (good : List RawFrame) (bad : RawFrame) (k : ℕ) (reads : List Bytes) : Prop :=
  ∃ j, (good.flatMap RawFrame.bytes).length ≤ k + ahead reads j ∧
    k + ahead reads j < (good.flatMap RawFrame.bytes).length + bad.bytes.length

section

variable {good : List RawFrame} {bad : RawFrame}

theorem messages_le_part {k : ℕ} (hk : ∀ x ∈ (good ++ [bad]).head?, k < x.bytes.length) :
    (good.flatMap RawFrame.bytes).length ≤ k ↔ good = [] := by
  cases good with
  | nil => simp
  | cons x xs =>
    have hx := hk x rfl
    simp only [List.flatMap_cons,List.length_append]
    constructor
    · omega
    · simp

theorem parted_all {k : ℕ} (hk : ∀ x ∈ (good ++ [bad]).head?, k < x.bytes.length) {d : Bytes}
    {ds : List Bytes}
    (hd : (good.flatMap RawFrame.bytes).length + bad.bytes.length ≤ k + d.length) :
    Parted good bad k (d :: ds) ↔ good = [] := by
  rw [← messages_le_part hk]
  constructor
  · rintro ⟨j,hle,hlt⟩
    cases j with
    | zero => simpa using hle
    | succ j =>
      simp only [ahead_cons] at hlt
      omega
  · intro hle
    refine ⟨0,by simpa using hle,?_⟩
    obtain rfl := (messages_le_part hk).mp hle
    simpa using hk bad rfl

theorem parted_some {good1 : List RawFrame} {k k1 : ℕ}
    (hk : ∀ x ∈ (good1 ++ good ++ [bad]).head?, k < x.bytes.length)
    (hk1 : ∀ x ∈ (good ++ [bad]).head?, k1 < x.bytes.length) {d : Bytes} {ds : List Bytes}
    (hd : (good1.flatMap RawFrame.bytes).length + k1 = k + d.length) :
    Parted (good1 ++ good) bad k (d :: ds) ↔ Parted good bad k1 ds := by
  constructor
  · rintro ⟨j,hle,hlt⟩
    cases j with
    | zero =>
      have hnil := (messages_le_part hk).mp (by simpa using hle)
      obtain ⟨-,rfl⟩ := List.append_eq_nil_iff.mp hnil
      exact ⟨0,by simp,by simpa using hk1 bad rfl⟩
    | succ j =>
      simp only [ahead_cons,List.flatMap_append,List.length_append] at hle hlt
      exact ⟨j,by omega,by omega⟩
  · rintro ⟨j,hle,hlt⟩
    refine ⟨j + 1,?_,?_⟩ <;> simp only [ahead_cons,List.flatMap_append,List.length_append] <;> omega

end

theorem eq_bad {good : List RawFrame} {bad x : RawFrame} {ms : List Message}
    (hgood : good.map (fun x => x.frame.message) = ms.map some) (hx : x ∈ good ++ [bad])
    {p : Parsing} (hp : p.handle x.frame = .raises) : x = bad := by
  rcases List.mem_append.mp hx with hmem | hmem
  · have hsome : x.frame.message ∈ ms.map some := hgood ▸ List.mem_map_of_mem hmem
    obtain ⟨m,-,hm⟩ := List.mem_map.mp hsome
    obtain ⟨isText,hgoes⟩ := Parsing.handle_message hm.symm p
    rw [hgoes] at hp
    cases hp
  · exact List.mem_singleton.mp hmem

/-- The messages before a bad frame, from any `recv` on. -/
theorem WebSocket.Receiving.delivers_iff {ws : WebSocket} {k : ℕ} {good : List RawFrame}
    {bad : RawFrame} {tail : Bytes} {ms : List Message}
    (hr : Receiving RawFrame.bytes ws k (good ++ [bad]) tail)
    (hgood : good.map (fun x => x.frame.message) = ms.map some) (hbad : bad.frame.Bad) :
    ws.Delivers ms ↔ Parted good bad k ws.socket := by
  generalize hs : ws.socket = reads
  induction reads generalizing ws k good ms with
  | nil =>
    have hsocket := congrArg List.length hr.socket
    have hpart := hr.part
    rw [hs] at hsocket
    cases good with
    | nil =>
      have hk := hpart bad rfl
      simp only [List.flatten_nil,List.length_nil,List.length_drop,List.length_append,
        List.nil_append,List.flatMap_singleton] at hsocket
      omega
    | cons x xs =>
      have hk := hpart x rfl
      simp only [List.flatten_nil,List.length_nil,List.length_drop,List.length_append,
        List.cons_append,List.flatMap_cons] at hsocket
      omega
  | cons d ds ih =>
    have hds : [] ∉ ds := fun hmem => hr.reads (by rw [hs]; exact List.mem_cons_of_mem d hmem)
    have happend := Framing.arrive_append RawFrame.bytes (k + d.length) (good ++ [bad])
    have hlength := Framing.arrive_length RawFrame.bytes (k + d.length) (good ++ [bad])
    rcases List.eq_nil_or_concat' (Framing.arrive RawFrame.bytes (k + d.length) (good ++ [bad])).left
      with hleft | ⟨good2,y,hleft⟩
    · rw [hleft,List.append_nil] at happend
      rw [happend,List.flatMap_append,List.length_append,List.flatMap_singleton] at hlength
      have hfeed : Parsing.feed ((Framing.arrive RawFrame.bytes (k + d.length)
          (good ++ [bad])).done.map RawFrame.frame) {} = .raises := by
        have hframes : (good.map RawFrame.frame).map Frame.message = ms.map some := by
          rw [List.map_map]
          exact hgood
        obtain ⟨p,hfeed,-,hp⟩ := Parsing.feed_messages hframes [bad.frame] (p := {}) rfl
        rw [happend,List.map_append,List.map_singleton,hfeed]
        simp only [Parsing.feed,Parsing.handle_bad hbad hp]
      obtain ⟨x,hx,⟨p,hp⟩,rest,ws1,hgives,hmsgs,hopen,hs1,hbuf⟩ := hr.raises RawFrame.encodes hs hfeed
      obtain rfl := eq_bad hgood (happend ▸ hx) hp
      have hstuck : ws1.Stuck := ⟨hmsgs,hopen,hs1 ▸ hds,x,hbad,rest,hbuf⟩
      have hnil : ms = [] ↔ good = [] := by
        rw [← List.map_eq_nil_iff (f := some),← hgood,List.map_eq_nil_iff]
      rw [parted_all hr.part (by omega),← hnil,← hstuck.delivers]
      exact hgives.delivers ms
    · rw [hleft,← List.append_assoc] at happend
      obtain ⟨hsplit,hlast⟩ := List.append_inj' happend rfl
      obtain rfl := List.singleton_inj.mp hlast
      rw [← hsplit,List.map_append] at hgood
      obtain ⟨ms1,ms2,rfl,hms1,hms2⟩ := List.map_eq_append_iff.mp hgood.symm
      have hframes : ((Framing.arrive RawFrame.bytes (k + d.length) (good ++ [y])).done.map
          RawFrame.frame).map Frame.message = ms1.map some := by
        rw [List.map_map]
        exact hms1.symm
      obtain ⟨p,hfeed,hmsgs,-⟩ := Parsing.feed_messages hframes [] (p := {}) rfl
      rw [List.append_nil] at hfeed
      obtain ⟨ws1,hgives,hs1,hr1⟩ := hr.goesOn RawFrame.encodes hs hfeed
        fun hnil => by simp [hleft] at hnil
      rw [hleft] at hr1
      rw [hmsgs,List.nil_append] at hgives
      have hshift := hgives.delivers ms2
      rw [delivered_returns] at hshift
      have hpart : ∀ x ∈ ((Framing.arrive RawFrame.bytes (k + d.length) (good ++ [y])).done ++
          good2 ++ [y]).head?, k < x.bytes.length := by
        rw [hsplit]
        exact hr.part
      rw [hshift,ih hr1 hms2.symm hs1,← parted_some hpart hr1.part hlength,hsplit]

/-- Each of the messages before a bad frame is returned once, over the calls of `wait` before and
after the exception, exactly when a `recv` ends between them and the end of the bad frame. -/
theorem delivers_iff_parted (good : List RawFrame) (bad : RawFrame) (tail : Bytes)
    {ms : List Message} {reads : List Bytes}
    (hgood : good.map (fun x => x.frame.message) = ms.map some) (hbad : bad.frame.Bad)
    (hreads : [] ∉ reads)
    (hbytes : reads.flatten = (good ++ [bad]).flatMap RawFrame.bytes ++ tail) :
    WebSocket.Delivers { socket := reads } ms ↔ Parted good bad 0 reads :=
  (WebSocket.Receiving.init hreads hbytes RawFrame.encodes).delivers_iff hgood hbad

/-- A binary message of one byte. -/
def oneByte : RawFrame := ⟨[0x82,1,7],⟨true,2,[7]⟩,rfl⟩

/-- A continuation frame that continues nothing. -/
def strayContinuation : RawFrame := ⟨[0x80,0],⟨true,0,[]⟩,rfl⟩

theorem delivers_iff_parted_twoReads :
    WebSocket.Delivers { socket := [[0x82,1,7],[0x80,0]] } [.binary [7]] ↔
      Parted [oneByte] strayContinuation 0 [[0x82,1,7],[0x80,0]] :=
  delivers_iff_parted [oneByte] strayContinuation [] rfl (.inr (.inr rfl)) (by decide) rfl

/-- In one `recv`, a message and a stray continuation. -/
theorem not_delivers_oneRead : ¬ ∀ (good : List RawFrame) (bad : RawFrame) (tail : Bytes)
    (ms : List Message) (reads : List Bytes),
    good.map (fun x => x.frame.message) = ms.map some → bad.frame.Bad → [] ∉ reads →
    reads.flatten = (good ++ [bad]).flatMap RawFrame.bytes ++ tail →
    WebSocket.Delivers { socket := reads } ms := by
  intro h
  obtain ⟨N,hN⟩ := h [oneByte] strayContinuation [] [.binary [7]] [[0x82,1,7,0x80,0]] rfl
    (.inr (.inr rfl)) (by decide) rfl
  have hstuck : WebSocket.Stuck { socket := [], buf := [0x80,0] } :=
    ⟨rfl,rfl,by decide,strayContinuation,.inr (.inr rfl),[],rfl⟩
  have hwait : WebSocket.wait { socket := [[0x82,1,7,0x80,0]] } =
      (.raises,{ socket := [], buf := [0x80,0] }) := rfl
  have hall := hN (N + 1) (by omega)
  rw [WebSocket.waits,hwait] at hall
  have hnone := hstuck.delivered N
  simp only [delivered,List.filterMap_cons] at hall hnone
  rw [hnone] at hall
  cases hall

end Meinheld
