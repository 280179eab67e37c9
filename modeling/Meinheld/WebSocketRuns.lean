import Meinheld.WebSocket

/-! Successive calls of `wait`, from what the frames say that each `recv` completes. -/
namespace Meinheld

namespace WebSocket

def atEnd (ws : WebSocket) : Bool := ws.websocketClosed || ws.ended

/-- The next calls of `wait` have the results `out`, and they leave `ws'`. -/
def Gives (ws : WebSocket) (out : List (WaitResult × Bool)) (ws' : WebSocket) : Prop :=
  ∀ n, ws.waits (out.length + n) = out ++ ws'.waits n

theorem Gives.refl (ws : WebSocket) : ws.Gives [] ws := fun n => by simp

theorem Gives.trans {ws ws1 ws2 : WebSocket} {out1 out2 : List (WaitResult × Bool)}
    (h1 : ws.Gives out1 ws1) (h2 : ws1.Gives out2 ws2) : ws.Gives (out1 ++ out2) ws2 := by
  intro n
  rw [List.length_append,Nat.add_assoc,h1,h2,List.append_assoc]

theorem Gives.of_wait {ws ws' : WebSocket} {r : WaitResult} (h : ws.wait = (r,ws')) :
    ws.Gives [(r,ws'.atEnd)] ws' := by
  intro n
  have hlen : [(r,ws'.atEnd)].length + n = n + 1 := Nat.add_comm 1 n
  rw [hlen,waits,h]
  rfl

theorem Gives.of_wait_eq {ws ws' : WebSocket} (h : ws.wait = ws'.wait) : ws.Gives [] ws' := by
  intro n
  rw [List.length_nil,Nat.zero_add,List.nil_append]
  cases n with
  | zero => rfl
  | succ n => rw [waits,waits,h]

theorem waits_take (ws : WebSocket) (n m : ℕ) : (ws.waits (n + m)).take n = ws.waits n := by
  induction n generalizing ws with
  | zero => simp [waits]
  | succ n ih =>
    rw [show n + 1 + m = (n + m) + 1 by omega,waits,List.take_succ_cons,ih,waits]

theorem Gives.waits {ws ws' : WebSocket} {out : List (WaitResult × Bool)} (h : ws.Gives out ws')
    (n : ℕ) : ws.waits n = (out ++ ws'.waits n).take n := by
  rw [← h n,Nat.add_comm,waits_take]

theorem waitLoop_socket (reads s : List Bytes) (ws : WebSocket) :
    waitLoop reads { ws with socket := s } = waitLoop reads ws := by
  induction reads generalizing ws with
  | nil => unfold waitLoop; rfl
  | cons d reads ih =>
    unfold waitLoop
    cases hm : ws.msgs with
    | cons m ms => rfl
    | nil =>
      simp only []
      split
      · rfl
      · split
        · rfl
        · cases hp : parseMessages (ws.buf ++ d) with
          | raises buf => rfl
          | returns buf closed msgs =>
            exact ih { ws with buf := buf, websocketClosed := closed, msgs := msgs }

theorem wait_queue {ws : WebSocket} {m : Option Message} {ms : List (Option Message)}
    (h : ws.msgs = m :: ms) : ws.wait = (.returns m,{ ws with msgs := ms }) := by
  rw [wait]
  unfold waitLoop
  simp only [h]

theorem wait_closed {ws : WebSocket} (h : ws.msgs = []) (hc : ws.websocketClosed = true) :
    ws.wait = (.returns none,ws) := by
  rw [wait]
  unfold waitLoop
  simp only [h,hc,if_true]
  rw [← h,← hc]

theorem wait_ended {ws : WebSocket} (h : ws.msgs = []) (hc : ws.websocketClosed = false)
    (hs : ws.socket = []) : ws.wait = (.returns none,{ ws with ended := true }) := by
  rw [wait,hs]
  unfold waitLoop
  simp [h,hc,← hs]

theorem wait_returns {ws : WebSocket} {d buf : Bytes} {ds : List Bytes} {closed : Bool}
    {ms : List (Option Message)} (h : ws.msgs = []) (hc : ws.websocketClosed = false)
    (hs : ws.socket = d :: ds) (hd : d ≠ [])
    (hp : parseMessages (ws.buf ++ d) = .returns buf closed ms) :
    ws.wait = { ws with socket := ds, buf := buf, websocketClosed := closed, msgs := ms }.wait := by
  rw [wait,hs]
  unfold waitLoop
  simp only [h,hc,hd,hp,if_false,Bool.false_eq_true]
  exact (waitLoop_socket ds ds { ws with buf := buf, websocketClosed := closed, msgs := ms }).symm

theorem wait_raises {ws : WebSocket} {d buf : Bytes} {ds : List Bytes} (h : ws.msgs = [])
    (hc : ws.websocketClosed = false) (hs : ws.socket = d :: ds) (hd : d ≠ [])
    (hp : parseMessages (ws.buf ++ d) = .raises buf) :
    ws.wait = (.raises,{ ws with socket := ds, buf := buf }) := by
  rw [wait,hs]
  unfold waitLoop
  simp [h,hc,hd,hp]

theorem gives_queue (ws : WebSocket) (ms : List (Option Message)) (h : ws.msgs = ms) :
    ws.Gives (ms.map fun m => (.returns m,ws.atEnd)) { ws with msgs := [] } := by
  induction ms generalizing ws with
  | nil =>
    have hws : { ws with msgs := [] } = ws := by rw [← h]
    rw [hws]
    exact Gives.refl ws
  | cons m ms ih => exact (Gives.of_wait (wait_queue h)).trans (ih { ws with msgs := ms } rfl)

theorem waits_replicate {ws : WebSocket} {r : WaitResult} (h : ws.wait = (r,ws)) (n : ℕ) :
    ws.waits n = List.replicate n (r,ws.atEnd) := by
  induction n with
  | zero => rfl
  | succ n ih => rw [waits,h,List.replicate_succ,ih]; rfl

theorem waits_closed {ws : WebSocket} (h : ws.msgs = []) (hc : ws.websocketClosed = true) (n : ℕ) :
    ws.waits n = List.replicate n (.returns none,true) := by
  rw [waits_replicate (wait_closed h hc),atEnd,hc,Bool.true_or]

theorem waits_ended {ws : WebSocket} (h : ws.msgs = []) (hc : ws.websocketClosed = false)
    (hs : ws.socket = []) (n : ℕ) : ws.waits n = List.replicate n (.returns none,true) := by
  cases n with
  | zero => rfl
  | succ n =>
    have hagain : { ws with ended := true }.wait = (.returns none,{ ws with ended := true }) :=
      wait_ended h hc hs
    rw [waits,wait_ended h hc hs]
    simp only [waits_replicate hagain,List.replicate_succ,atEnd,Bool.or_true]

end WebSocket

/-- What `wait` makes of the frames that each `recv` completes, until it raises. -/
def outputs : List (List Frame) → List (WaitResult × Bool)
  | [] => []
  | g :: gs =>
    match Parsing.feed g {} with
    | .goesOn p => p.msgs.map (fun m => (.returns m,false)) ++ outputs gs
    | .closes p => p.msgs.map fun m => (.returns m,true)
    | .raises => [(.raises,false)]

section

variable {X : Type*} {val : X → Frame} {enc : X → Bytes}

/-- `wait` is about to call `recv`: it has a part of the first of the frames that are to come. -/
structure WebSocket.Receiving (enc : X → Bytes) (ws : WebSocket) (k : ℕ) (xs : List X) (tail : Bytes) :
    Prop where
  msgs : ws.msgs = []
  opened : ws.websocketClosed = false
  going : ws.ended = false
  reads : [] ∉ ws.socket
  buf : ws.buf = (xs.flatMap enc ++ tail).take k
  socket : ws.socket.flatten = (xs.flatMap enc ++ tail).drop k
  part : ∀ x ∈ xs.head?, k < (enc x).length

theorem parseFrame_part (h : Framing.Encodes parseFrame val enc) {xs : List X} {k : ℕ} {tail : Bytes}
    (hk : ∀ x ∈ xs.head?, k < (enc x).length) (ht : xs = [] → tail = []) :
    parseFrame ((xs.flatMap enc ++ tail).take k) = none := by
  cases xs with
  | nil => rw [ht rfl,List.flatMap_nil,List.append_nil,List.take_nil,parseFrame_nil]
  | cons x xs =>
    have hx : k < (enc x).length := hk x rfl
    rw [List.flatMap_cons,List.append_assoc,List.take_append_of_le_length hx.le]
    exact h.part parseFrame_stable hx

namespace WebSocket.Receiving

variable {ws : WebSocket} {k : ℕ} {xs : List X} {tail : Bytes}

theorem init {reads : List Bytes} (hreads : [] ∉ reads)
    (hbytes : reads.flatten = xs.flatMap enc ++ tail) (h : Framing.Encodes parseFrame val enc) :
    Receiving enc { socket := reads } 0 xs tail where
  msgs := rfl
  opened := rfl
  going := rfl
  reads := hreads
  buf := rfl
  socket := hbytes
  part x _ := by
    have h2 := two_le_encoding h x
    omega

theorem recv (hr : Receiving enc ws k xs tail) {d : Bytes} {ds : List Bytes}
    (hs : ws.socket = d :: ds) :
    ws.buf ++ d = (xs.flatMap enc ++ tail).take (k + d.length) ∧
      ds.flatten = (xs.flatMap enc ++ tail).drop (k + d.length) := by
  have hsocket := hr.socket
  rw [hs,List.flatten_cons] at hsocket
  have htake : ((xs.flatMap enc ++ tail).drop k).take d.length = d := by
    rw [← hsocket,List.take_left]
  have hdrop : ((xs.flatMap enc ++ tail).drop k).drop d.length = ds.flatten := by
    rw [← hsocket,List.drop_left]
  refine ⟨?_,by rw [← hdrop,List.drop_drop]⟩
  rw [List.take_add,htake,hr.buf]

/-- A `recv` whose frames make the loop go on. -/
theorem goesOn (hr : Receiving enc ws k xs tail) (h : Framing.Encodes parseFrame val enc)
    {d : Bytes} {ds : List Bytes} (hs : ws.socket = d :: ds) {p : Parsing}
    (hfeed : Parsing.feed ((Framing.arrive enc (k + d.length) xs).done.map val) {} = .goesOn p)
    (ht : (Framing.arrive enc (k + d.length) xs).left = [] → tail = []) :
    ∃ ws', ws.Gives (p.msgs.map fun m => (.returns m,false)) ws' ∧ ws'.socket = ds ∧
      Receiving enc ws' (Framing.arrive enc (k + d.length) xs).part
        (Framing.arrive enc (k + d.length) xs).left tail := by
  obtain ⟨hbuf,hds⟩ := hr.recv hs
  have hd : d ≠ [] := fun hd => hr.reads (by rw [hs,hd]; exact List.mem_cons_self)
  have hpart := Framing.arrive_part_lt enc (k + d.length) xs
  have hloop := parseAll_feed h (Framing.arrive enc (k + d.length) xs).done
    (((Framing.arrive enc (k + d.length) xs).left.flatMap enc ++ tail).take
      (Framing.arrive enc (k + d.length) xs).part) {}
  simp only [hfeed] at hloop
  rw [← Framing.take_arrive,parseAll_none (parseFrame_part h hpart ht),← hbuf] at hloop
  have hwait := (Gives.of_wait_eq (wait_returns hr.msgs hr.opened hs hd hloop)).trans
    (gives_queue _ p.msgs rfl)
  simp only [atEnd,hr.going,Bool.or_self] at hwait
  exact ⟨_,hwait,rfl,{
    msgs := rfl
    opened := rfl
    going := rfl
    reads := fun hmem => hr.reads (by rw [hs]; exact List.mem_cons_of_mem d hmem)
    buf := rfl
    socket := by rw [hds,Framing.drop_arrive]
    part := hpart }⟩

/-- A `recv` whose frames end with a close. -/
theorem closes (hr : Receiving enc ws k xs tail) (h : Framing.Encodes parseFrame val enc)
    {d : Bytes} {ds : List Bytes} (hs : ws.socket = d :: ds) {p : Parsing}
    (hfeed : Parsing.feed ((Framing.arrive enc (k + d.length) xs).done.map val) {} = .closes p) :
    ∃ ws', ws.Gives (p.msgs.map fun m => (.returns m,true)) ws' ∧
      ∀ n, ws'.waits n = List.replicate n (.returns none,true) := by
  obtain ⟨hbuf,hds⟩ := hr.recv hs
  have hd : d ≠ [] := fun hd => hr.reads (by rw [hs,hd]; exact List.mem_cons_self)
  have hloop := parseAll_feed h (Framing.arrive enc (k + d.length) xs).done
    (((Framing.arrive enc (k + d.length) xs).left.flatMap enc ++ tail).take
      (Framing.arrive enc (k + d.length) xs).part) {}
  simp only [hfeed] at hloop
  obtain ⟨buf,hloop⟩ := hloop
  rw [← Framing.take_arrive,← hbuf] at hloop
  have hwait := Gives.of_wait_eq (wait_returns hr.msgs hr.opened hs hd hloop)
  exact ⟨_,hwait.trans (gives_queue _ p.msgs rfl),waits_closed rfl rfl⟩

/-- A `recv` whose frames make the loop raise. -/
theorem raises (hr : Receiving enc ws k xs tail) (h : Framing.Encodes parseFrame val enc)
    {d : Bytes} {ds : List Bytes} (hs : ws.socket = d :: ds)
    (hfeed : Parsing.feed ((Framing.arrive enc (k + d.length) xs).done.map val) {} = .raises) :
    ∃ x ∈ (Framing.arrive enc (k + d.length) xs).done, (∃ p : Parsing, p.handle (val x) = .raises) ∧
      ∃ rest ws', ws.Gives [(.raises,false)] ws' ∧ ws'.msgs = [] ∧ ws'.websocketClosed = false ∧
        ws'.socket = ds ∧ ws'.buf = enc x ++ rest := by
  obtain ⟨hbuf,hds⟩ := hr.recv hs
  have hd : d ≠ [] := fun hd => hr.reads (by rw [hs,hd]; exact List.mem_cons_self)
  have hloop := parseAll_feed h (Framing.arrive enc (k + d.length) xs).done
    (((Framing.arrive enc (k + d.length) xs).left.flatMap enc ++ tail).take
      (Framing.arrive enc (k + d.length) xs).part) {}
  simp only [hfeed] at hloop
  obtain ⟨ys,x,zs,hxs,hx,hloop⟩ := hloop
  rw [← Framing.take_arrive,← hbuf] at hloop
  have hwait := Gives.of_wait (wait_raises hr.msgs hr.opened hs hd hloop)
  simp only [atEnd,hr.opened,hr.going,Bool.or_self,List.flatMap_cons,List.append_assoc] at hwait
  exact ⟨x,by simp [hxs],hx,_,_,hwait,hr.msgs,rfl,rfl,rfl⟩

/-- Where nothing is left of the stream after the frames, the calls go by the frames that each
`recv` completes, and then they return `None`, unless one raises. -/
theorem outputs (hr : Receiving enc ws k xs []) (h : Framing.Encodes parseFrame val enc) :
    ∃ ws', ws.Gives (outputs ((Framing.arrivals enc ws.socket k xs).map fun g => g.map val)) ws' ∧
      ((.raises,false) ∉ Meinheld.outputs ((Framing.arrivals enc ws.socket k xs).map fun g => g.map val) →
        ∀ n, ws'.waits n = List.replicate n (.returns none,true)) := by
  generalize hs : ws.socket = reads
  induction reads generalizing ws k xs with
  | nil => exact ⟨ws,Gives.refl ws,fun _ => waits_ended hr.msgs hr.opened hs⟩
  | cons d ds ih =>
    simp only [Framing.arrivals,List.map_cons,Meinheld.outputs]
    cases hfeed : Parsing.feed ((Framing.arrive enc (k + d.length) xs).done.map val) {} with
    | goesOn p =>
      obtain ⟨ws1,hgives,hs1,hr1⟩ := hr.goesOn h hs hfeed fun _ => rfl
      obtain ⟨ws2,hgives2,hquiet⟩ := ih hr1 hs1
      refine ⟨ws2,hgives.trans hgives2,fun hno => hquiet fun hmem => hno ?_⟩
      exact List.mem_append_right _ hmem
    | closes p =>
      obtain ⟨ws1,hgives,hend⟩ := hr.closes h hs hfeed
      exact ⟨ws1,hgives,fun _ => hend⟩
    | raises =>
      obtain ⟨_,_,_,_,_,hgives,_⟩ := hr.raises h hs hfeed
      exact ⟨_,hgives,fun hno => absurd List.mem_cons_self hno⟩

end WebSocket.Receiving

end

end Meinheld
