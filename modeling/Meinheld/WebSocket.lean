import Meinheld.WebSocketFrames

/-! `WebSocket` of `websocket.py`: `_parse_messages` and `wait`. -/
namespace Meinheld

/-- The locals of `_parse_messages`: the messages so far, and the one that is being put together. -/
structure Parsing where
  msgs : List (Option Message) := []
  msg : Option Message := none
  isText : Bool := false
  deriving DecidableEq, Repr

/-- What the loop does with a frame: it goes on, it breaks, or it raises. -/
inductive Handled
  | goesOn (p : Parsing)
  | closes
  | raises
  deriving DecidableEq, Repr

/-- The end of the loop's body. -/
def Parsing.finish (p : Parsing) (fin : Bool) : Parsing :=
  if fin then { p with msgs := p.msgs ++ [p.msg], msg := none } else p

/-- `msg += data` for a continuation; `none` is an exception. -/
def Parsing.extend (p : Parsing) (data : Bytes) : Option Message :=
  if p.isText then
    (Utf8.decode data).bind fun t =>
      match p.msg with
      | some (.text s) => some (.text (s ++ t))
      | _ => none
  else
    match p.msg with
    | some (.binary d) => some (.binary (d ++ data))
    | _ => none

/-- The body of the loop after a frame has been read. -/
def Parsing.handle (p : Parsing) (f : Frame) : Handled :=
  match f.opcode with
  | 0 =>
    match p.extend f.data with
    | some m => .goesOn (Parsing.finish { p with msg := some m } f.fin)
    | none => .raises
  | 1 =>
    match Utf8.decode f.data with
    | some s => .goesOn (Parsing.finish { p with isText := true, msg := some (.text s) } f.fin)
    | none => .raises
  | 2 => .goesOn (Parsing.finish { p with isText := false, msg := some (.binary f.data) } f.fin)
  | 8 => .closes
  | 9 => .goesOn (p.finish f.fin)
  | 10 => .goesOn (p.finish f.fin)
  | _ => .raises

/-- How `_parse_messages` ends, with the buffer it leaves. -/
inductive Parsed
  | returns (buf : Bytes) (closed : Bool) (msgs : List (Option Message))
  | raises (buf : Bytes)
  deriving DecidableEq, Repr

/-- The loop of `_parse_messages`, at most `n` times. -/
def parseLoop : ℕ → Bytes → Parsing → Parsed
  | 0, buf, p => .returns buf false p.msgs
  | n + 1, buf, p =>
    match parseFrame buf with
    | none => .returns buf false p.msgs
    | some (f,rest) =>
      match p.handle f with
      | .goesOn p => parseLoop n rest p
      | .closes => .returns buf true p.msgs
      | .raises => .raises buf

/-- `_parse_messages`. A frame has two bytes at least, and so the loop ends by itself. -/
def parseMessages (buf : Bytes) : Parsed := parseLoop (buf.length + 1) buf {}

theorem parseLoop_fuel {n m : ℕ} {buf : Bytes} (hn : buf.length < n) (hm : buf.length < m)
    (p : Parsing) : parseLoop n buf p = parseLoop m buf p := by
  induction n generalizing m buf p with
  | zero => omega
  | succ n ih =>
    obtain ⟨m,rfl⟩ : ∃ k, m = k + 1 := ⟨m - 1,by omega⟩
    simp only [parseLoop]
    cases hf : parseFrame buf with
    | none => rfl
    | some r =>
      obtain ⟨f,rest⟩ := r
      have htake := parseFrame_takes _ _ _ hf
      cases hp : p.handle f with
      | goesOn p' =>
        simp only [hp]
        exact ih (by omega) (by omega) p'
      | closes => simp only [hp]
      | raises => simp only [hp]

/-- The loop with all the turns it may need. -/
def parseAll (buf : Bytes) (p : Parsing) : Parsed := parseLoop (buf.length + 1) buf p

theorem parseAll_none {buf : Bytes} (h : parseFrame buf = none) (p : Parsing) :
    parseAll buf p = .returns buf false p.msgs := by
  simp only [parseAll,parseLoop,h]

section

variable {X : Type*} {val : X → Frame} {enc : X → Bytes}

theorem two_le_encoding (h : Framing.Encodes parseFrame val enc) (x : X) : 2 ≤ (enc x).length := by
  simpa using parseFrame_takes _ _ _ (h x [])

/-- The loop takes a frame. -/
theorem parseAll_frame (h : Framing.Encodes parseFrame val enc) (x : X) (buf : Bytes) (p : Parsing) :
    parseAll (enc x ++ buf) p = match p.handle (val x) with
      | .goesOn p => parseAll buf p
      | .closes => .returns (enc x ++ buf) true p.msgs
      | .raises => .raises (enc x ++ buf) := by
  simp only [parseAll,parseLoop,h x buf]
  cases hp : p.handle (val x) with
  | goesOn p' =>
    have h2 := two_le_encoding h x
    have hlen : buf.length < (enc x ++ buf).length := by
      rw [List.length_append]
      omega
    exact parseLoop_fuel hlen (Nat.lt_succ_self _) p'
  | closes => rfl
  | raises => rfl

end

/-- How the loop fares with some frames. -/
inductive Fed
  | goesOn (p : Parsing)
  | closes (p : Parsing)
  | raises
  deriving DecidableEq, Repr

def Parsing.feed : List Frame → Parsing → Fed
  | [], p => .goesOn p
  | f :: fs, p =>
    match p.handle f with
    | .goesOn p => Parsing.feed fs p
    | .closes => .closes p
    | .raises => .raises

/-- The loop on some frames and what follows them. -/
theorem parseAll_feed {X : Type*} {val : X → Frame} {enc : X → Bytes}
    (h : Framing.Encodes parseFrame val enc) (xs : List X) (tail : Bytes) (p : Parsing) :
    match Parsing.feed (xs.map val) p with
    | .goesOn p' => parseAll (xs.flatMap enc ++ tail) p = parseAll tail p'
    | .closes p' => ∃ buf, parseAll (xs.flatMap enc ++ tail) p = .returns buf true p'.msgs
    | .raises => ∃ ys x zs, xs = ys ++ x :: zs ∧ (∃ p' : Parsing, p'.handle (val x) = .raises) ∧
        parseAll (xs.flatMap enc ++ tail) p = .raises ((x :: zs).flatMap enc ++ tail) := by
  induction xs generalizing p with
  | nil => rfl
  | cons x xs ih =>
    have hx := parseAll_frame h x (xs.flatMap enc ++ tail) p
    simp only [Parsing.feed,List.map_cons,List.flatMap_cons,List.append_assoc]
    cases hp : p.handle (val x) with
    | goesOn p1 =>
      have hrest := ih p1
      simp only [hp] at hx
      simp only [hx]
      cases hf : Parsing.feed (xs.map val) p1 with
      | goesOn p' => simpa only [hf] using hrest
      | closes p' => simpa only [hf] using hrest
      | raises =>
        simp only [hf] at hrest
        obtain ⟨ys,y,zs,rfl,hy,hr⟩ := hrest
        refine ⟨x :: ys,y,zs,rfl,hy,?_⟩
        simpa only [List.flatMap_cons,List.append_assoc] using hr
    | closes => exact ⟨_,by simpa only [hp] using hx⟩
    | raises => exact ⟨[],x,xs,rfl,⟨p,hp⟩,by simpa only [hp] using hx⟩

/-- A `WebSocket` with what `recv` will return on its socket; `ended` notes that `recv` has returned
no bytes. -/
structure WebSocket where
  socket : List Bytes
  ended : Bool := false
  websocketClosed : Bool := false
  buf : Bytes := []
  msgs : List (Option Message) := []
  deriving DecidableEq, Repr

/-- How a call of `wait` ends. -/
inductive WaitResult
  | returns (m : Option Message)
  | raises
  deriving DecidableEq, Repr

/-- The loop of `wait`, on the results `recv` will have. -/
def waitLoop : List Bytes → WebSocket → WaitResult × WebSocket
  | reads, ws =>
    match ws.msgs with
    | m :: msgs => (.returns m,{ ws with socket := reads, msgs := msgs })
    | [] =>
      if ws.websocketClosed then (.returns none,{ ws with socket := reads })
      else
        match reads with
        | [] => (.returns none,{ ws with socket := [], ended := true })
        | delta :: reads =>
          if delta = [] then (.returns none,{ ws with socket := reads, ended := true })
          else
            match parseMessages (ws.buf ++ delta) with
            | .returns buf closed msgs =>
              waitLoop reads { ws with buf := buf, websocketClosed := closed, msgs := msgs }
            | .raises buf => (.raises,{ ws with buf := buf, socket := reads })

def WebSocket.wait (ws : WebSocket) : WaitResult × WebSocket := waitLoop ws.socket ws

/-- Successive calls of `wait`, each with whether the stream has come to its end by then: at a
close frame, or where `recv` has returned no bytes. -/
def WebSocket.waits : ℕ → WebSocket → List (WaitResult × Bool)
  | 0, _ => []
  | n + 1, ws =>
    (ws.wait.1,ws.wait.2.websocketClosed || ws.wait.2.ended) :: ws.wait.2.waits n

end Meinheld
