import Fon9.Rc.Framing

/-! The calls of the other side, served one after the other. A function that serves a call takes
its parameters from the queue and nothing else, so that the session that finds the calls in a stream
does what a session does to which they are handed. -/

namespace Fon9.Rc

open Bitv Buffer Lib Pk List Arrival

namespace RcSession

/-! ### A call that is served -/

/-- The verification does not fail at once. -/
def Verifies (env : Env) (ses : RcSession) (response : Bytes) : Prop :=
  ∀ info, env.authVerify ses.log response ≠ some (.failed info)

/-- The function returns and forces no logout, and the parameters are the values that it reads. -/
def Served (env : Env) (ses : RcSession) (params : Bytes) : Function → Prop
  | .agent .logout => ∃ reason, params = (byteArrayToBitv reason).text
  | .agent .heartbeat => True
  | .agent .connServer => ¬ RcSessionSt.connecting < ses.sessionSt ∧
      ∃ apVer description, params = (byteArrayToBitv apVer).text ++ (byteArrayToBitv description).text
  | .agent .saslServer => ∃ mechName firstMessage,
      params = (byteArrayToBitv mechName).text ++ (byteArrayToBitv firstMessage).text ∧
        env.createAuthSession ses.log mechName = true ∧ ses.Verifies env firstMessage
  | .agent .seedVisitorServer => params = [] ∧
      ses.notes f9rc_FunctionCode_SASL = some .saslAuth ∧ env.hasPolicyAcl = true
  | .note .saslAuth => ¬ RcSessionSt.logoning < ses.sessionSt ∧
      ∃ response, params = (byteArrayToBitv response).text ∧ ses.Verifies env response
  | .note .seedVisitorServer => params = [] ∨ ∃ fc values, params = fc :: values ∧
      if fc &&& 0x0f = svFuncCode_Unsubscribe then
        ∃ usidx : IntType.uint32.Val, values = (intToBitv .uint32 usidx.1).text
      else env.serve ses.log fc values = .ok none

/-- What a function does not touch. -/
structure Kept (ses ses' : RcSession) : Prop where
  rcVer : ses'.rcVer = ses.rcVer
  isNoChecksum : ses'.isNoChecksum = ses.isNoChecksum
  isRxFunctionCodeReady : ses'.isRxFunctionCodeReady = ses.isRxFunctionCodeReady
  noRecvEvent : ses'.noRecvEvent = ses.noRecvEvent
  log : ses'.log = ses.log

variable {env : Env} {ses : RcSession} {params : Bytes}

theorem Kept.refl (ses : RcSession) : Kept ses ses := ⟨rfl, rfl, rfl, rfl, rfl⟩

/-- A function comes to `ses'` with any queue that begins with the parameters, and leaves what is
behind them. -/
def Comes (env : Env) (ses : RcSession) (params : Bytes) (function : Function) (ses' : RcSession) : Prop :=
  ∀ (Q : Type) [LawfulDcQueue Q] (q : Q) (rest : Bytes), Holds q (params ++ rest) →
    ∃ q', ses.onRecvFunctionCall env q params.length function = .ok (ses', q') ∧ Holds q' rest

section Read

variable {Q : Type} [LawfulDcQueue Q] {q : Q} {rest data data' : Bytes}

end Read

variable {function : Function} {future : ℕ → List Event} {r : RcSession × DcQueueList} {t : Bytes} {ses : RcSession}
  {n : ℕ}

/-- The session to which a call is dispatched. -/
def calledWith (base : RcSession) (c : Call) : RcSession := (base.found c).note (.called c.functionCode c.params)

/-- The session that the call is handed to, with nothing behind its parameters. -/
def serve (env : Env) (base : RcSession) (c : Call) : RcSession :=
  match (base.found c).findFunction env with
  | .error _ => base
  | .ok function =>
    match (base.calledWith c).onRecvFunctionCall env (c.params : Bytes) c.params.length function with
    | .ok (ses, _) => ses
    | .error _ => base.calledWith c

/-- The calls are served one after the other, as long as there is a function that is ready. -/
def Servable (env : Env) : RcSession → List Call → Prop
  | _, [] => True
  | base, c :: calls => c.params.length ≤ kRcSession_FunctionParam_MaxSize ∧
      match (base.found c).findFunction env with
      | .error _ => True
      | .ok function => Served env (base.calledWith c) c.params function ∧ Servable env (base.serve env c) calls

/-- What happens when so many bytes of the calls have come: each call that is there is dispatched, up
to one for which there is no function that is ready. -/
def expected (env : Env) : RcSession → List Call → ℕ → List Event
  | _, [], _ => []
  | base, c :: calls, received =>
    let size := (send base.isNoChecksum c.functionCode c.params).length
    if received < size then []
    else
      match (base.found c).findFunction env with
      | .error reason => [.refused reason]
      | .ok _ => .called c.functionCode c.params :: expected env (base.serve env c) calls (received - size)

/-- The bytes of the calls. -/
def encode (isNoChecksum : Bool) (calls : List Call) : Bytes :=
  calls.flatMap fun c => send isNoChecksum c.functionCode c.params

/-- A session between two calls. -/
structure Resting (base : RcSession) : Prop where
  rcVer : base.rcVer = 0
  isRxFunctionCodeReady : base.isRxFunctionCodeReady = false
  noRecvEvent : base.noRecvEvent = false

variable {base : RcSession} {c : Call} {calls : List Call} {q : DcQueueList} {s rest : Bytes}

/-- The queue holds `s`, and with the bytes `t` that are still to come all of the calls are there. `n`
bytes of the first of them have come. -/
inductive Standing (base : RcSession) : List Call → RcSession → Bytes → Bytes → ℕ → Prop
  | idle : Standing base [] base [] [] 0
  | call {c : Call} {calls : List Call} {ses : RcSession} {s t bytes : Bytes} {n : ℕ} (hawaits : Awaits base c ses bytes)
      (hbytes : s ++ t = bytes ++ encode base.isNoChecksum calls)
      (hn : n + bytes.length = (send base.isNoChecksum c.functionCode c.params).length + s.length) :
      Standing base (c :: calls) ses s t n

/-- What the session and the queue come to: they wait for bytes of a call, or all is over. `future`
tells what will have happened when so many more bytes have come. -/
inductive Settled (env : Env) (t : Bytes) (future : ℕ → List Event) : RcSession × DcQueueList → Prop
  | waiting {base ses : RcSession} {calls : List Call} {q : DcQueueList} {s : Bytes} {n : ℕ} (hrest : Resting base)
      (hservable : Servable env base calls) (hstanding : Standing base calls ses s t n) (hq : Holds q s)
      (hses : ses.log = base.log ∧ ses.rcVer = 0 ∧ ses.noRecvEvent = false)
      (hnone : expected env base calls n = [])
      (hfuture : ∀ m, future m = base.log.reverse ++ expected env base calls (n + m)) : Settled env t future (ses, q)
  | over {ses : RcSession} {q : DcQueueList} (hover : ses.noRecvEvent = true)
      (hfuture : ∀ m, future m = ses.log.reverse) : Settled env t future (ses, q)

theorem Settled.log (h : Settled env t future r) : r.1.log.reverse = future 0 := by
  cases h with
  | waiting hrest hservable hstanding hq hses hnone hfuture =>
    rw [hfuture 0, add_zero, hnone, append_nil]
    exact congrArg reverse hses.1
  | «over» hover hfuture => exact (hfuture 0).symm

theorem awaits_pos {bytes : Bytes} (h : Awaits base c ses bytes) : 0 < bytes.length := by
  have htext : 0 < (byteArrayToBitv c.params).text.length := by
    rw [byteArrayToBitv]
    split
    · next hpos => exact hpos.trans_le (length_append ▸ Nat.le_add_left _ _)
    · exact Nat.one_pos
  cases h with
  | head =>
    rw [send_eq, length_append]
    exact Nat.add_pos_right _ htext
  | params => exact htext

theorem expected_waits (h : n < (send base.isNoChecksum c.functionCode c.params).length) :
    expected env base (c :: calls) n = [] := if_pos h

/-- The session of a device that has been linked; notes of functions may be left from before. -/
def linked (notes : UInt8 → Option RcFunctionNote) : RcSession := { notes := notes }

/-- The session that has taken the version line. -/
def protocolReady (notes : UInt8 → Option RcFunctionNote) (isNoChecksum : Bool) : RcSession :=
  { notes := notes, rcVer := 0, isNoChecksum := isNoChecksum, sessionSt := .protocolReady }

variable {notes : UInt8 → Option RcFunctionNote} {isNoChecksum : Bool}

/-- A device is linked and receives. -/
def run (env : Env) (notes : UInt8 → Option RcFunctionNote) (chunks : List (List Arrival)) :
    RcSession × DcQueueList := chunks.foldl (recv env) (linked notes, {})

/-- Before and after the version line has been taken. -/
inductive Running (env : Env) (notes : UInt8 → Option RcFunctionNote) (isNoChecksum : Bool) (t : Bytes)
    (future : ℕ → List Event) : RcSession × DcQueueList → Prop
  | line {calls : List Call} {q : DcQueueList} {s : Bytes} (hq : Holds q s)
      (hbytes : s ++ t = protocolVersion isNoChecksum ++ encode isNoChecksum calls)
      (hlt : s.length < (protocolVersion isNoChecksum).length)
      (hservable : Servable env (protocolReady notes isNoChecksum) calls)
      (hfuture : ∀ m, future m = expected env (protocolReady notes isNoChecksum) calls
        (s.length + m - (protocolVersion isNoChecksum).length)) :
      Running env notes isNoChecksum t future (linked notes, q)
  | settled {r : RcSession × DcQueueList} (h : Settled env t future r) : Running env notes isNoChecksum t future r

end RcSession

end Fon9.Rc
