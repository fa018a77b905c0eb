import Fon9.Lib.Effect
import Fon9.Rc.Dispatch

/-! The session of a host over whole runs: the calls of the other side are dispatched in their
order with their parameters, however their bytes arrive, and nothing is dispatched after the parser
has forced a logout. -/

namespace Fon9.Rc

open Bitv Buffer Lib Pk List

namespace RcSession

variable {env : Env} {ses ses' : RcSession}

/-! ### A session that is told of no more bytes -/

/-- The session receives, and has not been refused. -/
def Opened (ses : RcSession) : Prop := ses.noRecvEvent = false ∧ ∀ reason, Event.refused reason ∉ ses.log

/-- The session receives no more, and nothing has come after a refusal. -/
def Closed (ses : RcSession) : Prop := ses.noRecvEvent = true ∧ ∀ reason, Event.refused reason ∉ ses.log.tail

/-- A function may force a logout, which goes on receiving. -/
def Goes (ses ses' : RcSession) : Prop :=
  ses'.noRecvEvent = ses.noRecvEvent ∧
    (ses'.log = ses.log ∨ ∃ reason, ses'.log = .forceLogout reason :: ses.log)

theorem Goes.opened (h : Goes ses ses') (hopen : Opened ses) : Opened ses' := by
  obtain ⟨hno, hlog⟩ := h
  refine ⟨hno.trans hopen.1, fun reason hmem => ?_⟩
  rcases hlog with hlog | ⟨info, hlog⟩
  · rw [hlog] at hmem
    exact hopen.2 reason hmem
  · rw [hlog, mem_cons] at hmem
    rcases hmem with heq | hmem
    · cases heq
    · exact hopen.2 reason hmem

section Functions

variable {Q : Type} [DcQueue Q] {q q' : Q}

end Functions

/-- What a turn comes to when the session has been receiving. -/
def Turn.Kept : Turn → Prop
  | .wait ses _ => Opened ses
  | .close ses _ => Closed ses
  | .next ses _ => Opened ses

theorem expected_zero {base : RcSession} (calls : List Call) : expected env base calls 0 = [] := by
  cases calls with
  | nil => rfl
  | cons c calls => exact expected_waits (awaits_pos (.head : Awaits base c base _))

theorem Running.log {notes : UInt8 → Option RcFunctionNote} {isNoChecksum : Bool} {t : Bytes} {future : ℕ → List Event}
    {r : RcSession × DcQueueList} (h : Running env notes isNoChecksum t future r) : r.1.log.reverse = future 0 := by
  cases h with
  | @line calls q s hq hbytes hlt hservable hfuture =>
    have hzero : s.length + 0 - (protocolVersion isNoChecksum).length = 0 := by omega
    rw [hfuture, hzero, expected_zero]
    rfl
  | settled h => exact h.log

end RcSession

end Fon9.Rc
