import Fon9.PkCont.Recover
import Fon9.Mc.Channel

/-! A recover session reports that a request has failed. Where packets stay pending the sequence
goes on behind what was requested, and where all are handed over it goes on behind the last
one, though more was requested. -/

namespace Fon9.Mc

open Lib PkCont ExgMcChannelMgr

inductive ExgMcRecoverRole
  | primary | secondary
  deriving DecidableEq

/-- Status 5: recovery is not open yet. Without a primary session nothing is left to ask. -/
def isNoRecover (st : UInt8) (recovers : List ExgMcRecoverRole) : Bool := st = 5 ∧ recovers.head? ≠ some .primary

/-- `ExgMcChannel::OnRecoverErr`; `recovers` are the roles of `Recovers_`. -/
def McSystem.onRecoverErr (args : McArgs) (sys : McSystem) (c beginSeqNo recoverNum : ℕ) (st : UInt8)
    (recovers : List ExgMcRecoverRole) : McSystem :=
  sys.withFeeder args c fun on cfg s =>
    Derived.onRecoverErr on cfg (isNoRecover st recovers) (u64 (beginSeqNo + recoverNum)) s

/-! ### `AfterNextSeq_` -/

section After

variable (utcNow : ℕ → ℕ) (c : ℕ) (m : ExgMcChannelMgr) (f : PkContFeeder ExgMcPk) (pk : ExgMcPk) (seq : ℕ)

/-- Only a snapshot channel changes it. -/
theorem pkContOnReceived_plain (h : isSnapshot c = false) :
    (pkContOnReceived utcNow c m f pk seq).2 = u64 (seq + 1) := by
  rw [pkContOnReceived]
  simp only [h, Bool.false_eq_true, if_false]
  split_ifs <;> rfl

end After

/-! ### Continuity -/

/-- Where the channel stays continuous for a failed request of the numbers before `endSeq`: no
session is left, nothing is pending, packets stay pending, or `endSeq` is not behind the last
one. -/
def Recoverable (args : McArgs) (sys : McSystem) (c endSeq : ℕ) (st : UInt8) (recovers : List ExgMcRecoverRole) : Prop :=
  isNoRecover st recovers = true ∨ (sys.feeders c).pkPendings = [] ∨
    Derived.unhanded (args.config c) endSeq none (sys.feeders c).pkPendings ≠ [] ∨
    isSnapshot c = false ∧ ∀ last ∈ (sys.feeders c).pkPendings.getLast?,
      endSeq ≤ PkContFeeder.afterReceived (args.config c) last.seq

end Fon9.Mc
