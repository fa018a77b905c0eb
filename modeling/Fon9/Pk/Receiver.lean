import Fon9.Buffer.Blocks
import Fon9.Lib.Pieces

/-! The packet receiver `PkReceiver`: packets from a leader byte to CR LF are taken out of
a queue of bytes; behind bytes that are no packet the next leader is searched. The
packets with a good and with a bad checksum are recorded. -/

namespace Fon9.Pk

open Lib Buffer

def kMaxPacketSize : ℕ := 1024 * 64
def kPkHeadLeader : UInt8 := 27

/-- The constants of a receiver and its virtual functions. -/
structure Config where
  pkHeadSize : ℕ
  isDgram : Bool := false
  getPkSize : Bytes → ℕ
  onPkReceived : Bytes → Bool

structure PkReceiver where
  receivedCount : UInt64 := 0
  chkSumErrCount : UInt64 := 0
  droppedBytes : UInt64 := 0
  received : List Bytes := []
  chkSumErr : List Bytes := []
  deriving DecidableEq

/-- What is left to do after a turn of the loop of `FeedBuffer`. -/
inductive Turn (Q : Type)
  | stop
  | next (rx : PkReceiver) (rxbuf : Q)
  | interrupt (rx : PkReceiver) (rxbuf : Q)

namespace PkReceiver

/-- The bytes behind the leader up to the checksum, with `pksz` one above the size. -/
def calcCheckSum (pk : Bytes) (pksz : ℕ) : UInt8 := ((pk.take (pksz - 3)).drop 1).foldl (· ^^^ ·) 0

def drop (rx : PkReceiver) (sz : ℕ) : PkReceiver := { rx with droppedBytes := rx.droppedBytes + UInt64.ofNat sz }

def receive (rx : PkReceiver) (pk : Bytes) : PkReceiver :=
  { rx with receivedCount := rx.receivedCount + 1, received := rx.received ++ [pk] }

def failChkSum (rx : PkReceiver) (pk : Bytes) : PkReceiver :=
  { rx with chkSumErrCount := rx.chkSumErrCount + 1, chkSumErr := rx.chkSumErr ++ [pk] }

variable {Q : Type} [DcQueue Q]

/-- The search for the next leader. -/
def resync (rx : PkReceiver) (rxbuf : Q) : PkReceiver × Q :=
  let r := DcQueue.popUnknownChar rxbuf kPkHeadLeader
  (rx.drop r.2, r.1)

/-- Behind a leader without a packet. -/
def skipLeader (rx : PkReceiver) (rxbuf : Q) : PkReceiver × Q := resync (rx.drop 1) (DcQueue.popConsumed rxbuf 1)

/-- A turn of the loop of `FeedBuffer`. -/
def turn (cfg : Config) (rx : PkReceiver) (rxbuf : Q) : Turn Q :=
  match DcQueue.peek rxbuf cfg.pkHeadSize with
  | none => .stop
  | some head =>
    if head.head? = some kPkHeadLeader then
      let pksz := cfg.getPkSize head
      if u32 (cfg.pkHeadSize + 2) < pksz ∧ pksz < kMaxPacketSize then
        match DcQueue.peek rxbuf pksz with
        | none => .stop
        | some pk =>
          if pk[pksz - 2]? = some 0x0d ∧ pk[pksz - 1]? = some 0x0a then
            if calcCheckSum pk (pksz + 1) = 0 then
              if cfg.onPkReceived pk then .next (rx.receive pk) (DcQueue.popConsumed rxbuf pksz)
              else .interrupt (rx.receive pk) (DcQueue.popConsumed rxbuf pksz)
            else .next (rx.failChkSum pk) (DcQueue.popConsumed rxbuf pksz)
          else .next (rx.skipLeader rxbuf).1 (rx.skipLeader rxbuf).2
      else .next (rx.skipLeader rxbuf).1 (rx.skipLeader rxbuf).2
    else .next (rx.resync rxbuf).1 (rx.resync rxbuf).2

/-- The loop of `FeedBuffer`. Each turn takes a byte at least, so that the size of the
queue bounds the number of turns. -/
def feedLoop (cfg : Config) : ℕ → PkReceiver → Q → PkReceiver × Q × Bool
  | 0, rx, rxbuf => (rx, rxbuf, true)
  | fuel + 1, rx, rxbuf =>
    match turn cfg rx rxbuf with
    | .stop => (rx, rxbuf, true)
    | .next rx rxbuf => feedLoop cfg fuel rx rxbuf
    | .interrupt rx rxbuf => (rx, rxbuf, false)

def feedBuffer (cfg : Config) (rx : PkReceiver) (rxbuf : Q) : PkReceiver × Q × Bool :=
  match feedLoop cfg (DcQueue.calcSize rxbuf + 1) rx rxbuf with
  | (rx, rxbuf, false) => (rx, rxbuf, false)
  | (rx, rxbuf, true) =>
    let remain := DcQueue.calcSize rxbuf
    if cfg.isDgram ∧ 0 < remain then (rx.drop remain, DcQueue.popConsumed rxbuf remain, true) else (rx, rxbuf, true)

end PkReceiver

/-- Bytes received: nodes, or bytes that go behind those of the last node where there is room. -/
inductive Arrival
  | pushBack (buf : List BufferNode)
  | append (src : Bytes) (remainSize : ℕ)

def Arrival.bytes : Arrival → Bytes
  | pushBack buf => contents buf
  | append src _ => src

def arrive (rxbuf : DcQueueList) : Arrival → DcQueueList
  | .pushBack buf => rxbuf.pushBack buf
  | .append src remainSize => rxbuf.append src remainSize

theorem arrive_holds {q : DcQueueList} {s : Bytes} (h : q.Holds s) (chunk : List Arrival) :
    (chunk.foldl arrive q).Holds (s ++ chunk.flatMap Arrival.bytes) := by
  induction chunk generalizing q s with
  | nil =>
    rw [List.flatMap_nil, List.append_nil]
    exact h
  | cons a chunk ih =>
    have ha : (arrive q a).Holds (s ++ a.bytes) := by
      cases a with
      | pushBack buf => exact h.pushBack buf
      | append src remainSize => exact h.append src remainSize
    have hrest := ih ha
    rwa [List.append_assoc, ← List.flatMap_cons] at hrest

/-- A chunk of the stream arrives and is fed. -/
def feed (cfg : Config) (s : PkReceiver × DcQueueList) (chunk : List Arrival) : PkReceiver × DcQueueList :=
  let r := PkReceiver.feedBuffer cfg s.1 (chunk.foldl arrive s.2)
  (r.1, r.2.1)

/-- The bytes of a stream. -/
def stream (chunks : List (List Arrival)) : Bytes := chunks.flatMap fun chunk => chunk.flatMap Arrival.bytes

end Fon9.Pk

/-! The receiver `FixedSizePkReceiver` of packets of one size. A packet in the current block
of the queue stays there until it is popped; one that lies in several blocks is copied to
the receiver's buffer, where `PopConsumed` takes it for one that was read. -/

namespace Fon9.Pk

open Lib Buffer DcQueueList List Nat Option

/-- Where a packet is: in `PkBuffer_` or at the front of the queue. -/
inductive PkPtr
  | pkBuffer (pk : Bytes)
  | rxbuf (pk : Bytes)
  deriving DecidableEq

def PkPtr.pk : PkPtr → Bytes
  | pkBuffer pk => pk
  | rxbuf pk => pk

/-- `pkBuffer` are the bytes last written to `PkBuffer_`, from its start on. -/
structure FixedSizePkReceiver where
  pkBuffer : Bytes := []
  pkBufOfs : ℕ := 0
  pkCount : UInt64 := 0
  deriving DecidableEq

namespace FixedSizePkReceiver

def feedBuffer (pkSize : ℕ) (rx : FixedSizePkReceiver) (rxbuf : DcQueueList) :
    FixedSizePkReceiver × DcQueueList × Option PkPtr :=
  if rx.pkBufOfs ≠ 0 then
    let r := rxbuf.read (pkSize - rx.pkBufOfs)
    let rx := { rx with pkBuffer := rx.pkBuffer.take rx.pkBufOfs ++ r.2, pkBufOfs := rx.pkBufOfs + r.2.length }
    if rx.pkBufOfs < pkSize then (rx, r.1, none)
    else ({ rx with pkBufOfs := 0, pkCount := rx.pkCount + 1 }, r.1, some (.pkBuffer rx.pkBuffer))
  else
    match rxbuf.peek pkSize with
    | none =>
      let r := rxbuf.read pkSize
      ({ rx with pkBuffer := r.2, pkBufOfs := r.2.length }, r.1, none)
    | some pk =>
      -- `Peek` copies to `PkBuffer_` where the current block is too short
      if pkSize ≤ rxbuf.getCurrBlockSize then ({ rx with pkCount := rx.pkCount + 1 }, rxbuf, some (.rxbuf pk))
      else ({ rx with pkBuffer := pk, pkCount := rx.pkCount + 1 }, rxbuf, some (.pkBuffer pk))

def popConsumed (pkSize : ℕ) (rxbuf : DcQueueList) : PkPtr → DcQueueList
  | .pkBuffer _ => rxbuf
  | .rxbuf _ => rxbuf.popConsumed pkSize

/-- The loop of a session over `FeedBuffer` and `PopConsumed`: the packets it sees; `none`
where `fuel` turns are not enough. -/
def recvLoop (pkSize : ℕ) : ℕ → FixedSizePkReceiver → DcQueueList → Option (FixedSizePkReceiver × DcQueueList × List Bytes)
  | 0, _, _ => none
  | fuel + 1, rx, rxbuf =>
    match feedBuffer pkSize rx rxbuf with
    | (rx, rxbuf, none) => some (rx, rxbuf, [])
    | (rx, rxbuf, some ptr) =>
      (recvLoop pkSize fuel rx (popConsumed pkSize rxbuf ptr)).map fun r => (r.1, r.2.1, ptr.pk :: r.2.2)

end FixedSizePkReceiver

/-- A session with the packets that it has seen. -/
structure FixedSession where
  receiver : FixedSizePkReceiver := {}
  rxbuf : DcQueueList := {}
  seen : List Bytes := []
  deriving DecidableEq

namespace FixedSession

/-- A receive call: bytes arrive and are fed. -/
def onRecv (pkSize fuel : ℕ) (s : FixedSession) (chunk : List Arrival) : Option FixedSession :=
  (s.receiver.recvLoop pkSize fuel (chunk.foldl arrive s.rxbuf)).map fun r => ⟨r.1, r.2.1, s.seen ++ r.2.2⟩

def recvAll (pkSize fuel : ℕ) : FixedSession → List (List Arrival) → Option FixedSession
  | s, [] => some s
  | s, chunk :: chunks => (s.onRecv pkSize fuel chunk).bind fun s => recvAll pkSize fuel s chunks

/-- The packets of the stream were seen, each once and in order, they are counted, and what
is behind the last of them is kept. -/
structure Delivered (pkSize : ℕ) (stream : Bytes) (s : FixedSession) : Prop where
  seen : s.seen = pieces pkSize stream
  kept : s.receiver.pkBuffer.take s.receiver.pkBufOfs ++ s.rxbuf.bytes = remainder pkSize stream
  pkCount : s.receiver.pkCount = UInt64.ofNat s.seen.length

end FixedSession

/-- The packets that begin and end in the queue lie in one block each, where `held` bytes of
a packet came before. -/
def Unsplit (pkSize held : ℕ) (rxbuf : DcQueueList) : Prop :=
  ∀ i, let start := (pkSize - held) % pkSize + i * pkSize
    start + pkSize ≤ rxbuf.bytes.length → inOneBlock rxbuf.blocks start pkSize = true

/-- In each receive call. -/
def UnsplitCalls (pkSize : ℕ) (chunks : List (List Arrival)) : Prop :=
  ∀ before chunk after, chunks = before ++ chunk :: after →
    Unsplit pkSize ((stream before).length % pkSize) (chunk.foldl arrive {})

namespace FixedSizePkReceiver

variable {pkSize : ℕ} {rx : FixedSizePkReceiver} {q : DcQueueList} {s : Bytes}

/-! ### A turn of the loop -/

theorem feedBuffer_short (hofs : rx.pkBufOfs = 0) (h : DcQueueList.Holds q s) (hlt : s.length < pkSize) :
    feedBuffer pkSize rx q = ({ rx with pkBuffer := s, pkBufOfs := s.length }, {}, none) := by
  obtain ⟨hholds, hbytes⟩ := h.read pkSize
  rw [drop_eq_nil_of_le hlt.le] at hholds
  rw [take_of_length_le hlt.le] at hbytes
  rw [feedBuffer, if_neg (not_not.mpr hofs), h.peek, if_neg fun hle => not_le.mpr hlt hle.1]
  dsimp only
  rw [hbytes, hholds.eq_empty rfl]

theorem feedBuffer_peek (hofs : rx.pkBufOfs = 0) (h : DcQueueList.Holds q s) (hpos : 0 < pkSize) (hle : pkSize ≤ s.length) :
    feedBuffer pkSize rx q =
      if inOneBlock q.blocks 0 pkSize then ({ rx with pkCount := rx.pkCount + 1 }, q, some (.rxbuf (s.take pkSize)))
      else ({ rx with pkBuffer := s.take pkSize, pkCount := rx.pkCount + 1 }, q, some (.pkBuffer (s.take pkSize))) := by
  have hne : s ≠ [] := ne_nil_of_length_pos (by omega)
  rw [feedBuffer, if_neg (not_not.mpr hofs), h.peek, if_pos ⟨hle, hne⟩, h.inOneBlock_zero hpos]
  simp only [decide_eq_true_eq]

/-- The bytes kept are completed to a packet, or all that there is comes behind them. -/
theorem feedBuffer_kept (hofs : rx.pkBufOfs = rx.pkBuffer.length) (hne : rx.pkBufOfs ≠ 0) (h : DcQueueList.Holds q s) {k : ℕ}
    (hk : k = pkSize - rx.pkBuffer.length) (hpos : 0 < k) :
    feedBuffer pkSize rx q =
      if (rx.pkBuffer ++ s.take k).length < pkSize then
        (⟨rx.pkBuffer ++ s.take k, (rx.pkBuffer ++ s.take k).length, rx.pkCount⟩, q.popConsumed k, none)
      else (⟨rx.pkBuffer ++ s.take k, 0, rx.pkCount + 1⟩, q.popConsumed k, some (.pkBuffer (rx.pkBuffer ++ s.take k))) := by
  rw [feedBuffer, if_pos hne]
  simp only [hofs, ← hk, take_length, (h.read k).2, h.read_popConsumed hpos, length_append]

/-! ### The loop -/

/-- The receiver after `n` more packets, with `left` kept. -/
def after (rx : FixedSizePkReceiver) (n : ℕ) (left : Bytes) : FixedSizePkReceiver :=
  ⟨left, left.length, rx.pkCount + UInt64.ofNat n⟩

theorem recvLoop_mono {fuel fuel' : ℕ} {r : FixedSizePkReceiver × DcQueueList × List Bytes} (hle : fuel ≤ fuel')
    (h : recvLoop pkSize fuel rx q = some r) : recvLoop pkSize fuel' rx q = some r := by
  induction fuel generalizing fuel' rx q r with
  | zero => cases h
  | succ fuel ih =>
    cases fuel' with
    | zero => exact absurd hle (not_succ_le_zero fuel)
    | succ fuel' =>
      rw [recvLoop] at h ⊢
      cases hfeed : feedBuffer pkSize rx q with
      | mk rx' r' =>
        obtain ⟨q', ptr⟩ := r'
        rw [hfeed] at h
        cases ptr with
        | none => exact h
        | some ptr =>
          obtain ⟨r₁, hr₁, hr⟩ := map_eq_some_iff.mp h
          exact map_eq_some_iff.mpr ⟨r₁, ih (le_of_succ_le_succ hle) hr₁, hr⟩

/-- A packet that lies in several blocks is seen again and again. -/
theorem recvLoop_split (hofs : rx.pkBufOfs = 0) (h : DcQueueList.Holds q s) (hpos : 0 < pkSize) (hle : pkSize ≤ s.length)
    (hsplit : inOneBlock q.blocks 0 pkSize = false) (fuel : ℕ) : recvLoop pkSize fuel rx q = none := by
  induction fuel generalizing rx with
  | zero => rfl
  | succ fuel ih =>
    rw [recvLoop, feedBuffer_peek hofs h hpos hle, if_neg (ne_true_of_eq_false hsplit)]
    exact map_eq_none_iff.mpr (ih hofs)

/-- Where the packets lie in one block each they are seen in order, else the loop does not
end. -/
theorem recvLoop_spec (hofs : rx.pkBufOfs = 0) (h : DcQueueList.Holds q s) (hpos : 0 < pkSize) :
    ((∀ i, i * pkSize + pkSize ≤ s.length → inOneBlock q.blocks (i * pkSize) pkSize = true) →
      recvLoop pkSize (s.length + 1) rx q =
        some (rx.after (pieces pkSize s).length (remainder pkSize s), {}, pieces pkSize s)) ∧
    ((∃ i, i * pkSize + pkSize ≤ s.length ∧ inOneBlock q.blocks (i * pkSize) pkSize = false) →
      ∀ fuel, recvLoop pkSize fuel rx q = none) := by
  induction hlen : s.length using Nat.strong_induction_on generalizing rx q s with
  | h m ih =>
    by_cases hlt : s.length < pkSize
    · constructor
      · intro hblocks
        rw [recvLoop, feedBuffer_short hofs h hlt, pieces_of_lt hlt, remainder_of_lt hlt, after, length_nil]
        simp
      · rintro ⟨i, hi, -⟩
        omega
    · have hle : pkSize ≤ s.length := not_lt.mp hlt
      have hdrop : (s.drop pkSize).length < m := by
        rw [length_drop]
        omega
      have hpop := h.popConsumed pkSize
      have hshift : ∀ i, inOneBlock (q.popConsumed pkSize).blocks (i * pkSize) pkSize =
          inOneBlock q.blocks ((i + 1) * pkSize) pkSize := by
        intro i
        rw [h.inOneBlock_popConsumed, succ_mul, add_comm]
      have hlong : ∀ i, i * pkSize + pkSize ≤ (s.drop pkSize).length ↔ (i + 1) * pkSize + pkSize ≤ m := by
        intro i
        rw [length_drop, succ_mul]
        omega
      obtain ⟨hwhole, hsplit⟩ :=
        @ih _ hdrop { rx with pkCount := rx.pkCount + 1 } (q.popConsumed pkSize) (s.drop pkSize) hofs hpop rfl
      constructor
      · intro hblocks
        have hfirst := hblocks 0 (by omega)
        rw [zero_mul] at hfirst
        have hrest := hwhole fun i hi => by
          rw [hshift]
          exact hblocks (i + 1) ((hlong i).mp hi)
        rw [recvLoop, feedBuffer_peek hofs h hpos hle, if_pos hfirst]
        dsimp only [popConsumed]
        rw [recvLoop_mono (by omega : (s.drop pkSize).length + 1 ≤ m) hrest, pieces_of_le hpos hle,
          remainder_of_le hpos hle, after, after, length_cons, UInt64.ofNat_add]
        simp [PkPtr.pk, UInt64.add_assoc, UInt64.add_comm]
      · rintro ⟨i, hi, hblock⟩ fuel
        by_cases hfirst : inOneBlock q.blocks 0 pkSize = true
        · cases fuel with
          | zero => rfl
          | succ fuel =>
            cases i with
            | zero =>
              rw [zero_mul, hfirst] at hblock
              cases hblock
            | succ i =>
              rw [recvLoop, feedBuffer_peek hofs h hpos hle, if_pos hfirst]
              exact map_eq_none_iff.mpr
                (hsplit ⟨i, (hlong i).mpr hi, (hshift i).trans hblock⟩ fuel)
        · exact recvLoop_split hofs h hpos hle (eq_false_of_ne_true hfirst) fuel

/-- What is behind the bytes that complete a packet. -/
theorem recvLoop_behind (hofs : rx.pkBufOfs = 0) (h : DcQueueList.Holds q s) (hpos : 0 < pkSize) {k : ℕ} (hk : k ≤ s.length) :
    ((∀ i, k + i * pkSize + pkSize ≤ s.length → inOneBlock q.blocks (k + i * pkSize) pkSize = true) →
      recvLoop pkSize ((s.drop k).length + 1) rx (q.popConsumed k) =
        some (rx.after (pieces pkSize (s.drop k)).length (remainder pkSize (s.drop k)), {}, pieces pkSize (s.drop k))) ∧
    ((∃ i, k + i * pkSize + pkSize ≤ s.length ∧ inOneBlock q.blocks (k + i * pkSize) pkSize = false) →
      ∀ fuel, recvLoop pkSize fuel rx (q.popConsumed k) = none) := by
  have hspec := recvLoop_spec hofs (h.popConsumed k) hpos
  have hlong : ∀ i, i * pkSize + pkSize ≤ (s.drop k).length ↔ k + i * pkSize + pkSize ≤ s.length := by
    intro i
    rw [length_drop]
    omega
  simpa only [hlong, h.inOneBlock_popConsumed] using hspec

/-- Where bytes of a packet are kept. -/
theorem recvLoop_kept (hofs : rx.pkBufOfs = rx.pkBuffer.length) (hlt : rx.pkBuffer.length < pkSize) (h : DcQueueList.Holds q s)
    (hpos : 0 < pkSize) :
    (Unsplit pkSize rx.pkBuffer.length q →
      recvLoop pkSize (s.length + 2) rx q = some (rx.after (pieces pkSize (rx.pkBuffer ++ s)).length
        (remainder pkSize (rx.pkBuffer ++ s)), {}, pieces pkSize (rx.pkBuffer ++ s))) ∧
    (¬ Unsplit pkSize rx.pkBuffer.length q → ∀ fuel, recvLoop pkSize fuel rx q = none) := by
  have hnot : ∀ k, (¬ ∀ i, k + i * pkSize + pkSize ≤ s.length → inOneBlock q.blocks (k + i * pkSize) pkSize = true) ↔
      ∃ i, k + i * pkSize + pkSize ≤ s.length ∧ inOneBlock q.blocks (k + i * pkSize) pkSize = false := by
    intro k
    simp
  rw [Unsplit, h.bytes_eq]
  by_cases hzero : rx.pkBufOfs = 0
  · have hbuf : rx.pkBuffer = [] := length_eq_zero_iff.mp (hofs ▸ hzero)
    obtain ⟨hwhole, hsplit⟩ := recvLoop_spec hzero h hpos
    dsimp only
    rw [hbuf, length_nil, Nat.sub_zero, mod_self, hnot, nil_append]
    simp only [zero_add]
    exact ⟨fun hblocks => recvLoop_mono (le_succ _) (hwhole hblocks), hsplit⟩
  · have hheld : (pkSize - rx.pkBuffer.length) % pkSize = pkSize - rx.pkBuffer.length :=
      mod_eq_of_lt (by omega)
    have hk : 0 < pkSize - rx.pkBuffer.length := by omega
    dsimp only
    rw [hheld, hnot]
    generalize hkdef : pkSize - rx.pkBuffer.length = k at *
    have hfeed := feedBuffer_kept hofs hzero h hkdef.symm hk
    by_cases hshort : s.length < k
    · -- the packet is not complete yet
      have hlen : (rx.pkBuffer ++ s).length < pkSize := by
        rw [length_append]
        omega
      rw [take_of_length_le hshort.le, if_pos hlen] at hfeed
      have hempty : q.popConsumed k = {} := (h.popConsumed k).eq_empty (drop_eq_nil_of_le hshort.le)
      constructor
      · intro _
        rw [recvLoop, hfeed, pieces_of_lt hlen, remainder_of_lt hlen, hempty]
        simp [after]
      · rintro ⟨i, hi, -⟩
        omega
    · have hkle : k ≤ s.length := not_lt.mp hshort
      have hlen : (rx.pkBuffer ++ s.take k).length = pkSize := by
        rw [length_append, length_take]
        omega
      have hle : pkSize ≤ (rx.pkBuffer ++ s).length := by
        rw [length_append]
        omega
      have htake : (rx.pkBuffer ++ s).take pkSize = rx.pkBuffer ++ s.take k := by
        rw [take_append, take_of_length_le hlt.le, hkdef]
      have hdrop : (rx.pkBuffer ++ s).drop pkSize = s.drop k := by
        rw [drop_append, drop_eq_nil_of_le hlt.le, hkdef, nil_append]
      rw [if_neg (by omega)] at hfeed
      obtain ⟨hwhole, hsplit⟩ :=
        @recvLoop_behind pkSize ⟨rx.pkBuffer ++ s.take k, 0, rx.pkCount + 1⟩ q s rfl h hpos k hkle
      rw [pieces_of_le hpos hle, remainder_of_le hpos hle, htake, hdrop]
      constructor
      · intro hblocks
        have hfuel : (s.drop k).length + 1 ≤ s.length + 1 := by
          rw [length_drop]
          omega
        rw [recvLoop, hfeed]
        dsimp only [popConsumed]
        rw [recvLoop_mono hfuel (hwhole hblocks), after, after, length_cons, UInt64.ofNat_add]
        simp [PkPtr.pk, UInt64.add_assoc, UInt64.add_comm]
      · intro hblock fuel
        cases fuel with
        | zero => rfl
        | succ fuel =>
          rw [recvLoop, hfeed]
          exact map_eq_none_iff.mpr (hsplit hblock fuel)

end FixedSizePkReceiver

/-! ### Runs -/

namespace FixedSession

open List Nat Option

variable {pkSize : ℕ} {s : FixedSession}

/-- A session between two receive calls. -/
structure Rests (pkSize : ℕ) (s : FixedSession) : Prop where
  ofs : s.receiver.pkBufOfs = s.receiver.pkBuffer.length
  kept : s.receiver.pkBuffer.length < pkSize
  rxbuf : s.rxbuf = {}

/-- The session after the bytes. -/
def after (pkSize : ℕ) (s : FixedSession) (bytes : Bytes) : FixedSession where
  receiver := s.receiver.after (pieces pkSize (s.receiver.pkBuffer ++ bytes)).length
    (remainder pkSize (s.receiver.pkBuffer ++ bytes))
  rxbuf := {}
  seen := s.seen ++ pieces pkSize (s.receiver.pkBuffer ++ bytes)

theorem rests_after (hpos : 0 < pkSize) (s : FixedSession) (bytes : Bytes) : (s.after pkSize bytes).Rests pkSize := by
  refine ⟨rfl, ?_, rfl⟩
  show (remainder pkSize (s.receiver.pkBuffer ++ bytes)).length < pkSize
  rw [length_remainder]
  exact mod_lt _ hpos

theorem onRecv_mono {fuel fuel' : ℕ} {chunk : List Arrival} {s' : FixedSession} (hle : fuel ≤ fuel')
    (h : s.onRecv pkSize fuel chunk = some s') : s.onRecv pkSize fuel' chunk = some s' := by
  obtain ⟨r, hr, rfl⟩ := map_eq_some_iff.mp h
  exact map_eq_some_iff.mpr ⟨r, FixedSizePkReceiver.recvLoop_mono hle hr, rfl⟩

theorem onRecv_spec (hpos : 0 < pkSize) (hs : s.Rests pkSize) (chunk : List Arrival) :
    (Unsplit pkSize s.receiver.pkBuffer.length (chunk.foldl arrive {}) →
      ∃ fuel, s.onRecv pkSize fuel chunk = some (s.after pkSize (chunk.flatMap Arrival.bytes))) ∧
    (¬ Unsplit pkSize s.receiver.pkBuffer.length (chunk.foldl arrive {}) →
      ∀ fuel, s.onRecv pkSize fuel chunk = none) := by
  have hholds := arrive_holds .empty chunk
  rw [nil_append] at hholds
  obtain ⟨hwhole, hsplit⟩ := FixedSizePkReceiver.recvLoop_kept hs.ofs hs.kept hholds hpos
  have hcall : ∀ fuel, s.onRecv pkSize fuel chunk =
      (s.receiver.recvLoop pkSize fuel (chunk.foldl arrive {})).map fun r => ⟨r.1, r.2.1, s.seen ++ r.2.2⟩ := by
    intro fuel
    rw [onRecv, hs.rxbuf]
  simp only [hcall, map_eq_none_iff]
  constructor
  · intro h
    exact ⟨_, map_eq_some_iff.mpr ⟨_, hwhole h, rfl⟩⟩
  · exact hsplit

theorem recvAll_mono {fuel fuel' : ℕ} {chunks : List (List Arrival)} {s' : FixedSession} (hle : fuel ≤ fuel')
    (h : recvAll pkSize fuel s chunks = some s') : recvAll pkSize fuel' s chunks = some s' := by
  induction chunks generalizing s with
  | nil => exact h
  | cons chunk chunks ih =>
    obtain ⟨s₁, hs₁, hrest⟩ := bind_eq_some_iff.mp h
    exact bind_eq_some_iff.mpr ⟨s₁, onRecv_mono hle hs₁, ih hrest⟩

/-- The receive calls of a stream of which `held` bytes came before. -/
def UnsplitFrom (pkSize : ℕ) : ℕ → List (List Arrival) → Prop
  | _, [] => True
  | held, chunk :: chunks => Unsplit pkSize held (chunk.foldl arrive {}) ∧
      UnsplitFrom pkSize ((held + (chunk.flatMap Arrival.bytes).length) % pkSize) chunks

theorem unsplitCalls_iff {held : ℕ} (hheld : held < pkSize) (chunks : List (List Arrival)) :
    UnsplitFrom pkSize held chunks ↔ ∀ before chunk after, chunks = before ++ chunk :: after →
      Unsplit pkSize ((held + (stream before).length) % pkSize) (chunk.foldl arrive {}) := by
  induction chunks generalizing held with
  | nil => simp [UnsplitFrom]
  | cons chunk chunks ih =>
    have hnext : (held + (chunk.flatMap Arrival.bytes).length) % pkSize < pkSize :=
      mod_lt _ (by omega)
    have hshift : ∀ before, ((held + (chunk.flatMap Arrival.bytes).length) % pkSize + (stream before).length) % pkSize =
        (held + (stream (chunk :: before)).length) % pkSize := by
      intro before
      rw [mod_add_mod, add_assoc, stream, stream, flatMap_cons, length_append]
    rw [UnsplitFrom, ih hnext]
    simp only [hshift]
    constructor
    · rintro ⟨hfirst, hrest⟩ before c rest heq
      cases before with
      | nil =>
        obtain ⟨rfl, -⟩ := List.cons.inj heq
        rwa [stream, flatMap_nil, length_nil, add_zero, mod_eq_of_lt hheld]
      | cons c' before =>
        obtain ⟨rfl, htail⟩ := List.cons.inj heq
        exact hrest before c rest htail
    · intro h
      constructor
      · have hfirst := h [] chunk chunks rfl
        rwa [stream, flatMap_nil, length_nil, add_zero, mod_eq_of_lt hheld] at hfirst
      · intro before c rest heq
        exact h (chunk :: before) c rest (congrArg (chunk :: ·) heq)

theorem after_after (hpos : 0 < pkSize) (s : FixedSession) (bytes bytes' : Bytes) :
    (s.after pkSize bytes).after pkSize bytes' = s.after pkSize (bytes ++ bytes') := by
  obtain ⟨hpieces, hremainder⟩ := pieces_append hpos (s.receiver.pkBuffer ++ bytes) bytes'
  rw [after, after, after, ← append_assoc, hpieces, hremainder]
  simp [FixedSizePkReceiver.after, UInt64.ofNat_add, UInt64.add_assoc]

theorem recvAll_spec (hpos : 0 < pkSize) (hs : s.Rests pkSize) (chunks : List (List Arrival)) :
    (UnsplitFrom pkSize s.receiver.pkBuffer.length chunks →
      ∃ fuel, recvAll pkSize fuel s chunks = some (chunks.foldl (fun s chunk => s.after pkSize (chunk.flatMap Arrival.bytes)) s)) ∧
    (¬ UnsplitFrom pkSize s.receiver.pkBuffer.length chunks → ∀ fuel, recvAll pkSize fuel s chunks = none) := by
  induction chunks generalizing s with
  | nil => exact ⟨fun _ => ⟨0, rfl⟩, fun h => absurd trivial h⟩
  | cons chunk chunks ih =>
    obtain ⟨hwhole, hsplit⟩ := onRecv_spec hpos hs chunk
    obtain ⟨ihwhole, ihsplit⟩ := ih (rests_after hpos s (chunk.flatMap Arrival.bytes))
    have hheld : (s.after pkSize (chunk.flatMap Arrival.bytes)).receiver.pkBuffer.length =
        (s.receiver.pkBuffer.length + (chunk.flatMap Arrival.bytes).length) % pkSize := by
      show (remainder pkSize _).length = _
      rw [length_remainder, length_append]
    rw [hheld] at ihwhole ihsplit
    constructor
    · rintro ⟨hfirst, hrest⟩
      obtain ⟨fuel, hcall⟩ := hwhole hfirst
      obtain ⟨fuel', hcalls⟩ := ihwhole hrest
      refine ⟨max fuel fuel', ?_⟩
      rw [recvAll, onRecv_mono (le_max_left fuel fuel') hcall]
      exact recvAll_mono (le_max_right fuel fuel') hcalls
    · intro h fuel
      rw [recvAll]
      by_cases hfirst : Unsplit pkSize s.receiver.pkBuffer.length (chunk.foldl arrive {})
      · obtain ⟨fuel', hcall⟩ := hwhole hfirst
        cases hfuel : s.onRecv pkSize fuel chunk with
        | none => rfl
        | some s' =>
          -- more turns come to the same
          have hmax := onRecv_mono (le_max_left fuel fuel') hfuel
          rw [onRecv_mono (le_max_right fuel fuel') hcall] at hmax
          obtain rfl := Option.some.inj hmax
          exact ihsplit (fun hrest => h ⟨hfirst, hrest⟩) fuel
      · rw [hsplit hfirst fuel]
        rfl

theorem foldl_after (hpos : 0 < pkSize) (s : FixedSession) (chunks : List (List Arrival)) (bytes : Bytes) :
    chunks.foldl (fun s chunk => s.after pkSize (chunk.flatMap Arrival.bytes)) (s.after pkSize bytes) =
      s.after pkSize (bytes ++ stream chunks) := by
  induction chunks generalizing bytes with
  | nil => rw [stream, flatMap_nil, append_nil, foldl_nil]
  | cons chunk chunks ih =>
    rw [foldl_cons, after_after hpos, ih, append_assoc, stream, stream, flatMap_cons]

/-- The session sees the packets of the stream, each once and in order, exactly where those
that begin and end in one receive call lie in one block each. -/
theorem recvAll_delivered_iff (hpos : 0 < pkSize) (chunks : List (List Arrival)) :
    (∃ fuel s, recvAll pkSize fuel {} chunks = some s ∧ s.Delivered pkSize (stream chunks)) ↔
      UnsplitCalls pkSize chunks := by
  have hstart : ({} : FixedSession).Rests pkSize := ⟨rfl, hpos, rfl⟩
  have hinit : ({} : FixedSession).after pkSize [] = {} := by
    have hlt : ([] : Bytes).length < pkSize := hpos
    rw [after, List.append_nil, pieces_of_lt hlt, remainder_of_lt hlt]
    rfl
  have hcalls : UnsplitFrom pkSize 0 chunks ↔ UnsplitCalls pkSize chunks := by
    rw [unsplitCalls_iff hpos, UnsplitCalls]
    simp only [Nat.zero_add]
  obtain ⟨hwhole, hsplit⟩ := recvAll_spec hpos hstart chunks
  rw [← hcalls]
  constructor
  · rintro ⟨fuel, s, hrun, -⟩
    by_contra h
    rw [hsplit h fuel] at hrun
    cases hrun
  · intro h
    obtain ⟨fuel, hrun⟩ := hwhole h
    have hfold := foldl_after hpos {} chunks []
    rw [hinit, List.nil_append] at hfold
    rw [hfold] at hrun
    refine ⟨fuel, _, hrun, ?_, ?_, ?_⟩
    · rfl
    · show (remainder pkSize (stream chunks)).take (remainder pkSize (stream chunks)).length ++ [] = _
      rw [List.take_length, List.append_nil]
    · show 0 + UInt64.ofNat (pieces pkSize (stream chunks)).length = _
      rw [UInt64.zero_add]
      rfl

theorem recvAll_delivered_iff_three :
    UnsplitCalls 3 [[.pushBack [.data [1, 2] 0]], [.append [3, 4, 5, 6, 7] 0]] :=
  (recvAll_delivered_iff (by decide : 0 < 3) _).mp ⟨3, ⟨⟨[7], 1, 2⟩, {}, [[1, 2, 3], [4, 5, 6]]⟩, by decide,
    ⟨by decide, by decide, by decide⟩⟩

/-- The packet lies in two blocks. -/
theorem not_recvAll_delivered : ¬ ∀ (pkSize : ℕ) (chunks : List (List Arrival)), 0 < pkSize →
    ∃ fuel s, recvAll pkSize fuel {} chunks = some s ∧ s.Delivered pkSize (stream chunks) := by
  intro h
  obtain ⟨fuel, s, hrun, -⟩ := h 3 [[.append [1, 2] 0, .append [3] 0]] (by decide)
  have hlast := @FixedSizePkReceiver.recvLoop_split 3 {} _ _ rfl
    (arrive_holds .empty [.append [1, 2] 0, .append [3] 0]) (by decide) (by decide) (by decide) fuel
  rw [recvAll, onRecv, hlast] at hrun
  cases hrun

end FixedSession

end Fon9.Pk
