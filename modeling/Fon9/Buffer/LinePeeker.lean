import Fon9.Buffer.BlockQueue
import Fon9.Lib.Loop
import Fon9.Pk.Receiver

/-! `LinePeeker` takes the lines out of a queue of blocks: a line in one block is peeked
there, one that goes on in other blocks is put together in a buffer of its own. -/

namespace Fon9.Buffer

open Lib BlockQueue List Nat

/-- A queue of blocks that bytes arrive in. -/
class ArrivalQueue (Q : Type) (A : outParam Type) extends BlockQueue Q where
  start : Q
  arrive : Q → A → Q
  bytes : A → Bytes
  start_blocks : HasBlocks start []
  arrive_blocks : ∀ {q blks}, HasBlocks q blks → ∀ a,
    ∃ blks', HasBlocks (arrive q a) blks' ∧ blks'.flatten = blks.flatten ++ bytes a

instance : ArrivalQueue DcQueueList Pk.Arrival where
  start := {}
  arrive := Pk.arrive
  bytes := Pk.Arrival.bytes
  start_blocks := ⟨.empty, rfl⟩
  arrive_blocks := by
    rintro q blks ⟨h, -⟩ a
    have harrive := Pk.arrive_holds h [a]
    rw [List.foldl_cons, List.foldl_nil, List.flatMap_singleton] at harrive
    exact ⟨_, ⟨by rwa [harrive.flatten_dataBlocks], rfl⟩, harrive.flatten_dataBlocks⟩

structure LinePeeker where
  tmpBuf : Bytes := []
  lineSize : ℕ := 0
  deriving DecidableEq

open LinePeeker

namespace LinePeeker

variable {Q : Type} [BlockQueue Q]

def popConsumed (lp : LinePeeker) (dcq : Q) : LinePeeker × Q :=
  if lp.tmpBuf.isEmpty then ({ lp with lineSize := 0 }, BlockQueue.popConsumed dcq lp.lineSize)
  else ({ tmpBuf := [], lineSize := 0 }, dcq)

/-- A turn of the loop of `PeekUntil`; it ends with the bytes at the pointer returned, `none`
where it is null. -/
def peekBody (chUntil : UInt8) : LinePeeker × Q → (LinePeeker × Q) ⊕ (LinePeeker × Q × Option Bytes)
  | (lp, dcq) =>
    match peekCurrBlock dcq with
    | none => .inr (lp, dcq, none)
    | some blk =>
      match blk.findIdx? (· == chUntil) with
      | some pfind =>
        let lnsz := pfind + 1
        if lp.tmpBuf.isEmpty then .inr ({ lp with lineSize := lnsz }, dcq, some blk)
        else
          let tmpBuf := lp.tmpBuf ++ blk.take (pfind + 1)
          .inr ({ tmpBuf := tmpBuf, lineSize := tmpBuf.length }, BlockQueue.popConsumed dcq lnsz, some tmpBuf)
      | none => .inl ({ lp with tmpBuf := lp.tmpBuf ++ blk }, BlockQueue.popConsumed dcq blk.length)

/-- A turn that goes on takes a block: the size of the queue bounds their number. -/
def peekUntil (lp : LinePeeker) (dcq : Q) (chUntil : UInt8) : Option (LinePeeker × Q × Option Bytes) :=
  loop (peekBody chUntil) (calcSize dcq + 1) (lp, dcq)

end LinePeeker

/-! ### Taking lines -/

/-- A receiver with the lines that it has handled. -/
structure LineReader (Q : Type) where
  peeker : LinePeeker := {}
  rxbuf : Q
  handled : List Bytes := []

namespace LineReader

variable {Q A : Type} [ArrivalQueue Q A]

variable (chUntil : UInt8) (rd : LineReader Q)

/-- `PeekUntil`, and where there is a line, its handling and `PopConsumed`. -/
def takeLine : Option (LineReader Q × Bool) :=
  (rd.peeker.peekUntil rd.rxbuf chUntil).map fun r =>
    match r.2.2 with
    | none => (⟨r.1, r.2.1, rd.handled⟩, false)
    | some pln =>
      let p := r.1.popConsumed r.2.1
      (⟨p.1, p.2, rd.handled ++ [pln.take r.1.lineSize]⟩, true)

/-- A turn of `while (pln = PeekUntil(rxbuf, chUntil))`. -/
def takeBody : LineReader Q ⊕ Option (LineReader Q) :=
  match rd.takeLine chUntil with
  | none => .inr none
  | some (rd, true) => .inl rd
  | some (rd, false) => .inr (some rd)

/-- The bytes kept in the buffer and in the queue. -/
def keptSize : ℕ := rd.peeker.tmpBuf.length + calcSize rd.rxbuf

/-- All lines. Each one takes a byte that is kept. -/
def takeLines : Option (LineReader Q) :=
  (loop (takeBody chUntil) (rd.keptSize + 1) rd).join

/-- Bytes arrive, or a line is asked for. -/
inductive Step (A : Type)
  | arrive (a : A)
  | takeLine

def step : Step A → Option (LineReader Q)
  | .arrive a => some { rd with rxbuf := ArrivalQueue.arrive rd.rxbuf a }
  | .takeLine => (rd.takeLine chUntil).map Prod.fst

def start : LineReader Q := { rxbuf := ArrivalQueue.start }

def run (steps : List (Step A)) : Option (LineReader Q) :=
  steps.foldlM (step chUntil) start

/-- The bytes that arrive. -/
def stream (Q : Type) {A : Type} [ArrivalQueue Q A] (steps : List (Step A)) : Bytes :=
  steps.flatMap fun
    | .arrive a => ArrivalQueue.bytes Q a
    | .takeLine => []

end LineReader

/-! ### Searching the delimiter -/

theorem findIdx?_of_notMem {d : UInt8} {s : Bytes} (h : d ∉ s) : s.findIdx? (· == d) = none := by
  rw [findIdx?_eq_none_iff]
  intro x hx
  rw [beq_eq_false_iff_ne]
  rintro rfl
  exact h hx

theorem findIdx?_append_cons {d : UInt8} {front : Bytes} (h : d ∉ front) (rest : Bytes) :
    (front ++ d :: rest).findIdx? (· == d) = some front.length := by
  rw [findIdx?_append, findIdx?_of_notMem h, findIdx?_cons, if_pos (beq_self_eq_true d)]
  simp

namespace BlockQueue

variable {Q : Type} [BlockQueue Q] {q : Q} {blks : List Bytes}

/-- Every block has a byte. -/
theorem length_le_flatten (h : ∀ blk ∈ blks, blk ≠ []) : blks.length ≤ blks.flatten.length := by
  induction blks with
  | nil => exact le_refl 0
  | cons blk blks ih =>
    have hblk : 0 < blk.length := length_pos_iff.mpr (h blk mem_cons_self)
    have hblks := ih fun b hb => h b (mem_cons_of_mem _ hb)
    rw [length_cons, flatten_cons, length_append]
    omega

end BlockQueue

/-! ### A line -/

namespace LinePeeker

variable {Q : Type} [BlockQueue Q] {q : Q} {blks : List Bytes} {lp : LinePeeker} {d : UInt8} {front rest : Bytes}

/-- A line has been peeked, and `PopConsumed` leaves what is behind it. -/
structure Peeks (r : LinePeeker × Q × Option Bytes) (line rest : Bytes) : Prop where
  pointer : ∃ pln, r.2.2 = some pln ∧ pln.take r.1.lineSize = line
  size : 0 < r.1.lineSize
  cleared : (r.1.popConsumed r.2.1).1 = {}
  left : ∃ blks, HasBlocks (r.1.popConsumed r.2.1).2 blks ∧ blks.flatten = rest

/-- The delimiter is in the current block. -/
theorem peekBody_found (lp : LinePeeker) {bfront brest : Bytes} (h : HasBlocks q ((bfront ++ d :: brest) :: blks)) (hd : d ∉ bfront) :
    ∃ r, peekBody d (lp, q) = .inr r ∧ Peeks r (lp.tmpBuf ++ bfront ++ [d]) (brest ++ blks.flatten) := by
  have hpeek : peekCurrBlock q = some (bfront ++ d :: brest) := peekCurrBlock_eq h
  have hlen : bfront.length + 1 ≤ (bfront ++ d :: brest).length := by
    rw [length_append, length_cons]
    omega
  have htake : (bfront ++ d :: brest).take (bfront.length + 1) = bfront ++ [d] := by
    rw [take_length_add_append, take_succ_cons, take_zero]
  obtain ⟨left, hleft, hflat⟩ := popConsumed_front h hlen
  have hdrop : ((bfront ++ d :: brest) :: blks).flatten.drop (bfront.length + 1) = brest ++ blks.flatten := by
    rw [flatten_cons, append_assoc, drop_length_add_append, cons_append, drop_succ_cons,
      drop_zero]
  rw [hdrop] at hflat
  rw [peekBody, hpeek]
  dsimp only
  rw [findIdx?_append_cons hd]
  dsimp only
  cases htmp : lp.tmpBuf with
  | nil =>
    refine ⟨_, if_pos rfl, ⟨_, rfl, htake⟩, succ_pos _, ?_, ?_⟩
    · simp [popConsumed]
    · refine ⟨left, ?_, hflat⟩
      simpa [popConsumed, htmp] using hleft
  | cons b tmp =>
    refine ⟨_, if_neg (by simp), ⟨_, rfl, ?_⟩, ?_, ?_, ?_⟩
    · rw [take_length, htake, ← append_assoc]
    · simp
    · simp [popConsumed]
    · refine ⟨left, ?_, hflat⟩
      simpa [popConsumed] using hleft

/-- The current block goes into the buffer. -/
theorem peekBody_next {blk : Bytes} (h : HasBlocks q (blk :: blks)) (hd : d ∉ blk) :
    peekBody d (lp, q) =
      .inl ({ lp with tmpBuf := lp.tmpBuf ++ blk }, BlockQueue.popConsumed q blk.length) := by
  have hpeek : peekCurrBlock q = some blk := peekCurrBlock_eq h
  rw [peekBody, hpeek]
  dsimp only
  rw [findIdx?_of_notMem hd]

theorem loop_line {fuel : ℕ} (h : HasBlocks q blks) (hfuel : blks.length ≤ fuel) (htmp : d ∉ lp.tmpBuf)
    (hfront : d ∉ front) (hline : lp.tmpBuf ++ blks.flatten = front ++ d :: rest) :
    ∃ r, loop (peekBody d) (fuel + 1) (lp, q) = some r ∧ Peeks r (front ++ [d]) rest := by
  induction blks generalizing q lp fuel with
  | nil =>
    rw [flatten_nil, append_nil] at hline
    rw [hline] at htmp
    simp at htmp
  | cons blk blks ih =>
    by_cases hd : d ∈ blk
    · obtain ⟨bfront, brest, rfl, hbfront⟩ := eq_append_cons_of_mem hd
      obtain ⟨r, hbody, hpeeks⟩ := peekBody_found lp h hbfront
      have hsame : lp.tmpBuf ++ bfront ++ d :: (brest ++ blks.flatten) = front ++ d :: rest := by
        rw [← hline, flatten_cons, append_assoc, append_assoc, cons_append]
      have hnot : d ∉ lp.tmpBuf ++ bfront := by
        rw [mem_append]
        exact not_or.mpr ⟨htmp, hbfront⟩
      obtain ⟨hleft, hright⟩ := line_unique hnot hfront hsame
      rw [hleft, hright] at hpeeks
      exact ⟨r, loop_ends hbody, hpeeks⟩
    · obtain ⟨fuel, rfl⟩ : ∃ n, fuel = n + 1 := ⟨fuel - 1, (Nat.sub_add_cancel (one_le_of_lt hfuel)).symm⟩
      have hnot : d ∉ lp.tmpBuf ++ blk := by
        rw [mem_append]
        exact not_or.mpr ⟨htmp, hd⟩
      rw [loop_goes (peekBody_next h hd)]
      refine ih (popConsumed_block h) (le_of_succ_le_succ hfuel) hnot ?_
      rw [← hline, flatten_cons, append_assoc]

theorem loop_tail {fuel : ℕ} (h : HasBlocks q blks) (hfuel : blks.length ≤ fuel)
    (hd : d ∉ lp.tmpBuf ++ blks.flatten) :
    ∃ lp' q', loop (peekBody d) (fuel + 1) (lp, q) = some (lp', q', none) ∧
      lp'.tmpBuf = lp.tmpBuf ++ blks.flatten ∧ HasBlocks q' [] := by
  induction blks generalizing q lp fuel with
  | nil =>
    have hpeek : peekCurrBlock q = none := peekCurrBlock_eq h
    refine ⟨lp, q, loop_ends ?_, (append_nil _).symm, h⟩
    rw [peekBody, hpeek]
  | cons blk blks ih =>
    obtain ⟨fuel, rfl⟩ : ∃ n, fuel = n + 1 := ⟨fuel - 1, (Nat.sub_add_cancel (one_le_of_lt hfuel)).symm⟩
    rw [flatten_cons, ← append_assoc] at hd ⊢
    have hblk : d ∉ blk := fun hmem => hd (mem_append_left _ (mem_append_right _ hmem))
    rw [loop_goes (peekBody_next h hblk)]
    exact ih (popConsumed_block h) (le_of_succ_le_succ hfuel) hd

end LinePeeker

/-! ### Runs -/

namespace LineReader

variable {Q A : Type} [ArrivalQueue Q A] {rd : LineReader Q} {blks : List Bytes} {d : UInt8} {s : Bytes}

/-- The lines of the stream `s` that have not been handled are those of the bytes kept in
the buffer and in the queue. -/
structure Keeps (d : UInt8) (rd : LineReader Q) (s : Bytes) : Prop where
  whole : d ∉ rd.peeker.tmpBuf
  kept : ∃ blks, HasBlocks rd.rxbuf blks ∧ rd.handled ++ lines d (rd.peeker.tmpBuf ++ blks.flatten) = lines d s ∧
    lineTail d (rd.peeker.tmpBuf ++ blks.flatten) = lineTail d s

theorem start_keeps (d : UInt8) : (start : LineReader Q).Keeps d [] :=
  ⟨not_mem_nil, [], ArrivalQueue.start_blocks, rfl, rfl⟩

/-- With a line the first one is handled, without one all bytes are kept in the buffer. -/
theorem takeLine_keeps (h : rd.Keeps d s) :
    ∃ rd' more, rd.takeLine d = some (rd', more) ∧ rd'.Keeps d s ∧
      (more = true → rd'.keptSize < rd.keptSize) ∧
      (more = false → rd'.handled = lines d s ∧ rd'.peeker.tmpBuf = lineTail d s ∧ HasBlocks rd'.rxbuf []) := by
  obtain ⟨htmp, blks, hblks, hlines, htail⟩ := h
  have hfuel : blks.length ≤ calcSize rd.rxbuf := by
    rw [calcSize_eq hblks]
    exact length_le_flatten (ne_nil hblks)
  by_cases hd : d ∈ rd.peeker.tmpBuf ++ blks.flatten
  · obtain ⟨front, rest, hsplit, hfront⟩ := eq_append_cons_of_mem hd
    obtain ⟨r, hloop, hpeeks⟩ := loop_line hblks hfuel htmp hfront hsplit
    obtain ⟨pln, hpln, htake⟩ := hpeeks.pointer
    obtain ⟨left, hleft, hflat⟩ := hpeeks.left
    have htmp' : (r.1.popConsumed r.2.1).1.tmpBuf = [] := congrArg tmpBuf hpeeks.cleared
    have hlen := congrArg length hsplit
    rw [length_append, length_append, length_cons] at hlen
    rw [hsplit, lines_append_cons hfront] at hlines
    rw [hsplit, lineTail_append_cons hfront] at htail
    refine ⟨⟨(r.1.popConsumed r.2.1).1, (r.1.popConsumed r.2.1).2, rd.handled ++ [front ++ [d]]⟩, true, ?_,
      ⟨?_, left, hleft, ?_, ?_⟩, fun _ => ?_, nofun⟩
    · rw [takeLine, peekUntil, hloop, Option.map_some, hpln, ← htake]
    · rw [htmp']
      exact not_mem_nil
    · rw [htmp', hflat, append_assoc]
      exact hlines
    · rw [htmp', hflat]
      exact htail
    · rw [keptSize, keptSize, htmp', calcSize_eq hleft, calcSize_eq hblks, hflat, length_nil]
      omega
  · obtain ⟨lp, q, hloop, hlp, hq⟩ := loop_tail hblks hfuel hd
    have hall : lp.tmpBuf ++ ([] : List Bytes).flatten = rd.peeker.tmpBuf ++ blks.flatten := by
      rw [hlp, flatten_nil, append_nil]
    refine ⟨⟨lp, q, rd.handled⟩, false, ?_, ⟨?_, [], hq, ?_, ?_⟩, nofun, fun _ => ⟨?_, ?_, hq⟩⟩
    · rw [takeLine, peekUntil, hloop, Option.map_some]
    · rw [hlp]
      exact hd
    · rw [hall]
      exact hlines
    · rw [hall]
      exact htail
    · rw [← hlines, lines_of_notMem hd, append_nil]
    · rw [← htail, lineTail_of_notMem hd, hlp]

/-- What arrives goes behind the bytes kept. -/
theorem arrive_keeps (h : rd.Keeps d s) (a : A) :
    Keeps d { rd with rxbuf := ArrivalQueue.arrive rd.rxbuf a } (s ++ ArrivalQueue.bytes Q a) := by
  obtain ⟨htmp, blks, hblks, hlines, htail⟩ := h
  obtain ⟨blks', hblks', hflat⟩ := ArrivalQueue.arrive_blocks hblks a
  have hkept := lines_append d (rd.peeker.tmpBuf ++ blks.flatten) (ArrivalQueue.bytes Q a)
  have hstream := lines_append d s (ArrivalQueue.bytes Q a)
  refine ⟨htmp, blks', hblks', ?_, ?_⟩
  · rw [hflat, ← append_assoc, hkept.1, ← append_assoc, hlines, htail, hstream.1]
  · rw [hflat, ← append_assoc, hkept.2, htail, hstream.2]

theorem run_keeps (steps : List (Step A)) (h : rd.Keeps d s) :
    ∃ rd', steps.foldlM (step d) rd = some rd' ∧ rd'.Keeps d (s ++ stream Q steps) := by
  induction steps generalizing rd s with
  | nil =>
    refine ⟨rd, rfl, ?_⟩
    rw [stream, flatMap_nil, append_nil]
    exact h
  | cons st steps ih =>
    rw [foldlM_cons, stream, flatMap_cons, ← append_assoc]
    cases st with
    | arrive a => exact ih (arrive_keeps h a)
    | takeLine =>
      obtain ⟨rd', more, htake, hkeeps, -⟩ := takeLine_keeps h
      have hstep : step d rd .takeLine = some rd' := by
        rw [step, htake]
        rfl
      rw [hstep, append_nil]
      exact ih hkeeps

theorem takeLines_keeps {fuel : ℕ} (h : rd.Keeps d s) (hfuel : rd.keptSize < fuel) :
    ∃ rd', loop (takeBody d) fuel rd = some (some rd') ∧
      rd'.handled = lines d s ∧ rd'.peeker.tmpBuf = lineTail d s ∧ HasBlocks rd'.rxbuf [] := by
  induction fuel generalizing rd with
  | zero => exact absurd hfuel (Nat.not_lt_zero _)
  | succ fuel ih =>
    obtain ⟨rd', more, htake, hkeeps, hmore, hend⟩ := takeLine_keeps h
    cases more with
    | false =>
      refine ⟨rd', loop_ends ?_, hend rfl⟩
      rw [takeBody, htake]
    | true =>
      have hlt := hmore rfl
      have hgoes : takeBody d rd = .inl rd' := by
        rw [takeBody, htake]
      rw [loop_goes hgoes]
      exact ih hkeeps (by omega)

/-- However the stream arrives and lies in the blocks, and whenever lines are asked for:
the lines handled are the first ones of the stream, and all of them when no more is found;
the bytes behind the last one are kept. -/
theorem lines_of_stream (d : UInt8) (steps : List (Step A)) :
    ∃ rd : LineReader Q, run d steps = some rd ∧ rd.Keeps d (stream Q steps) ∧
      ∃ rd', rd.takeLines d = some rd' ∧ rd'.handled = lines d (stream Q steps) ∧
        rd'.peeker.tmpBuf = lineTail d (stream Q steps) ∧ HasBlocks rd'.rxbuf [] := by
  obtain ⟨rd, hrun, hkeeps⟩ := run_keeps steps (start_keeps (Q := Q) d)
  rw [List.nil_append] at hkeeps
  obtain ⟨rd', hloop, hend⟩ := takeLines_keeps hkeeps (Nat.lt_succ_self _)
  refine ⟨rd, hrun, hkeeps, rd', ?_, hend⟩
  rw [takeLines, hloop]
  rfl

end LineReader

end Fon9.Buffer
