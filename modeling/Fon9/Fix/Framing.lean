import Fon9.Fix.RoundTrip

/-! The FIX feeder. Received blocks are parsed in place; what is left of a message waits in
`RxBuf_`, and the next blocks fill it up to the size that the parser expects. An error goes to
`OnFixMessageError`, which by default only returns it. The feeder frames a stream of messages
however it is cut into blocks and chunks: between two blocks `RxBuf_` holds the beginning of the
next message, and the parser expects more than that, but not more than the stream has. -/

namespace Fon9.Fix

open FixParser List

structure FixFeeder where
  rxBuf : Bytes := []
  fixParser : FixParser := {}
  /-- The calls to `OnFixMessageParsed`. -/
  parsed : List Bytes := []

namespace FixFeeder

/-- The loop of `OnFixStreamReceived` over the text `sp`; `inRxBuf` tells that the text
lies in `RxBuf_` itself. A parsed message is not empty, so that the length of the text
bounds the number of turns. -/
def streamLoop (inRxBuf : Bool) : ℕ → FixFeeder → Bytes → FixFeeder × Result
  | 0, s, _ => (s, .parseEnd)
  | fuel + 1, s, sp =>
    if sp = [] then (s, .parseEnd)
    else
      match s.fixParser.parse ⟨sp, []⟩ .fullMessage with
      | (p, _, .used size) =>
        streamLoop inRxBuf fuel
          { s with fixParser := p.clear, parsed := s.parsed ++ [sp.take size] } (sp.drop size)
      | (p, fixmsg, .needsMore) =>
        ({ s with
            fixParser := p
            rxBuf :=
              if inRxBuf then s.rxBuf.drop (s.rxBuf.length - sp.length)
              else s.rxBuf ++ fixmsg.text },
          .needsMore)
      | (p, _, res) => ({ s with fixParser := p }, res)

def onFixStreamReceived (inRxBuf : Bool) (s : FixFeeder) (fixmsgStream : Bytes) : FixFeeder × Result :=
  streamLoop inRxBuf fixmsgStream.length s fixmsgStream

/-- The size `RxBuf_` is filled up to. -/
def fillSize (s : FixFeeder) : ℕ :=
  if s.fixParser.expectSize ≤ 0 then kFixMinHeaderWidth + kFixTailWidth else s.fixParser.expectSize

/-- The do loop of `FeedBuffer` while `RxBuf_` holds a part of a message. Every turn
takes a byte of the block as long as `RxBuf_` is below the size it is filled up to. -/
def fillLoop : ℕ → FixFeeder → Bytes → FixFeeder × Result
  | 0, s, _ => (s, .needsMore)
  | fuel + 1, s, blk =>
    let expsz := s.fillSize
    let sz := if expsz < s.rxBuf.length then blk.length else min (expsz - s.rxBuf.length) blk.length
    let s := { s with rxBuf := s.rxBuf ++ blk.take sz }
    if s.rxBuf.length < expsz then (s, .needsMore)
    else
      match s.onFixStreamReceived true s.rxBuf with
      | (s, .needsMore) =>
        if blk.drop sz = [] then (s, .needsMore) else fillLoop fuel s (blk.drop sz)
      | (s, .used _) =>
        let s := { s with rxBuf := [] }
        if blk.drop sz = [] then (s, .parseEnd) else s.onFixStreamReceived false (blk.drop sz)
      | (s, res) => (s, res)

/-- One turn of `FeedBuffer`: a block is used up. -/
def feedBlock (s : FixFeeder) (blk : Bytes) : FixFeeder × Result :=
  if s.rxBuf = [] then s.onFixStreamReceived false blk else fillLoop blk.length s blk

/-- `FeedBuffer` over the nodes of the receive queue, which skips empty ones. -/
def feedBuffer : FixFeeder → List Bytes → FixFeeder × List Bytes × Result
  | s, [] => (s, [], .parseEnd)
  | s, blk :: rest =>
    if blk = [] then feedBuffer s rest
    else
      match s.feedBlock blk with
      | (s, res) => if res.isError then (s, blk :: rest, res) else feedBuffer s rest

/-- The received chunks, each a queue of nodes, up to an error. -/
def feedChunks : FixFeeder → List (List Bytes) → FixFeeder × Result
  | s, [] => (s, .parseEnd)
  | s, chunk :: chunks =>
    match s.feedBuffer chunk with
    | (s, _, res) => if res.isError then (s, res) else feedChunks s chunks

end FixFeeder

variable (beginHeader : Bytes)

/-- The messages of a stream, one for each list of fields. -/
def wire (fields : List (ℕ × Bytes)) : Bytes :=
  message beginHeader (fieldsText fields)

def stream (todo : List (List (ℕ × Bytes))) : Bytes :=
  (todo.map (wire beginHeader)).flatten

theorem stream_append (a b : List (List (ℕ × Bytes))) :
    stream beginHeader (a ++ b) = stream beginHeader a ++ stream beginHeader b := by
  simp [stream]

theorem wire_ne_nil (fields : List (ℕ × Bytes)) : wire beginHeader fields ≠ [] := by
  rw [wire, ← length_pos_iff, length_message]
  simp [kFixTailWidth]

namespace FixFeeder

/-- A parser that can read the messages `todo`: they have the header that it expects,
or, when it expects none, the stream is long enough to look for it in front. -/
structure CanRead (beginHeader : Bytes) (p : FixParser) (todo : List (List (ℕ × Bytes))) : Prop where
  counted : p.Counted
  header : p.HeaderFor beginHeader
  stream_long : p.expectHeader = [] → todo ≠ [] →
    kFixMinHeaderWidth + kFixTailWidth < (stream beginHeader todo).length
  header_short : p.expectHeader = [] → ∀ fields ∈ todo.head?,
    beginHeader.length + (uintToStr (fieldsText fields).length).length ≤
      kFixMinHeaderWidth + kFixTailWidth
  parseable : ∀ fields ∈ todo, Parseable fields
  size_lt : ∀ fields ∈ todo, (wire beginHeader fields).length < 2 ^ 16

/-- The state of the parser when `left` of the messages `todo` waits in `RxBuf_`. -/
structure Ready (beginHeader : Bytes) (p : FixParser) (todo : List (List (ℕ × Bytes)))
    (left : Bytes) : Prop extends CanRead beginHeader p todo where
  empty : left = [] → p.expectSize = 0
  short : left ≠ [] → left.length < p.expectSize
  reachable : p.expectSize ≤ (stream beginHeader todo).length

variable {beginHeader : Bytes} {p : FixParser} {todo : List (List (ℕ × Bytes))}

/-- A parser that knows the header can read on after a message. -/
theorem CanRead.next {fields : List (ℕ × Bytes)} {p' : FixParser}
    (h : CanRead beginHeader p (fields :: todo)) (hs : p'.Stored fields)
    (hh : p'.expectHeader = beginHeader) : Ready beginHeader p'.clear todo [] := by
  have hne : p'.clear.expectHeader ≠ [] := by
    show p'.expectHeader ≠ []
    rw [hh]
    exact h.header.ne_nil
  refine ⟨⟨(clear_stored hs.counted).counted, .inl ⟨hh, h.header.ne_nil⟩, fun h0 => absurd h0 hne,
    fun h0 => absurd h0 hne, fun f hf => h.parseable f (by simp [hf]),
    fun f hf => h.size_lt f (by simp [hf])⟩, fun _ => rfl, fun h0 => absurd rfl h0, ?_⟩
  exact Nat.zero_le _

/-- What the parser does on the beginning of a stream: it takes the first message, or
it waits for more than it has. -/
theorem parse_stream {t u : Bytes} (h : CanRead beginHeader p todo) (ht : t ≠ [])
    (hsize : p.expectSize ≤ t.length) (hu : t ++ u = stream beginHeader todo) :
    (∃ fields todo' rest p' view, todo = fields :: todo' ∧ t = wire beginHeader fields ++ rest ∧
      p.parse ⟨t, []⟩ .fullMessage = (p', view, .used (wire beginHeader fields).length) ∧
      Ready beginHeader p'.clear todo' []) ∨
    (∃ p', p.parse ⟨t, []⟩ .fullMessage = (p', ⟨t, []⟩, .needsMore) ∧ Ready beginHeader p' todo t) := by
  cases todo with
  | nil =>
    have hnil : t ++ u = [] := hu
    exact absurd (append_eq_nil_iff.mp hnil).1 ht
  | cons fields todo =>
    have hlt : (wire beginHeader fields).length < 2 ^ 16 := h.size_lt fields (by simp)
    have hu' : t ++ u = wire beginHeader fields ++ stream beginHeader todo := hu
    have htotal : t.length + u.length =
        (wire beginHeader fields).length + (stream beginHeader todo).length := by
      rw [← length_append, hu', length_append]
    have hall : (stream beginHeader (fields :: todo)).length =
        (wire beginHeader fields).length + (stream beginHeader todo).length := by
      rw [← length_append]
      rfl
    by_cases hfew : p.expectHeader = [] ∧ t.length ≤ kFixMinHeaderWidth + kFixTailWidth
    · -- too little to look for the header in
      right
      have hlong := h.stream_long hfew.1 (by simp)
      refine ⟨{ p with expectSize := kFixMinHeaderWidth + kFixTailWidth + 1 }, ?_,
        ⟨⟨h.counted, h.header, h.stream_long, h.header_short, h.parseable, h.size_lt⟩,
          fun h0 => absurd h0 ht, fun _ => Nat.lt_succ_of_le hfew.2, hlong⟩⟩
      exact parse_few hfew.1 hfew.2 hsize
    by_cases hwhole : wire beginHeader fields <+: t
    · -- the whole first message is there
      left
      obtain ⟨rest, rfl⟩ := hwhole
      obtain ⟨p', hparse, hstored, hheader⟩ := parse_message rest [] h.counted
        (h.parseable fields (by simp)) (show (wire beginHeader fields).length < 2 ^ 32 by omega) h.header
        (fun h0 => not_le.mp fun hle => hfew ⟨h0, hle⟩) hsize
      exact ⟨fields, todo, rest, p', _, rfl, rfl, hparse, h.next hstored hheader⟩
    · right
      have hcut : t <+: wire beginHeader fields := by
        obtain hp | hp := prefix_or_prefix_of_prefix (⟨u, hu'⟩ : t <+: _) (prefix_append _ _)
        · exact hp
        · exact absurd hp hwhole
      obtain ⟨suf, hsuf⟩ := hcut
      have hne : suf ≠ [] := by
        rintro rfl
        exact hwhole ⟨[], by simpa using hsuf.symm⟩
      have hbody : (fieldsText fields).length ≤ kFixMaxBodyLength := by
        have hlen : (wire beginHeader fields).length = _ :=
          length_message beginHeader (fieldsText fields)
        simp only [kFixMaxBodyLength]
        omega
      obtain ⟨p', hparse, hw⟩ := parse_needsMore [] hsuf hne h.header (fun h0 => h.header_short h0 _ rfl)
        (show (wire beginHeader fields).length < 2 ^ 32 by omega) hbody
      have hshort := hw.short hlt
      refine ⟨p', hparse, ⟨?_, hw.headerFor, fun h0 => h.stream_long (hw.known h0),
        fun h0 => h.header_short (hw.known h0), h.parseable, h.size_lt⟩, fun h0 => absurd h0 ht,
        fun _ => hshort, ?_⟩
      · intro tag htag
        rw [hw.fieldArray]
        exact h.counted tag (hw.fieldList ▸ htag)
      · obtain hr | hr | ⟨h0, hr⟩ := hw.reachable
        · omega
        · exact hr.trans (by rw [hall]; exact Nat.le_add_right _ _)
        · rw [hr]
          exact h.stream_long h0 (by simp)

/-- What a run over the beginning `t` of a stream leaves: the messages `done` have been
handed over, and what is left is in `RxBuf_` behind what was there before. -/
structure Streamed (beginHeader : Bytes) (s s' : FixFeeder) (todo : List (List (ℕ × Bytes)))
    (t : Bytes) (done todo' : List (List (ℕ × Bytes))) (left : Bytes) : Prop where
  split : todo = done ++ todo'
  text : t = stream beginHeader done ++ left
  parsed : s'.parsed = s.parsed ++ done.map (wire beginHeader)
  ready : Ready beginHeader s'.fixParser todo' left

theorem Streamed.nil {s : FixFeeder} (h : CanRead beginHeader s.fixParser todo)
    (hsize : s.fixParser.expectSize ≤ 0) : Streamed beginHeader s s todo [] [] todo [] :=
  ⟨rfl, rfl, by simp, h, fun _ => Nat.le_zero.mp hsize, fun h0 => absurd rfl h0,
    hsize.trans (Nat.zero_le _)⟩

/-- `OnFixStreamReceived` on the beginning of a stream. -/
theorem streamLoop_streamed (inRxBuf : Bool) (fuel : ℕ) (s : FixFeeder) (t u : Bytes)
    (h : CanRead beginHeader s.fixParser todo) (hfuel : t.length ≤ fuel)
    (hsize : s.fixParser.expectSize ≤ t.length) (hu : t ++ u = stream beginHeader todo)
    (hbuf : inRxBuf = true → t <:+ s.rxBuf) :
    ∃ done todo' left, Streamed beginHeader s (streamLoop inRxBuf fuel s t).1 todo t done todo' left ∧
      (streamLoop inRxBuf fuel s t).2 = (if left = [] then .parseEnd else .needsMore) ∧
      (streamLoop inRxBuf fuel s t).1.rxBuf =
        if left = [] then s.rxBuf else if inRxBuf then left else s.rxBuf ++ left := by
  induction fuel generalizing s t todo with
  | zero =>
    have ht : t = [] := length_eq_zero_iff.mp (Nat.le_zero.mp hfuel)
    subst ht
    exact ⟨[], todo, [], .nil h hsize, rfl, rfl⟩
  | succ fuel ih =>
    by_cases ht : t = []
    · subst ht
      exact ⟨[], todo, [], .nil h hsize, rfl, rfl⟩
    rw [streamLoop, if_neg ht]
    obtain ⟨fields, todo', rest, p', view, rfl, rfl, hparse, hready⟩ | ⟨p', hparse, hready⟩ :=
      parse_stream h ht hsize hu
    · -- a message is handed over, and the loop goes on behind it
      simp only [hparse, take_left, drop_left]
      have hpos := length_pos_iff.mpr (wire_ne_nil beginHeader fields)
      have hrest : rest ++ u = stream beginHeader todo' := by
        apply (append_right_inj (wire beginHeader fields)).mp
        rw [← append_assoc, hu]
        rfl
      have hlen : rest.length ≤ fuel := by
        rw [length_append] at hfuel
        omega
      obtain ⟨done, todo'', left, hs, hres, hrx⟩ := ih
        { s with fixParser := p'.clear, parsed := s.parsed ++ [wire beginHeader fields] } rest
        hready.toCanRead hlen ((hready.empty rfl).trans_le (Nat.zero_le _)) hrest
        (fun hb => (suffix_append _ _).trans (hbuf hb))
      refine ⟨fields :: done, todo'', left, ⟨?_, ?_, ?_, hs.ready⟩, hres, hrx⟩
      · rw [hs.split, cons_append]
      · rw [hs.text, ← append_assoc]
        rfl
      · rw [hs.parsed, map_cons, append_assoc]
        rfl
    · simp only [hparse]
      refine ⟨[], todo, t, ⟨rfl, rfl, by simp, hready⟩, by rw [if_neg ht], ?_⟩
      rw [if_neg ht]
      cases inRxBuf with
      | false => rfl
      | true =>
        obtain ⟨front, hfront⟩ := hbuf rfl
        show s.rxBuf.drop (s.rxBuf.length - t.length) = t
        rw [← hfront, drop_left' (by rw [length_append]; omega)]

/-- The feeder between two blocks: what is in `RxBuf_` is what is left of the stream. -/
theorem Streamed.trans {s s' s'' : FixFeeder} {t t' left left' : Bytes}
    {todo' todo'' done done' : List (List (ℕ × Bytes))}
    (h : Streamed beginHeader s s' todo t done todo' left)
    (h' : Streamed beginHeader s' s'' todo' (left ++ t') done' todo'' left') :
    Streamed beginHeader s s'' todo (t ++ t') (done ++ done') todo'' left' := by
  refine ⟨by rw [h.split, h'.split, append_assoc], ?_, ?_, h'.ready⟩
  · rw [h.text, append_assoc, h'.text, stream_append, append_assoc]
  · rw [h'.parsed, h.parsed, map_append, append_assoc]

/-- The result after a block, and the state between two blocks. -/
structure Fed (beginHeader : Bytes) (s : FixFeeder) (r : FixFeeder × Result)
    (todo : List (List (ℕ × Bytes))) (t : Bytes) (done todo' : List (List (ℕ × Bytes))) : Prop where
  streamed : Streamed beginHeader s r.1 todo t done todo' r.1.rxBuf
  ok : r.2.isError = false

/-- A block that is parsed in place. -/
theorem onFixStreamReceived_fed (s : FixFeeder) (t u : Bytes)
    (h : CanRead beginHeader s.fixParser todo) (hrx : s.rxBuf = [])
    (hsize : s.fixParser.expectSize ≤ t.length) (hu : t ++ u = stream beginHeader todo) :
    ∃ done todo', Fed beginHeader s (s.onFixStreamReceived false t) todo t done todo' := by
  obtain ⟨done, todo', left, hs, hres, hrx'⟩ :=
    streamLoop_streamed false t.length s t u h (le_refl _) hsize hu (by simp)
  have hleft : (s.onFixStreamReceived false t).1.rxBuf = left := by
    rw [onFixStreamReceived, hrx', hrx]
    split
    case isTrue h0 => exact h0.symm
    case isFalse => rfl
  refine ⟨done, todo', hleft ▸ hs, ?_⟩
  rw [onFixStreamReceived, hres]
  split <;> rfl

/-- `RxBuf_` filled up to the size that the parser expects. -/
theorem onFixStreamReceived_rxBuf (s : FixFeeder) (u : Bytes)
    (h : CanRead beginHeader s.fixParser todo) (hsize : s.fixParser.expectSize ≤ s.rxBuf.length)
    (hu : s.rxBuf ++ u = stream beginHeader todo) :
    ∃ done todo' left s', Streamed beginHeader s s' todo s.rxBuf done todo' left ∧
      ((s.onFixStreamReceived true s.rxBuf = (s', .parseEnd) ∧ left = []) ∨
        (s.onFixStreamReceived true s.rxBuf = (s', .needsMore) ∧ left ≠ [] ∧ s'.rxBuf = left)) := by
  obtain ⟨done, todo', left, hs, hres, hrx⟩ :=
    streamLoop_streamed true s.rxBuf.length s s.rxBuf u h (le_refl _) hsize hu
      (fun _ => suffix_refl _)
  refine ⟨done, todo', left, _, hs, ?_⟩
  by_cases hl : left = []
  · left
    rw [if_pos hl] at hres
    exact ⟨Prod.ext rfl hres, hl⟩
  · right
    rw [if_neg hl] at hres hrx
    exact ⟨Prod.ext rfl hres, hl, hrx⟩

/-- The do loop of `FeedBuffer`. -/
theorem fillLoop_fed (fuel : ℕ) (s : FixFeeder) (blk u : Bytes)
    (h : Ready beginHeader s.fixParser todo s.rxBuf) (hrx : s.rxBuf ≠ []) (hblk : blk ≠ [])
    (hfuel : blk.length ≤ fuel) (hu : s.rxBuf ++ blk ++ u = stream beginHeader todo) :
    ∃ done todo', Fed beginHeader s (fillLoop fuel s blk) todo (s.rxBuf ++ blk) done todo' := by
  induction fuel generalizing s blk todo with
  | zero => exact absurd (length_eq_zero_iff.mp (Nat.le_zero.mp hfuel)) hblk
  | succ fuel ih =>
    have hshort := h.short hrx
    have hexp : s.fillSize = s.fixParser.expectSize := if_neg (by omega)
    have hpos := length_pos_iff.mpr hblk
    rw [fillLoop, hexp]
    by_cases hall : blk.length < s.fixParser.expectSize - s.rxBuf.length
    · -- the block does not fill it up
      simp only [if_neg (show ¬ s.fixParser.expectSize < s.rxBuf.length by omega),
        min_eq_right hall.le, take_length]
      have hlen : (s.rxBuf ++ blk).length < s.fixParser.expectSize := by
        rw [length_append]
        omega
      rw [if_pos hlen]
      refine ⟨[], todo, ⟨⟨rfl, rfl, by simp, h.toCanRead, fun h0 => ?_, fun _ => hlen, h.reachable⟩, rfl⟩⟩
      exact absurd (append_eq_nil_iff.mp h0).2 hblk
    · simp only [if_neg (show ¬ s.fixParser.expectSize < s.rxBuf.length by omega),
        min_eq_left (not_lt.mp hall)]
      generalize hn : s.fixParser.expectSize - s.rxBuf.length = n at *
      have hlen : (s.rxBuf ++ blk.take n).length = s.fixParser.expectSize := by
        rw [length_append, length_take]
        omega
      rw [if_neg (by omega)]
      have hu' : s.rxBuf ++ blk.take n ++ (blk.drop n ++ u) = stream beginHeader todo := by
        rw [← hu, ← append_assoc, append_assoc s.rxBuf, take_append_drop]
      have htext : s.rxBuf ++ blk = s.rxBuf ++ blk.take n ++ blk.drop n := by
        rw [append_assoc, take_append_drop]
      obtain ⟨done, todo', left, s', hs, hrun⟩ := onFixStreamReceived_rxBuf
        { s with rxBuf := s.rxBuf ++ blk.take n } (blk.drop n ++ u) h.toCanRead hlen.ge hu'
      have hs1 : Streamed beginHeader s s' todo (s.rxBuf ++ blk.take n) done todo' left :=
        ⟨hs.split, hs.text, hs.parsed, hs.ready⟩
      have hrest : left ++ blk.drop n ++ u = stream beginHeader todo' := by
        apply (append_right_inj (stream beginHeader done)).mp
        rw [← stream_append, ← hs.split, ← hu', hs1.text]
        simp only [append_assoc]
      rw [htext]
      obtain ⟨hrun, rfl⟩ | ⟨hrun, hl, hleft⟩ := hrun
      · -- it is parsed completely, and the rest of the block in place
        simp only [hrun, Result.parseEnd]
        have hs2 : Streamed beginHeader s { s' with rxBuf := [] } todo (s.rxBuf ++ blk.take n) done todo' [] :=
          ⟨hs.split, hs.text, hs.parsed, hs.ready⟩
        by_cases hd : blk.drop n = []
        · rw [if_pos hd, hd, append_nil]
          exact ⟨done, todo', hs2, rfl⟩
        · rw [if_neg hd]
          obtain ⟨done', todo'', hfed⟩ := onFixStreamReceived_fed { s' with rxBuf := [] } (blk.drop n) u
            hs.ready.toCanRead rfl ((hs.ready.empty rfl).trans_le (Nat.zero_le _)) hrest
          exact ⟨done ++ done', todo'', hs2.trans hfed.streamed, hfed.ok⟩
      · -- a part of a message is left, and the loop goes on
        simp only [hrun]
        subst hleft
        by_cases hd : blk.drop n = []
        · rw [if_pos hd, hd, append_nil]
          exact ⟨done, todo', hs1, rfl⟩
        · rw [if_neg hd]
          have hfuel' : (blk.drop n).length ≤ fuel := by
            rw [length_drop]
            omega
          obtain ⟨done', todo'', hfed⟩ := ih s' (blk.drop n) hs.ready hl hd hfuel' hrest
          exact ⟨done ++ done', todo'', hs1.trans hfed.streamed, hfed.ok⟩

/-- `FeedBuffer` on a block. -/
theorem feedBlock_fed (s : FixFeeder) (blk u : Bytes)
    (h : Ready beginHeader s.fixParser todo s.rxBuf) (hblk : blk ≠ [])
    (hu : s.rxBuf ++ blk ++ u = stream beginHeader todo) :
    ∃ done todo', Fed beginHeader s (s.feedBlock blk) todo (s.rxBuf ++ blk) done todo' := by
  unfold feedBlock
  by_cases hrx : s.rxBuf = []
  · rw [if_pos hrx]
    rw [hrx, nil_append] at hu ⊢
    exact onFixStreamReceived_fed s blk u h.toCanRead hrx
      ((h.empty hrx).trans_le (Nat.zero_le _)) hu
  · rw [if_neg hrx]
    exact fillLoop_fed _ s blk u h hrx hblk (le_refl _) hu

/-- `FeedBuffer` on a queue of nodes. -/
theorem feedBuffer_fed (nodes : List Bytes) (s : FixFeeder) (u : Bytes)
    (h : Ready beginHeader s.fixParser todo s.rxBuf)
    (hu : s.rxBuf ++ nodes.flatten ++ u = stream beginHeader todo) :
    ∃ done todo' s', s.feedBuffer nodes = (s', [], .parseEnd) ∧
      Streamed beginHeader s s' todo (s.rxBuf ++ nodes.flatten) done todo' s'.rxBuf := by
  induction nodes generalizing s todo with
  | nil => exact ⟨[], todo, s, rfl, rfl, by simp [stream], by simp, h⟩
  | cons blk nodes ih =>
    rw [feedBuffer]
    by_cases hblk : blk = []
    · rw [if_pos hblk]
      subst hblk
      exact ih s h hu
    · rw [if_neg hblk]
      have hu' : s.rxBuf ++ blk ++ (nodes.flatten ++ u) = stream beginHeader todo := by
        rw [← hu, flatten_cons]
        simp only [append_assoc]
      obtain ⟨done, todo', hfed⟩ := feedBlock_fed s blk _ h hblk hu'
      generalize s.feedBlock blk = r at hfed
      obtain ⟨s1, res⟩ := r
      have hs := hfed.streamed
      have hok : res.isError = false := hfed.ok
      have hrest : s1.rxBuf ++ nodes.flatten ++ u = stream beginHeader todo' := by
        apply (append_right_inj (stream beginHeader done)).mp
        rw [← stream_append, ← hs.split, ← hu', hs.text]
        simp only [append_assoc]
      obtain ⟨done', todo'', s2, hrun, hs'⟩ := ih s1 hs.ready hrest
      refine ⟨done ++ done', todo'', s2, ?_, ?_⟩
      · simp only [hok]
        exact hrun
      · have htrans := hs.trans hs'
        rwa [flatten_cons, ← append_assoc]

theorem feedChunks_streamed (chunks : List (List Bytes)) (s : FixFeeder) (u : Bytes)
    (h : Ready beginHeader s.fixParser todo s.rxBuf)
    (hu : s.rxBuf ++ chunks.flatten.flatten ++ u = stream beginHeader todo) :
    ∃ done todo' s', s.feedChunks chunks = (s', .parseEnd) ∧
      Streamed beginHeader s s' todo (s.rxBuf ++ chunks.flatten.flatten) done todo' s'.rxBuf := by
  induction chunks generalizing s todo with
  | nil => exact ⟨[], todo, s, rfl, rfl, by simp [stream], by simp, h⟩
  | cons chunk chunks ih =>
    have hu' : s.rxBuf ++ chunk.flatten ++ (chunks.flatten.flatten ++ u) = stream beginHeader todo := by
      rw [← hu, flatten_cons, flatten_append]
      simp only [append_assoc]
    obtain ⟨done, todo', s1, hfeed, hs⟩ := feedBuffer_fed chunk s _ h hu'
    have hrest : s1.rxBuf ++ chunks.flatten.flatten ++ u = stream beginHeader todo' := by
      apply (append_right_inj (stream beginHeader done)).mp
      rw [← stream_append, ← hs.split, ← hu', hs.text]
      simp only [append_assoc]
    obtain ⟨done', todo'', s2, hrun, hs'⟩ := ih s1 hs.ready hrest
    refine ⟨done ++ done', todo'', s2, ?_, ?_⟩
    · simp only [feedChunks, hfeed]
      exact hrun
    · have htrans := hs.trans hs'
      rwa [flatten_cons, flatten_append, ← append_assoc]

/-- However a stream of messages is cut into chunks and blocks, each message is handed
over once, in order and as it is, and nothing is left in `RxBuf_`. -/
theorem feedChunks_stream (s : FixFeeder) (beginHeader : Bytes) (todo : List (List (ℕ × Bytes)))
    (hrx : s.rxBuf = []) (hsize : s.fixParser.expectSize = 0)
    (h : CanRead beginHeader s.fixParser todo) (chunks : List (List Bytes))
    (hchunks : chunks.flatten.flatten = stream beginHeader todo) :
    ∃ s', s.feedChunks chunks = (s', .parseEnd) ∧
      s'.parsed = s.parsed ++ todo.map (wire beginHeader) ∧ s'.rxBuf = [] := by
  have hready : Ready beginHeader s.fixParser todo s.rxBuf :=
    ⟨h, fun _ => hsize, fun h0 => absurd hrx h0, by rw [hsize]; exact Nat.zero_le _⟩
  obtain ⟨done, todo', s', hfeed, hs⟩ := feedChunks_streamed chunks s [] hready
    (by rw [hrx, List.nil_append, List.append_nil, hchunks])
  have hrest : s'.rxBuf = stream beginHeader todo' := by
    apply (List.append_right_inj (stream beginHeader done)).mp
    rw [← stream_append, ← hs.split, ← hchunks, ← hs.text, hrx, List.nil_append]
  have hempty : s'.rxBuf = [] := by
    by_contra hne
    have hshort := hs.ready.short hne
    have hreach := hs.ready.reachable
    rw [← hrest] at hreach
    omega
  have hdone : todo' = [] := by
    rw [hempty] at hrest
    cases todo' with
    | nil => rfl
    | cons fields todo' =>
      have : wire beginHeader fields = [] :=
        (List.append_eq_nil_iff.mp (show wire beginHeader fields ++ stream beginHeader todo' = [] from
          hrest.symm)).1
      exact absurd this (wire_ne_nil beginHeader fields)
  refine ⟨s', hfeed, ?_, hempty⟩
  rw [hs.parsed, hs.split, hdone, List.append_nil]

/-- Two test requests, cut inside the header, the body length and the second body. -/
theorem feedChunks_stream_testRequests :
    let todo : List (List (ℕ × Bytes)) := [[(35, [ch '1']), (58, [ch 'H', ch 'i'])],
      [(35, [ch '1']), (58, [ch 'H', ch 'o'])]]
    let text := stream kBeginHeaderV44 todo
    ∃ s', ({} : FixFeeder).feedChunks [[text.take 5, (text.drop 5).take 8],
        [(text.drop 13).take 40], [text.drop 53]] = (s', .parseEnd) ∧
      s'.parsed = [] ++ todo.map (wire kBeginHeaderV44) ∧ s'.rxBuf = [] := by
  refine feedChunks_stream {} kBeginHeaderV44 _ rfl rfl ⟨fun _ _ => rfl,
    .inr ⟨rfl, isBeginHeader_V44⟩, fun _ _ => by decide, fun _ => by decide, ?_, by decide⟩ _ (by decide)
  intro fields hf
  simp only [List.mem_cons, List.not_mem_nil, or_false] at hf
  rcases hf with rfl | rfl
  · exact .of_plain (by decide) (by decide)
  · exact .of_plain (by decide) (by decide)

/-- Messages of two versions: the parser keeps the header of the first, and the second
is an error. -/
theorem feedChunks_two_versions :
    ¬ ∀ (msgs : List (Bytes × List (ℕ × Bytes)))
      (_ : ∀ m ∈ msgs, IsBeginHeader m.1 ∧ Parseable m.2 ∧ (wire m.1 m.2).length < 2 ^ 16 ∧
        kFixMinHeaderWidth + kFixTailWidth < (wire m.1 m.2).length)
      (chunks : List (List Bytes))
      (_ : chunks.flatten.flatten = (msgs.map fun m => wire m.1 m.2).flatten),
      ∃ s', ({} : FixFeeder).feedChunks chunks = (s', .parseEnd) ∧
        s'.parsed = (msgs.map fun m => wire m.1 m.2) ∧ s'.rxBuf = [] := by
  intro h
  have hplain : Parseable [(35, [ch '1']), (58, [ch 'H', ch 'i'])] := .of_plain (by decide) (by decide)
  obtain ⟨s', hfeed, -⟩ := h [(kBeginHeaderV44, [(35, [ch '1']), (58, [ch 'H', ch 'i'])]),
      (kBeginHeaderV42, [(35, [ch '1']), (58, [ch 'H', ch 'i'])])]
    (by
      intro m hm
      simp only [List.mem_cons, List.not_mem_nil, or_false] at hm
      rcases hm with rfl | rfl
      · exact ⟨isBeginHeader_V44, hplain, by decide, by decide⟩
      · exact ⟨isBeginHeader_V42, hplain, by decide, by decide⟩)
    [[wire kBeginHeaderV44 [(35, [ch '1']), (58, [ch 'H', ch 'i'])] ++
      wire kBeginHeaderV42 [(35, [ch '1']), (58, [ch 'H', ch 'i'])]]] (by decide)
  have hres : (({} : FixFeeder).feedChunks
      [[wire kBeginHeaderV44 [(35, [ch '1']), (58, [ch 'H', ch 'i'])] ++
        wire kBeginHeaderV42 [(35, [ch '1']), (58, [ch 'H', ch 'i'])]]]).2 = .parseEnd := by
    rw [hfeed]
  revert hres
  decide +kernel

end FixFeeder

end Fon9.Fix
