import Fon9.Fix.RoundTrip

/-! A replay: a message that was sent is rebuilt with the time it is sent again, the mark of a possible
duplicate and the time it was first sent. The rebuilt message is written into a buffer that is allocated for it. -/

namespace Fon9.Fix

open Lib List

def kTagOrigSendingTime : ℕ := 122

/-- The width of "yyyymmdd-hh:mm:ss.nnn". -/
def kDateTimeStrWidthFixMs : ℕ := 21

/-- The width of "yyyymmdd-hh:mm:ss.nnn|43=Y|122=". -/
def kReFldsWidth : ℕ := kDateTimeStrWidthFixMs + 10

/-- The size of the buffer that sent messages are read back into. -/
def kReloadBufferSize : ℕ := 1024 * 64 + 1024

/-- `ReFlds_`, with the time of the replay. -/
def reFlds (now : Bytes) : Bytes :=
  now ++ fieldText (kTagPossDupFlag, [ch 'Y']) ++ (kCharSpl :: uintToStr kTagOrigSendingTime ++ [ch '='])

/-- The fields that a replay looks for. -/
structure ReloadFields where
  msgType : Option ℕ := none
  sendingTime : Option ℕ := none

/-- The first value of a field counts. -/
def ReloadFields.add (flds : ReloadFields) (tag pos : ℕ) : ReloadFields where
  msgType := if tag = kTagMsgType then flds.msgType <|> some pos else flds.msgType
  sendingTime := if tag = kTagSendingTime then flds.sendingTime <|> some pos else flds.sendingTime

/-- The fields that `ParseFields` has to find for a replay. -/
def reloadUntil : Until := ⟨true, true, true⟩

/-- `ParseFields` in the replay, with the positions at which the values begin: `total` is the length of the
whole text. -/
def reloadLoop (total : ℕ) : ℕ → FixParser → StrView → Until → ReloadFields → Result × ReloadFields
  | 0, _, _, _, flds => (.parseEnd, flds)
  | fuel + 1, p, fixmsg, u, flds =>
    if fixmsg.text = [] then (.parseEnd, flds)
    else
      let pos := total - ((strToUInt uint32Max fixmsg.text 0).2.drop 1).length
      match p.parseField fixmsg with
      | (_, _, .error e) => (e, flds)
      | (p, fixmsg, .ok tag) =>
        if u.remove tag = .fullMessage then (.parseEnd, flds.add tag pos)
        else reloadLoop total fuel p fixmsg (u.remove tag) (flds.add tag pos)

/-- The buffer of a rebuilt message. -/
structure Rebuilt where
  /-- The bytes asked of `AllocSuffix`. -/
  allocated : ℕ
  /-- The bytes put there, with the end of the line in the log. -/
  written : Bytes

/-- What is sent. -/
def Rebuilt.sent (r : Rebuilt) : Bytes := r.written.dropLast

/-- `Rebuild`, with the positions of the values of MsgType and SendingTime; none where they are in the wrong order. -/
def rebuild (beginHeader flds curMsg : Bytes) (msgType sendingTime : ℕ) : Option Rebuilt :=
  let pfldMsgType := msgType - 4
  if pfldMsgType ≥ sendingTime then none
  else
    let pendCurMsg := curMsg.length
    let bodyLength := pendCurMsg - pfldMsgType - kFixTailWidth + kReFldsWidth
    let out := beginHeader ++ uintToStr bodyLength ++ (curMsg.take sendingTime).drop pfldMsgType ++ flds ++
      (curMsg.take (pendCurMsg - kFixTailWidth)).drop sendingTime
    let cks := FixBuilder.sumBytes kCharSpl out
    some ⟨curMsg.length + kReFldsWidth, out ++ checkSumField cks ++ [ch '\n']⟩

/-- A turn of `Reload` for a message that is to be replayed. -/
def FixParser.replay (p : FixParser) (beginHeader now curMsg : Bytes) : Option Rebuilt :=
  match reloadLoop curMsg.length curMsg.length p.clear ⟨curMsg, []⟩ reloadUntil {} with
  | (res, ⟨some msgType, some sendingTime⟩) =>
    if res.isError then none else rebuild beginHeader (reFlds now) curMsg msgType sendingTime
  | _ => none

/-- A message that was sent: MsgType, MsgSeqNum and SendingTime come first, in this order. It is no longer than
the buffer that it is read back into. -/
structure SentMessage where
  version : Bytes
  msgType : Bytes
  seqNum : UInt32
  sendingTime : Bytes
  rest : List (ℕ × Bytes)
  version_plain : kCharSpl ∉ version
  msgType_plain : kCharSpl ∉ msgType
  sendingTime_plain : kCharSpl ∉ sendingTime
  short : (message (kBeginHeader version) (fieldsText ((kTagMsgType, msgType) ::
    (kTagMsgSeqNum, uintToStr seqNum.toNat) :: (kTagSendingTime, sendingTime) :: rest))).length ≤ kReloadBufferSize

namespace SentMessage

variable (m : SentMessage)

def fields : List (ℕ × Bytes) :=
  (kTagMsgType, m.msgType) :: (kTagMsgSeqNum, uintToStr m.seqNum.toNat) :: (kTagSendingTime, m.sendingTime) :: m.rest

def text : Bytes := message (kBeginHeader m.version) (fieldsText m.fields)

/-- The fields of the replay. -/
def replayFields (now : Bytes) : List (ℕ × Bytes) :=
  (kTagMsgType, m.msgType) :: (kTagMsgSeqNum, uintToStr m.seqNum.toNat) :: (kTagSendingTime, now) ::
    (kTagPossDupFlag, [ch 'Y']) :: (kTagOrigSendingTime, m.sendingTime) :: m.rest

end SentMessage

/-! ### The fields are found -/

variable {p : FixParser} {tag fuel total : ℕ} {value rest after : Bytes} {u : Until} {flds : ReloadFields}

/-- A field that the parser takes up to the next separator. -/
structure PlainField (tag : ℕ) (value : Bytes) : Prop where
  tag_pos : tag ≠ 0
  tag_le : tag ≤ uint32Max
  not_raw : tag ≠ kTagRawData
  plain : kCharSpl ∉ value

/-- No tag has more values than that. -/
def CountLe (p : FixParser) (k : ℕ) : Prop := ∀ t, (p.fieldArray t).valueCount ≤ k

theorem CountLe.store {k : ℕ} (h : CountLe p k) (tag : ℕ) (value : Bytes) : CountLe (p.store tag value) (k + 1) := by
  intro t
  rw [FixParser.store_fieldArray, Function.update_apply]
  split
  · exact Nat.succ_le_succ (h tag)
  · exact Nat.le_succ_of_le (h t)

theorem CountLe.mono {k k' : ℕ} (h : CountLe p k) (hle : k ≤ k') : CountLe p k' := fun t => (h t).trans hle

theorem parseField_plain (hf : PlainField tag value) (hcount : CountLe p kMaxDupFieldCount) :
    p.parseField ⟨uintToStr tag ++ ch '=' :: (value ++ kCharSpl :: rest), after⟩ =
      (p.store tag value, ⟨rest, after⟩, .ok tag) := by
  have hle : (p.fieldArray tag).valueCount ≤ kMaxDupFieldCount := hcount tag
  have hfetch : (p.nextSlot tag).fetchValue tag ⟨value ++ kCharSpl :: rest, after⟩ = .ok (value, rest) := by
    unfold FixParser.fetchValue
    rw [if_pos hf.not_raw]
    exact congrArg Except.ok (strFetchNoTrim_append value rest hf.plain)
  unfold FixParser.parseField
  rw [strToUInt_of_head hf.tag_le (by decide)]
  simp only [head?_cons, ne_eq, not_true_eq_false, or_false, if_neg hf.tag_pos, drop_succ_cons,
    drop_zero]
  rw [if_neg (by omega), hfetch]
  rfl

theorem reloadLoop_plain (hf : PlainField tag value) (hcount : CountLe p kMaxDupFieldCount) :
    reloadLoop total (fuel + 1) p ⟨uintToStr tag ++ ch '=' :: (value ++ kCharSpl :: rest), after⟩ u flds =
      if u.remove tag = .fullMessage then (.parseEnd, flds.add tag (total - (value ++ kCharSpl :: rest).length))
      else reloadLoop total fuel (p.store tag value) ⟨rest, after⟩ (u.remove tag)
        (flds.add tag (total - (value ++ kCharSpl :: rest).length)) := by
  have hne : uintToStr tag ++ ch '=' :: (value ++ kCharSpl :: rest) ≠ [] :=
    append_ne_nil_of_right_ne_nil _ (cons_ne_nil _ _)
  rw [reloadLoop, if_neg hne, parseField_plain hf hcount, strToUInt_of_head hf.tag_le (by decide)]
  simp only [drop_succ_cons, drop_zero]

theorem clear_countLe (hp : p.Counted) : CountLe p.clear 0 := by
  intro t
  have hstored := FixParser.clear_stored hp
  rw [hstored.count]
  exact le_rfl

/-- A message begins with the fields of its header. -/
theorem message_fields (version body : Bytes) : message (kBeginHeader version) body =
    uintToStr 8 ++ ch '=' :: (version ++ kCharSpl ::
      (uintToStr 9 ++ ch '=' :: (uintToStr body.length ++ (body ++ FixParser.messageTail (kBeginHeader version) body)))) := by
  rw [FixParser.message_eq]
  have h8 : uintToStr 8 = [ch '8'] := by decide
  have h9 : uintToStr 9 = [ch '9'] := by decide
  rw [h8, h9, kBeginHeader]
  simp only [append_assoc, cons_append, nil_append]

theorem plainField_uintToStr {n : ℕ} (hpos : tag ≠ 0) (hle : tag ≤ uint32Max) (hraw : tag ≠ kTagRawData) :
    PlainField tag (uintToStr n) where
  tag_pos := hpos
  tag_le := hle
  not_raw := hraw
  plain hmem := absurd (digval_le_of_mem_uintToStr hmem) (by decide)

variable (m : SentMessage)

/-- The text of a sent message behind the value of its SendingTime. -/
def SentMessage.behind : Bytes :=
  fieldsText m.rest ++ FixParser.messageTail (kBeginHeader m.version) (fieldsText m.fields)

theorem SentMessage.behind_cons : ∃ rest, m.behind = kCharSpl :: rest := by
  unfold SentMessage.behind
  rcases fieldsText_nil_or_cons m.rest with hnil | hcons
  · rw [hnil]
    exact ⟨_, rfl⟩
  · rw [hcons]
    exact ⟨_, rfl⟩

/-- The header and the body length of a sent message. -/
def SentMessage.front : Bytes := kBeginHeader m.version ++ uintToStr (fieldsText m.fields).length

/-- The fields before the value of SendingTime. -/
def SentMessage.first : Bytes :=
  fieldsText [(kTagMsgType, m.msgType), (kTagMsgSeqNum, uintToStr m.seqNum.toNat)] ++
    (kCharSpl :: (uintToStr kTagSendingTime ++ [ch '=']))

theorem SentMessage.text_eq : m.text = m.front ++ (m.first ++ (m.sendingTime ++ m.behind)) := by
  unfold SentMessage.text SentMessage.front SentMessage.first SentMessage.behind
  rw [FixParser.message_eq]
  generalize FixParser.messageTail (kBeginHeader m.version) (fieldsText m.fields) = tail
  generalize uintToStr (fieldsText m.fields).length = digits
  rw [SentMessage.fields, fieldsText_cons, fieldsText_cons, fieldsText_cons, fieldsText_cons, fieldsText_cons]
  simp only [fieldsText, map_nil, flatten_nil, append_assoc, cons_append, nil_append,
    append_nil]

/-- Where the values of MsgType and SendingTime begin. -/
theorem reloadLoop_sent (hp : p.Counted) :
    reloadLoop m.text.length m.text.length p.clear ⟨m.text, []⟩ reloadUntil {} =
      (.parseEnd, ⟨some (m.front.length + 4), some (m.front.length + m.first.length)⟩) := by
  obtain ⟨rest, hbehind⟩ := m.behind_cons
  have hwhole : m.text = uintToStr 8 ++ ch '=' :: (m.version ++ kCharSpl ::
      (uintToStr 9 ++ ch '=' :: (uintToStr (fieldsText m.fields).length ++ kCharSpl ::
        (uintToStr kTagMsgType ++ ch '=' :: (m.msgType ++ kCharSpl ::
          (uintToStr kTagMsgSeqNum ++ ch '=' :: (uintToStr m.seqNum.toNat ++ kCharSpl ::
            (uintToStr kTagSendingTime ++ ch '=' :: (m.sendingTime ++ kCharSpl :: rest))))))))) := by
    rw [← hbehind, SentMessage.text, message_fields, SentMessage.behind]
    generalize FixParser.messageTail (kBeginHeader m.version) (fieldsText m.fields) = tail
    generalize uintToStr (fieldsText m.fields).length = digits
    rw [SentMessage.fields, fieldsText_cons, fieldsText_cons, fieldsText_cons]
    simp only [append_assoc, cons_append]
  have htotal := congrArg length m.text_eq
  have hfuel : 5 ≤ m.text.length := by
    rw [hwhole]
    simp only [length_append, length_cons]
    omega
  have hcount := clear_countLe hp
  generalize m.text.length = total at htotal hfuel ⊢
  obtain ⟨fuel, rfl⟩ : ∃ fuel, total = fuel + 5 := ⟨total - 5, by omega⟩
  rw [hwhole, reloadLoop_plain ⟨by decide, by decide, by decide, m.version_plain⟩ (hcount.mono (by decide)),
    if_neg (by decide),
    reloadLoop_plain (plainField_uintToStr (by decide) (by decide) (by decide)) ((hcount.store _ _).mono (by decide)),
    if_neg (by decide),
    reloadLoop_plain ⟨by decide, by decide, by decide, m.msgType_plain⟩ (((hcount.store _ _).store _ _).mono (by decide)),
    if_neg (by decide),
    reloadLoop_plain (plainField_uintToStr (by decide) (by decide) (by decide))
      ((((hcount.store _ _).store _ _).store _ _).mono (by decide)), if_neg (by decide),
    reloadLoop_plain ⟨by decide, by decide, by decide, m.sendingTime_plain⟩
      (((((hcount.store _ _).store _ _).store _ _).store _ _).mono (by decide)), if_pos (by decide)]
  have hbehind' := congrArg length hbehind
  have h35 : (uintToStr kTagMsgType).length = 2 := by decide
  have hfirst : m.first.length = 1 + ((uintToStr kTagMsgType).length + 1 + m.msgType.length) +
      (1 + ((uintToStr kTagMsgSeqNum).length + 1 + (uintToStr m.seqNum.toNat).length)) +
      (1 + ((uintToStr kTagSendingTime).length + 1)) := by
    simp only [SentMessage.first, fieldsText, fieldText, map_cons, map_nil, flatten_cons,
      flatten_nil, length_append, length_cons, length_nil]
    omega
  simp only [length_append, length_cons] at htotal hbehind'
  have hmsgType : fuel + 5 - (m.msgType ++ kCharSpl :: (uintToStr kTagMsgSeqNum ++ ch '=' ::
      (uintToStr m.seqNum.toNat ++ kCharSpl :: (uintToStr kTagSendingTime ++ ch '=' ::
        (m.sendingTime ++ kCharSpl :: rest))))).length = m.front.length + 4 := by
    simp only [length_append, length_cons]
    omega
  have hsendingTime : fuel + 5 - (m.sendingTime ++ kCharSpl :: rest).length =
      m.front.length + m.first.length := by
    simp only [length_append, length_cons]
    omega
  rw [hmsgType, hsendingTime]
  rfl

/-! ### The rebuilt message -/

theorem SentMessage.length_text :
    m.text.length = m.front.length + (fieldsText m.fields).length + kFixTailWidth := by
  unfold SentMessage.text SentMessage.front
  rw [FixParser.length_message, length_append]

theorem SentMessage.fieldsText_fields :
    fieldsText m.fields = m.first ++ (m.sendingTime ++ fieldsText m.rest) := by
  rw [SentMessage.fields, fieldsText_cons, fieldsText_cons, fieldsText_cons, SentMessage.first, fieldsText_cons,
    fieldsText_cons]
  simp only [fieldsText, map_nil, flatten_nil, append_assoc, cons_append, nil_append,
    append_nil]

theorem SentMessage.fieldsText_replayFields (now : Bytes) :
    fieldsText (m.replayFields now) = m.first ++ (reFlds now ++ (m.sendingTime ++ fieldsText m.rest)) := by
  rw [SentMessage.replayFields, fieldsText_cons, fieldsText_cons, fieldsText_cons, fieldsText_cons, fieldsText_cons,
    SentMessage.first, fieldsText_cons, fieldsText_cons, reFlds, fieldText]
  simp only [fieldsText, map_nil, flatten_nil, append_assoc, cons_append, nil_append,
    append_nil]

variable {now : Bytes}

theorem length_reFlds (hnow : now.length = kDateTimeStrWidthFixMs) :
    (reFlds now).length = kReFldsWidth := by
  have h43 : (fieldText (kTagPossDupFlag, [ch 'Y'])).length = 5 := by decide
  have h122 : (kCharSpl :: uintToStr kTagOrigSendingTime ++ [ch '=']).length = 5 := by decide
  rw [reFlds, length_append, length_append, hnow, h43, h122]
  rfl

/-- The message that a replay writes. -/
def SentMessage.replayed (now : Bytes) : Bytes :=
  message (kBeginHeader m.version) (fieldsText (m.replayFields now))

theorem SentMessage.length_replayFields (hnow : now.length = kDateTimeStrWidthFixMs) :
    (fieldsText (m.replayFields now)).length = (fieldsText m.fields).length + kReFldsWidth := by
  have hlen := length_reFlds hnow
  rw [m.fieldsText_replayFields, m.fieldsText_fields]
  simp only [length_append]
  omega

theorem rebuild_sent (hnow : now.length = kDateTimeStrWidthFixMs) :
    rebuild (kBeginHeader m.version) (reFlds now) m.text (m.front.length + 4) (m.front.length + m.first.length) =
      some ⟨m.text.length + kReFldsWidth, m.replayed now ++ [ch '\n']⟩ := by
  have htext := m.text_eq
  have hlength := m.length_text
  have hfields := congrArg length m.fieldsText_fields
  simp only [length_append] at hfields
  have hfirst : 0 < m.first.length := by
    rw [SentMessage.first, length_append, length_cons]
    omega
  have hbefore : (m.text.take (m.front.length + m.first.length)).drop m.front.length = m.first := by
    rw [htext, ← append_assoc, take_left' (length_append), drop_left' rfl]
  have hafter : (m.text.take (m.text.length - kFixTailWidth)).drop (m.front.length + m.first.length) =
      m.sendingTime ++ fieldsText m.rest := by
    have hsplit : m.text = m.front ++ m.first ++ (m.sendingTime ++ fieldsText m.rest) ++
        FixParser.messageTail (kBeginHeader m.version) (fieldsText m.fields) := by
      rw [htext, SentMessage.behind]
      simp only [append_assoc]
    have hlen : m.text.length - kFixTailWidth = (m.front ++ m.first ++ (m.sendingTime ++ fieldsText m.rest)).length := by
      simp only [length_append]
      omega
    rw [hlen, hsplit, take_left' rfl, drop_left' (length_append)]
  have hbody : m.text.length - m.front.length - kFixTailWidth + kReFldsWidth =
      (fieldsText (m.replayFields now)).length := by
    rw [m.length_replayFields hnow]
    omega
  unfold rebuild
  rw [Nat.add_sub_cancel, if_neg (by omega)]
  simp only [hbefore, hafter, hbody]
  rw [SentMessage.replayed, message, m.fieldsText_replayFields]
  simp only [append_assoc]

/-- The replay of a sent message, and the room it takes: an end of line more than what is allocated for it,
and the digits by which the body length grows. -/
theorem replay_sent (hp : p.Counted) (hnow : now.length = kDateTimeStrWidthFixMs) :
    p.replay (kBeginHeader m.version) now m.text =
      some ⟨m.text.length + kReFldsWidth, m.replayed now ++ [ch '\n']⟩ := by
  rw [FixParser.replay, reloadLoop_sent m hp]
  exact rebuild_sent m hnow

theorem length_replayed (hnow : now.length = kDateTimeStrWidthFixMs) :
    (m.replayed now ++ [ch '\n']).length + (uintToStr (fieldsText m.fields).length).length =
      m.text.length + kReFldsWidth + 1 + (uintToStr ((fieldsText m.fields).length + kReFldsWidth)).length := by
  rw [length_append, SentMessage.replayed, SentMessage.text, FixParser.length_message, FixParser.length_message,
    m.length_replayFields hnow, length_singleton]
  omega

/-- The message is accepted whatever follows it, by a parser that reads messages of its version. -/
def Verifies (version msg : Bytes) : Prop :=
  ∀ (q : FixParser) (rest after : Bytes), q.HeaderFor (kBeginHeader version) → q.expectSize ≤ (msg ++ rest).length →
    ∃ view, q.verify ⟨msg ++ rest, after⟩ true true =
      ({ q with expectHeader := kBeginHeader version }, view, .used msg.length)

theorem replayed_verifies (hnow : now.length = kDateTimeStrWidthFixMs) :
    Verifies m.version (m.replayed now) := by
  intro q rest after hheader hsize
  have hlen := length_replayed m hnow
  have hdigits : (uintToStr ((fieldsText m.fields).length + kReFldsWidth)).length ≤ 10 := by
    refine length_uintToStr_le (by decide) ?_
    have hshort := m.short
    have htext := m.length_text
    have hbuffer : m.text.length ≤ kReloadBufferSize := hshort
    unfold kReloadBufferSize at hbuffer
    unfold kReFldsWidth kDateTimeStrWidthFixMs
    omega
  have hshort : m.text.length ≤ kReloadBufferSize := m.short
  rw [length_append, length_singleton] at hlen
  have hreplayed : (m.replayed now).length < 2 ^ 32 := by
    unfold kReloadBufferSize at hshort
    unfold kReFldsWidth kDateTimeStrWidthFixMs at hlen hdigits
    omega
  refine ⟨_, FixParser.verify_message rest after hreplayed hheader (fun _ => ?_) hsize⟩
  have hmono := length_uintToStr_mono (Nat.le_add_right (fieldsText m.fields).length kReFldsWidth)
  show kFixMinHeaderWidth + kFixTailWidth < (m.replayed now ++ rest).length
  rw [length_append]
  unfold kReFldsWidth kDateTimeStrWidthFixMs at hlen hmono
  unfold kFixMinHeaderWidth kFixTailWidth
  omega

/-- The replay of a sent message has its fields and the fields of a replay, verifies, and is written in the bytes
allocated for it. -/
def ReplayFits (p : FixParser) (m : SentMessage) (now : Bytes) : Prop :=
  ∃ r, p.replay (kBeginHeader m.version) now m.text = some r ∧ r.sent = m.replayed now ∧ Verifies m.version r.sent ∧
    r.written.length ≤ r.allocated

theorem replay_overruns (hp : p.Counted) (hnow : now.length = kDateTimeStrWidthFixMs) :
    ¬ ReplayFits p m now := by
  rintro ⟨r, hreplay, -, -, hfits⟩
  rw [replay_sent m hp hnow] at hreplay
  cases hreplay
  have hlen := length_replayed m hnow
  have hmono := length_uintToStr_mono (Nat.le_add_right (fieldsText m.fields).length kReFldsWidth)
  dsimp only at hfits
  omega

/-- The replay of every sent message is the message with the fields of a replay, and verifies; what is written of it
is longer than what is allocated, by the end of the line and the digits by which the body length grows. -/
theorem replay_never_fits (m : SentMessage) (hp : p.Counted) {now : Bytes}
    (hnow : now.length = kDateTimeStrWidthFixMs) :
    ¬ ReplayFits p m now ∧
      ∃ r, p.replay (kBeginHeader m.version) now m.text = some r ∧ r.sent = m.replayed now ∧
        Verifies m.version r.sent ∧
        r.written.length + (uintToStr (fieldsText m.fields).length).length =
          r.allocated + 1 + (uintToStr ((fieldsText m.fields).length + kReFldsWidth)).length := by
  refine ⟨replay_overruns m hp hnow, _, replay_sent m hp hnow, ?_, ?_, length_replayed m hnow⟩
  · exact List.dropLast_concat
  · rw [Rebuilt.sent, List.dropLast_concat]
    exact replayed_verifies m hnow

/-- A heartbeat. -/
def heartbeat : SentMessage where
  version := [ch 'F', ch 'I', ch 'X', ch '.', ch '4', ch '.', ch '2']
  msgType := [ch '0']
  seqNum := 1
  sendingTime := List.replicate 21 (ch '0')
  rest := []
  version_plain := by decide
  msgType_plain := by decide
  sendingTime_plain := by decide
  short := by decide +kernel

theorem replay_heartbeat_overruns : ¬ ReplayFits {} heartbeat (List.replicate 21 (ch '1')) :=
  replay_overruns heartbeat (fun _ _ => rfl) rfl

theorem replay_never_fits_heartbeat :
    ¬ ReplayFits {} heartbeat (List.replicate 21 (ch '1')) ∧
      ∃ r, ({} : FixParser).replay (kBeginHeader heartbeat.version) (List.replicate 21 (ch '1')) heartbeat.text = some r ∧
        r.sent = heartbeat.replayed (List.replicate 21 (ch '1')) ∧ Verifies heartbeat.version r.sent ∧
        r.written.length + (uintToStr (fieldsText heartbeat.fields).length).length =
          r.allocated + 1 + (uintToStr ((fieldsText heartbeat.fields).length + kReFldsWidth)).length :=
  replay_never_fits heartbeat (fun _ _ => rfl) rfl

end Fon9.Fix
