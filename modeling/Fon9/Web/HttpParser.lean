import Fon9.StrTools.Normalize

/-! The chunked part of `HttpParser`: the line with the size of a chunk, the chunk, and what
follows the last one. Of `HttpMessage` the fields that it uses; positions in the message do
not overflow, as `StrVref` asserts. -/

namespace Fon9.Web

open Lib StrTools

def kHttpMaxChunkLineLength : ℕ := 64
def kHttpMaxChunkedSize : ℕ := 1024 * 1024 * 8

inductive HttpResult
  | headerTooLarge
  | badChunked
  | chunkSizeTooLarge
  | chunkSizeLineTooLong
  | incomplete
  | fullMessage
  | chunkAppended
  deriving DecidableEq

structure StrVref where
  pos : ℕ := 0
  size : ℕ := 0
  deriving DecidableEq

def StrVref.endPos (v : StrVref) : ℕ := v.pos + v.size

structure HttpMessage where
  origStr : Bytes := []
  body : StrVref := {}
  nextChunkSize : ℕ := 0
  currChunkFrom : ℕ := 0
  chunkExt : Bytes := []
  chunkTrailer : StrVref := {}
  deriving DecidableEq

/-- The digit loop of `HexStrTo`, with a `uintmax_t` of 64 bits: the value and the text from the
first other character on. -/
def hexStrToLoop : ℕ → Bytes → ℕ × Bytes
  | value, [] => (value, [])
  | value, c :: cs =>
    let i := alpha2Hex c
    if 0x7f < i then (value, c :: cs) else hexStrToLoop (u64 (value <<< 4) ||| i.toNat) cs

/-- `HexStrTo`: the number and the text behind it. -/
def hexStrTo (hexstr : Bytes) (null : ℕ) : ℕ × Bytes :=
  let hexstr := hexstr.dropWhile isspace
  let hexstr := if hexstr.head? = some (ch 'x') ∨ hexstr.head? = some (ch 'X') then hexstr.tail else hexstr
  let r := hexStrToLoop 0 hexstr
  (if r.2.length = hexstr.length then null else r.1, r.2)

def cr : UInt8 := 0x0d
def lf : UInt8 := 0x0a

/-- `std::string::find`, from `pos` on. -/
def findFrom (text pattern : Bytes) (pos : ℕ) : Option ℕ :=
  (List.range' pos (text.length + 1 - pos)).find? fun i => pattern.isPrefixOf (text.drop i)

/-- From the end of the digits to the CR: white space, or the extension behind a semicolon. -/
def skipToExt : Bytes → Option Bytes
  | [] => some []
  | c :: cs => if c = ch ';' then some cs else if isspace c then skipToExt cs else none

namespace HttpMessage

variable (msg : HttpMessage)

def checkChunkAppend : HttpMessage × HttpResult :=
  let bodyEnd := msg.body.endPos
  if u64sub msg.origStr.length bodyEnd < msg.nextChunkSize then (msg, .incomplete)
  else
    ({ msg with
        currChunkFrom := bodyEnd
        body := { msg.body with size := msg.body.size + msg.nextChunkSize }
        chunkTrailer := { msg.chunkTrailer with pos := msg.chunkTrailer.pos + msg.nextChunkSize }
        nextChunkSize := 0 }, .chunkAppended)

def fetchChunkTrailer : HttpMessage × HttpResult :=
  let pos := msg.chunkTrailer.size
  if pos = 1 ∧ msg.origStr[msg.chunkTrailer.pos]? = some cr then
    ({ msg with chunkTrailer := { msg.chunkTrailer with size := 0 } }, .fullMessage)
  else
    let pos := if 3 < pos then msg.chunkTrailer.pos + pos - 3 else msg.chunkTrailer.pos
    match findFrom msg.origStr [cr, lf, cr, lf] pos with
    | none =>
      ({ msg with chunkTrailer := { msg.chunkTrailer with size := msg.origStr.length - msg.chunkTrailer.pos } },
        .incomplete)
    | some chunkTrailerEnd =>
      ({ msg with chunkTrailer := { msg.chunkTrailer with size := chunkTrailerEnd - msg.chunkTrailer.pos } },
        .fullMessage)

/-- Behind the line of the last chunk. -/
def lastChunk (chunk : Bytes) : HttpMessage × HttpResult :=
  let msg := { msg with
    currChunkFrom := msg.body.pos
    chunkTrailer := { msg.chunkTrailer with pos := msg.origStr.length - chunk.length } }
  if chunk.head? = some cr then (msg, .fullMessage)
  else
    let msg := { msg with chunkTrailer := { msg.chunkTrailer with size := 1 } }
    if chunk.length ≤ 3 then (msg, .incomplete) else msg.fetchChunkTrailer

/-- Behind the line with the size `nextChunkSize`; the line is taken out of the message. -/
def withChunkSize (nextChunkSize : ℕ) (ext chunk : Bytes) : HttpMessage × HttpResult :=
  let msg := { msg with nextChunkSize := nextChunkSize, chunkExt := ext }
  if 0 < nextChunkSize then
    { msg with origStr := msg.origStr.take msg.chunkTrailer.pos ++ chunk }.checkChunkAppend
  else msg.lastChunk chunk

/-- A line whose end has not arrived. -/
def awaitLine (chunk : Bytes) : HttpMessage × HttpResult :=
  if kHttpMaxChunkLineLength < chunk.length then (msg, .chunkSizeLineTooLong)
  else
    ({ msg with chunkTrailer := { msg.chunkTrailer with pos := msg.origStr.length - chunk.length } }, .incomplete)

def fetchNextChunkSize : HttpMessage × HttpResult :=
  if 0 < msg.chunkTrailer.size then msg.fetchChunkTrailer
  else
    let chunk := (msg.origStr.drop msg.chunkTrailer.pos).dropWhile isspace
    if chunk.isEmpty then ({ msg with origStr := msg.origStr.take msg.chunkTrailer.pos }, .incomplete)
    else
      match strFind cr chunk with
      | none => msg.awaitLine chunk
      | some (_, []) => msg.awaitLine chunk
      | some (_, c :: rest) =>
        if c ≠ lf then (msg, .badChunked)
        else
          let hex := hexStrTo chunk 0
          let nextChunkSize := u32 hex.1
          if kHttpMaxChunkedSize < nextChunkSize then
            ({ msg with nextChunkSize := nextChunkSize }, .chunkSizeTooLarge)
          else
            -- from `pHexEnd` to `pCR`
            match skipToExt (hex.2.take (hex.2.length - (rest.length + 2))) with
            | none => ({ msg with nextChunkSize := nextChunkSize }, .badChunked)
            | some ext => msg.withChunkSize nextChunkSize ext rest

def parseChunk : HttpMessage × HttpResult :=
  if msg.nextChunkSize = 0 then msg.fetchNextChunkSize else msg.checkChunkAppend

end HttpMessage

end Fon9.Web

/-! The size of a chunk. It is the hexadecimal number that its line starts with, where the
line has digits in front and the number does not exceed 32 bits. -/

namespace Fon9.Web

open Lib StrTools List HttpMessage

def isHex (c : UInt8) : Bool := alpha2Hex c ≤ 0x7f

/-- The number that hexadecimal digits stand for. -/
def hexValue (digits : Bytes) : ℕ := Numeral.eval 16 0 (digits.map fun c => (alpha2Hex c).toNat)

/-- White space, and an extension behind a semicolon. -/
def extension (text : Bytes) : Option Bytes :=
  match text.dropWhile isspace with
  | [] => some []
  | c :: ext => if c = ch ';' then some ext else none

/-- A line for a chunk: digits, white space and an extension. -/
def chunkLine (line : Bytes) : Option (ℕ × Bytes) :=
  if (line.takeWhile isHex).isEmpty then none
  else (extension (line.dropWhile isHex)).map fun ext => (hexValue (line.takeWhile isHex), ext)

/-- Behind a letter x. -/
def skipX (line : Bytes) : Bytes :=
  if line.head? = some (ch 'x') ∨ line.head? = some (ch 'X') then line.tail else line

/-! ### The digits -/

theorem toNat_alpha2Hex_lt {c : UInt8} (h : isHex c = true) : (alpha2Hex c).toNat < 16 := by
  have hall : ∀ c : Fin 256, isHex (UInt8.ofFin c) = true → (alpha2Hex (UInt8.ofFin c)).toNat < 16 := by
    decide +kernel
  exact hall c.toFin h

theorem shift_or (value : ℕ) {i : ℕ} (hi : i < 16) : u64 (value <<< 4) ||| i = (value * 16 + i) % 2 ^ 64 := by
  have hmod : u64 (value <<< 4) = 2 ^ 4 * (value % 2 ^ 60) := by
    have hmul : value * 2 ^ 4 % 2 ^ 64 = 2 ^ 4 * (value % 2 ^ 60) := by omega
    rwa [Nat.shiftLeft_eq]
  rw [hmod, ← Nat.two_pow_add_eq_or_of_lt hi]
  omega

theorem hexStrToLoop_eq (s : Bytes) (value : ℕ) :
    hexStrToLoop (value % 2 ^ 64) s =
      (Numeral.eval 16 value ((s.takeWhile isHex).map fun c => (alpha2Hex c).toNat) % 2 ^ 64, s.dropWhile isHex) := by
  induction s generalizing value with
  | nil => rfl
  | cons c cs ih =>
    rw [hexStrToLoop]
    by_cases hc : isHex c = true
    · have hle : ¬ 0x7f < alpha2Hex c := UInt8.not_lt.mpr (of_decide_eq_true hc)
      rw [takeWhile_cons_of_pos hc, dropWhile_cons_of_pos hc, map_cons]
      have hstep : (value % 2 ^ 64 * 16 + (alpha2Hex c).toNat) % 2 ^ 64 = (value * 16 + (alpha2Hex c).toNat) % 2 ^ 64 := by
        omega
      rw [if_neg hle, shift_or _ (toNat_alpha2Hex_lt hc), hstep, ih]
      rfl
    · have hlt : 0x7f < alpha2Hex c := by
        rw [isHex, decide_eq_true_iff, UInt8.not_le] at hc
        exact hc
      rw [takeWhile_cons_of_neg hc, dropWhile_cons_of_neg hc, if_pos hlt]
      rfl

theorem skipToExt_eq (text : Bytes) : skipToExt text = extension text := by
  induction text with
  | nil => rfl
  | cons c cs ih =>
    rw [skipToExt, extension]
    by_cases hsemi : c = ch ';'
    · have hspace : isspace c = false := by
        rw [hsemi]
        decide
      rw [if_pos hsemi, dropWhile_cons_of_neg (by simp [hspace])]
      exact (if_pos hsemi).symm
    · rw [if_neg hsemi]
      by_cases hspace : isspace c = true
      · rw [if_pos hspace, dropWhile_cons_of_pos hspace, ih, extension]
      · rw [if_neg hspace, dropWhile_cons_of_neg hspace]
        exact (if_neg hsemi).symm

/-- The digits end with the line at the latest. -/
theorem digits_append_cr (text rest : Bytes) :
    (text ++ cr :: rest).takeWhile isHex = text.takeWhile isHex ∧
      (text ++ cr :: rest).dropWhile isHex = text.dropWhile isHex ++ cr :: rest := by
  induction text with
  | nil => exact ⟨rfl, rfl⟩
  | cons c cs ih =>
    rw [cons_append]
    by_cases hc : isHex c = true
    · rw [takeWhile_cons_of_pos hc, takeWhile_cons_of_pos hc, dropWhile_cons_of_pos hc,
        dropWhile_cons_of_pos hc, ih.1, ih.2]
      exact ⟨rfl, rfl⟩
    · rw [takeWhile_cons_of_neg hc, takeWhile_cons_of_neg hc, dropWhile_cons_of_neg hc,
        dropWhile_cons_of_neg hc]
      exact ⟨rfl, rfl⟩

theorem hexStrTo_line {line rest : Bytes} (hhead : ∃ c cs, line = c :: cs ∧ isspace c = false) :
    hexStrTo (line ++ cr :: rest) 0 =
      (hexValue ((skipX line).takeWhile isHex) % 2 ^ 64, (skipX line).dropWhile isHex ++ cr :: rest) := by
  obtain ⟨c, cs, rfl, hspace⟩ := hhead
  have hskip : (if (c :: (cs ++ cr :: rest)).head? = some (ch 'x') ∨ (c :: (cs ++ cr :: rest)).head? = some (ch 'X')
      then (c :: (cs ++ cr :: rest)).tail else c :: (cs ++ cr :: rest)) = skipX (c :: cs) ++ cr :: rest := by
    rw [skipX, head?_cons, head?_cons, tail_cons, tail_cons]
    split <;> rfl
  obtain ⟨htake, hdrop⟩ := digits_append_cr (skipX (c :: cs)) rest
  have hloop := hexStrToLoop_eq (skipX (c :: cs) ++ cr :: rest) 0
  rw [Nat.zero_mod, htake, hdrop] at hloop
  rw [cons_append, hexStrTo, dropWhile_cons_of_neg (by simp [hspace])]
  rw [hskip, hloop]
  have hvalue : (if ((skipX (c :: cs)).dropWhile isHex ++ cr :: rest).length = (skipX (c :: cs) ++ cr :: rest).length
      then 0 else hexValue ((skipX (c :: cs)).takeWhile isHex) % 2 ^ 64) =
      hexValue ((skipX (c :: cs)).takeWhile isHex) % 2 ^ 64 := by
    split
    · next hlen =>
      -- no digit: the value is that of none
      have hsplit := congrArg length (takeWhile_append_dropWhile (p := isHex) (l := skipX (c :: cs)))
      rw [length_append] at hlen hsplit
      rw [length_append] at hlen
      have hnil : (skipX (c :: cs)).takeWhile isHex = [] := length_eq_zero_iff.mp (by omega)
      rw [hnil]
      rfl
    · rfl
  exact Prod.ext hvalue rfl

/-! ### The line -/

/-- The size of the next chunk is read from `line`, its end and `rest` behind it, behind
white space. -/
structure AtLine (msg : HttpMessage) (line rest : Bytes) : Prop where
  noTrailer : msg.chunkTrailer.size = 0
  text : ∃ blanks, (∀ b ∈ blanks, isspace b = true) ∧
    msg.origStr.drop msg.chunkTrailer.pos = blanks ++ (line ++ cr :: lf :: rest)
  head : ∃ c cs, line = c :: cs ∧ isspace c = false
  whole : ¬ [cr, lf] <:+: line

variable {msg : HttpMessage} {line rest : Bytes}

theorem AtLine.chunk (h : AtLine msg line rest) :
    (msg.origStr.drop msg.chunkTrailer.pos).dropWhile isspace = line ++ cr :: lf :: rest := by
  obtain ⟨blanks, hblanks, htext⟩ := h.text
  obtain ⟨c, cs, rfl, hc⟩ := h.head
  rw [htext, dropWhile_append_of_pos hblanks, cons_append, dropWhile_cons_of_neg (by simp [hc])]

/-- The number that the code takes the line for. -/
def lineSize (line : Bytes) : ℕ := u32 (hexValue ((skipX line).takeWhile isHex))

theorem AtLine.fetch (h : AtLine msg line rest) (hcr : cr ∉ line) :
    msg.fetchNextChunkSize =
      if kHttpMaxChunkedSize < lineSize line then
        ({ msg with nextChunkSize := lineSize line }, .chunkSizeTooLarge)
      else
        match extension ((skipX line).dropWhile isHex) with
        | none => ({ msg with nextChunkSize := lineSize line }, .badChunked)
        | some ext => msg.withChunkSize (lineSize line) ext rest := by
  have hempty : (line ++ cr :: lf :: rest).isEmpty = false := by simp
  have hsize : u32 (hexValue ((skipX line).takeWhile isHex) % 2 ^ 64) = lineSize line :=
    Nat.mod_mod_of_dvd _ (pow_dvd_pow 2 (by decide))
  have hbetween : (((skipX line).dropWhile isHex ++ cr :: lf :: rest).take
      (((skipX line).dropWhile isHex ++ cr :: lf :: rest).length - (rest.length + 2))) =
      (skipX line).dropWhile isHex := by
    have hlen : ((skipX line).dropWhile isHex ++ cr :: lf :: rest).length - (rest.length + 2) =
        ((skipX line).dropWhile isHex).length := by
      rw [length_append, length_cons, length_cons]
      omega
    rw [hlen, take_left]
  rw [fetchNextChunkSize, if_neg (by rw [h.noTrailer]; exact lt_irrefl 0), h.chunk]
  dsimp only
  rw [hempty, if_neg Bool.false_ne_true, strFind_append hcr]
  dsimp only
  rw [if_neg (fun hne => hne rfl), hexStrTo_line h.head, hsize, hbetween, skipToExt_eq]

/-- A CR within the line. -/
theorem AtLine.fetch_cr (h : AtLine msg line rest) (hcr : cr ∈ line) : msg.fetchNextChunkSize = (msg, .badChunked) := by
  have hempty : (line ++ cr :: lf :: rest).isEmpty = false := by simp
  obtain ⟨front, behind, rfl, hfront⟩ := eq_append_cons_of_mem hcr
  have hnext : ∃ c tail, behind ++ cr :: lf :: rest = c :: tail ∧ c ≠ lf := by
    cases behind with
    | nil => exact ⟨cr, lf :: rest, rfl, by decide⟩
    | cons c behind =>
      refine ⟨c, behind ++ cr :: lf :: rest, rfl, ?_⟩
      rintro rfl
      exact h.whole ⟨front, behind, by simp⟩
  obtain ⟨c, tail, hbehind, hc⟩ := hnext
  rw [fetchNextChunkSize, if_neg (by rw [h.noTrailer]; exact lt_irrefl 0), h.chunk]
  dsimp only
  rw [hempty, if_neg Bool.false_ne_true, append_assoc, cons_append, hbehind, strFind_append hfront]
  dsimp only
  rw [if_pos hc]

/-! ### Going on -/

def rejects : HttpResult → Bool
  | .headerTooLarge | .badChunked | .chunkSizeTooLarge | .chunkSizeLineTooLong => true
  | .incomplete | .fullMessage | .chunkAppended => false

/-- The message is rejected, or goes on with the number of the line. -/
def ReadsSize (msg : HttpMessage) (line rest : Bytes) : Prop :=
  rejects msg.fetchNextChunkSize.2 = true ∨
    ∃ size ext, chunkLine line = some (size, ext) ∧ msg.fetchNextChunkSize = msg.withChunkSize size ext rest

theorem checkChunkAppend_size (msg : HttpMessage) :
    rejects msg.checkChunkAppend.2 = false ∧
      msg.checkChunkAppend.1.body.size + msg.checkChunkAppend.1.nextChunkSize = msg.body.size + msg.nextChunkSize := by
  rw [checkChunkAppend]
  dsimp only
  split
  · exact ⟨rfl, rfl⟩
  · exact ⟨rfl, rfl⟩

theorem fetchChunkTrailer_size (msg : HttpMessage) :
    rejects msg.fetchChunkTrailer.2 = false ∧ msg.fetchChunkTrailer.1.body = msg.body ∧
      msg.fetchChunkTrailer.1.nextChunkSize = msg.nextChunkSize := by
  rw [fetchChunkTrailer]
  dsimp only
  split
  · exact ⟨rfl, rfl, rfl⟩
  · split
    · exact ⟨rfl, rfl, rfl⟩
    · exact ⟨rfl, rfl, rfl⟩

/-- The size can be told from what is appended to the body and what is awaited. -/
theorem withChunkSize_size (msg : HttpMessage) (size : ℕ) (ext chunk : Bytes) :
    rejects (msg.withChunkSize size ext chunk).2 = false ∧
      (msg.withChunkSize size ext chunk).1.body.size + (msg.withChunkSize size ext chunk).1.nextChunkSize =
        msg.body.size + size := by
  rw [withChunkSize]
  dsimp only
  split
  · exact checkChunkAppend_size _
  · next hzero =>
    rw [lastChunk]
    dsimp only
    split
    · exact ⟨rfl, rfl⟩
    · split
      · exact ⟨rfl, rfl⟩
      · obtain ⟨hrejects, hbody, hnext⟩ := fetchChunkTrailer_size { msg with
          nextChunkSize := size
          chunkExt := ext
          currChunkFrom := msg.body.pos
          chunkTrailer := { pos := msg.origStr.length - chunk.length, size := 1 } }
        refine ⟨hrejects, ?_⟩
        rw [hbody, hnext]

/-- A line that is taken for a size within the limit and has no digit in front, or too large
a number. -/
def Misread (line : Bytes) : Prop :=
  cr ∉ line ∧ lineSize line ≤ kHttpMaxChunkedSize ∧ (extension ((skipX line).dropWhile isHex)).isSome ∧
    ((line.takeWhile isHex).isEmpty ∨ 2 ^ 32 ≤ hexValue (line.takeWhile isHex))

theorem skipX_of_digit (h : (line.takeWhile isHex).isEmpty = false) : skipX line = line := by
  cases line with
  | nil => simp at h
  | cons c cs =>
    rw [skipX, if_neg]
    rintro (hx | hx)
    · obtain rfl := Option.some.inj hx
      rw [takeWhile_cons_of_neg (by decide)] at h
      exact absurd h (by decide)
    · obtain rfl := Option.some.inj hx
      rw [takeWhile_cons_of_neg (by decide)] at h
      exact absurd h (by decide)

theorem reads_size_iff (h : AtLine msg line rest) : ReadsSize msg line rest ↔ ¬ Misread line := by
  by_cases hcr : cr ∈ line
  · have hbad : rejects msg.fetchNextChunkSize.2 = true := by
      rw [h.fetch_cr hcr]
      rfl
    exact iff_of_true (.inl hbad) fun hmis => hmis.1 hcr
  · have hfetch := h.fetch hcr
    by_cases hlarge : kHttpMaxChunkedSize < lineSize line
    · rw [if_pos hlarge] at hfetch
      have hreject : rejects msg.fetchNextChunkSize.2 = true := by
        rw [hfetch]
        rfl
      exact iff_of_true (.inl hreject) fun hmis => absurd hmis.2.1 (Nat.not_le.mpr hlarge)
    · rw [if_neg hlarge] at hfetch
      cases hext : extension ((skipX line).dropWhile isHex) with
      | none =>
        rw [hext] at hfetch
        have hreject : rejects msg.fetchNextChunkSize.2 = true := by
          rw [hfetch]
          rfl
        refine iff_of_true (.inl hreject) fun hmis => ?_
        have hsome := hmis.2.2.1
        rw [hext] at hsome
        cases hsome
      | some ext =>
        rw [hext] at hfetch
        obtain ⟨hgoes, hsum⟩ := withChunkSize_size msg (lineSize line) ext rest
        constructor
        · rintro (hreject | ⟨size, ext', hline, hsame⟩) ⟨-, -, -, hmis⟩
          · rw [hfetch, hgoes] at hreject
            cases hreject
          · rw [chunkLine] at hline
            split at hline
            · cases hline
            · next hdigit =>
              obtain hempty | hge := hmis
              · exact hdigit hempty
              · obtain ⟨ext'', -, hpair⟩ := Option.map_eq_some_iff.mp hline
                obtain ⟨rfl, rfl⟩ := Prod.mk.inj hpair
                have hsum' := (withChunkSize_size msg (hexValue (line.takeWhile isHex)) ext'' rest).2
                rw [← hsame, hfetch, hsum] at hsum'
                have hlt : lineSize line < 2 ^ 32 := Nat.mod_lt _ (by decide)
                omega
        · intro hmis
          have hdigit : (line.takeWhile isHex).isEmpty = false := by
            by_contra hempty
            exact hmis ⟨hcr, Nat.not_lt.mp hlarge, by rw [hext]; rfl, .inl (by simpa using hempty)⟩
          have hlt : hexValue (line.takeWhile isHex) < 2 ^ 32 := by
            by_contra hge
            exact hmis ⟨hcr, Nat.not_lt.mp hlarge, by rw [hext]; rfl, .inr (Nat.not_lt.mp hge)⟩
          have hskip := skipX_of_digit hdigit
          rw [hskip] at hext
          refine .inr ⟨hexValue (line.takeWhile isHex), ext, ?_, ?_⟩
          · rw [chunkLine, hdigit, if_neg Bool.false_ne_true, hext]
            rfl
          · rw [hfetch, lineSize, hskip, u32_of_lt hlt]

/-- A line with a number of 33 bits, and the bytes behind it. -/
def longLine : HttpMessage := { origStr := "100000005\r\nhello".toList.map ch }

theorem longLine_atLine : AtLine longLine ("100000005".toList.map ch) ("hello".toList.map ch) :=
  ⟨rfl, ⟨[], nofun, rfl⟩, ⟨ch '1', "00000005".toList.map ch, rfl, by decide⟩, by decide⟩

theorem reads_size_iff_long : ReadsSize longLine ("100000005".toList.map ch) ("hello".toList.map ch) ↔
    ¬ Misread ("100000005".toList.map ch) :=
  reads_size_iff longLine_atLine

/-- The chunk of 2^32 + 5 bytes is taken for one of 5 bytes. -/
theorem size_cut_to_32_bits : ¬ ∀ msg line rest, AtLine msg line rest → ReadsSize msg line rest := by
  intro h
  obtain hreject | ⟨size, ext, hline, hfetch⟩ := h _ _ _ longLine_atLine
  · exact absurd hreject (by decide +kernel)
  · have hchunk : chunkLine ("100000005".toList.map ch) = some (4294967301, []) := by decide +kernel
    obtain ⟨rfl, rfl⟩ := Prod.mk.inj (Option.some.inj (hchunk.symm.trans hline))
    exact absurd (congrArg Prod.snd hfetch) (by decide +kernel)

end Fon9.Web
