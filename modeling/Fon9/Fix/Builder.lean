import Fon9.Base.RevBuffer
import Fon9.Fix.Parser

/-! The FIX message builder. The message is printed from the back to the front, the
place of the check sum first; `Final` prints the body length and the header, sums
the bytes node by node up to the place of the check sum, and fills that in. -/

namespace Fon9.Fix

open List RevBufferList RevBufferList

/-- `sizeof(NumOutBuf)`, the room asked for to print a number. -/
def kNumOutBufSize : ℕ := 96

/-- The fields "|10=xxx|" of a check sum. -/
def checkSumField (cks : UInt8) : Bytes :=
  [kCharSpl, ch '1', ch '0', ch '='] ++ pic9ToStr3 cks ++ [kCharSpl]

/-- `CheckSumPos_` is counted from the end of the last node. -/
structure FixBuilder where
  buffer : RevBufferList := { newAllocReserved := 512 }
  checkSumPos : Option ℕ := none

namespace FixBuilder

variable (blockRoom : ℕ → ℕ)

def start (fb : FixBuilder) : FixBuilder :=
  { buffer := (fb.buffer.allocPrefix blockRoom kFixTailWidth).setPrefixUsed
      (List.replicate kFixTailWidth 0)
    checkSumPos := some kFixTailWidth }

/-- `RevPrint` of a text to the front of the buffer, with room for `sz` bytes. -/
def revPrint (fb : FixBuilder) (sz : ℕ) (text : Bytes) : FixBuilder :=
  { fb with buffer := fb.buffer.revPut blockRoom sz text }

def sumBytes (cks : UInt8) (bytes : Bytes) : UInt8 := bytes.foldl (fun cks b => cks + b) cks

/-- The check sum loop of `Final`: the last node counts up to the check sum field. -/
def checkSumLoop (checkSumPos : ℕ) : UInt8 → List Bytes → UInt8
  | cks, [] => cks
  | cks, [last] => sumBytes cks (last.take (last.length - checkSumPos))
  | cks, d :: ds => checkSumLoop checkSumPos (sumBytes cks d) ds

/-- `PutCheckSumField` at `psum`, in the last node. -/
def putCheckSumField (checkSumPos : ℕ) (cks : UInt8) : List RevBufferNode → List RevBufferNode
  | [] => []
  | [last] =>
    [{ last with data := last.data.take (last.data.length - checkSumPos) ++ checkSumField cks }]
  | node :: rest => node :: putCheckSumField checkSumPos cks rest

/-- `Final`: the nodes of the message, and the builder left empty. -/
def final (fb : FixBuilder) (beginHeader : Bytes) : List Bytes × FixBuilder :=
  let psum := fb.checkSumPos.getD 0
  let bodyLength := fb.buffer.content.length - kFixTailWidth
  let fb := fb.revPrint blockRoom kNumOutBufSize (uintToStr bodyLength)
  let fb := fb.revPrint blockRoom beginHeader.length beginHeader
  let cks := checkSumLoop psum kCharSpl fb.buffer.data
  let buffer := { fb.buffer with nodes := putCheckSumField psum cks fb.buffer.nodes }
  (buffer.moveOut, { buffer := { fb.buffer with nodes := [] }, checkSumPos := none })

/-- A builder after the prints `chunks`, each a text and the room asked for it, from
the last one to the first. -/
def assemble (chunks : List (ℕ × Bytes)) : FixBuilder :=
  chunks.foldr (fun c fb => fb.revPrint blockRoom c.1 c.2) (start blockRoom {})

end FixBuilder

/-- A field as the builder prints it: "|tag=value". -/
def fieldText (f : ℕ × Bytes) : Bytes := kCharSpl :: (uintToStr f.1 ++ ch '=' :: f.2)

def fieldsText (fields : List (ℕ × Bytes)) : Bytes := (fields.map fieldText).flatten

/-- `RevPrint(rbuf, f9fix_kCHAR_SPL, tag, '=', value)`. -/
def fieldChunks (f : ℕ × Bytes) : List (ℕ × Bytes) :=
  [(1, [kCharSpl]), (kNumOutBufSize, uintToStr f.1), (1, [ch '=']), (f.2.length, f.2)]

/-- The bytes of a message: header, body length, body and check sum. -/
def message (beginHeader body : Bytes) : Bytes :=
  let msg := beginHeader ++ uintToStr body.length ++ body
  msg ++ checkSumField (FixBuilder.sumBytes kCharSpl msg)

@[simp] theorem length_checkSumField (cks : UInt8) : (checkSumField cks).length = kFixTailWidth := rfl

namespace FixBuilder

variable {blockRoom : ℕ → ℕ}

theorem sumBytes_append (cks : UInt8) (a b : Bytes) :
    sumBytes cks (a ++ b) = sumBytes (sumBytes cks a) b := by
  simp [sumBytes]

theorem sumBytes_add (cks b : UInt8) (bytes : Bytes) :
    sumBytes (cks + b) bytes = sumBytes cks bytes + b := by
  induction bytes generalizing cks with
  | nil => rfl
  | cons c bytes ih =>
    show sumBytes (cks + b + c) bytes = sumBytes (cks + c) bytes + b
    rw [← ih, UInt8.add_assoc cks, UInt8.add_comm b, ← UInt8.add_assoc]

/-- Taking the bytes off again gives the number the sum started from. -/
theorem foldl_sub_sumBytes (cks : UInt8) (bytes : Bytes) :
    bytes.foldl (fun cks b => cks - b) (sumBytes cks bytes) = cks := by
  induction bytes generalizing cks with
  | nil => rfl
  | cons c bytes ih =>
    show bytes.foldl (fun cks b => cks - b) (sumBytes (cks + c) bytes - c) = cks
    rw [sumBytes_add, UInt8.add_sub_cancel, ih]

theorem checkSumLoop_append (k : ℕ) (cks : UInt8) (ds : List Bytes) (d tail : Bytes)
    (h : tail.length = k) :
    checkSumLoop k cks (ds ++ [d ++ tail]) = sumBytes cks (ds.flatten ++ d) := by
  induction ds generalizing cks with
  | nil => simp [checkSumLoop, h]
  | cons e ds ih =>
    obtain ⟨x, xs, hx⟩ := exists_cons_of_ne_nil (l := ds ++ [d ++ tail]) (by simp)
    have hloop : checkSumLoop k cks (e :: (ds ++ [d ++ tail])) =
        checkSumLoop k (sumBytes cks e) (ds ++ [d ++ tail]) := by
      rw [hx, checkSumLoop]
      simp
    rw [cons_append, hloop, ih, flatten_cons, append_assoc, sumBytes_append cks e]

theorem putCheckSumField_data (k : ℕ) (cks : UInt8) (nodes : List RevBufferNode) (ds : List Bytes)
    (d tail : Bytes) (h : tail.length = k) (hn : nodes.map RevBufferNode.data = ds ++ [d ++ tail]) :
    (putCheckSumField k cks nodes).map RevBufferNode.data = ds ++ [d ++ checkSumField cks] := by
  induction nodes generalizing ds with
  | nil => simp at hn
  | cons node rest ih =>
    cases rest with
    | nil =>
      cases ds with
      | nil =>
        have hd : node.data = d ++ tail := by simpa using hn
        simp [putCheckSumField, hd, h]
      | cons e ds => simp at hn
    | cons node' rest =>
      cases ds with
      | nil => simp at hn
      | cons e ds =>
        rw [map_cons, cons_append, List.cons.injEq] at hn
        rw [putCheckSumField, map_cons, ih ds hn.2, hn.1, cons_append]
        simp

/-- The builder keeps the place of the check sum at the end of its last node. -/
def Tailed (fb : FixBuilder) (body : Bytes) : Prop :=
  fb.checkSumPos = some kFixTailWidth ∧
    ∃ ds d tail, fb.buffer.data = ds ++ [d ++ tail] ∧ tail.length = kFixTailWidth ∧
      ds.flatten ++ d = body

theorem start_tailed (fb : FixBuilder) (h : fb.buffer.nodes = []) : (start blockRoom fb).Tailed [] := by
  refine ⟨rfl, [], [], replicate kFixTailWidth 0, ?_, by simp, rfl⟩
  simp [start, RevBufferList.allocPrefix, setPrefixUsed, data, h,
    kFixTailWidth]

theorem Tailed.revPrint {fb : FixBuilder} {body : Bytes} (h : fb.Tailed body) {sz : ℕ} {text : Bytes}
    (hsz : text.length ≤ sz) : (fb.revPrint blockRoom sz text).Tailed (text ++ body) := by
  obtain ⟨hpos, ds, d, tail, hdata, htail, rfl⟩ := h
  refine ⟨hpos, ?_⟩
  by_cases ht : text = []
  · exact ⟨ds, d, tail, by simp [FixBuilder.revPrint, revPut, ht, hdata], htail,
      by simp [ht]⟩
  obtain hput | ⟨e, es, he, hput⟩ := @RevBufferList.revPut_data blockRoom fb.buffer _ _ ht hsz
  · exact ⟨text :: ds, d, tail, by simp [FixBuilder.revPrint, hput, hdata], htail, by simp⟩
  · rw [hdata] at he
    cases ds with
    | nil =>
      simp only [nil_append, List.cons.injEq] at he
      obtain ⟨rfl, rfl⟩ := he
      exact ⟨[], text ++ d, tail, by simp [FixBuilder.revPrint, hput], htail, by simp⟩
    | cons e' ds =>
      simp only [cons_append, List.cons.injEq] at he
      obtain ⟨rfl, rfl⟩ := he
      exact ⟨(text ++ e') :: ds, d, tail, by simp [FixBuilder.revPrint, hput], htail, by simp⟩

theorem assemble_tailed (blockRoom : ℕ → ℕ) (chunks : List (ℕ × Bytes)) (h : ∀ c ∈ chunks, c.2.length ≤ c.1) :
    (assemble blockRoom chunks).Tailed (chunks.map Prod.snd).flatten := by
  induction chunks with
  | nil => exact start_tailed {} rfl
  | cons c chunks ih =>
    rw [map_cons, flatten_cons]
    exact (ih fun e he => h e (by simp [he])).revPrint (h c (by simp))

/-- `Final` returns the message of what was printed. -/
theorem final_flatten (blockRoom : ℕ → ℕ) {fb : FixBuilder} {body : Bytes} (h : fb.Tailed body) (beginHeader : Bytes)
    (hlen : body.length < 10 ^ kNumOutBufSize) :
    (fb.final blockRoom beginHeader).1.flatten = message beginHeader body := by
  have hbody : fb.buffer.content.length - kFixTailWidth = body.length := by
    obtain ⟨-, ds, d, tail, hdata, htail, rfl⟩ := h
    simp [content, hdata, htail, ← add_assoc]
  have hnum : (uintToStr body.length).length ≤ kNumOutBufSize :=
    length_uintToStr_le (by decide) hlen
  obtain ⟨hpos, ds, d, tail, hdata, htail, hd⟩ :=
    (h.revPrint hnum).revPrint (le_refl beginHeader.length)
  have hput := putCheckSumField_data kFixTailWidth (sumBytes kCharSpl (ds.flatten ++ d)) _ ds d tail
    htail hdata
  have hpsum : fb.checkSumPos.getD 0 = kFixTailWidth := by rw [h.1]; rfl
  simp only [final, hbody, hpsum, moveOut_flatten]
  rw [hdata, checkSumLoop_append _ _ _ _ _ htail, content, data, hput,
    flatten_append, flatten_singleton, ← append_assoc, hd, ← append_assoc, message]

end FixBuilder

end Fon9.Fix
