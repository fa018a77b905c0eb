import Fon9.Bitv.Bytes
import Mathlib.Data.List.TakeWhile

/-! What `ToBitv` puts, `BitvTo` takes back: the value, and not a byte more than its
encoding. -/

namespace Fon9.Bitv

open Buffer Lib List IntType Nat

variable {Q : Type} [LawfulDcQueue Q] {q : Q} {α : Type} {rest : Bytes}

/-! ### What the encoder puts -/

theorem length_packBigEndianRev_le (size value : ℕ) : (packBigEndianRev size value).length ≤ size := by
  induction size generalizing value with
  | zero => exact le_refl 0
  | succ size ih =>
    rw [packBigEndianRev]
    split
    · exact succ_le_succ (Nat.zero_le _)
    · rw [length_append]
      exact succ_le_succ (ih _)

/-- The bytes fit into what is asked for. -/
def Put.Fits (p : Put) : Prop := p.text.length ≤ p.alloc

theorem intToBitv_NoZero_fits (size value : ℕ) (type : UInt8) : (intToBitv_NoZero size value type).Fits :=
  succ_le_succ (length_packBigEndianRev_le size value)

theorem intToBitv_fits (t : IntType) (value : ℤ) : (intToBitv t value).Fits := by
  unfold intToBitv
  split
  · exact le_refl 1
  · split
    · exact intToBitv_NoZero_fits _ _ _
    · exact intToBitv_NoZero_fits _ _ _

theorem decToBitvAux_fits (value scale : ℕ) (isNeg : Bool) : (decToBitvAux value scale isNeg).Fits := by
  have hlen := length_packBigEndianRev_le 8 value
  unfold decToBitvAux Put.Fits
  cases hpack : packBigEndianRev 8 value with
  | nil => exact le_of_ble_eq_true rfl
  | cons hi tail =>
    rw [hpack] at hlen
    cases tail with
    | nil => exact le_of_ble_eq_true rfl
    | cons next tail =>
      dsimp only
      simp only [length_cons] at hlen
      split
      · simp only [length_cons]
        omega
      · simp only [length_cons]
        omega

theorem decToBitv_fits (value : ℤ) (scale : ℕ) : (decToBitv value scale).Fits := by
  unfold decToBitv
  split
  · exact le_refl 1
  · dsimp only
    split
    · split
      · exact intToBitv_NoZero_fits _ _ _
      · exact intToBitv_NoZero_fits _ _ _
    · split
      · exact decToBitvAux_fits _ _ _
      · exact decToBitvAux_fits _ _ _

theorem decimalToBitv_fits (t : IntType) (scale : ℕ) (value : ℤ) : (decimalToBitv t scale value).Fits := by
  unfold decimalToBitv
  split
  · exact le_refl 1
  · exact decToBitv_fits value scale

theorem length_toBitvFixedRev (len : ℕ) (value : ℤ) : (toBitvFixedRev len value).length = len := by
  induction len generalizing value with
  | zero => rfl
  | succ len ih => rw [toBitvFixedRev, length_append, ih]; rfl

theorem timeStampToBitv_fits (value : ℤ) : (timeStampToBitv value).Fits := by
  unfold timeStampToBitv
  split
  · exact le_refl 1
  · dsimp only
    split
    · exact decToBitv_fits value _
    · exact succ_le_succ (le_of_eq (length_toBitvFixedRev _ _))

theorem byteArraySize_fits (byteCount : ℕ) : (byteArraySizeToBitvT_NoEmpty byteCount).length ≤ 5 := by
  have hlen := length_packBigEndianRev_le 4 (byteCount - 0x80 - 1)
  unfold byteArraySizeToBitvT_NoEmpty byteArraySizeToBitvT_AboveX80
  split
  · exact le_of_ble_eq_true rfl
  · cases hpack : packBigEndianRev 4 (byteCount - 0x80 - 1) with
    | nil => exact le_of_ble_eq_true rfl
    | cons hi tail =>
      rw [hpack] at hlen
      cases tail with
      | nil => exact le_of_ble_eq_true rfl
      | cons next tail =>
        dsimp only
        simp only [length_cons] at hlen
        split
        · simp only [length_cons]
          omega
        · simp only [length_cons]
          omega

theorem byteArrayToBitv_fits (byteArray : Bytes) : (byteArrayToBitv byteArray).Fits := by
  have hsize := byteArraySize_fits byteArray.length
  unfold byteArrayToBitv
  split
  · unfold Put.Fits
    rw [length_append]
    dsimp only
    omega
  · exact le_refl 1

theorem boolToBitv_fits (value : Bool) : (boolToBitv value).Fits := le_refl 1

theorem charToBitv_fits (value : UInt8) : (charToBitv value).Fits := by
  unfold charToBitv
  split
  · exact le_refl 1
  · exact le_refl 2

theorem elementCountToBitv_fits (count : ℕ) : (elementCountToBitv count).Fits := by
  unfold elementCountToBitv
  split
  · exact le_refl 1
  · exact intToBitv_NoZero_fits _ _ _

/-- The bytes of a value, from the first to the last. -/
def encoding : (t : Ty) → t.Val → Bytes
  | .bool, v => (boolToBitv v).text
  | .char, v => (charToBitv v).text
  | .int t, v => (intToBitv t v.1).text
  | .decimal t scale, v => (decimalToBitv t scale v.1).text
  | .timeStamp, v => (timeStampToBitv v.1).text
  | .str, v => (byteArrayToBitv v).text
  | .byteAry _, v => (byteArrayToBitv v).text
  | .charAry _, v => (charAryToBitv v).text
  | .array _ t, v => List.flatMap (encoding t) v
  | .vector t, v => (elementCountToBitv (List.length v)).text ++ List.flatMap (encoding t) v
  | .pair key value, v => encoding key v.1 ++ encoding value v.2
  | .map key value, v => (elementCountToBitv (List.length v)).text ++
      List.flatMap (fun e => encoding key e.1 ++ encoding value e.2) v

theorem into_content {p : Put} (blockRoom : ℕ → ℕ) (h : p.Fits) (rbuf : RevBufferList) :
    (p.into blockRoom rbuf).content = p.text ++ rbuf.content :=
  RevBufferList.revPut_content h

/-- Elements go in from the last to the first. -/
theorem foldr_content {put : α → RevBufferList → RevBufferList} {bytes : α → Bytes} {l : List α}
    (h : ∀ v ∈ l, ∀ rbuf, (put v rbuf).content = bytes v ++ rbuf.content) (rbuf : RevBufferList) :
    (l.foldr put rbuf).content = l.flatMap bytes ++ rbuf.content := by
  induction l with
  | nil => rfl
  | cons v l ih =>
    rw [foldr_cons, h v mem_cons_self, ih fun v' hv' => h v' (mem_cons_of_mem _ hv'),
      flatMap_cons, append_assoc]

theorem toBitv_content (blockRoom : ℕ → ℕ) (t : Ty) (v : t.Val) (rbuf : RevBufferList) :
    (toBitv blockRoom t v rbuf).content = encoding t v ++ rbuf.content := by
  induction t generalizing rbuf with
  | bool => exact into_content blockRoom (boolToBitv_fits v) rbuf
  | char => exact into_content blockRoom (charToBitv_fits v) rbuf
  | int t => exact into_content blockRoom (intToBitv_fits t v.1) rbuf
  | decimal t scale => exact into_content blockRoom (decimalToBitv_fits t scale v.1) rbuf
  | timeStamp => exact into_content blockRoom (timeStampToBitv_fits v.1) rbuf
  | str => exact into_content blockRoom (byteArrayToBitv_fits v) rbuf
  | byteAry size => exact into_content blockRoom (byteArrayToBitv_fits v) rbuf
  | charAry size => exact into_content blockRoom (byteArrayToBitv_fits _) rbuf
  | array size t ih => exact foldr_content (fun v _ => ih v) rbuf
  | vector t ih =>
    rw [toBitv, into_content blockRoom (elementCountToBitv_fits _), foldr_content (fun v _ => ih v),
      encoding, append_assoc]
  | pair key value ihk ihv => rw [toBitv, ihk, ihv, encoding, append_assoc]
  | map key value ihk ihv =>
    have hentry : ∀ e ∈ v, ∀ rbuf, (toBitv blockRoom key e.1 (toBitv blockRoom value e.2 rbuf)).content =
        (encoding key e.1 ++ encoding value e.2) ++ rbuf.content := by
      intro e _ rbuf
      rw [ihk, ihv, append_assoc]
    rw [toBitv, into_content blockRoom (elementCountToBitv_fits _), foldr_content hentry, encoding,
      append_assoc]

/-! ### What the decoder takes -/

/-- Two values, one behind the other. -/
def readsBoth {α β : Type} (f : Q → Except BitvError (α × Q)) (g : Q → Except BitvError (β × Q)) (buf : Q) :
    Except BitvError ((α × β) × Q) :=
  (f buf).bind fun r => (g r.2).map fun r' => ((r.1, r'.1), r'.2)

theorem Reads.both {α β : Type} {f : Q → Except BitvError (α × Q)} {g : Q → Except BitvError (β × Q)} {bytes bytes' : Bytes}
    {a : α} {b : β} (hf : Reads Q f bytes a) (hg : Reads Q g bytes' b) : Reads Q (readsBoth f g) (bytes ++ bytes') (a, b) := by
  intro q rest h
  rw [append_assoc] at h
  obtain ⟨q', hok, hholds⟩ := hf q _ h
  obtain ⟨q'', hok', hrest⟩ := hg q' rest hholds
  refine ⟨q'', ?_, hrest⟩
  simp only [readsBoth, hok, Except.bind, hok', Except.map]

theorem elements_reads {bitvTo : Q → Except BitvError (α × Q)} {bytes : α → Bytes} {l : List α}
    (h : ∀ v ∈ l, Reads Q bitvTo (bytes v) v) :
    Reads Q (bitvToElements bitvTo l.length) (l.flatMap bytes) l := by
  induction l with
  | nil => exact fun q rest hholds => ⟨q, rfl, hholds⟩
  | cons v l ih =>
    intro q rest hholds
    rw [flatMap_cons, append_assoc] at hholds
    obtain ⟨q', hok, hholds'⟩ := h v mem_cons_self q _ hholds
    obtain ⟨q'', hoks, hrest⟩ := ih (fun v' hv' => h v' (mem_cons_of_mem _ hv')) q' rest hholds'
    refine ⟨q'', ?_, hrest⟩
    rw [length_cons, bitvToElements, hok]
    simp only [bind, Except.bind, hoks, pure, Except.pure]

theorem elementCount_reads {count : ℕ} (hlt : count < 2 ^ 64) :
    ∃ n : uint64.Val, n.1.toNat = count ∧
      Reads Q bitvToContainerElementCount (elementCountToBitv count).text n := by
  have hcast : (uint64.cast (count : ℤ)).1 = count := by
    show wrap .uint64 count = count
    apply wrap_of_mem
    simp only [IntType.min, IntType.max, isSigned, IntType.size]
    norm_num
    omega
  refine ⟨uint64.cast (count : ℤ), by rw [hcast]; rfl, ?_⟩
  intro q rest h
  rw [elementCountToBitv] at h
  split at h
  · next hzero =>
    have hpop : Holds (DcQueue.popConsumed q 1) rest := popConsumed_append h
    refine ⟨_, ?_, hpop⟩
    rw [bitvToContainerElementCount, bitvToIntAux, peek1_cons h, hzero]
    rfl
  · obtain ⟨hvalue, hpos, hlen⟩ := @packBigEndianRev_spec 8 count (by decide) hlt
    obtain ⟨q', hok, hrest⟩ := intAux_number bitvT_Container bitvV_ContainerEmpty
      bitvV_ContainerEmpty (uint64.cast 0) (by decide) (.inl rfl) hpos hlen h
    rw [hvalue, if_neg (by decide)] at hok
    exact ⟨q', hok, hrest⟩

/-- Entries whose keys ascend come back in their order. -/
theorem foldl_insertEntry {β : Type} {less : α → α → Bool} (entries before : List (α × β))
    (h : (before ++ entries).Pairwise fun e e' => less e.1 e'.1 = true) :
    entries.foldl (insertEntry less) before = before ++ entries := by
  induction entries generalizing before with
  | nil => exact (append_nil before).symm
  | cons e entries ih =>
    have hbefore : ∀ e' ∈ before, less e'.1 e.1 = true := fun e' he' =>
      (pairwise_append.mp h).2.2 e' he' e mem_cons_self
    have hinsert : insertEntry less before e = before ++ [e] := by
      unfold insertEntry
      rw [takeWhile_eq_self_iff.mpr hbefore]
      simp only [drop_length]
    rw [foldl_cons, hinsert, ih (before ++ [e]) (by rw [append_assoc]; exact h), append_assoc]
    rfl

theorem bitvTo_reads (less : (k : Ty) → k.Val → k.Val → Bool) (t : Ty) (v : t.Val) (hv : t.Valid less v) :
    Reads Q (bitvTo less t) (encoding t v) v := by
  induction t with
  | bool => exact bool_reads v
  | char => exact char_reads v
  | int t => exact int_reads v _
  | decimal t scale => exact decimal_reads scale v
  | timeStamp => exact timeStamp_reads v
  | str => exact str_reads hv
  | byteAry size =>
    obtain ⟨hlen, hmax⟩ := hv
    have hreads := byteArray_reads (Q := Q) (hlen ▸ hmax) hlen.le
    rw [hlen, Nat.sub_self, replicate_zero, append_nil] at hreads
    exact hreads
  | charAry size =>
    obtain ⟨hlen, hmax⟩ := hv
    have hreads := @charAry_reads Q _ v (hlen ▸ hmax)
    rw [hlen] at hreads
    exact hreads
  | array size t ih =>
    obtain ⟨hlen, hall⟩ := hv
    have hreads := elements_reads fun v hv => ih v (hall v hv)
    rw [hlen] at hreads
    exact hreads
  | vector t ih =>
    obtain ⟨hlen, hall⟩ := hv
    obtain ⟨n, hn, hcount⟩ := @elementCount_reads Q _ _ hlen
    intro q rest h
    rw [encoding, append_assoc] at h
    obtain ⟨q', hok, hholds⟩ := hcount q _ h
    obtain ⟨q'', hoks, hrest⟩ := elements_reads (fun v hv => ih v (hall v hv)) q' rest hholds
    refine ⟨q'', ?_, hrest⟩
    rw [bitvTo, hok]
    simp only [bind, Except.bind, hn, hoks]
  | pair key value ihk ihv =>
    intro q rest h
    rw [encoding, append_assoc] at h
    obtain ⟨q', hok, hholds⟩ := ihk v.1 hv.1 q _ h
    obtain ⟨q'', hok', hrest⟩ := ihv v.2 hv.2 q' rest hholds
    refine ⟨q'', ?_, hrest⟩
    rw [bitvTo, hok]
    simp only [bind, Except.bind, hok', pure, Except.pure]
  | map key value ihk ihv =>
    obtain ⟨hlen, hsorted, hall⟩ := hv
    obtain ⟨n, hn, hcount⟩ := @elementCount_reads Q _ _ hlen
    intro q rest h
    rw [encoding, append_assoc] at h
    obtain ⟨q', hok, hholds⟩ := hcount q _ h
    obtain ⟨q'', hoks, hrest⟩ :=
      elements_reads (fun e he => (ihk e.1 (hall e he).1).both (ihv e.2 (hall e he).2)) q' rest hholds
    have hfold := foldl_insertEntry v [] hsorted
    have hentries : ∀ entry, (∀ buf, entry buf = readsBoth (bitvTo less key) (bitvTo less value) buf) →
        bitvToElements entry v.length q' = .ok (v, q'') := by
      intro entry hentry
      rw [funext hentry]
      exact hoks
    refine ⟨q'', ?_, hrest⟩
    rw [bitvTo, hok]
    simp only [bind, Except.bind, hn]
    rw [hentries]
    · simp only [hfold, nil_append, pure, Except.pure]
    · intro buf
      rw [readsBoth]
      cases bitvTo less key buf with
      | error e => rfl
      | ok r =>
        cases hval : bitvTo less value r.2 with
        | error e => simp only [hval, Except.bind, Except.map]
        | ok r' => simp only [hval, Except.bind, Except.map, pure, Except.pure]

/-- The types whose decoder is asked to wait for the rest of a value. -/
def Ty.single : Ty → Bool
  | .bool | .char | .int _ | .decimal _ _ | .timeStamp | .str => true
  | _ => false

theorem bitvTo_waits (less : (k : Ty) → k.Val → k.Val → Bool) {t : Ty} (v : t.Val) (hv : t.Valid less v)
    (ht : t.single = true) : Waits Q (bitvTo less t) (encoding t v) := by
  cases t with
  | bool => exact bool_waits v
  | char => exact char_waits v
  | int t => exact int_waits v _
  | decimal t scale => exact decimal_waits scale v
  | timeStamp => exact timeStamp_waits v
  | str => exact str_waits hv
  | byteAry size => exact absurd ht Bool.false_ne_true
  | charAry size => exact absurd ht Bool.false_ne_true
  | array size t => exact absurd ht Bool.false_ne_true
  | vector t => exact absurd ht Bool.false_ne_true
  | pair key value => exact absurd ht Bool.false_ne_true
  | map key value => exact absurd ht Bool.false_ne_true

/-- Whatever follows, and however the bytes are cut into nodes, `BitvTo` gives the value that
`ToBitv` was given and leaves what follows; of a single value cut short it wants more. -/
theorem bitvTo_toBitv (blockRoom : ℕ → ℕ) (less : (k : Ty) → k.Val → k.Val → Bool) (t : Ty)
    (v : t.Value less) :
    (∀ (rbuf : RevBufferList) (tail : Bytes) (buf : DcQueueList),
      buf.Holds ((toBitv blockRoom t v.1 rbuf).content ++ tail) →
      ∃ buf', bitvTo less t buf = .ok (v.1, buf') ∧ buf'.Holds (rbuf.content ++ tail)) ∧
    (t.single = true → ∀ (reserved : ℕ) (s : Bytes) (buf : DcQueueList),
      s <+: (toBitv blockRoom t v.1 ⟨reserved, []⟩).content → s ≠ (toBitv blockRoom t v.1 ⟨reserved, []⟩).content →
      buf.Holds s → ∃ what, bitvTo less t buf = .error (.needsMore what)) := by
  constructor
  · intro rbuf tail buf h
    rw [toBitv_content, List.append_assoc] at h
    exact bitvTo_reads less t v.1 v.2 buf _ h
  · intro ht reserved s buf hs hne h
    rw [toBitv_content, show RevBufferList.content ⟨reserved, []⟩ = [] from rfl, List.append_nil] at hs hne
    exact bitvTo_waits less v.1 v.2 ht buf s hs hne h

/-- Entries by their number, in two nodes with a byte behind them, and a number cut short. -/
theorem bitvTo_toBitv_numbers :
    let less := fun (k : Ty) => match k with
      | .int _ => fun a b => decide (a.1 < b.1)
      | _ => fun _ _ => false
    let t : Ty := .map (.int .int16) (.vector .str)
    let v : t.Val := [(⟨-5, by decide⟩, [[0x61, 0x62]]), (⟨700, by decide⟩, [])]
    let bytes := (toBitv (fun sz => sz) t v ⟨256, []⟩).content
    (∃ buf', bitvTo less t (DcQueueList.frontLoop [.data (bytes.take 3) 0, .data (bytes.drop 3 ++ [9]) 16]) =
      .ok (v, buf') ∧ buf'.Holds [9]) ∧
    ∃ what, bitvTo less (.int .int16) (DcQueueList.frontLoop [.data [0x91, 0x02] 0]) =
      .error (.needsMore what) := by
  intro less t v bytes
  constructor
  · have hsorted : v.Pairwise fun e e' => less (.int .int16) e.1 e'.1 = true := by decide
    have hlist : ∀ e ∈ v, (Ty.int .int16).Valid less e.1 ∧ (Ty.vector .str).Valid less e.2 := by
      intro e he
      rcases List.mem_cons.mp he with rfl | he
      · refine ⟨trivial, by decide, fun s hs => ?_⟩
        rw [List.mem_singleton.mp hs]
        show _ ≤ kBitvMaxByteArraySize
        decide
      · rw [List.mem_singleton.mp he]
        exact ⟨trivial, by decide, fun s hs => by cases hs⟩
    have h := DcQueueList.frontLoop_holds [.data (bytes.take 3) 0, .data (bytes.drop 3 ++ [9]) 16]
    have hcontents : contents [.data (bytes.take 3) 0, .data (bytes.drop 3 ++ [9]) 16] = bytes ++ [9] := by
      show bytes.take 3 ++ ((bytes.drop 3 ++ [9]) ++ []) = _
      rw [List.append_nil, ← List.append_assoc, List.take_append_drop]
    rw [hcontents] at h
    exact (bitvTo_toBitv (fun sz => sz) less t ⟨v, by decide, hsorted, hlist⟩).1 ⟨256, []⟩ [9] _ h
  · exact (bitvTo_toBitv (fun sz => sz) less (.int .int16) ⟨⟨700, by decide⟩, trivial⟩).2 rfl 0 [0x91, 0x02] _
      (by decide) (by decide) (DcQueueList.frontLoop_holds _)

end Fon9.Bitv
