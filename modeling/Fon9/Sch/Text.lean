import Fon9.Lib.Pieces
import Fon9.Num.StrToTime
import Fon9.Sch.Check

/-! The text of a schedule: `SchConfig::Parse`, and `RevPrint` of a `SchConfig`. A configuration is read from
"tag=value|tag=value", and one that is printed is read again. The end time is printed where it is before `kNoEndTime`,
so that a later one is lost. -/

namespace Fon9.Sch

open Lib Num List

/-! ### Tags and values -/

/-- `StrFetchTrim`: the text before the delimiter without the blanks around it, and the text after it. -/
def strFetchTrim (src : Bytes) (chDelim : UInt8) : Bytes × Bytes :=
  let r := strFetchNoTrim (src.dropWhile isspace) chDelim
  (r.1.rdropWhile isspace, r.2)

/-- `StrSplit`: `none` is what `src` is set to where there is no delimiter. -/
def strSplit (src : Bytes) (chDelim : UInt8) : Bytes × Option Bytes :=
  if chDelim ∈ src then
    let r := strFetchNoTrim src chDelim
    (r.1.rdropWhile isspace, some (r.2.dropWhile isspace))
  else (src, none)

/-- The two views that `StrFetchTagValue` sets. -/
structure TagValue where
  tag : Bytes
  value : Option Bytes

/-- `StrFetchTagValue`: at the end of the text both views stay as they are. -/
def strFetchTagValue (src : Bytes) (before : TagValue) (chFieldDelim chEqual : UInt8) : Bytes × TagValue :=
  if src.dropWhile isspace = [] then ([], before)
  else
    let r := strFetchTrim src chFieldDelim
    let s := strSplit r.1 chEqual
    (r.2, ⟨s.1, s.2⟩)

/-! ### `Parse` and `RevPrint` -/

/-- What `GetLocalTimeZoneOffset` returns: an `int`. -/
structure LocalTimeZone where
  offsetMinutes : ℤ
  fits : Fits .int32 offsetMinutes

/-- `SchConfig` with `TimeZoneName_`, that the check does not read. -/
structure NamedSchConfig extends SchConfig where
  timeZoneName : Bytes

open NamedSchConfig

def kTagWeekdays : Bytes := "Weekdays".toList.map ch
def kTagStart : Bytes := "Start".toList.map ch
def kTagEnd : Bytes := "End".toList.map ch
def kTagTZ : Bytes := "TZ".toList.map ch

/-- "tag=value" -/
def field (tag value : Bytes) : Bytes := tag ++ ch '=' :: value

namespace NamedSchConfig

variable (zone : LocalTimeZone)

def setAlwaysInSch : NamedSchConfig where
  weekdays _ := true
  timeZoneName := [ch 'L']
  timeZoneAdj := zone.offsetMinutes
  startTime := 0
  endTime := kNoEndTime

variable (cfg : NamedSchConfig)

/-- A value that is set by its tag. -/
def setValue (tag value : Bytes) : Except AdjustError NamedSchConfig :=
  if tag = kTagWeekdays then .ok { cfg with weekdays := fun w => value.any fun c => digval c = w }
  else if tag = kTagStart then do
    let startTime ← strToDayTimeSec value 0
    return { cfg with startTime }
  else if tag = kTagEnd then do
    let endTime ← strToDayTimeSec value kNoEndTime
    return { cfg with endTime }
  else if tag = kTagTZ then
    .ok { cfg with timeZoneName := value, timeZoneAdj := strToTimeZoneOffset zone.offsetMinutes value }
  else .ok cfg

/-- The body of the loop behind the fetch: "hhmmss-hhmmss" has no value, and is split in place. -/
def setField (tv : TagValue) : Except AdjustError (NamedSchConfig × TagValue) :=
  match tv.value with
  | some value => do
    let cfg ← cfg.setValue zone tv.tag value
    return (cfg, tv)
  | none =>
    let r := strFetchTrim tv.tag (ch '-')
    let tv : TagValue := ⟨r.2, some r.1⟩
    if (r.1.head?.map isdigit).getD false then do
      let startTime ← strToDayTimeSec r.1 0
      let endTime ← strToDayTimeSec r.2 kNoEndTime
      return ({ cfg with startTime, endTime }, tv)
    else return (cfg, tv)

/-- The loop of `Parse`. Each turn takes a character at least. -/
def parseLoop : ℕ → Bytes → TagValue → NamedSchConfig → Except AdjustError NamedSchConfig
  | 0, _, _, cfg => .ok cfg
  | fuel + 1, cfgstr, tv, cfg =>
    if cfgstr = [] then .ok cfg
    else do
      let r := strFetchTagValue cfgstr tv (ch '|') (ch '=')
      let next ← cfg.setField zone r.2
      parseLoop fuel r.1 next.2 next.1

def parse (cfgstr : Bytes) : Except AdjustError NamedSchConfig :=
  parseLoop zone cfgstr.length cfgstr ⟨[], none⟩ (setAlwaysInSch zone)

def weekdaysText : Bytes :=
  if cfg.any then ((List.finRange 7).filter cfg.weekdays).map fun w : Fin 7 => digch w.val else "OUT".toList.map ch

/-- `RevPrint`, which puts the text to the front. -/
def revPrint : Bytes :=
  field kTagWeekdays cfg.weekdaysText ++ ch '|' :: (field kTagStart (toStrRevSecs cfg.startTime) ++
    ((if cfg.endTime < kNoEndTime then ch '|' :: field kTagEnd (toStrRevSecs cfg.endTime) else []) ++
      ch '|' :: field kTagTZ cfg.timeZoneName))

/-! ### What it is for -/

/-- The text that is printed gives the configuration, and so the checks. -/
def Reparses : Prop :=
  ∃ cfg', parse zone cfg.revPrint = .ok cfg' ∧
    (cfg'.weekdays = cfg.weekdays ∧ cfg'.startTime = cfg.startTime ∧ cfg'.endTime = cfg.endTime ∧
      cfg'.timeZoneAdj = cfg.timeZoneAdj) ∧
    ∀ fuel now beforeSt, cfg'.check fuel now beforeSt = cfg.check fuel now beforeSt

/-- The views of the next turn: a range is split in place. -/
def nextViews (tv : TagValue) : TagValue :=
  match tv.value with
  | some _ => tv
  | none =>
    let r := strFetchTrim tv.tag (ch '-')
    ⟨r.2, some r.1⟩

/-- The end time that a field gives: behind "End=", or behind the '-' of a range. -/
def endText (tv : TagValue) : Option Bytes :=
  match tv.value with
  | some value => if tv.tag = kTagEnd then some value else none
  | none =>
    let r := strFetchTrim tv.tag (ch '-')
    if (r.1.head?.map isdigit).getD false then some r.2 else none

/-- The fields of a text in their order. -/
def fields : ℕ → Bytes → TagValue → List TagValue
  | 0, _, _ => []
  | fuel + 1, cfgstr, tv =>
    if cfgstr = [] then []
    else
      let r := strFetchTagValue cfgstr tv (ch '|') (ch '=')
      r.2 :: fields fuel r.1 (nextViews r.2)

/-- Of the end times that a text gives the last one counts. -/
def lastEnd (cfgstr : Bytes) : Option Bytes := ((fields cfgstr.length cfgstr ⟨[], none⟩).filterMap endText).getLast?

/-- Where a text gives an end time, it is no later than `kNoEndTime`. -/
def EndsInTime (cfgstr : Bytes) : Prop :=
  ∀ text ∈ lastEnd cfgstr, ∀ secs, strToDayTimeSec text kNoEndTime = .ok secs → secs ≤ kNoEndTime

end NamedSchConfig

/-! ### Views of a text -/

section Views

variable {src f tag value rest : Bytes} {d e : UInt8}

section

variable (src : Bytes) (d : UInt8)

theorem strFetchNoTrim_isPrefix : (strFetchNoTrim src d).1 <+: src := by
  induction src with
  | nil => exact prefix_rfl
  | cons c cs ih =>
    rw [strFetchNoTrim]
    split_ifs with hc
    · exact nil_prefix
    · exact cons_prefix_cons.mpr ⟨rfl, ih⟩

theorem strFetchNoTrim_isSuffix : (strFetchNoTrim src d).2 <:+ src := by
  induction src with
  | nil => exact suffix_rfl
  | cons c cs ih =>
    rw [strFetchNoTrim]
    split_ifs with hc
    · exact suffix_cons c cs
    · exact ih.trans (suffix_cons c cs)

theorem notMem_strFetchNoTrim : d ∉ (strFetchNoTrim src d).1 := by
  induction src with
  | nil => exact not_mem_nil
  | cons c cs ih =>
    rw [strFetchNoTrim]
    split_ifs with hc
    · exact not_mem_nil
    · rw [mem_cons, not_or]
      exact ⟨Ne.symm hc, ih⟩

theorem trimmed_strFetchTrim : Trimmed isspace (strFetchTrim src d).1 := by
  refine trimmed_rdropWhile fun c hc => head_dropWhile (s := src) ?_
  obtain ⟨u, hu⟩ := strFetchNoTrim_isPrefix (src.dropWhile isspace) d
  have hne : (strFetchNoTrim (src.dropWhile isspace) d).1 ≠ [] := by
    intro hnil
    rw [hnil] at hc
    cases hc
  rw [← hu, head?_append_of_ne_nil _ hne]
  exact hc

theorem strFetchTrim_subset : (strFetchTrim src d).1 ⊆ src := fun _ hc =>
  (dropWhile_suffix isspace).subset
    ((strFetchNoTrim_isPrefix _ d).subset ((List.rdropWhile_prefix isspace _).subset hc))

theorem strFetchTrim_subset_rest : (strFetchTrim src d).2 ⊆ src := fun _ hc =>
  (dropWhile_suffix isspace).subset ((strFetchNoTrim_isSuffix _ d).subset hc)

theorem notMem_strFetchTrim : d ∉ (strFetchTrim src d).1 := fun hd =>
  notMem_strFetchNoTrim _ d ((List.rdropWhile_prefix isspace _).subset hd)

end

/-- Views of a text without bars: what is a value is trimmed. -/
structure TagValue.Views (tv : TagValue) : Prop where
  tag : ch '|' ∉ tv.tag
  value : ∀ v ∈ tv.value, Trimmed isspace v ∧ ch '|' ∉ v

theorem strSplit_views (hf : Trimmed isspace f) (hbar : ch '|' ∉ f) :
    TagValue.Views ⟨(strSplit f e).1, (strSplit f e).2⟩ := by
  rw [strSplit]
  split_ifs with hmem
  · constructor
    · exact fun hd => hbar ((strFetchNoTrim_isPrefix f e).subset ((List.rdropWhile_prefix isspace _).subset hd))
    · intro v hv
      cases hv
      have hsuffix := (dropWhile_suffix isspace).trans (strFetchNoTrim_isSuffix f e)
      exact ⟨⟨fun c hc => head_dropWhile hc, hf.last_suffix hsuffix⟩, fun hd => hbar (hsuffix.subset hd)⟩
  · constructor
    · exact hbar
    · intro v hv
      cases hv

theorem strFetchTagValue_views {before : TagValue} (h : before.Views) (src : Bytes) :
    (strFetchTagValue src before (ch '|') e).2.Views := by
  rw [strFetchTagValue]
  split_ifs with hblank
  · exact h
  · exact strSplit_views (trimmed_strFetchTrim src _) (notMem_strFetchTrim src _)

/-- A field and the text behind it. -/
theorem strFetchTrim_append (hf : Trimmed isspace f) (hne : f ≠ []) (hd : d ∉ f) (rest : Bytes) :
    strFetchTrim (f ++ d :: rest) d = (f, rest) := by
  rw [strFetchTrim, hf.dropWhile_append hne, strFetchNoTrim_append f rest hd]
  exact congrArg (·, rest) hf.rdropWhile_eq

theorem strFetchTrim_all (hf : Trimmed isspace f) (hd : d ∉ f) : strFetchTrim f d = (f, []) := by
  rw [strFetchTrim, hf.dropWhile_eq, strFetchNoTrim_all f hd]
  exact congrArg (·, []) hf.rdropWhile_eq

theorem strSplit_append (htag : Trimmed isspace tag) (hvalue : Trimmed isspace value) (he : e ∉ tag) :
    strSplit (tag ++ e :: value) e = (tag, some value) := by
  rw [strSplit, if_pos (mem_append_right _ mem_cons_self), strFetchNoTrim_append tag value he]
  dsimp only
  rw [htag.rdropWhile_eq, hvalue.dropWhile_eq]

end Views

/-! ### What is parsed -/

section Parsed

variable {zone : LocalTimeZone} {cfg cfg' : NamedSchConfig} {tv tv' : TagValue}

/-- The seconds are of type `uint32_t`, and the time zone is the one that the name gives. -/
structure NamedSchConfig.Parsed (zone : LocalTimeZone) (cfg : NamedSchConfig) : Prop where
  start_lt : cfg.startTime < 2 ^ 32
  end_lt : cfg.endTime < 2 ^ 32
  zone_eq : cfg.timeZoneAdj = strToTimeZoneOffset zone.offsetMinutes cfg.timeZoneName
  name : Trimmed isspace cfg.timeZoneName ∧ ch '|' ∉ cfg.timeZoneName

theorem parsed_setAlwaysInSch (zone : LocalTimeZone) : (setAlwaysInSch zone).Parsed zone where
  start_lt := Nat.two_pow_pos 32
  end_lt := (by decide : kNoEndTime < 2 ^ 32)
  zone_eq := (strToTimeZoneOffset_local zone.fits).symm
  name := ⟨trimmed_of_forall (forall_mem_singleton.mpr rfl), (by decide : ch '|' ∉ [ch 'L'])⟩

theorem setValue_parsed (hcfg : cfg.Parsed zone) {tag value : Bytes} (hvalue : Trimmed isspace value ∧ ch '|' ∉ value)
    (h : cfg.setValue zone tag value = .ok cfg') : cfg'.Parsed zone := by
  rw [NamedSchConfig.setValue] at h
  split_ifs at h
  · cases h
    exact ⟨hcfg.start_lt, hcfg.end_lt, hcfg.zone_eq, hcfg.name⟩
  · obtain ⟨_, hstart, h⟩ := bind_ok h
    cases h
    exact ⟨strToDayTimeSec_lt (by decide) hstart, hcfg.end_lt, hcfg.zone_eq, hcfg.name⟩
  · obtain ⟨_, hend, h⟩ := bind_ok h
    cases h
    exact ⟨hcfg.start_lt, strToDayTimeSec_lt (by decide) hend, hcfg.zone_eq, hcfg.name⟩
  · cases h
    exact ⟨hcfg.start_lt, hcfg.end_lt, rfl, hvalue⟩
  · cases h
    exact hcfg

theorem setField_parsed (hcfg : cfg.Parsed zone) (htv : tv.Views) (h : cfg.setField zone tv = .ok (cfg', tv')) :
    cfg'.Parsed zone ∧ tv'.Views := by
  obtain ⟨tag, value⟩ := tv
  cases value with
  | some value =>
    rw [setField] at h
    dsimp only at h
    obtain ⟨_, hset, h⟩ := bind_ok h
    cases h
    exact ⟨setValue_parsed hcfg (htv.value value rfl) hset, htv⟩
  | none =>
    have hviews : TagValue.Views ⟨(strFetchTrim tag (ch '-')).2, some (strFetchTrim tag (ch '-')).1⟩ := by
      constructor
      · exact fun hd => htv.tag (strFetchTrim_subset_rest tag _ hd)
      · intro v hv
        cases hv
        exact ⟨trimmed_strFetchTrim tag _, fun hd => htv.tag (strFetchTrim_subset tag _ hd)⟩
    rw [setField] at h
    dsimp only at h
    split_ifs at h
    · obtain ⟨_, hstart, h⟩ := bind_ok h
      obtain ⟨_, hend, h⟩ := bind_ok h
      cases h
      exact ⟨⟨strToDayTimeSec_lt (by decide) hstart, strToDayTimeSec_lt (by decide) hend, hcfg.zone_eq, hcfg.name⟩,
        hviews⟩
    · cases h
      exact ⟨hcfg, hviews⟩

theorem parseLoop_parsed (fuel : ℕ) (cfgstr : Bytes) (hcfg : cfg.Parsed zone) (htv : tv.Views)
    (h : NamedSchConfig.parseLoop zone fuel cfgstr tv cfg = .ok cfg') : cfg'.Parsed zone := by
  induction fuel generalizing cfgstr tv cfg with
  | zero =>
    cases h
    exact hcfg
  | succ fuel ih =>
    rw [NamedSchConfig.parseLoop] at h
    split_ifs at h with hnil
    · cases h
      exact hcfg
    · dsimp only at h
      obtain ⟨⟨next, tv'⟩, hset, h⟩ := bind_ok h
      dsimp only at h
      obtain ⟨hnext, htv'⟩ := setField_parsed hcfg (strFetchTagValue_views htv cfgstr) hset
      exact ih _ hnext htv' h

theorem parse_parsed {cfgstr : Bytes} (h : NamedSchConfig.parse zone cfgstr = .ok cfg) : cfg.Parsed zone := by
  have hviews : TagValue.Views ⟨[], none⟩ := by
    constructor
    · exact not_mem_nil
    · intro v hv
      cases hv
  exact parseLoop_parsed _ _ (parsed_setAlwaysInSch zone) hviews h

end Parsed

/-! ### The end time that is parsed -/

section EndTime

variable {zone : LocalTimeZone} {cfg cfg' : NamedSchConfig} {tv tv' : TagValue}

/-- The end time is that of the text, or the one from before. -/
def EndsAt (before : ℕ) (text : Option Bytes) (endTime : ℕ) : Prop :=
  text.elim (endTime = before) fun text => strToDayTimeSec text kNoEndTime = .ok endTime

theorem setValue_endTime {tag value : Bytes} (h : cfg.setValue zone tag value = .ok cfg') :
    EndsAt cfg.endTime (if tag = kTagEnd then some value else none) cfg'.endTime := by
  rw [NamedSchConfig.setValue] at h
  split_ifs at h with hdays hstart hend htz
  · cases h
    rw [hdays, if_neg (by decide)]
    rfl
  · obtain ⟨_, _, h⟩ := bind_ok h
    cases h
    rw [hstart, if_neg (by decide)]
    rfl
  · obtain ⟨_, hsecs, h⟩ := bind_ok h
    cases h
    rw [if_pos hend]
    exact hsecs
  · cases h
    rw [if_neg hend]
    rfl
  · cases h
    rw [if_neg hend]
    rfl

theorem setField_endTime (h : cfg.setField zone tv = .ok (cfg', tv')) :
    tv' = nextViews tv ∧ EndsAt cfg.endTime (endText tv) cfg'.endTime := by
  obtain ⟨tag, value⟩ := tv
  rw [setField] at h
  cases value with
  | some value =>
    dsimp only at h
    obtain ⟨_, hset, h⟩ := bind_ok h
    cases h
    exact ⟨rfl, setValue_endTime hset⟩
  | none =>
    dsimp only at h
    rw [nextViews, endText]
    dsimp only
    split_ifs at h ⊢ with hdigit
    · obtain ⟨_, hstart, h⟩ := bind_ok h
      obtain ⟨_, hend, h⟩ := bind_ok h
      cases h
      exact ⟨rfl, hend⟩
    · cases h
      exact ⟨rfl, rfl⟩

/-- A later end time replaces an earlier one. -/
theorem EndsAt.trans {before mid endTime : ℕ} {text : Option Bytes} {texts : List Bytes} (h : EndsAt before text mid)
    (hlater : EndsAt mid texts.getLast? endTime) : EndsAt before (text.toList ++ texts).getLast? endTime := by
  rw [getLast?_append]
  cases hlast : texts.getLast? with
  | some last =>
    rw [hlast] at hlater
    exact hlater
  | none =>
    rw [hlast] at hlater
    obtain rfl : endTime = mid := hlater
    cases text with
    | none => exact h
    | some text => exact h

theorem parseLoop_endTime (fuel : ℕ) (cfgstr : Bytes) (h : NamedSchConfig.parseLoop zone fuel cfgstr tv cfg = .ok cfg') :
    EndsAt cfg.endTime ((NamedSchConfig.fields fuel cfgstr tv).filterMap endText).getLast? cfg'.endTime := by
  induction fuel generalizing cfgstr tv cfg with
  | zero =>
    cases h
    rfl
  | succ fuel ih =>
    rw [NamedSchConfig.parseLoop] at h
    rw [NamedSchConfig.fields]
    split_ifs at h ⊢ with hnil
    · cases h
      rfl
    · dsimp only at h ⊢
      generalize strFetchTagValue cfgstr tv (ch '|') (ch '=') = r at h ⊢
      obtain ⟨_, hset, h⟩ := bind_ok h
      obtain ⟨hviews, hend⟩ := setField_endTime hset
      have hlater := hend.trans (ih _ h)
      rw [hviews] at hlater
      rw [filterMap_cons]
      cases htext : endText r.2 with
      | none =>
        rw [htext] at hlater
        exact hlater
      | some text =>
        rw [htext] at hlater
        exact hlater

theorem parse_endTime {cfgstr : Bytes} (h : NamedSchConfig.parse zone cfgstr = .ok cfg) :
    NamedSchConfig.EndsInTime cfgstr ↔ cfg.endTime ≤ kNoEndTime := by
  have hend : EndsAt kNoEndTime (lastEnd cfgstr) cfg.endTime := parseLoop_endTime _ _ h
  rw [NamedSchConfig.EndsInTime]
  cases hlast : lastEnd cfgstr with
  | none =>
    rw [hlast] at hend
    have heq : cfg.endTime = kNoEndTime := hend
    exact ⟨fun _ => heq.le, fun _ text htext => by cases htext⟩
  | some text =>
    rw [hlast] at hend
    have hsecs : strToDayTimeSec text kNoEndTime = .ok cfg.endTime := hend
    constructor
    · exact fun hall => hall text rfl _ hsecs
    · intro hle text' htext secs hparse
      cases htext
      rw [hsecs] at hparse
      cases hparse
      exact hle

end EndTime

/-! ### What is printed is read again -/

section Printed

variable {zone : LocalTimeZone} {cfg cfg' : NamedSchConfig} {tv : TagValue} {tag value rest cfgstr : Bytes}

/-- Neither blanks nor bars. -/
def Plain (s : Bytes) : Prop := ∀ c ∈ s, isspace c = false ∧ c ≠ ch '|'

theorem Plain.trimmed (h : Plain value) : Trimmed isspace value := trimmed_of_forall fun c hc => (h c hc).1

theorem Plain.notMem (h : Plain value) : ch '|' ∉ value := fun hd => (h _ hd).2 rfl

theorem plain_of_all (h : value.all (fun c => !isspace c && c != ch '|') = true) : Plain value := by
  intro c hc
  have hplain := all_eq_true.mp h c hc
  rw [Bool.and_eq_true, Bool.not_eq_true'] at hplain
  exact ⟨hplain.1, bne_iff_ne.mp hplain.2⟩

theorem plain_of_isdigit {c : UInt8} (h : isdigit c = true) : isspace c = false ∧ c ≠ ch '|' := by
  refine ⟨isspace_of_isdigit h, ?_⟩
  rintro rfl
  exact absurd h (by decide)

theorem plain_toStrRevSecs (secs : ℕ) : Plain (toStrRevSecs secs) := by
  intro c hc
  rcases mem_toStrRevSecs hc with hdigit | rfl | rfl
  · exact plain_of_isdigit hdigit
  · decide
  · decide

theorem plain_weekdaysText (cfg : NamedSchConfig) : Plain cfg.weekdaysText := by
  intro c hc
  rw [weekdaysText] at hc
  split_ifs at hc
  · obtain ⟨w, -, rfl⟩ := mem_map.mp hc
    have hlt := w.isLt
    have hdigit : digval (digch w) = w := digval_digch (by omega)
    exact plain_of_isdigit (isdigit_iff.mpr (by omega))
  · exact plain_of_all (by decide) c hc

/-- A tag has characters, and no '='. -/
structure IsTag (tag : Bytes) : Prop where
  plain : Plain tag
  ne_nil : tag ≠ []
  equal_notMem : ch '=' ∉ tag

theorem strFetchTagValue_of_fetch (htag : IsTag tag) (hvalue : Trimmed isspace value)
    (hfetch : strFetchTrim rest (ch '|') = (field tag value, cfgstr)) (hne : rest.dropWhile isspace ≠ []) :
    strFetchTagValue rest tv (ch '|') (ch '=') = (cfgstr, ⟨tag, some value⟩) := by
  rw [strFetchTagValue, if_neg hne, hfetch]
  dsimp only
  rw [field, strSplit_append htag.plain.trimmed hvalue htag.equal_notMem]

theorem setField_value (hset : cfg.setValue zone tag value = .ok cfg') :
    cfg.setField zone ⟨tag, some value⟩ = .ok (cfg', ⟨tag, some value⟩) := by
  rw [setField]
  dsimp only
  rw [hset]
  rfl

theorem trimmed_field (htag : IsTag tag) (hvalue : Trimmed isspace value) : Trimmed isspace (field tag value) :=
  htag.plain.trimmed.join htag.ne_nil (by decide) hvalue

theorem notMem_field (htag : IsTag tag) (hbar : ch '|' ∉ value) : ch '|' ∉ field tag value := by
  rw [field, mem_append, mem_cons, not_or, not_or]
  exact ⟨htag.plain.notMem, by decide, hbar⟩

theorem field_ne_nil (tag value : Bytes) : field tag value ≠ [] :=
  append_ne_nil_of_right_ne_nil _ (cons_ne_nil _ _)

section

variable (fuel : ℕ) (htag : IsTag tag) (hvalue : Trimmed isspace value) (hbar : ch '|' ∉ value)
  (hset : cfg.setValue zone tag value = .ok cfg')
include htag hvalue hbar hset

/-- A field with more of them behind it. -/
theorem parseLoop_field (rest : Bytes) :
    NamedSchConfig.parseLoop zone (fuel + 1) (field tag value ++ ch '|' :: rest) tv cfg =
      NamedSchConfig.parseLoop zone fuel rest ⟨tag, some value⟩ cfg' := by
  have htrim := trimmed_field htag hvalue
  have hne := field_ne_nil tag value
  have hfetch := strFetchTrim_append htrim hne (notMem_field htag hbar) rest
  have hhead := htrim.dropWhile_append hne (ch '|' :: rest)
  have hcons : field tag value ++ ch '|' :: rest ≠ [] := append_ne_nil_of_left_ne_nil hne _
  rw [NamedSchConfig.parseLoop, if_neg hcons]
  dsimp only
  rw [strFetchTagValue_of_fetch htag hvalue hfetch (by rw [hhead]; exact hcons), setField_value hset]
  rfl

/-- The last field. -/
theorem parseLoop_last :
    NamedSchConfig.parseLoop zone (fuel + 1) (field tag value) tv cfg = .ok cfg' := by
  have htrim := trimmed_field htag hvalue
  have hne := field_ne_nil tag value
  have hfetch := strFetchTrim_all htrim (notMem_field htag hbar)
  rw [NamedSchConfig.parseLoop, if_neg hne]
  dsimp only
  rw [strFetchTagValue_of_fetch htag hvalue hfetch (by rw [htrim.dropWhile_eq]; exact hne), setField_value hset]
  cases fuel with
  | zero => rfl
  | succ fuel => rfl

end

theorem isTag_weekdays : IsTag kTagWeekdays where
  plain := plain_of_all (by decide)
  ne_nil := by decide
  equal_notMem := by decide

theorem isTag_start : IsTag kTagStart where
  plain := plain_of_all (by decide)
  ne_nil := by decide
  equal_notMem := by decide

theorem isTag_end : IsTag kTagEnd where
  plain := plain_of_all (by decide)
  ne_nil := by decide
  equal_notMem := by decide

theorem isTag_tz : IsTag kTagTZ where
  plain := plain_of_all (by decide)
  ne_nil := by decide
  equal_notMem := by decide

/-- The weekdays are read from their digits, and none from "OUT". -/
theorem weekdays_weekdaysText (cfg : NamedSchConfig) :
    (fun w : Fin 7 => cfg.weekdaysText.any fun c => digval c = w) = cfg.weekdays := by
  funext w
  rw [weekdaysText]
  split_ifs with hany
  · rw [any_map]
    cases hw : cfg.weekdays w with
    | true =>
      rw [List.any_eq_true]
      refine ⟨w, mem_filter.mpr ⟨mem_finRange w, hw⟩, ?_⟩
      have hlt := w.isLt
      exact decide_eq_true (digval_digch (by omega))
    | false =>
      rw [any_eq_false]
      intro v hv heq
      have hlt := v.isLt
      have hvalue : digval (digch v) = v := digval_digch (by omega)
      have hvw : v = w := Fin.ext (hvalue.symm.trans (of_decide_eq_true heq))
      rw [← hvw, (mem_filter.mp hv).2] at hw
      cases hw
  · have hout : ("OUT".toList.map ch).all (fun c => 7 ≤ digval c) = true := by decide
    rw [none_of_any hany w, any_eq_false]
    intro c hc heq
    have hlt := w.isLt
    have hle : 7 ≤ digval c := of_decide_eq_true (all_eq_true.mp hout c hc)
    have hvalue : digval c = w := of_decide_eq_true heq
    omega

theorem setValue_weekdays (src : NamedSchConfig) :
    cfg.setValue zone kTagWeekdays src.weekdaysText = .ok { cfg with weekdays := src.weekdays } := by
  rw [NamedSchConfig.setValue, if_pos rfl, weekdays_weekdaysText]

theorem setValue_start {secs : ℕ} (h : secs < 2 ^ 32) :
    cfg.setValue zone kTagStart (toStrRevSecs secs) = .ok { cfg with startTime := secs } := by
  rw [NamedSchConfig.setValue, if_neg (by decide), if_pos rfl, strToDayTimeSec_toStrRevSecs h]
  rfl

theorem setValue_end {secs : ℕ} (h : secs < 2 ^ 32) :
    cfg.setValue zone kTagEnd (toStrRevSecs secs) = .ok { cfg with endTime := secs } := by
  rw [NamedSchConfig.setValue, if_neg (by decide), if_neg (by decide), if_pos rfl, strToDayTimeSec_toStrRevSecs h]
  rfl

theorem setValue_tz (value : Bytes) :
    cfg.setValue zone kTagTZ value =
      .ok { cfg with timeZoneName := value, timeZoneAdj := strToTimeZoneOffset zone.offsetMinutes value } := by
  rw [NamedSchConfig.setValue, if_neg (by decide), if_neg (by decide), if_neg (by decide), if_pos rfl]

/-- An end time after `kNoEndTime` is not printed, and the one that is read is `kNoEndTime`. -/
theorem parse_revPrint (h : cfg.Parsed zone) :
    NamedSchConfig.parse zone cfg.revPrint = .ok { cfg with endTime := min cfg.endTime kNoEndTime } := by
  obtain ⟨hname, hbar⟩ := h.name
  have hstart := plain_toStrRevSecs cfg.startTime
  have hend := plain_toStrRevSecs cfg.endTime
  have hdays := plain_weekdaysText cfg
  have hlen : ∃ fuel, cfg.revPrint.length = fuel + 4 := by
    refine ⟨cfg.revPrint.length - 4, (Nat.sub_add_cancel ?_).symm⟩
    have htag : kTagWeekdays.length = 8 := rfl
    simp only [NamedSchConfig.revPrint, field, length_append, length_cons]
    omega
  obtain ⟨fuel, hfuel⟩ := hlen
  rw [NamedSchConfig.parse, hfuel, NamedSchConfig.revPrint]
  rw [parseLoop_field _ isTag_weekdays hdays.trimmed hdays.notMem (setValue_weekdays cfg)]
  split_ifs with hbefore
  · rw [cons_append, parseLoop_field _ isTag_start hstart.trimmed hstart.notMem (setValue_start h.start_lt),
      parseLoop_field _ isTag_end hend.trimmed hend.notMem (setValue_end h.end_lt),
      parseLoop_last _ isTag_tz hname hbar (setValue_tz _), ← h.zone_eq, Nat.min_eq_left hbefore.le]
  · rw [nil_append, parseLoop_field _ isTag_start hstart.trimmed hstart.notMem (setValue_start h.start_lt),
      parseLoop_last _ isTag_tz hname hbar (setValue_tz _), ← h.zone_eq, Nat.min_eq_right (not_lt.mp hbefore)]
    rfl

/-- A configuration survives its text if and only if the text it was parsed from has no end time after `kNoEndTime`. -/
theorem reparses_iff {cfgstr : Bytes} (h : NamedSchConfig.parse zone cfgstr = .ok cfg) :
    cfg.Reparses zone ↔ NamedSchConfig.EndsInTime cfgstr := by
  have hprinted := parse_revPrint (parse_parsed h)
  rw [parse_endTime h]
  constructor
  · rintro ⟨cfg', hparse, ⟨-, -, hend, -⟩, -⟩
    rw [hprinted] at hparse
    cases hparse
    rw [← hend]
    exact Nat.min_le_right cfg.endTime kNoEndTime
  · intro hend
    rw [Nat.min_eq_left hend] at hprinted
    exact ⟨cfg, hprinted, ⟨rfl, rfl, rfl, rfl⟩, fun _ _ _ => rfl⟩

end Printed

/-- Eight hours to the east. -/
def taipei : LocalTimeZone := ⟨480, by decide⟩

theorem reparses_daySession : ∃ cfg,
    NamedSchConfig.parse taipei ("Weekdays=12345|Start=084500|End=134500".toList.map ch) = .ok cfg ∧
      NamedSchConfig.EndsInTime ("Weekdays=12345|Start=084500|End=134500".toList.map ch) ∧ cfg.Reparses taipei := by
  obtain ⟨cfg, hparse, hend⟩ : ∃ cfg,
      NamedSchConfig.parse taipei ("Weekdays=12345|Start=084500|End=134500".toList.map ch) = .ok cfg ∧
        cfg.endTime = 49500 := ⟨_, rfl, rfl⟩
  have hintime := (parse_endTime hparse).mpr (by rw [hend]; decide)
  exact ⟨cfg, hparse, hintime, (reparses_iff hparse).mpr hintime⟩

/-- An end at 26:00:00 is not printed, and there is none when it is read again. -/
theorem not_reparses :
    ¬ ∀ zone cfgstr cfg, NamedSchConfig.parse zone cfgstr = .ok cfg → NamedSchConfig.Reparses zone cfg := by
  intro hall
  obtain ⟨cfg, hparse, hend⟩ : ∃ cfg,
      NamedSchConfig.parse taipei ("Weekdays=1|End=26:00:00".toList.map ch) = .ok cfg ∧ cfg.endTime = 93600 :=
    ⟨_, rfl, rfl⟩
  obtain ⟨cfg', hparse', ⟨-, -, hend', -⟩, -⟩ := hall _ _ _ hparse
  rw [parse_revPrint (parse_parsed hparse)] at hparse'
  cases hparse'
  have hmin : min 93600 kNoEndTime = 93600 := hend ▸ hend'
  exact absurd hmin (by decide)

/-- On a Tuesday the session of Monday is over, unless it has no end. -/
example :
    ((SchConfig.mk (· = 1) 0 0 93600).check 7 432000000000 .inSch).map (·.schSt) = some .outSch ∧
      ((SchConfig.mk (· = 1) 0 0 kNoEndTime).check 7 432000000000 .inSch).map (·.schSt) = some .inSch := by
  decide

end Fon9.Sch
