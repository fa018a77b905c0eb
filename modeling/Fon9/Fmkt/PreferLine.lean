import Fon9.Fmkt.Wake
import Mathlib.Order.Bounds.Basic

/-! Which lines are asked for a request, and in which order: going round from the first one, each
once, until one takes the request or refuses it. A line that the request prefers is the first one
only where the manager goes on to the next line before it asks. -/

namespace Fon9.Fmkt.TradingSvr

open Lib List LineSendResult

variable {env : Env} {m : TradingSvr} {req : ℕ}

/-- Behind such an answer no other line is asked. -/
def Stops (a : ℕ × LineSendResult) : Prop := a.2 = .sent ∨ a.2 = .rejectRequest

instance (a : ℕ × LineSendResult) : Decidable (Stops a) := inferInstanceAs (Decidable (_ ∨ _))

/-- The shortest of the intervals answered, and the one before. -/
def leastFlow (resFlowControl : Option ℕ) (asks : List (ℕ × LineSendResult)) : Option ℕ :=
  asks.foldl (fun res a =>
    match a.2 with
    | .flowControl interval => some (lessFlowControl res interval)
    | _ => res) resFlowControl

/-- Of the lines in this order some first ones are asked. -/
structure Round (m : TradingSvr) (order : List ℕ) (resFlowControl : Option ℕ) (r : SendRequestResult × TradingSvr)
    (asks : List (ℕ × LineSendResult)) : Prop where
  asked : r.2.asked = m.asked ++ asks
  lines : r.2.lines = m.lines.filter fun line => (line, LineSendResult.broken) ∉ asks
  inOrder : asks.map Prod.fst <+: order
  last : ∀ before a after, asks = before ++ a :: after → Stops a → after = []
  all : (∀ a ∈ asks, ¬ Stops a) → asks.map Prod.fst = order ∧
    r.2.flowControlTimer = (leastFlow resFlowControl asks).elim m.flowControlTimer some
  stopped : (∃ a ∈ asks, Stops a) → r.2.flowControlTimer = m.flowControlTimer
  first : asks = [] → order = []

variable {i : ℕ} {res : LineSendResult} {line : ℕ} {asks : List (ℕ × LineSendResult)}
  {r : SendRequestResult × TradingSvr} {m' : TradingSvr} {resFlowControl : Option ℕ} {a : ℕ × LineSendResult}
  {prefer : ℕ → Bool}

theorem eraseIdx_eq_filter {lines : List ℕ} (hnodup : lines.Nodup) (h : i < lines.length) :
    lines.eraseIdx i = lines.filter (· != lines[i]) := by
  rw [← hnodup.erase_getElem i h, hnodup.erase_eq_filter]

theorem asked_lineSent (utcNow : ℤ) : (m.lineSent env utcNow).asked = m.asked := by
  rw [lineSent]
  split
  · rfl
  · rfl

theorem timer_lineSent (utcNow : ℤ) : (m.lineSent env utcNow).flowControlTimer = m.flowControlTimer := by
  rw [lineSent]
  split
  · rfl
  · rfl

/-- All lines stay where the answer is another one. -/
theorem filter_not_broken {lines : List ℕ} (h : res ≠ .broken) :
    (lines.filter fun line' => (line', broken) ≠ (line, res)) = lines := by
  rw [filter_eq_self]
  intro line' _
  exact decide_eq_true fun heq => h (congrArg Prod.snd heq).symm

/-- The line `line` is asked, and does not stop; then the others are. -/
theorem Round.cons {order : List ℕ} {resFlowControl resFlowControl' : Option ℕ}
    (h : Round m' order resFlowControl' r asks) (hasked : m'.asked = m.asked ++ [(line, res)])
    (htimer : m'.flowControlTimer = m.flowControlTimer)
    (hlines : m'.lines = m.lines.filter fun line' => (line', broken) ≠ (line, res))
    (hres : ¬ Stops (line, res)) (hflow : leastFlow resFlowControl [(line, res)] = resFlowControl') :
    Round m (line :: order) resFlowControl r ((line, res) :: asks) where
  asked := by rw [h.asked, hasked, append_assoc]; rfl
  lines := by
    rw [h.lines, hlines, filter_filter]
    congr 1
    funext line'
    simp [mem_cons, not_or, and_comm]
  inOrder := by
    rw [map_cons]
    exact cons_prefix_cons.mpr ⟨rfl, h.inOrder⟩
  last := by
    intro before a after heq hstop
    cases before with
    | nil =>
      cases heq
      exact absurd hstop hres
    | cons b before =>
      cases heq
      exact h.last before a after rfl hstop
  all := by
    intro hall
    obtain ⟨hmap, harmed⟩ := h.all fun a ha => hall a (mem_cons_of_mem _ ha)
    refine ⟨by rw [map_cons, hmap], ?_⟩
    rw [harmed, htimer, ← hflow]
    rfl
  stopped := by
    rintro ⟨a, ha, hstop⟩
    rcases mem_cons.mp ha with rfl | ha
    · exact absurd hstop hres
    · exact (h.stopped ⟨a, ha, hstop⟩).trans htimer
  first := fun hnil => by cases hnil

/-- No line is left to be asked. -/
theorem Round.nil (hasked : r.2.asked = m.asked) (hlines : r.2.lines = m.lines)
    (htimer : r.2.flowControlTimer = resFlowControl.elim m.flowControlTimer some) :
    Round m [] resFlowControl r [] where
  asked := by rw [hasked, append_nil]
  lines := by
    rw [hlines]
    simp
  inOrder := prefix_rfl
  last := by
    intro before a after heq
    cases before <;> cases heq
  all := fun _ => ⟨rfl, htimer⟩
  stopped := fun ⟨_, ha, _⟩ => absurd ha not_mem_nil
  first := fun _ => rfl

/-- The line `line` is asked, and no other one. -/
theorem Round.single {order : List ℕ} (hasked : r.2.asked = m.asked ++ [(line, res)])
    (hlines : r.2.lines = m.lines.filter fun line' => (line', broken) ≠ (line, res))
    (htimer : r.2.flowControlTimer = m.flowControlTimer)
    (hall : ¬ Stops (line, res) → order = [] ∧ leastFlow resFlowControl [(line, res)] = none) :
    Round m (line :: order) resFlowControl r [(line, res)] where
  asked := hasked
  lines := by
    rw [hlines]
    congr 1
    funext line'
    simp
  inOrder := cons_prefix_cons.mpr ⟨rfl, nil_prefix⟩
  last := by
    intro before a after heq _
    cases before with
    | nil =>
      cases heq
      rfl
    | cons b before =>
      have hlen := congrArg length heq
      simp at hlen
  all := by
    intro hstop
    obtain ⟨rfl, hflow⟩ := hall (hstop _ (mem_singleton_self _))
    refine ⟨rfl, ?_⟩
    rw [hflow, htimer]
    rfl
  stopped := fun _ => htimer
  first := fun hnil => by cases hnil

/-- The lines that come are asked; what has been answered before may arm the timer, unless no line
is left, and then none has answered that it waits. -/
theorem askLines_round (utcNow : ℤ) (remaining : ℕ) (m : TradingSvr) (resFlowControl : Option ℕ) (hasBusyLine : Bool)
    (hnodup : m.lines.Nodup) (hremaining : remaining ≤ m.lines.length)
    (hflow : resFlowControl.isSome → remaining < m.lines.length) :
    ∃ asks, Round m ((roundFrom m.lines m.lastIndex).take remaining) resFlowControl
      (askLines env req utcNow remaining m resFlowControl hasBusyLine) asks := by
  induction remaining generalizing m resFlowControl hasBusyLine with
  | zero =>
    refine ⟨[], ?_⟩
    rw [take_zero]
    cases resFlowControl with
    | none => exact Round.nil rfl rfl rfl
    | some interval => exact Round.nil rfl rfl rfl
  | succ remaining ih =>
    have hlt : m.wrapLastIndex.lastIndex < m.lines.length :=
      wrapLastIndex_lt (ne_nil_of_length_pos (by omega))
    have horder : (roundFrom m.lines m.lastIndex).take (remaining + 1) =
        m.lines[m.wrapLastIndex.lastIndex] :: (roundFrom m.lines m.wrapLastIndex.lastIndex).tail.take remaining := by
      have hwrap : roundFrom m.lines m.lastIndex = roundFrom m.lines m.wrapLastIndex.lastIndex :=
        (roundFrom_wrap m.lines m.lastIndex).symm
      rw [hwrap, roundFrom_of_lt hlt, take_succ_cons, tail_cons]
    have htail : (roundFrom m.lines m.wrapLastIndex.lastIndex).tail.length = m.lines.length - 1 := by
      rw [length_tail, length_roundFrom]
    have hasked : (m.wrapLastIndex.askLine env).2.asked =
        m.asked ++ [(m.lines[m.wrapLastIndex.lastIndex], (m.wrapLastIndex.askLine env).1)] := by
      have hget : m.lines.getD m.wrapLastIndex.lastIndex 0 = m.lines[m.wrapLastIndex.lastIndex] := by
        rw [getD_eq_getElem?_getD, getElem?_eq_getElem hlt, Option.getD_some]
      rw [← hget]
      rfl
    have hlines : (m.wrapLastIndex.askLine env).2.lines = m.lines := rfl
    have hindex : (m.wrapLastIndex.askLine env).2.lastIndex = m.wrapLastIndex.lastIndex := rfl
    have htimer : (m.wrapLastIndex.askLine env).2.flowControlTimer = m.flowControlTimer := rfl
    rw [horder, askLines]
    generalize m.wrapLastIndex.askLine env = r at hasked hlines hindex htimer
    generalize m.wrapLastIndex.lastIndex = j at hlt htail hasked hindex
    obtain ⟨res, m'⟩ := r
    dsimp only at hasked hlines hindex htimer ⊢
    -- the line stays where it is, and the next one is asked
    have hgo : ∀ (resFlowControl' : Option ℕ) (hasBusyLine' : Bool), ¬ Stops (m.lines[j], res) → res ≠ .broken →
        leastFlow resFlowControl [(m.lines[j], res)] = resFlowControl' →
        ∃ asks, Round m (m.lines[j] :: (roundFrom m.lines j).tail.take remaining) resFlowControl
          (askLines env req utcNow remaining m'.nextLine resFlowControl' hasBusyLine') asks := by
      intro resFlowControl' hasBusyLine' hstops hbroken hleast
      obtain ⟨asks, hround⟩ := ih m'.nextLine resFlowControl' hasBusyLine' (hlines ▸ hnodup)
        (hlines ▸ Nat.le_of_succ_le hremaining) fun _ => hlines ▸ hremaining
      have hnext : (roundFrom m'.nextLine.lines m'.nextLine.lastIndex).take remaining =
          (roundFrom m.lines j).tail.take remaining := by
        show (roundFrom m'.lines (m'.lastIndex + 1)).take remaining = _
        rw [hlines, hindex, roundFrom_succ hlt, take_append_of_le_length (by omega)]
      rw [hnext] at hround
      refine ⟨_, hround.cons hasked htimer ?_ hstops hleast⟩
      rw [filter_not_broken hbroken]
      exact hlines
    cases res with
    | sent =>
      refine ⟨_, Round.single ?_ ?_ ((timer_lineSent utcNow).trans htimer) fun hstops => absurd (.inl rfl) hstops⟩
      · rw [← hasked]
        exact asked_lineSent utcNow
      · rw [filter_not_broken (fun h => by cases h)]
        exact (lines_lineSent utcNow).trans hlines
    | flowControl interval => exact hgo _ _ (fun h => by rcases h with h | h <;> cases h) (fun h => by cases h) rfl
    | rejectRequest =>
      refine ⟨_, Round.single hasked ?_ htimer fun hstops => absurd (.inr rfl) hstops⟩
      rw [filter_not_broken (fun h => by cases h)]
      exact hlines
    | notSupport => exact hgo _ _ (fun h => by rcases h with h | h <;> cases h) (fun h => by cases h) rfl
    | busy => exact hgo _ _ (fun h => by rcases h with h | h <;> cases h) (fun h => by cases h) rfl
    | broken =>
      have hbroken : m'.eraseLine.lines = m.lines.eraseIdx j := by
        show m'.lines.eraseIdx m'.lastIndex = _
        rw [hlines, hindex]
      have hleft : m'.eraseLine.lines =
          m.lines.filter fun line' => (line', broken) ≠ (m.lines[j], broken) := by
        rw [hbroken, eraseIdx_eq_filter hnodup hlt]
        congr 1
        funext line'
        simp [bne, Bool.beq_eq_decide_eq]
      have hlen : m'.eraseLine.lines.length = m.lines.length - 1 := by
        rw [hbroken, length_eraseIdx_of_lt hlt]
      dsimp only
      split
      · next hnil =>
        rw [hnil, length_nil] at hlen
        have hzero : remaining = 0 := by omega
        subst hzero
        refine ⟨_, Round.single hasked hleft htimer fun _ => ⟨take_zero, ?_⟩⟩
        cases resFlowControl with
        | none => rfl
        | some interval =>
          have hmore := hflow rfl
          omega
      · have hnodup' : m'.eraseLine.lines.Nodup := hbroken ▸ hnodup.sublist (eraseIdx_sublist _ _)
        obtain ⟨asks, hround⟩ := ih m'.eraseLine resFlowControl hasBusyLine hnodup' (by omega) fun hsome => by
          have hmore := hflow hsome
          omega
        have hnext : roundFrom m'.eraseLine.lines m'.eraseLine.lastIndex = (roundFrom m.lines j).tail := by
          show roundFrom m'.eraseLine.lines m'.lastIndex = _
          rw [hbroken, hindex, roundFrom_eraseIdx hlt]
        rw [hnext] at hround
        exact ⟨_, hround.cons hasked htimer hleft (fun h => by rcases h with h | h <;> cases h) rfl⟩

/-! ### What the lines are asked for one request -/

/-- The delays that have been answered. -/
def delays (asks : List (ℕ × LineSendResult)) : Set ℕ :=
  {interval | ∃ line, (line, LineSendResult.flowControl interval) ∈ asks}

theorem mem_delays_cons {interval : ℕ} :
    interval ∈ delays (a :: asks) ↔ a.2 = .flowControl interval ∨ interval ∈ delays asks := by
  constructor
  · rintro ⟨line, hline⟩
    rcases mem_cons.mp hline with rfl | hline
    · exact .inl rfl
    · exact .inr ⟨line, hline⟩
  · rintro (ha | ⟨line, hline⟩)
    · refine ⟨a.1, mem_cons.mpr (.inl ?_)⟩
      rw [← ha]
    · exact ⟨line, mem_cons_of_mem _ hline⟩

theorem lessFlowControl_isLeast (resFlowControl : Option ℕ) (interval : ℕ) :
    IsLeast {d | resFlowControl = some d ∨ interval = d} (lessFlowControl resFlowControl interval) := by
  cases resFlowControl with
  | none =>
    refine ⟨.inr rfl, ?_⟩
    rintro d (h | rfl)
    · cases h
    · exact le_rfl
  | some least =>
    unfold lessFlowControl
    dsimp only
    split
    · next hlt =>
      refine ⟨.inr rfl, ?_⟩
      rintro d (h | rfl)
      · cases h
        exact hlt.le
      · exact le_rfl
    · next hle =>
      refine ⟨.inl rfl, ?_⟩
      rintro d (h | rfl)
      · cases h
        exact le_rfl
      · exact Nat.le_of_not_lt hle

/-- Any other answer says nothing about how long to wait. -/
theorem delays_cons_of_ne (h : ∀ interval, a.2 ≠ .flowControl interval) : delays (a :: asks) = delays asks := by
  ext interval
  rw [mem_delays_cons]
  exact or_iff_right (h interval)

theorem leastFlow_cons_of_ne (h : ∀ interval, a.2 ≠ .flowControl interval) :
    leastFlow resFlowControl (a :: asks) = leastFlow resFlowControl asks := by
  obtain ⟨line, res⟩ := a
  cases res with
  | flowControl interval => exact absurd rfl (h interval)
  | sent => rfl
  | busy => rfl
  | broken => rfl
  | rejectRequest => rfl
  | notSupport => rfl

theorem leastFlow_eq_none (h : leastFlow resFlowControl asks = none) : resFlowControl = none ∧ delays asks = ∅ := by
  induction asks generalizing resFlowControl with
  | nil => exact ⟨h, Set.eq_empty_of_forall_notMem fun d ⟨_, hd⟩ => absurd hd not_mem_nil⟩
  | cons a asks ih =>
    by_cases hflow : ∃ interval, a.2 = .flowControl interval
    · obtain ⟨interval, hinterval⟩ := hflow
      have hcons : leastFlow resFlowControl (a :: asks) = leastFlow (some (lessFlowControl resFlowControl interval)) asks := by
        obtain ⟨line, res⟩ := a
        cases hinterval
        rfl
      cases (ih (hcons ▸ h)).1
    · have hne := not_exists.mp hflow
      rw [delays_cons_of_ne hne]
      exact ih (leastFlow_cons_of_ne hne ▸ h)

/-- It is the least of the delays that have been answered, and of the one before. -/
theorem leastFlow_isLeast {least : ℕ} (h : leastFlow resFlowControl asks = some least)
    : IsLeast {d | resFlowControl = some d ∨ d ∈ delays asks} least := by
  induction asks generalizing resFlowControl with
  | nil =>
    refine ⟨.inl h, ?_⟩
    rintro d (hd | ⟨line, hline⟩)
    · exact (Option.some.inj (h.symm.trans hd)).le
    · exact absurd hline not_mem_nil
  | cons a asks ih =>
    by_cases hflow : ∃ interval, a.2 = .flowControl interval
    · obtain ⟨interval, hinterval⟩ := hflow
      have hcons : leastFlow resFlowControl (a :: asks) = leastFlow (some (lessFlowControl resFlowControl interval)) asks := by
        obtain ⟨line, res⟩ := a
        cases hinterval
        rfl
      have hrest := ih (hcons ▸ h)
      have hless := lessFlowControl_isLeast resFlowControl interval
      constructor
      · rcases hrest.1 with hsome | hmem
        · cases hsome
          rcases hless.1 with hold | hnew
          · exact .inl hold
          · exact .inr (mem_delays_cons.mpr (.inl (hinterval.trans (congrArg _ hnew))))
        · exact .inr (mem_delays_cons.mpr (.inr hmem))
      · rintro d (hold | hmem)
        · exact (hrest.2 (.inl rfl)).trans (hless.2 (.inl hold))
        · rcases mem_delays_cons.mp hmem with hhead | hmem
          · have hd : interval = d := flowControl.inj (hinterval.symm.trans hhead)
            exact (hrest.2 (.inl rfl)).trans (hless.2 (.inr hd))
          · exact hrest.2 (.inr hmem)
    · have hne := not_exists.mp hflow
      rw [delays_cons_of_ne hne]
      exact ih (leastFlow_cons_of_ne hne ▸ h)

/-- The ready lines are asked, each once at most, until one takes the request or refuses it. -/
structure AsksInTurn (m : TradingSvr) (r : SendRequestResult × TradingSvr) (asks : List (ℕ × LineSendResult)) : Prop where
  asked : r.2.asked = m.asked ++ asks
  once : (asks.map Prod.fst).Nodup
  ready : ∀ a ∈ asks, a.1 ∈ m.lines
  every : ∀ line ∈ m.lines, line ∈ asks.map Prod.fst ∨ ∃ a ∈ asks, Stops a
  last : ∀ before a after, asks = before ++ a :: after → Stops a → after = []
  lines : r.2.lines = m.lines.filter fun line => (line, LineSendResult.broken) ∉ asks
  armed : (∀ a ∈ asks, ¬ Stops a) → (delays asks).Nonempty →
    ∃ interval, r.2.flowControlTimer = some interval ∧ IsLeast (delays asks) interval
  unarmed : (∃ a ∈ asks, Stops a) ∨ ¬ (delays asks).Nonempty → r.2.flowControlTimer = m.flowControlTimer

theorem Round.asksInTurn (h : Round m' (roundFrom m.lines i) none r asks) (hnodup : m.lines.Nodup)
    (hlines : m'.lines = m.lines) (hasked : m'.asked = m.asked) (htimer : m'.flowControlTimer = m.flowControlTimer)
    : AsksInTurn m r asks where
  asked := hasked ▸ h.asked
  once := ((nodup_rotate).mpr hnodup).sublist h.inOrder.sublist
  ready := fun a ha => mem_rotate.mp (h.inOrder.subset (mem_map_of_mem ha))
  every := by
    intro line hline
    by_cases hstop : ∃ a ∈ asks, Stops a
    · exact .inr hstop
    · have hall : ∀ a ∈ asks, ¬ Stops a := fun a ha hstops => hstop ⟨a, ha, hstops⟩
      refine .inl ?_
      rw [(h.all hall).1]
      exact mem_rotate.mpr hline
  last := h.last
  lines := hlines ▸ h.lines
  armed := by
    intro hall hdelays
    obtain ⟨-, harmed⟩ := h.all hall
    cases hleast : leastFlow none asks with
    | none => exact absurd hdelays (Set.not_nonempty_iff_eq_empty.mpr (leastFlow_eq_none hleast).2)
    | some least =>
      rw [hleast] at harmed
      refine ⟨least, harmed, ?_⟩
      have hset : {d | (none : Option ℕ) = some d ∨ d ∈ delays asks} = delays asks := by
        ext d
        exact or_iff_right fun h => by cases h
      exact hset ▸ leastFlow_isLeast hleast
  unarmed := by
    rw [← htimer]
    rintro (hstop | hdelays)
    · exact h.stopped hstop
    · by_cases hstop : ∃ a ∈ asks, Stops a
      · exact h.stopped hstop
      · obtain ⟨-, harmed⟩ := h.all fun a ha hstops => hstop ⟨a, ha, hstops⟩
        cases hleast : leastFlow none asks with
        | none =>
          rw [hleast] at harmed
          exact harmed
        | some least =>
          rcases (leastFlow_isLeast hleast).1 with h | h
          · cases h
          · exact absurd ⟨least, h⟩ hdelays

theorem asked_selectLine : (m.selectLine env).2.asked = m.asked := by
  rw [selectLine]
  split_ifs
  · dsimp only
    split_ifs <;> rfl
  · rfl

theorem timer_selectLine : (m.selectLine env).2.flowControlTimer = m.flowControlTimer := by
  rw [selectLine]
  split_ifs
  · dsimp only
    split_ifs <;> rfl
  · rfl

theorem byLinesOnly_round (env : Env) (req : ℕ) (h : m.lines.Nodup) (hlines : m.lines ≠ []) :
    ∃ asks, Round (m.selectLine env).2 (roundFrom m.lines (m.selectLine env).2.lastIndex) none
      (sendRequest_ByLinesOnly env req m) asks := by
  rw [sendRequest_ByLinesOnly, if_neg hlines]
  have hkept : (m.selectLine env).2.lines = m.lines := lines_selectLine
  obtain ⟨asks, hround⟩ := @askLines_round env req (m.selectLine env).1 m.lines.length (m.selectLine env).2 none false
    (hkept ▸ h) (hkept ▸ le_rfl) fun h => by cases h
  have htake : (roundFrom m.lines (m.selectLine env).2.lastIndex).take m.lines.length =
      roundFrom m.lines (m.selectLine env).2.lastIndex := take_of_length_le (length_roundFrom _ _).le
  rw [hkept, htake] at hround
  dsimp only
  rw [hkept]
  exact ⟨asks, hround⟩

theorem byLinesOnly_asksInTurn (env : Env) (req : ℕ) (h : m.lines.Nodup) :
    ∃ asks, AsksInTurn m (sendRequest_ByLinesOnly env req m) asks := by
  by_cases hlines : m.lines = []
  · refine ⟨[], Round.asksInTurn (i := 0) ?_ h rfl rfl rfl⟩
    rw [sendRequest_ByLinesOnly, if_pos hlines, hlines]
    exact Round.nil rfl rfl rfl
  · obtain ⟨asks, hround⟩ := byLinesOnly_round env req h hlines
    exact ⟨asks, hround.asksInTurn h lines_selectLine asked_selectLine timer_selectLine⟩

/-! ### The line that is asked first -/

/-- The line at a place, going round. -/
def lineAt (m : TradingSvr) (i : ℕ) : ℕ := m.lines.getD (i % m.lines.length) 0

/-- The place where the first line is asked from `i` on. -/
def firstIndex (m : TradingSvr) (i : ℕ) : ℕ := if m.lines.length ≤ i then 0 else i

/-- The line at the place has had what it may have in its interval: the next one is asked. -/
def LineIsFull (env : Env) (m : TradingSvr) (i : ℕ) : Prop :=
  ¬ (env.lineFlowInterval (m.lineAt i) < env.utcNow m.ticks - m.lastLineSentBeginTime ∨
      env.lineFlowInterval (m.lineAt i) = 0) ∧
    env.lineFlowCount (m.lineAt i) ≤ m.lastLineSentCount

/-- The first line that is asked is one that the request prefers. -/
def AsksPreferredFirst (prefer : ℕ → Bool) (asks : List (ℕ × LineSendResult)) : Prop := ∀ a ∈ asks.head?, prefer a.1

/-- What is asked in a call. -/
def asksOf (m m' : TradingSvr) : List (ℕ × LineSendResult) := m'.asked.drop m.asked.length

theorem firstAsked_mem (h : Round m' (roundFrom m.lines i) none r asks) (hlines : m.lines ≠ []) :
    ∃ a, asks.head? = some a ∧ a.1 = m.lineAt (m.firstIndex i) := by
  have hpos := length_pos_iff.mpr hlines
  have hlt : m.firstIndex i < m.lines.length := by
    unfold firstIndex
    split <;> omega
  have horder : roundFrom m.lines i = m.lineAt (m.firstIndex i) :: (roundFrom m.lines (m.firstIndex i)).tail := by
    have hget : m.lineAt (m.firstIndex i) = m.lines[m.firstIndex i] := by
      rw [lineAt, Nat.mod_eq_of_lt hlt, getD_eq_getElem?_getD, getElem?_eq_getElem hlt, Option.getD_some]
    rw [hget, ← roundFrom_wrap m.lines i]
    show roundFrom m.lines (m.firstIndex i) = _
    rw [roundFrom_of_lt hlt, tail_cons]
  cases asks with
  | nil =>
    have hnil := h.first rfl
    rw [horder] at hnil
    cases hnil
  | cons a asks =>
    have hpre := h.inOrder
    rw [horder, map_cons] at hpre
    exact ⟨a, rfl, (cons_prefix_cons.mp hpre).1⟩

theorem lastIndex_selectLine_next (h : env.tryLastLine = false) : (m.selectLine env).2.lastIndex = m.lastIndex + 1 := by
  rw [selectLine, h]
  rfl

theorem lastIndex_selectLine_full (h : env.tryLastLine = true) (hlt : m.lastIndex < m.lines.length)
    (hfull : LineIsFull env m m.lastIndex) : (m.selectLine env).2.lastIndex = m.lastIndex + 1 := by
  obtain ⟨hinterval, hcount⟩ := hfull
  rw [lineAt, Nat.mod_eq_of_lt hlt] at hinterval hcount
  rw [selectLine, if_pos h]
  dsimp only [tick]
  split
  · rfl
  · next h => exact absurd hlt h

/-- Otherwise the line where it is comes first. -/
theorem lastIndex_selectLine_last (h : env.tryLastLine = true)
    (hstays : ¬ (m.lastIndex < m.lines.length ∧ LineIsFull env m m.lastIndex)) :
    (m.selectLine env).2.lastIndex = m.lastIndex := by
  rw [selectLine, if_pos h]
  dsimp only [tick]
  split
  · next hlt =>
    split
    · rfl
    · next hinterval =>
      split
      · next hcount =>
        refine absurd ⟨hlt, ?_⟩ hstays
        rw [LineIsFull, lineAt, Nat.mod_eq_of_lt hlt]
        exact ⟨hinterval, hcount⟩
      · rfl
  · rfl

/-- `SelectPreferNextLine` goes to the place behind which there is the first line that is preferred. -/
def BeforePreferred (prefer : ℕ → Bool) (m : TradingSvr) (i : ℕ) : Prop :=
  (i = m.lastIndex ∨ ∃ k, i = (m.lastIndex + 1 + k) % m.lines.length ∧
      ∀ t ≤ k, prefer (m.lineAt (m.lastIndex + 1 + t)) = false) ∧
    prefer (m.lineAt (i + 1)) = true

theorem lineAt_mem (m : TradingSvr) (h : m.lines ≠ []) (i : ℕ) : m.lineAt i ∈ m.lines := by
  have hlt : i % m.lines.length < m.lines.length := Nat.mod_lt _ (length_pos_iff.mpr h)
  rw [lineAt, getD_eq_getElem?_getD, getElem?_eq_getElem hlt, Option.getD_some]
  exact getElem_mem hlt

theorem lineAt_mod (i t : ℕ) : m.lineAt (i % m.lines.length + t) = m.lineAt (i + t) := by
  rw [lineAt, lineAt, Nat.mod_add_mod]

theorem selectPreferLoop_spec (turns : ℕ) (m : TradingSvr)
    (h : ∃ t < turns, prefer (m.lineAt (m.lastIndex + 1 + t)) = true) :
    ∃ i, BeforePreferred prefer m i ∧ selectPreferLoop prefer turns m = { m with lastIndex := i } := by
  induction turns generalizing m with
  | zero =>
    obtain ⟨t, ht, -⟩ := h
    exact absurd ht (Nat.not_lt_zero t)
  | succ turns ih =>
    rw [selectPreferLoop]
    split
    · next hnext => exact ⟨m.lastIndex, ⟨.inl rfl, hnext⟩, rfl⟩
    · next hnext =>
      have hfalse : prefer (m.lineAt (m.lastIndex + 1)) = false := Bool.eq_false_iff.mpr hnext
      obtain ⟨t, ht, hprefer⟩ := h
      cases t with
      | zero => exact absurd hprefer hnext
      | succ t =>
        have hline : ∀ t, m.lineAt ((m.lastIndex + 1) % m.lines.length + 1 + t) = m.lineAt (m.lastIndex + 1 + (t + 1)) := by
          intro t
          rw [Nat.add_assoc _ 1 t, lineAt_mod, Nat.add_comm 1 t]
        obtain ⟨i, ⟨hplace, hbehind⟩, heq⟩ := ih { m with lastIndex := (m.lastIndex + 1) % m.lines.length }
          ⟨t, by omega, (congrArg prefer (hline t)).trans hprefer⟩
        refine ⟨i, ⟨.inr ?_, hbehind⟩, heq⟩
        rcases hplace with hhere | ⟨k, hk, hnone⟩
        · refine ⟨0, hhere, ?_⟩
          intro t ht
          rw [Nat.le_zero.mp ht]
          exact hfalse
        · refine ⟨k + 1, ?_, ?_⟩
          · rw [hk]
            show ((m.lastIndex + 1) % m.lines.length + 1 + k) % m.lines.length = _
            rw [Nat.add_assoc _ 1 k, Nat.mod_add_mod, Nat.add_comm 1 k]
          · intro t ht
            cases t with
            | zero => exact hfalse
            | succ t =>
              rw [← hline t]
              exact hnone t (Nat.le_of_succ_le_succ ht)

/-- It goes round once, and so comes to each line. -/
theorem exists_lineAt (h : line ∈ m.lines) (j : ℕ) : ∃ t < m.lines.length, m.lineAt (j + t) = line := by
  obtain ⟨i, hi, rfl⟩ := getElem_of_mem h
  have hmod := Nat.mod_lt j (Nat.zero_lt_of_lt hi)
  refine ⟨(i + m.lines.length - j % m.lines.length) % m.lines.length, Nat.mod_lt _ (Nat.zero_lt_of_lt hi), ?_⟩
  have hplace : (j + (i + m.lines.length - j % m.lines.length) % m.lines.length) % m.lines.length = i := by
    calc (j + (i + m.lines.length - j % m.lines.length) % m.lines.length) % m.lines.length
        = (j % m.lines.length + (i + m.lines.length - j % m.lines.length)) % m.lines.length := by
          rw [Nat.add_mod_mod, Nat.mod_add_mod]
      _ = (i + m.lines.length) % m.lines.length := by
          congr 1
          omega
      _ = i := by rw [Nat.add_mod_right, Nat.mod_eq_of_lt hi]
  rw [lineAt, hplace, getD_eq_getElem?_getD, getElem?_eq_getElem hi, Option.getD_some]

theorem selectPreferNextLine_spec (h : ∃ line ∈ m.lines, prefer line = true) :
    ∃ i, BeforePreferred prefer m i ∧ m.selectPreferNextLine prefer = { m with lastIndex := i } := by
  obtain ⟨line, hline, hprefer⟩ := h
  obtain ⟨t, ht, hat⟩ := exists_lineAt hline (m.lastIndex + 1)
  exact selectPreferLoop_spec _ m ⟨t, ht, hat ▸ hprefer⟩

/-- There is one such place. -/
theorem BeforePreferred.unique {i j : ℕ} (hi : BeforePreferred prefer m i) (hj : BeforePreferred prefer m j)
    : i = j := by
  have hlater : ∀ k t, (∀ t ≤ k, prefer (m.lineAt (m.lastIndex + 1 + t)) = false) →
      prefer (m.lineAt ((m.lastIndex + 1 + t) % m.lines.length + 1)) = true → ¬ t < k := by
    intro k t hnone hprefer hlt
    rw [lineAt_mod] at hprefer
    exact Bool.false_ne_true ((hnone (t + 1) hlt).symm.trans hprefer)
  obtain ⟨rfl | ⟨k, rfl, hk⟩, hi⟩ := hi
  · obtain ⟨rfl | ⟨l, rfl, hl⟩, -⟩ := hj
    · rfl
    · exact absurd ((hl 0 (Nat.zero_le l)).symm.trans hi) Bool.false_ne_true
  · obtain ⟨rfl | ⟨l, rfl, hl⟩, hj⟩ := hj
    · exact absurd ((hk 0 (Nat.zero_le k)).symm.trans hj) Bool.false_ne_true
    · have hkl : k = l := by
        have h₁ := hlater l k hl hi
        have h₂ := hlater k l hk hj
        omega
      rw [hkl]

/-! ### The request -/

theorem asked_helped (m : TradingSvr) (req : ℕ) (res : SendRequestResult) : (m.helped req res).asked = m.asked := by
  cases res with
  | sent => rfl
  | rejectRequest => rfl
  | requestEnd => rfl
  | queuing => rfl
  | noReadyLine => rfl

theorem asked_askHelper (env : Env) (req : ℕ) (m : TradingSvr) : (askHelper env req m).2.asked = m.asked :=
  asked_helped _ req _

/-- What the helper is asked comes behind the lines. -/
theorem asked_byLinesOrHelper (env : Env) (req : ℕ) (m : TradingSvr) :
    (sendRequest_ByLinesOrHelper env req m).2.asked = (sendRequest_ByLinesOnly env req m).2.asked := by
  rw [sendRequest_ByLinesOrHelper]
  generalize sendRequest_ByLinesOnly env req m = r
  obtain ⟨res, m'⟩ := r
  cases res with
  | queuing =>
    dsimp only
    split
    · exact asked_askHelper env req m'
    · rfl
  | noReadyLine =>
    dsimp only
    split
    · split
      · exact asked_askHelper env req m'
      · exact asked_askHelper env req m'
    · rfl
  | rejectRequest => rfl
  | sent => rfl
  | requestEnd => rfl

theorem asked_checkOpLoop (req i : ℕ) (queue : List ℕ) (m : TradingSvr) :
    (checkOpLoop env req i queue m).2.asked = m.asked := by
  induction queue generalizing i m with
  | nil => rfl
  | cons target rest ih =>
    rw [checkOpLoop]
    split
    · rfl
    · rfl
    · rfl
    · rfl
    · exact ih (i + 1) m.tick

theorem asked_checkOpQueuingRequest (env : Env) (req : ℕ) (m : TradingSvr) :
    (checkOpQueuingRequest env req m).2.asked = m.asked := by
  rw [checkOpQueuingRequest]
  split
  · exact asked_checkOpLoop req 0 _ m.tick
  · rfl

/-- No line is asked where requests wait. -/
theorem asked_sendRequest (env : Env) (req : ℕ) (m : TradingSvr) :
    (sendRequest env req m).asked =
      if m.reqQueue = [] then (sendRequest_ByLinesOnly env req (m.submit req)).2.asked else m.asked := by
  have hpush : ∀ r : SendRequestResult × TradingSvr,
      (if r.1 ≠ .queuing then r.2 else requestPushToQueue r.2 req).asked = r.2.asked := by
    intro r
    split
    · rfl
    · rfl
  rw [sendRequest, hpush]
  show (if m.reqQueue = [] then _ else _ : SendRequestResult × TradingSvr).2.asked = _
  split
  · exact asked_byLinesOrHelper env req (m.submit req)
  · exact asked_checkOpQueuingRequest env req (m.submit req)

/-- After `SelectPreferNextLine` has gone to place `i`, a line that is preferred comes first: with
`TryLastLine` where the counters force the next line, or where the last line is preferred too;
else where the place is not behind the end, or the first line of all is preferred. -/
def ComesFirst (env : Env) (prefer : ℕ → Bool) (m : TradingSvr) (i : ℕ) : Prop :=
  if env.tryLastLine then (i < m.lines.length ∧ LineIsFull env m i) ∨ prefer (m.lineAt (m.firstIndex i)) = true
  else i < m.lines.length ∨ prefer (m.lineAt 0) = true

/-- The line that is asked first is preferred where it should be. -/
theorem firstAsked_iff (hi : m.lastIndex = i) (hnext : prefer (m.lineAt (i + 1)) = true) :
    prefer (m.lineAt (m.firstIndex (m.selectLine env).2.lastIndex)) = true ↔ ComesFirst env prefer m i := by
  have hwrap : i < m.lines.length → m.lineAt (m.firstIndex (i + 1)) = m.lineAt (i + 1) := by
    intro hlt
    unfold firstIndex
    split
    · next hend =>
      have hlen : i + 1 = m.lines.length := by omega
      rw [lineAt, lineAt, hlen, Nat.mod_self, Nat.zero_mod]
    · rfl
  unfold ComesFirst
  split
  · next htry =>
    by_cases hfull : i < m.lines.length ∧ LineIsFull env m i
    · rw [lastIndex_selectLine_full htry (hi ▸ hfull.1) (hi ▸ hfull.2), hi, hwrap hfull.1]
      exact iff_of_true hnext (.inl hfull)
    · rw [lastIndex_selectLine_last htry (hi ▸ hfull), hi]
      exact (or_iff_right hfull).symm
  · next htry =>
    rw [lastIndex_selectLine_next (Bool.eq_false_iff.mpr htry), hi]
    by_cases hlt : i < m.lines.length
    · rw [hwrap hlt]
      exact iff_of_true hnext (.inl hlt)
    · have hzero : m.firstIndex (i + 1) = 0 := if_pos (by omega)
      rw [hzero]
      exact (or_iff_right hlt).symm

theorem asksPreferredFirst_iff (h : m.lines.Nodup) (hqueue : m.reqQueue = []) (hlines : m.lines ≠ [])
    (hnext : prefer (m.lineAt (i + 1)) = true) :
    AsksPreferredFirst prefer (asksOf m (sendRequest env req { m with lastIndex := i })) ↔ ComesFirst env prefer m i := by
  generalize hs : ({ m with lastIndex := i } : TradingSvr).submit req = s
  have hsLines : s.lines = m.lines := by rw [← hs]; rfl
  have hcall : (sendRequest env req { m with lastIndex := i }).asked = (sendRequest_ByLinesOnly env req s).2.asked := by
    rw [asked_sendRequest, if_pos hqueue, hs]
  obtain ⟨asks, hround⟩ := byLinesOnly_round env req (hsLines ▸ h) (hsLines ▸ hlines)
  have hasks : asksOf m (sendRequest env req { m with lastIndex := i }) = asks := by
    have hsAsked : s.asked = m.asked := by rw [← hs]; rfl
    rw [asksOf, hcall, hround.asked, asked_selectLine, hsAsked, drop_left]
  obtain ⟨a, hhead, hline⟩ := firstAsked_mem hround (hsLines ▸ hlines)
  have hfirst : AsksPreferredFirst prefer asks ↔ prefer (s.lineAt (s.firstIndex (s.selectLine env).2.lastIndex)) = true := by
    rw [AsksPreferredFirst, hhead, ← hline]
    exact ⟨fun hall => hall a rfl, fun hprefer b hb => Option.some.inj hb ▸ hprefer⟩
  rw [hasks, hfirst, firstAsked_iff (i := i)]
  · rw [← hs]
    rfl
  · rw [← hs]
    rfl
  · rw [← hs]
    exact hnext

/-- A line that the request prefers is asked first when `SelectPreferNextLine` has been called,
and for any request the lines are asked in turn. -/
def PrefersLine (env : Env) (prefer : ℕ → Bool) (req : ℕ) (m : TradingSvr) : Prop :=
  ((∃ line ∈ m.lines, prefer line = true) →
    AsksPreferredFirst prefer (asksOf m (sendRequest env req (m.selectPreferNextLine prefer)))) ∧
  ∃ asks, AsksInTurn m (sendRequest_ByLinesOnly env req m) asks

theorem prefersLine_iff (env : Env) (prefer : ℕ → Bool) (req : ℕ) (m : TradingSvr) (h : m.lines.Nodup) :
    PrefersLine env prefer req m ↔
      (m.reqQueue = [] → m.lines ≠ [] → ∀ i, BeforePreferred prefer m i → ComesFirst env prefer m i) := by
  constructor
  · rintro ⟨hfirst, -⟩ hqueue hlines i hi
    have hpreferred : ∃ line ∈ m.lines, prefer line = true := ⟨_, m.lineAt_mem hlines (i + 1), hi.2⟩
    obtain ⟨j, hj, hselect⟩ := selectPreferNextLine_spec hpreferred
    have hasks := hfirst hpreferred
    rw [hselect, ← hi.unique hj] at hasks
    exact (asksPreferredFirst_iff h hqueue hlines hi.2).mp hasks
  · intro hcomes
    refine ⟨fun hpreferred => ?_, byLinesOnly_asksInTurn env req h⟩
    obtain ⟨i, hi, hselect⟩ := selectPreferNextLine_spec hpreferred
    rw [hselect]
    by_cases hqueue : m.reqQueue = []
    · have hlines : m.lines ≠ [] := by
        obtain ⟨line, hline, -⟩ := hpreferred
        exact List.ne_nil_of_mem hline
      exact (asksPreferredFirst_iff h hqueue hlines hi.2).mpr (hcomes hqueue hlines i hi)
    · have hnone : asksOf m (sendRequest env req { m with lastIndex := i }) = [] := by
        rw [asksOf, asked_sendRequest, if_neg hqueue, List.drop_length]
      rw [hnone]
      intro a ha
      cases ha

/-- Two lines in turn, the second of which the request prefers. -/
theorem prefersLine_twoLines : PrefersLine busyOrNotSupport (· == 1) 7 { lines := [0, 1] } := by
  refine (prefersLine_iff busyOrNotSupport (· == 1) 7 { lines := [0, 1] } (by decide)).mpr ?_
  intro _ _ i hi
  refine Or.inl ?_
  rcases hi.1 with rfl | ⟨k, rfl, -⟩
  · exact Nat.two_pos
  · exact Nat.mod_lt _ Nat.two_pos

/-- With `TryLastLine` the line is asked behind which the preferred one is. -/
def tryLastLine : Env := { busyOrNotSupport with tryLastLine := true }

theorem not_prefersLine : ¬ ∀ (env : Env) (prefer : ℕ → Bool) (req : ℕ) (m : TradingSvr), m.lines.Nodup →
    PrefersLine env prefer req m := by
  intro h
  have hlines := h tryLastLine (· == 1) 7 ([Op.tradingLineReady 0, .tradingLineReady 1].foldl (step tryLastLine) {}) (by decide)
  have hfirst := hlines.1 ⟨1, by decide, rfl⟩ (0, .notSupport) (by decide)
  exact absurd hfirst (by decide)

end Fon9.Fmkt.TradingSvr
