import Trader.BookHistory

set_option autoImplicit false

/-!
# A book of depth one

At depth one Binance sends the top of the book and nothing else, so a
`CHANGE` stands for the whole side: the side is cleared before the level is
set. What a side holds is then the level of its last `CHANGE` and what the
`NEW` and `DELETE` entries after it made of that (`topOfBook`). Nothing that
came before is remembered, and nothing that happens to the other side
matters.
-/

namespace TopOfBook

open Fix Binance EarlyExit Core Core.OrderBook

variable {δ : Type}

/-- Whether an entry is for a side. -/
def onSide (side : BookSide) (g : IncrementEntry δ) : Bool :=
  match g.mdEntryType with
  | some (.ok tp) => tp = side.entryType
  | _ => false

/-- Whether an entry has an action. -/
def hasAction (act : Char) (g : IncrementEntry δ) : Bool :=
  match g.mdUpdateAction with
  | some (.ok act') => act' = act
  | _ => false

/-- The entries of a side: those of a sequence of increments that are taken for
`BTCUSDT` and have the type of the side, in order. -/
def sideEntries (side : BookSide) (msgs : List (MarketDataIncrementalRefresh δ)) :
    List (IncrementEntry δ) :=
  (msgs.flatMap (fun msg => btcEntries (entriesOf msg))).filter (onSide side)

theorem onSide_eq_true_iff {side : BookSide} {g : IncrementEntry δ} :
    onSide side g = true ↔ g.mdEntryType = some (.ok side.entryType) := by
  unfold onSide
  split
  · next tp htp => simp [htp]
  · next h => exact iff_of_false nofun (h _)

theorem hasAction_eq_true_iff {act : Char} {g : IncrementEntry δ} :
    hasAction act g = true ↔ g.mdUpdateAction = some (.ok act) := by
  unfold hasAction
  split
  · next act' hact => simp [hact]
  · next h => exact iff_of_false nofun (h _)

/-- Each side has a type of its own. -/
theorem entryType_injective : Function.Injective BookSide.entryType := by
  intro side side' h
  cases side <;> cases side' <;> first | rfl | exact absurd h (by decide)

variable (toUint64 : δ → UInt64 → UInt64)

/-- **What a later entry does**: a `NEW` sets its level, a `DELETE` removes it. -/
def newOrDelete (g : IncrementEntry δ) : List (KeyOp UInt64 UInt64) :=
  match g.mdUpdateAction, g.mdEntryPx with
  | some (.ok act), some (.ok px) =>
    if act = mdUpdateActionNew then setOps toUint64 g px
    else if act = mdUpdateActionDelete then [.remove (priceTicks toUint64 px)]
    else []
  | _, _ => []

/-- The side that holds one level. -/
def singleLevel (px sz : UInt64) : UInt64 → Option UInt64 :=
  Function.update (fun _ => none) px (some sz)

section Entry

variable {side : BookSide} {g : IncrementEntry δ}

/-- An entry of the other side, or of neither, is nothing to a side. -/
theorem incrementOps_of_not_onSide {clear : Bool} (h : onSide side g = false) :
    incrementOps toUint64 clear side g = [] := by
  unfold incrementOps
  split
  · next tp act px htp _ _ =>
    refine if_neg (fun hside => ?_)
    rw [onSide_eq_true_iff.mpr (hside ▸ htp)] at h
    cases h
  · rfl

/-- A `CHANGE` clears its side and sets its level. -/
theorem incrementOps_change (hside : onSide side g = true)
    (hact : hasAction mdUpdateActionChange g = true) (hread : IncrementReadable g) :
    ∃ px sz, g.mdEntryPx = some (.ok px) ∧ g.mdEntrySize = some (.ok sz)
      ∧ incrementOps toUint64 true side g
        = [.clear, .set (priceTicks toUint64 px) (sizeTicks toUint64 sz)] := by
  have htp := onSide_eq_true_iff.mp hside
  have hchange := hasAction_eq_true_iff.mp hact
  obtain ⟨tp, action, htp', haction, hlevel⟩ := hread
  have htype : tp = side.entryType := by
    rw [htp] at htp'
    cases htp'
    rfl
  have hbook : tp = mdEntryTypeBid ∨ tp = mdEntryTypeOffer := by
    rw [htype]
    cases side with
    | bid => exact Or.inl rfl
    | offer => exact Or.inr rfl
  obtain ⟨⟨px, hpx⟩, act, hact', hsz⟩ := hlevel hbook
  obtain rfl : act = mdUpdateActionChange := by
    rw [haction, hact'] at hchange
    cases hchange
    rfl
  obtain ⟨sz, hsz⟩ := hsz (Or.inl rfl)
  refine ⟨px, sz, hpx, hsz, ?_⟩
  unfold incrementOps
  rw [htp, hchange, hpx]
  show (if side.entryType = side.entryType then actionOps toUint64 true g _ px else []) = _
  rw [if_pos rfl, actionOps, setOps, hsz]
  rfl

/-- An entry that is no `CHANGE` clears nothing. -/
theorem incrementOps_of_not_change (hside : onSide side g = true)
    (hact : hasAction mdUpdateActionChange g = false) :
    incrementOps toUint64 true side g = newOrDelete toUint64 g := by
  have htp := onSide_eq_true_iff.mp hside
  unfold incrementOps newOrDelete
  rw [htp]
  rcases haction : g.mdUpdateAction with _ | text | act
  · rfl
  · rfl
  rcases hpx : g.mdEntryPx with _ | text | px
  · rfl
  · rfl
  have hne : act ≠ mdUpdateActionChange := by
    rintro rfl
    rw [hasAction_eq_true_iff.mpr haction] at hact
    cases hact
  show (if side.entryType = side.entryType then actionOps toUint64 true g act px else []) = _
  rw [if_pos rfl, actionOps]
  by_cases hnew : act = mdUpdateActionNew
  · have hdel : act ≠ mdUpdateActionDelete := by
      rw [hnew]
      decide
    rw [if_neg hdel, if_neg hne, if_pos hnew]
    exact (if_pos hnew).symm
  · rw [if_neg hne, if_neg hnew]
    exact (if_neg hnew).symm

/-- Of the entries after the last `CHANGE`, only the `NEW` ones set a level. -/
theorem countP_isSet_newOrDelete_le (g : IncrementEntry δ) :
    (newOrDelete toUint64 g).countP KeyOp.isSet
      ≤ if hasAction mdUpdateActionNew g then 1 else 0 := by
  unfold newOrDelete
  split
  · next act px hact hpx =>
    by_cases hnew : act = mdUpdateActionNew
    · rw [if_pos hnew, if_pos (hasAction_eq_true_iff.mpr (hnew ▸ hact)), setOps]
      split
      · exact Nat.le_refl 1
      · exact Nat.zero_le 1
    · rw [if_neg hnew]
      split
      · exact Nat.zero_le _
      · exact Nat.zero_le _
  · exact Nat.zero_le _

theorem countP_isSet_flatMap_le (gs : List (IncrementEntry δ)) :
    (gs.flatMap (newOrDelete toUint64)).countP KeyOp.isSet
      ≤ (gs.filter (hasAction mdUpdateActionNew)).length := by
  induction gs with
  | nil => exact Nat.le_refl 0
  | cons g gs ih =>
    have hg := countP_isSet_newOrDelete_le toUint64 g
    rw [List.flatMap_cons, List.countP_append, List.filter_cons]
    split_ifs at hg ⊢ with hnew
    · rw [List.length_cons]
      omega
    · omega

end Entry

/-! ## How many levels there are -/

/-- A map has at most one more entry for every set. -/
theorem size_mapRun_le {cmp : UInt64 → UInt64 → Ordering} [Std.TransCmp cmp]
    (ops : List (KeyOp UInt64 UInt64)) (m : BtreeMap cmp) :
    (mapRun ops m).size ≤ m.size + ops.countP KeyOp.isSet := by
  induction ops generalizing m with
  | nil => exact Nat.le_refl _
  | cons o ops ih =>
    have hrun := ih (mapOp m o)
    rw [List.countP_cons]
    show (mapRun ops (mapOp m o)).size ≤ _
    cases o with
    | set px sz =>
      have hsize : (mapOp m (.set px sz)).size ≤ m.size + 1 := Std.ExtTreeMap.size_insert_le
      show _ ≤ m.size + (ops.countP KeyOp.isSet + 1)
      omega
    | remove px =>
      have hsize : (mapOp m (.remove px)).size ≤ m.size := Std.ExtTreeMap.size_erase_le
      show _ ≤ m.size + (ops.countP KeyOp.isSet + 0)
      omega
    | clear =>
      have hsize : (mapOp m .clear).size = 0 := Std.ExtTreeMap.size_empty
      show _ ≤ m.size + (ops.countP KeyOp.isSet + 0)
      omega

/-- After a clear and a set there is one level. -/
theorem size_mapRun_clear_set_le {cmp : UInt64 → UInt64 → Ordering} [Std.TransCmp cmp]
    (pre post : List (KeyOp UInt64 UInt64)) (px sz : UInt64) (m : BtreeMap cmp) :
    (mapRun (pre ++ .clear :: .set px sz :: post) m).size ≤ 1 + post.countP KeyOp.isSet := by
  have hrun : mapRun (pre ++ .clear :: .set px sz :: post) m
      = mapRun post ((∅ : BtreeMap cmp).insert px sz) := List.foldl_append
  have hone : ((∅ : BtreeMap cmp).insert px sz).size ≤ 0 + 1 := Std.ExtTreeMap.size_insert_le
  have hpost := size_mapRun_le post ((∅ : BtreeMap cmp).insert px sz)
  rw [hrun]
  omega

theorem length_levels_runOps_le {b : OrderBook} (ops : BookSide → List (KeyOp UInt64 UInt64))
    {side : BookSide} {pre post : List (KeyOp UInt64 UInt64)} {px sz : UInt64}
    (h : ops side = pre ++ .clear :: .set px sz :: post) :
    ((b.runOps ops).levels side).length ≤ 1 + post.countP KeyOp.isSet := by
  cases side with
  | bid =>
    show (mapRun (ops .bid) b.bidMap).toList.length ≤ _
    rw [h, Std.ExtTreeMap.length_toList]
    exact size_mapRun_clear_set_le pre post px sz b.bidMap
  | offer =>
    show (mapRun (ops .offer) b.askMap).toList.length ≤ _
    rw [h, Std.ExtTreeMap.length_toList]
    exact size_mapRun_clear_set_le pre post px sz b.askMap

/-! ## Sequences of increments -/

/-- What a sequence of increments does to a side is what its entries of that
side do. -/
theorem flatMap_messageOps (clear : Bool) (side : BookSide)
    (msgs : List (MarketDataIncrementalRefresh δ)) :
    (msgs.map MarketMessageVariant.increment).flatMap (messageOps toUint64 clear side)
      = (sideEntries side msgs).flatMap (incrementOps toUint64 clear side) := by
  rw [sideEntries, List.flatMap_filter_of_eq_nil
      (fun _ _ hside => incrementOps_of_not_onSide toUint64 hside),
    List.flatMap_assoc, List.flatMap_map]
  rfl

/-- **An entry of one side leaves the other as it was.** -/
theorem levels_of_other_side {clear : Bool} {g : IncrementEntry δ} {side side' : BookSide}
    {b b' : OrderBook} {u : Unit} (hside : onSide side g = true) (hne : side' ≠ side)
    (h : (applyIncrementEntry toUint64 clear .btcusdt g).run b = .ok u b') :
    b'.levels side' = b.levels side' := by
  obtain ⟨-, rfl⟩ := (applyIncrementEntry_ok_iff toUint64).mp h
  have hother : onSide side' g = false := by
    refine Bool.eq_false_iff.mpr (fun hside' => hne ?_)
    have htp := onSide_eq_true_iff.mp hside'
    rw [onSide_eq_true_iff.mp hside, Option.some.injEq, Except.ok.injEq] at htp
    exact entryType_injective htp.symm
  have hnil : incrementOps toUint64 clear side' g = [] := incrementOps_of_not_onSide toUint64 hother
  cases side' with
  | bid =>
    show (mapRun (incrementOps toUint64 clear .bid g) b.bidMap).toList = b.bidMap.toList
    rw [hnil]
    rfl
  | offer =>
    show (mapRun (incrementOps toUint64 clear .offer g) b.askMap).toList = b.askMap.toList
    rw [hnil]
    rfl

/-- **The top of the book.** What a sequence of increments makes of a side that
one of its entries changes: `g` is the last `CHANGE`, `post` what comes after
it on the side. -/
structure MadeFrom (side : BookSide) (b' : OrderBook) (px sz : δ)
    (post : List (IncrementEntry δ)) : Prop where
  /-- The side is the level of the `CHANGE`, and then each later `NEW` set and
  each later `DELETE` removed. -/
  content : b'.level side = KeyOp.run (post.flatMap (newOrDelete toUint64))
    (singleLevel (priceTicks toUint64 px) (sizeTicks toUint64 sz))
  /-- It has at most one level more than there are later `NEW` entries. -/
  bound : (b'.levels side).length ≤ 1 + (post.filter (hasAction mdUpdateActionNew)).length

/-- The side after its last `CHANGE`. -/
theorem madeFrom_last_change {msgs : List (MarketDataIncrementalRefresh δ)} {b b' : OrderBook}
    {u : Unit} {side : BookSide}
    (h : (applyMessages toUint64 true (msgs.map .increment)).run b = .ok u b')
    (hchange : ∃ g ∈ sideEntries side msgs, hasAction mdUpdateActionChange g = true) :
    ∃ pre g post px sz, sideEntries side msgs = pre ++ g :: post
      ∧ hasAction mdUpdateActionChange g = true
      ∧ (∀ g' ∈ post, hasAction mdUpdateActionChange g' = false)
      ∧ g.mdEntryPx = some (.ok px) ∧ g.mdEntrySize = some (.ok sz)
      ∧ MadeFrom toUint64 side b' px sz post := by
  obtain ⟨hproc, rfl⟩ := (applyMessages_ok_iff toUint64).mp h
  obtain ⟨pre, g, post, hentries, hg, hlast⟩ :=
    (List.forall_not_or_exists_last (fun g => hasAction mdUpdateActionChange g = true)
      (sideEntries side msgs)).resolve_left (fun hnone => by
        obtain ⟨g, hin, hg⟩ := hchange
        exact hnone g hin hg)
  have hpost : ∀ g' ∈ post, hasAction mdUpdateActionChange g' = false :=
    fun g' hg' => Bool.eq_false_iff.mpr (hlast g' hg')
  have hmem : ∀ g' ∈ g :: post, onSide side g' = true := by
    intro g' hg'
    have hin : g' ∈ sideEntries side msgs := by
      rw [hentries]
      exact List.mem_append_right pre hg'
    exact (List.mem_filter.mp hin).2
  have hread : IncrementReadable g := by
    have hin : g ∈ sideEntries side msgs := by
      rw [hentries]
      exact List.mem_append_right pre List.mem_cons_self
    obtain ⟨msg, hmsg, hbtc⟩ := List.mem_flatMap.mp (List.mem_filter.mp hin).1
    obtain ⟨p, hp, rfl⟩ := List.mem_map.mp hbtc
    obtain ⟨hp, hsym⟩ := List.mem_filter.mp hp
    exact ((hproc _ (List.mem_map_of_mem hmsg)).2 p hp).2 hsym
  obtain ⟨px, sz, hpx, hsz, hops⟩ :=
    incrementOps_change toUint64 (hmem g List.mem_cons_self) hg hread
  have hlater : post.flatMap (incrementOps toUint64 true side)
      = post.flatMap (newOrDelete toUint64) :=
    List.flatMap_congr (fun g' hg' => incrementOps_of_not_change toUint64
      (hmem g' (List.mem_cons_of_mem g hg')) (hpost g' hg'))
  have hall : (msgs.map MarketMessageVariant.increment).flatMap (messageOps toUint64 true side)
      = pre.flatMap (incrementOps toUint64 true side)
        ++ .clear :: .set (priceTicks toUint64 px) (sizeTicks toUint64 sz)
          :: post.flatMap (newOrDelete toUint64) := by
    rw [flatMap_messageOps, hentries, List.flatMap_append, List.flatMap_cons, hops, hlater]
    rfl
  refine ⟨pre, g, post, px, sz, hentries, hg, hpost, hpx, hsz, ?_, ?_⟩
  · rw [level_runOps, hall, KeyOp.run_append_clear, KeyOp.run_cons]
    rfl
  · refine Nat.le_trans (length_levels_runOps_le (fun side =>
      (msgs.map MarketMessageVariant.increment).flatMap (messageOps toUint64 true side)) hall) ?_
    exact Nat.add_le_add_left (countP_isSet_flatMap_le toUint64 post) 1

/-- **Depth one forgets everything before the last `CHANGE`, one side at a
time.** -/
theorem topOfBook {msgs : List (MarketDataIncrementalRefresh δ)} {b b' : OrderBook} {u : Unit}
    (h : (applyMessages toUint64 true (msgs.map .increment)).run b = .ok u b') :
    (∀ side, (∃ g ∈ sideEntries side msgs, hasAction mdUpdateActionChange g = true) →
      ∃ pre g post px sz, sideEntries side msgs = pre ++ g :: post
        ∧ hasAction mdUpdateActionChange g = true
        ∧ (∀ g' ∈ post, hasAction mdUpdateActionChange g' = false)
        ∧ g.mdEntryPx = some (.ok px) ∧ g.mdEntrySize = some (.ok sz)
        ∧ MadeFrom toUint64 side b' px sz post)
    ∧ ∀ (side side' : BookSide) (g : IncrementEntry δ) (b₁ b₂ : OrderBook),
      onSide side g = true → side' ≠ side →
      (applyIncrementEntry toUint64 true .btcusdt g).run b₁ = .ok () b₂ →
      b₂.levels side' = b₁.levels side' :=
  ⟨fun _ hchange => madeFrom_last_change toUint64 h hchange,
    fun _ _ _ _ _ hside hne hrun => levels_of_other_side toUint64 hside hne hrun⟩

/-- An added bid forgotten at a change, and one more added after it. -/
theorem topOfBook_changed :
    ∃ (msgs : List (MarketDataIncrementalRefresh ℕ)) (b' : OrderBook),
      (applyMessages (fun px ticks => UInt64.ofNat px * ticks) true (msgs.map .increment)).run
        empty = .ok () b'
      ∧ (sideEntries .bid msgs).map (fun g => g.mdUpdateAction)
        = [some (.ok '0'), some (.ok '1'), some (.ok '0')]
      ∧ b'.levels .bid = [(900, 300000), (800, 200000)]
      ∧ ∃ pre g post px sz, sideEntries .bid msgs = pre ++ g :: post
        ∧ hasAction mdUpdateActionChange g = true
        ∧ (∀ g' ∈ post, hasAction mdUpdateActionChange g' = false)
        ∧ g.mdEntryPx = some (.ok px) ∧ g.mdEntrySize = some (.ok sz)
        ∧ MadeFrom (fun px ticks => UInt64.ofNat px * ticks) .bid b' px sz post := by
  let entry : Char → ℕ → ℕ → IncrementEntry ℕ := fun act px sz =>
    { symbol := some "BTCUSDT".toList, mdEntryType := some (.ok '0'),
      mdUpdateAction := some (.ok act), mdEntryPx := some (.ok px), mdEntrySize := some (.ok sz) }
  let msgs : List (MarketDataIncrementalRefresh ℕ) :=
    [.ofGroups [entry '0' 7 1], .ofGroups [entry '1' 8 2, entry '0' 9 3]]
  have hrun : ∃ b', (applyMessages (fun px ticks => UInt64.ofNat px * ticks) true
      (msgs.map .increment)).run empty = .ok () b'
      ∧ b'.levels .bid = [(900, 300000), (800, 200000)] := ⟨_, rfl, rfl⟩
  obtain ⟨b', hok, hlevels⟩ := hrun
  have hbids : sideEntries .bid msgs = [entry '0' 7 1, entry '1' 8 2, entry '0' 9 3] := rfl
  refine ⟨msgs, b', hok, by rw [hbids]; rfl, hlevels, (topOfBook _ hok).1 .bid ?_⟩
  exact ⟨entry '1' 8 2, by rw [hbids]; exact .tail _ (.head _), rfl⟩

end TopOfBook
