import Mathlib.Data.Fin.VecNotation
import Mathlib.Data.List.FinRange
import Mathlib.Data.List.Sort
import Trader.BookHistory

set_option autoImplicit false

/-!
# Laws of the increments

An increment is its operations, and what a history of operations leaves at
a key is the work of those that affect it. Three laws follow for messages
that are processed without an exception.

Redelivery is harmless: an increment applied twice in a row is applied once
(`applyIncrement_twice`). Without the clearing of depth one, entries for
different levels commute, so a message may list its entries in any order
that keeps the entries of each level in theirs (`applyIncrement_permuted`).
And a snapshot is the increment that adds its entries to an empty book
(`applySnapshot_eq_applyIncrement`), which two loops written apart have to
agree on.
-/

/-- **Rearranging keeps a part** whose members stay in order. -/
theorem List.filter_ofFn_comp {α : Type*} {n : ℕ} {f : Fin n → α} {σ : Equiv.Perm (Fin n)}
    {p : α → Bool}
    (h : ∀ i j, i < j → p (f (σ i)) = true → p (f (σ j)) = true → σ i < σ j) :
    (List.ofFn (f ∘ σ)).filter p = (List.ofFn f).filter p := by
  -- the places the part comes from, listed in the new order, are in order
  have hsorted : (((List.finRange n).map σ).filter (p ∘ f)).Pairwise (· < ·) := by
    rw [List.filter_map, List.pairwise_map]
    refine ((List.pairwise_lt_finRange n).filter _).imp_of_mem ?_
    intro i j hi hj hij
    exact h i j hij (List.mem_filter.mp hi).2 (List.mem_filter.mp hj).2
  have hplaces : ((List.finRange n).map σ).filter (p ∘ f) = (List.finRange n).filter (p ∘ f) :=
    List.Perm.eq_of_pairwise (fun i j _ _ hij hji => absurd (hij.trans hji) (lt_irrefl i))
      hsorted ((List.pairwise_lt_finRange n).filter _) (σ.map_finRange_perm.filter _)
  rw [List.ofFn_eq_map, List.ofFn_eq_map, ← List.map_map, List.filter_map, hplaces,
    List.filter_map]

namespace Core.OrderBook

open Fix Binance EarlyExit

variable {δ : Type} (toUint64 : δ → UInt64 → UInt64)

/-! ## Redelivery -/

/-- **Redelivery is harmless.** An increment that is processed without an
exception leaves the book unchanged when it is applied a second time. -/
theorem applyIncrement_twice {clear : Bool} {msg : MarketDataIncrementalRefresh δ}
    {b b' : OrderBook} {u : Unit} (h : (applyIncrement toUint64 clear msg).run b = .ok u b') :
    (applyIncrement toUint64 clear msg).run b' = .ok u b' := by
  obtain ⟨hproc, rfl⟩ := (applyIncrement_ok_iff toUint64).mp h
  refine (applyIncrement_ok_iff toUint64).mpr ⟨hproc, ext_level (fun side => ?_)⟩
  rw [level_runOps, level_runOps, level_runOps, KeyOp.run_run]

/-- A bid that is added, changed under clearing and deleted, twice over. -/
theorem applyIncrement_twice_cleared :
    ∃ (msg : MarketDataIncrementalRefresh ℕ) (b' : OrderBook),
      (applyIncrement (fun px ticks => UInt64.ofNat px * ticks) true msg).run empty = .ok () b'
      ∧ (applyIncrement (fun px ticks => UInt64.ofNat px * ticks) true msg).run b' = .ok () b' :=
  ⟨.ofGroups
      [{ symbol := some "BTCUSDT".toList, mdEntryType := some (.ok '0'),
         mdUpdateAction := some (.ok '0'), mdEntryPx := some (.ok 9),
         mdEntrySize := some (.ok 1) },
       { mdEntryType := some (.ok '0'), mdUpdateAction := some (.ok '1'),
         mdEntryPx := some (.ok 8), mdEntrySize := some (.ok 2) },
       { mdEntryType := some (.ok '0'), mdUpdateAction := some (.ok '2'),
         mdEntryPx := some (.ok 9) }],
    _, rfl, applyIncrement_twice _ rfl⟩

/-! ## A snapshot as an increment -/

/-- The entry that adds what an entry of a snapshot sets. -/
def newEntry (symbol : Option Text) (g : SnapshotEntry δ) : IncrementEntry δ where
  symbol := symbol
  mdEntryType := g.mdEntryType
  mdUpdateAction := some (.ok mdUpdateActionNew)
  mdEntryPx := g.mdEntryPx
  mdEntrySize := g.mdEntrySize

/-- **The increment of a snapshot**: its entries in the same order, with its
symbol and the action `NEW`. -/
def asIncrement (msg : MarketDataSnapshotFullRefresh δ) : MarketDataIncrementalRefresh δ :=
  .ofGroups ((counted msg.noMDEntries msg.groups).map (newEntry msg.symbol))

/-- The two loops read an entry as the same operations. -/
theorem incrementOps_newEntry (clear : Bool) (side : BookSide) (symbol : Option Text)
    {g : SnapshotEntry δ} (h : SnapshotReadable g) :
    incrementOps toUint64 clear side (newEntry symbol g) = snapshotOps toUint64 side g := by
  obtain ⟨⟨tp, htp⟩, ⟨px, hpx⟩, ⟨sz, hsz⟩⟩ := h
  unfold incrementOps snapshotOps newEntry
  rw [htp, hpx, hsz]
  rfl

/-- **Snapshot and increment paths agree.** A snapshot of `BTCUSDT` leaves, on
any book, what its increment leaves on an empty one. -/
theorem applySnapshot_eq_applyIncrement {msg : MarketDataSnapshotFullRefresh δ}
    (hsym : isBtc msg.symbol = true) (hfits : CountFits msg.noMDEntries msg.groups)
    (hread : ∀ g ∈ counted msg.noMDEntries msg.groups, SnapshotReadable g) :
    ∃ b', (∀ b : OrderBook, (applySnapshot toUint64 msg).run b = .ok () b')
      ∧ ∀ clear, (applyIncrement toUint64 clear (asIncrement msg)).run empty = .ok () b' := by
  have hacc : Accepted msg.symbol := ⟨_, carries_of_isBtc hsym⟩
  have hentries : entriesOf (asIncrement msg)
      = ((counted msg.noMDEntries msg.groups).map (newEntry msg.symbol)).map
        (fun g => (g.symbol, g)) := by
    refine entriesOf_ofGroups (fun g hg => ?_)
    obtain ⟨g', -, rfl⟩ := List.mem_map.mp hg
    exact hacc
  have hkept : btcEntries (entriesOf (asIncrement msg))
      = (counted msg.noMDEntries msg.groups).map (newEntry msg.symbol) := by
    rw [hentries, btcEntries_map, List.filter_eq_self]
    intro g hg
    obtain ⟨g', -, rfl⟩ := List.mem_map.mp hg
    exact hsym
  have hops : ∀ clear side, incrementMessageOps toUint64 clear side (asIncrement msg)
      = (counted msg.noMDEntries msg.groups).flatMap (snapshotOps toUint64 side) := by
    intro clear side
    rw [incrementMessageOps, hkept, List.flatMap_map]
    exact List.flatMap_congr (fun g hg => incrementOps_newEntry toUint64 clear side _ (hread g hg))
  refine ⟨empty.runOps fun side =>
    (counted msg.noMDEntries msg.groups).flatMap (snapshotOps toUint64 side), ?_, ?_⟩
  · intro b
    refine (applySnapshot_ok_iff toUint64).mpr ⟨⟨hacc, fun _ => ⟨hfits, hread⟩⟩, ?_⟩
    unfold snapshotMessageOps
    simp only [if_pos hsym]
    rfl
  · intro clear
    refine (applyIncrement_ok_iff toUint64).mpr ⟨⟨countFits_ofGroups _, ?_⟩, ?_⟩
    · rw [hentries, List.map_map, List.forall_mem_map]
      intro g hg
      obtain ⟨⟨tp, htp⟩, ⟨px, hpx⟩, ⟨sz, hsz⟩⟩ := hread g hg
      exact ⟨hacc, fun _ => ⟨tp, _, htp, rfl, fun _ => ⟨⟨px, hpx⟩, _, rfl, fun _ => ⟨sz, hsz⟩⟩⟩⟩
    · simp only [hops]

/-- Two bids at one price and an entry that is on neither side. -/
theorem applySnapshot_eq_applyIncrement_repeated :
    ∃ (msg : MarketDataSnapshotFullRefresh ℕ) (b' : OrderBook),
      msg.groups.length = 3
      ∧ (∀ b : OrderBook,
        (applySnapshot (fun px ticks => UInt64.ofNat px * ticks) msg).run b = .ok () b')
      ∧ ∀ clear, (applyIncrement (fun px ticks => UInt64.ofNat px * ticks) clear
          (asIncrement msg)).run empty = .ok () b' := by
  let msg : MarketDataSnapshotFullRefresh ℕ := .ofGroups "BTCUSDT".toList
    [{ mdEntryType := some (.ok '0'), mdEntryPx := some (.ok 9), mdEntrySize := some (.ok 1) },
     { mdEntryType := some (.ok '2'), mdEntryPx := some (.ok 7), mdEntrySize := some (.ok 1) },
     { mdEntryType := some (.ok '0'), mdEntryPx := some (.ok 9), mdEntrySize := some (.ok 2) }]
  have hread : ∀ g ∈ counted msg.noMDEntries msg.groups, SnapshotReadable g := by
    show ∀ g ∈ msg.groups, SnapshotReadable g
    simp [msg, MarketDataSnapshotFullRefresh.ofGroups, SnapshotReadable]
  have hsym : isBtc msg.symbol = true := by decide
  obtain ⟨b', h⟩ := applySnapshot_eq_applyIncrement (fun (px : ℕ) ticks => UInt64.ofNat px * ticks)
    hsym ⟨3, rfl, Nat.le_refl 3⟩ hread
  exact ⟨msg, b', rfl, h⟩

/-! ## The order of independent entries -/

/-- Two entries are **for the same level** when they have the same type and
prices of the same tick. -/
def SameLevel (g g' : IncrementEntry δ) : Prop :=
  ∃ tp px px', g.mdEntryType = some (.ok tp) ∧ g'.mdEntryType = some (.ok tp)
    ∧ g.mdEntryPx = some (.ok px) ∧ g'.mdEntryPx = some (.ok px')
    ∧ priceTicks toUint64 px = priceTicks toUint64 px'

/-- Whether an entry is for the level at `key`. -/
def forLevel (side : BookSide) (key : UInt64) (g : IncrementEntry δ) : Bool :=
  match g.mdEntryType, g.mdEntryPx with
  | some (.ok tp), some (.ok px) => tp = side.entryType && priceTicks toUint64 px = key
  | _, _ => false

variable {toUint64} {side : BookSide} {key : UInt64} {g g' : IncrementEntry δ}

theorem forLevel_eq_true_iff :
    forLevel toUint64 side key g = true
      ↔ ∃ px, g.mdEntryType = some (.ok side.entryType) ∧ g.mdEntryPx = some (.ok px)
        ∧ priceTicks toUint64 px = key := by
  unfold forLevel
  split
  · next tp px htp hpx => simp [htp, hpx]
  · next h =>
    refine iff_of_false nofun ?_
    rintro ⟨px, htp, hpx, -⟩
    exact h _ px htp hpx

/-- Entries for the level at one key are for the same level. -/
theorem sameLevel_of_forLevel (h : forLevel toUint64 side key g = true)
    (h' : forLevel toUint64 side key g' = true) : SameLevel toUint64 g g' := by
  obtain ⟨px, htp, hpx, hkey⟩ := forLevel_eq_true_iff.mp h
  obtain ⟨px', htp', hpx', hkey'⟩ := forLevel_eq_true_iff.mp h'
  exact ⟨_, px, px', htp, htp', hpx, hpx', hkey.trans hkey'.symm⟩

theorem affects_setOps {px : δ} {o : KeyOp UInt64 UInt64} (h : o ∈ setOps toUint64 g px)
    (ho : o.Affects key) : priceTicks toUint64 px = key := by
  unfold setOps at h
  split at h
  · rw [List.mem_singleton.mp h] at ho
    exact ho
  · cases h

theorem affects_actionOps {act : Char} {px : δ} {o : KeyOp UInt64 UInt64}
    (h : o ∈ actionOps toUint64 false g act px) (ho : o.Affects key) :
    priceTicks toUint64 px = key := by
  unfold actionOps at h
  rw [if_neg Bool.false_ne_true, List.nil_append] at h
  split_ifs at h with hdelete hchange hnew
  · rw [List.mem_singleton.mp h] at ho
    exact ho
  · exact affects_setOps h ho
  · exact affects_setOps h ho
  · cases h

/-- **Without clearing, an entry affects its own level alone.** -/
theorem filter_incrementOps_of_not_forLevel (h : forLevel toUint64 side key g = false) :
    (incrementOps toUint64 false side g).filter (fun o => o.Affects key) = [] := by
  refine List.filter_eq_nil_iff.mpr (fun o ho => ?_)
  show ¬ decide (o.Affects key) = true
  rw [decide_eq_true_iff]
  intro haffects
  unfold incrementOps at ho
  split at ho
  · next tp act px htp hact hpx =>
    split at ho
    · next hside =>
      have hlevel := forLevel_eq_true_iff.mpr
        ⟨px, hside ▸ htp, hpx, affects_actionOps ho haffects⟩
      rw [h] at hlevel
      cases hlevel
    · cases ho
  · cases ho

variable (toUint64)

/-- **What is at a level is the work of the entries for it.** -/
theorem run_incrementOps_forLevel (side : BookSide) (key : UInt64)
    (gs : List (IncrementEntry δ)) (m : UInt64 → Option UInt64) :
    KeyOp.run (gs.flatMap (incrementOps toUint64 false side)) m key
      = KeyOp.run ((gs.filter (forLevel toUint64 side key)).flatMap
          (fun g => (incrementOps toUint64 false side g).filter (fun o => o.Affects key)))
        m key := by
  rw [← KeyOp.run_filter_affects, List.filter_flatMap, List.flatMap_filter_of_eq_nil
    (fun g _ hg => filter_incrementOps_of_not_forLevel hg)]

/-- **Independent entries commute.** Increments with explicit symbols whose
entries are the same, listed in two orders that agree on any two entries for
the same level, leave the same book. -/
theorem applyIncrement_permuted {n : ℕ} {entries : Fin n → IncrementEntry δ}
    {σ : Equiv.Perm (Fin n)} (hacc : ∀ i, Accepted (entries i).symbol)
    (hread : ∀ i, isBtc (entries i).symbol = true → IncrementReadable (entries i))
    (horder : ∀ i j, i < j → SameLevel toUint64 (entries (σ i)) (entries (σ j)) → σ i < σ j)
    (b : OrderBook) :
    ∃ b', (applyIncrement toUint64 false (.ofGroups (List.ofFn entries))).run b = .ok () b'
      ∧ (applyIncrement toUint64 false (.ofGroups (List.ofFn (entries ∘ σ)))).run b
        = .ok () b' := by
  have hproc : ∀ f : Fin n → IncrementEntry δ, (∀ i, Accepted (f i).symbol) →
      (∀ i, isBtc (f i).symbol = true → IncrementReadable (f i)) →
      IncrementProcessable (.ofGroups (List.ofFn f)) := by
    intro f hf hf'
    refine ⟨countFits_ofGroups _, ?_⟩
    rw [entriesOf_ofGroups ((List.forall_mem_ofFn_iff).mpr hf), List.forall_mem_map,
      List.forall_mem_ofFn_iff]
    exact fun i => ⟨hf i, hf' i⟩
  have hkept : ∀ f : Fin n → IncrementEntry δ, (∀ i, Accepted (f i).symbol) →
      btcEntries (entriesOf (.ofGroups (List.ofFn f)))
        = (List.ofFn f).filter (fun g => isBtc g.symbol) := by
    intro f hf
    rw [entriesOf_ofGroups ((List.forall_mem_ofFn_iff).mpr hf), btcEntries_map]
  have hacc' : ∀ i, Accepted ((entries ∘ σ) i).symbol := fun i => hacc (σ i)
  refine ⟨_, (applyIncrement_ok_iff toUint64).mpr ⟨hproc entries hacc hread, rfl⟩,
    (applyIncrement_ok_iff toUint64).mpr ⟨hproc _ hacc' (fun i => hread (σ i)), ?_⟩⟩
  refine ext_level (fun side => ?_)
  funext key
  rw [level_runOps, level_runOps, incrementMessageOps, incrementMessageOps, hkept _ hacc,
    hkept _ hacc', run_incrementOps_forLevel, run_incrementOps_forLevel, List.filter_filter,
    List.filter_filter, List.filter_ofFn_comp]
  intro i j hij hi hj
  exact horder i j hij (sameLevel_of_forLevel (Bool.and_eq_true_iff.mp hi).1
    (Bool.and_eq_true_iff.mp hj).1)

/-- An added bid and a deleted offer, in either order. -/
theorem applyIncrement_permuted_sides :
    ∃ (entries : Fin 2 → IncrementEntry ℕ) (b' : OrderBook),
      (applyIncrement (fun px ticks => UInt64.ofNat px * ticks) false
        (.ofGroups (List.ofFn entries))).run empty = .ok () b'
      ∧ (applyIncrement (fun px ticks => UInt64.ofNat px * ticks) false
        (.ofGroups (List.ofFn (entries ∘ Equiv.swap 0 1)))).run empty = .ok () b' := by
  let entries : Fin 2 → IncrementEntry ℕ :=
    ![{ symbol := some "BTCUSDT".toList, mdEntryType := some (.ok '0'),
        mdUpdateAction := some (.ok '0'), mdEntryPx := some (.ok 9),
        mdEntrySize := some (.ok 1) },
      { symbol := some "BTCUSDT".toList, mdEntryType := some (.ok '1'),
        mdUpdateAction := some (.ok '2'), mdEntryPx := some (.ok 9) }]
  have hacc : ∀ i, Accepted (entries i).symbol := by
    intro i
    exact ⟨.btcusdt, carries_of_isBtc (by revert i; decide)⟩
  have hread : ∀ i, isBtc (entries i).symbol = true → IncrementReadable (entries i) := by
    intro i _
    match i with
    | 0 => exact ⟨'0', .ok '0', rfl, rfl, fun _ => ⟨⟨9, rfl⟩, '0', rfl, fun _ => ⟨1, rfl⟩⟩⟩
    | 1 => exact ⟨'1', .ok '2', rfl, rfl, fun _ => ⟨⟨9, rfl⟩, '2', rfl, nofun⟩⟩
  obtain ⟨b', h⟩ := applyIncrement_permuted (fun (px : ℕ) ticks => UInt64.ofNat px * ticks)
    (σ := Equiv.swap 0 1) hacc hread (by
      intro i j hij hlevel
      obtain rfl : i = 0 := by omega
      obtain rfl : j = 1 := by omega
      obtain ⟨tp, px, px', htp, htp', -⟩ := hlevel
      have hoffer : some (Except.ok '1') = some (Except.ok tp) := htp
      have hbid : some (Except.ok '0') = some (Except.ok tp) := htp'
      cases hoffer
      cases hbid) empty
  exact ⟨entries, b', h⟩

end Core.OrderBook
