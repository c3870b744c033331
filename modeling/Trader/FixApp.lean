import Trader.BookHistory

set_option autoImplicit false

/-!
# Routing by session

`FixApp` receives market data on several sessions and passes it on over two
queues, one to the order-book worker and one to the trade worker. What it
does with a message depends on the overload of `onMessage` that receives it:
the one for incremental refreshes looks at the qualifier of the session, the
one for snapshots does not. So the order queue carries what was delivered on
`PX`, and the snapshots of every other session with it.

The queues are listed with every message ever put on them, in order; what
the workers take off them is another matter.
-/

namespace Binance

open Fix EarlyExit

variable {δ : Type}

/-- `FixApp::PX_SESSION_QUALIFIER_`. -/
def pxSessionQualifier : Text := "PX".toList
/-- `FixApp::TX_SESSION_QUALIFIER_`. -/
def txSessionQualifier : Text := "TX".toList

/-- `binance::FixApp`, as the messages put on its queues. -/
structure FixApp (δ : Type) where
  orderQueue : List (MarketMessageVariant δ)
  tradeQueue : List (MarketDataIncrementalRefresh δ)

namespace FixApp

/-- `FixApp::onMessage` of a snapshot. Its session is `[[maybe_unused]]`. -/
def onSnapshot (m : MarketDataSnapshotFullRefresh δ) (_sessionQualifier : Text)
    (app : FixApp δ) : FixApp δ :=
  { app with orderQueue := app.orderQueue ++ [.snapshot m] }

/-- `FixApp::onMessage` of an incremental refresh. -/
def onIncrement (m : MarketDataIncrementalRefresh δ) (sessionQualifier : Text)
    (app : FixApp δ) : FixApp δ :=
  if sessionQualifier = pxSessionQualifier then
    { app with orderQueue := app.orderQueue ++ [.increment m] }
  else if sessionQualifier = txSessionQualifier then
    { app with tradeQueue := app.tradeQueue ++ [m] }
  else
    app  -- "invalid session for market data incremental refresh"

/-- A message delivered on a session. -/
structure Delivery (δ : Type) where
  sessionQualifier : Text
  msg : MarketMessageVariant δ

/-- A delivery, cracked to the overload of its message. -/
def onMessage (app : FixApp δ) (d : Delivery δ) : FixApp δ :=
  match d.msg with
  | .snapshot m => onSnapshot m d.sessionQualifier app
  | .increment m => onIncrement m d.sessionQualifier app

/-- Deliveries in the order they happen. -/
def run (app : FixApp δ) (ds : List (Delivery δ)) : FixApp δ := ds.foldl onMessage app

/-! ## Where the messages of a session go -/

/-- The messages delivered on `PX`, in order. -/
def deliveredOnPx (ds : List (Delivery δ)) : List (MarketMessageVariant δ) :=
  (ds.filter (fun d => d.sessionQualifier = pxSessionQualifier)).map Delivery.msg

/-- The increment a delivery on `TX` is of, if it is one. -/
def txIncrement (d : Delivery δ) : Option (MarketDataIncrementalRefresh δ) :=
  match d.msg with
  | .increment m => if d.sessionQualifier = txSessionQualifier then some m else none
  | .snapshot _ => none

/-- The incremental refreshes delivered on `TX`, in order. -/
def txIncrements (ds : List (Delivery δ)) : List (MarketDataIncrementalRefresh δ) :=
  ds.filterMap txIncrement

/-- A delivery that reaches the order queue: everything on `PX`, and the
snapshots of any session. -/
def reachesOrderQueue (d : Delivery δ) : Bool :=
  match d.msg with
  | .snapshot _ => true
  | .increment _ => d.sessionQualifier = pxSessionQualifier

/-- A snapshot delivered on a session other than `PX`. -/
def StraySnapshot (d : Delivery δ) : Prop :=
  (∃ m, d.msg = .snapshot m) ∧ d.sessionQualifier ≠ pxSessionQualifier

/-- One delivery: what it puts on the queues. -/
theorem onMessage_eq (app : FixApp δ) (d : Delivery δ) :
    onMessage app d =
      ⟨app.orderQueue ++ (if reachesOrderQueue d then [d.msg] else []),
        app.tradeQueue ++ (txIncrement d).toList⟩ := by
  obtain ⟨q, m | m⟩ := d
  · exact congrArg (FixApp.mk _) (List.append_nil _).symm
  · show onIncrement m q app = FixApp.mk
      (app.orderQueue ++ if decide (q = pxSessionQualifier) then _ else _)
      (app.tradeQueue ++ (if q = txSessionQualifier then some m else none).toList)
    unfold onIncrement
    by_cases hpx : q = pxSessionQualifier
    · have htx : q ≠ txSessionQualifier := by
        rw [hpx]
        decide
      rw [if_pos hpx, if_pos (decide_eq_true hpx), if_neg htx]
      exact congrArg (FixApp.mk _) (List.append_nil _).symm
    · rw [if_neg hpx, if_neg (fun h => hpx (of_decide_eq_true h))]
      by_cases htx : q = txSessionQualifier
      · rw [if_pos htx, if_pos htx, List.append_nil]
        rfl
      · rw [if_neg htx, if_neg htx, List.append_nil]
        exact congrArg (FixApp.mk _) (List.append_nil _).symm

/-- **What a run puts on the queues**, in the order delivered. -/
theorem run_eq (app : FixApp δ) (ds : List (Delivery δ)) :
    run app ds =
      ⟨app.orderQueue ++ (ds.filter reachesOrderQueue).map Delivery.msg,
        app.tradeQueue ++ txIncrements ds⟩ := by
  induction ds generalizing app with
  | nil => exact congrArg₂ FixApp.mk (List.append_nil _).symm (List.append_nil _).symm
  | cons d ds ih =>
    show run (onMessage app d) ds = _
    rw [ih, onMessage_eq, List.append_assoc, List.append_assoc]
    refine congrArg₂ FixApp.mk (congrArg _ ?_) (congrArg _ ?_)
    · rw [List.filter_cons]
      split <;> rfl
    · unfold txIncrements
      cases h : txIncrement d with
      | none => rw [List.filterMap_cons_none h]; rfl
      | some m => rw [List.filterMap_cons_some h]; rfl

/-- Everything on `PX` reaches the order queue, and nothing else does, as
long as no snapshot is stray. -/
theorem map_msg_filter_eq_iff (ds : List (Delivery δ)) :
    (ds.filter reachesOrderQueue).map Delivery.msg = deliveredOnPx ds
      ↔ ∀ d ∈ ds, ¬ StraySnapshot d := by
  have hpx : ∀ d : Delivery δ, d.sessionQualifier = pxSessionQualifier →
      reachesOrderQueue d = true := by
    rintro ⟨q, m | m⟩ h
    · rfl
    · exact decide_eq_true h
  have hstray : ∀ d : Delivery δ, ¬ StraySnapshot d →
      reachesOrderQueue d = decide (d.sessionQualifier = pxSessionQualifier) := by
    rintro ⟨q, m | m⟩ h
    · exact (decide_eq_true (not_not.mp (fun hne => h ⟨⟨m, rfl⟩, hne⟩))).symm
    · rfl
  constructor
  · intro heq d hd hbad
    -- a stray snapshot makes the queue longer than what `PX` delivered
    have hlen := congrArg List.length heq
    rw [deliveredOnPx, List.length_map, List.length_map] at hlen
    have hsub := List.monotone_filter_right ds
      (p := fun d => decide (d.sessionQualifier = pxSessionQualifier)) (q := reachesOrderQueue)
      (fun d h => hpx d (of_decide_eq_true h))
    have hmem : d ∈ ds.filter (fun d => decide (d.sessionQualifier = pxSessionQualifier)) := by
      rw [hsub.eq_of_length hlen.symm]
      obtain ⟨⟨m, hm⟩, -⟩ := hbad
      refine List.mem_filter.mpr ⟨hd, ?_⟩
      unfold reachesOrderQueue
      rw [hm]
    exact hbad.2 (of_decide_eq_true (List.mem_filter.mp hmem).2)
  · intro h
    rw [deliveredOnPx, List.filter_congr (fun d hd => hstray d (h d hd))]

/-- The states a book goes through as the worker applies the messages of a
queue, up to the one that throws. -/
def bookStates (toUint64 : δ → UInt64 → UInt64) (clear : Bool) :
    List (MarketMessageVariant δ) → Core.OrderBook → List Core.OrderBook
  | [], b => [b]
  | msg :: msgs, b =>
    match (Core.OrderBook.applyMessage toUint64 clear msg).run b with
    | .ok _ b' => b :: bookStates toUint64 clear msgs b'
    | .error _ b' => [b, b']

/-- **Sessions are kept apart** exactly when no snapshot is delivered on a
session other than `PX`: the order queue then gets what `PX` delivered and
the trade queue the increments `TX` delivered, and two runs that agree on
`PX` drive the book through the same states. -/
theorem sessions_apart_iff (app : FixApp δ) (ds : List (Delivery δ)) :
    ((run app ds = ⟨app.orderQueue ++ deliveredOnPx ds, app.tradeQueue ++ txIncrements ds⟩)
        ↔ ∀ d ∈ ds, ¬ StraySnapshot d)
      ∧ ∀ (ds' : List (Delivery δ)), (∀ d ∈ ds, ¬ StraySnapshot d) →
        (∀ d ∈ ds', ¬ StraySnapshot d) → deliveredOnPx ds = deliveredOnPx ds' →
        ∀ toUint64 clear b,
          bookStates toUint64 clear (run app ds).orderQueue b
            = bookStates toUint64 clear (run app ds').orderQueue b := by
  constructor
  · rw [run_eq, FixApp.mk.injEq, and_iff_left rfl, List.append_cancel_left_eq,
      map_msg_filter_eq_iff]
  · intro ds' h h' heq toUint64 clear b
    rw [run_eq, run_eq, (map_msg_filter_eq_iff ds).mpr h, (map_msg_filter_eq_iff ds').mpr h',
      heq]

/-- A snapshot delivered on `TX` is put on the order queue, and empties the
book of whoever applies it. -/
theorem tx_snapshot_reaches_order_queue :
    ∃ (d : Delivery ℕ) (b b' : Core.OrderBook),
      d.sessionQualifier = txSessionQualifier ∧ deliveredOnPx [d] = []
      ∧ (run ⟨[], []⟩ [d]).orderQueue = [d.msg]
      ∧ (Core.OrderBook.applyMessage (fun px ticks => UInt64.ofNat px * ticks) false
          d.msg).run b = .ok () b'
      ∧ b.level .bid 900 = some 1 ∧ b'.level .bid 900 = none :=
  ⟨⟨"TX".toList, .snapshot (.ofGroups "BTCUSDT".toList [])⟩,
    ⟨(∅ : Core.BtreeMap Core.greater).insert 900 1, ∅⟩, _, rfl, rfl, rfl, rfl, rfl, rfl⟩

/-- An increment of one entry, a bid at 9 that is new or changed. -/
def sampleBid (action : Char) (size : ℕ) : MarketDataIncrementalRefresh ℕ :=
  .ofGroups
    [{ symbol := some "BTCUSDT".toList, mdEntryType := some (.ok '0'),
       mdUpdateAction := some (.ok action), mdEntryPx := some (.ok 9),
       mdEntrySize := some (.ok size) }]

/-- Two runs with the same two increments on `PX`, of which the second changes
the level the first has made; in one of them `TX` delivers another bid in
between. -/
theorem sessions_apart_two_runs :
    ∃ (ds ds' : List (Delivery ℕ)),
      ds.map Delivery.sessionQualifier = ["PX".toList, "TX".toList, "PX".toList]
      ∧ ds'.map Delivery.sessionQualifier = ["PX".toList, "PX".toList]
      ∧ deliveredOnPx ds = deliveredOnPx ds'
      ∧ (∃ b, (bookStates (fun px ticks => UInt64.ofNat px * ticks) false
          (run ⟨[], []⟩ ds).orderQueue .empty).getLast? = some b
        ∧ b.level .bid 900 = some 400000)
      ∧ ∀ clear b,
        bookStates (fun px ticks => UInt64.ofNat px * ticks) clear (run ⟨[], []⟩ ds).orderQueue b
          = bookStates (fun px ticks => UInt64.ofNat px * ticks) clear
              (run ⟨[], []⟩ ds').orderQueue b := by
  have hstray : ∀ (q : Text) (m : MarketDataIncrementalRefresh ℕ),
      ¬ StraySnapshot ⟨q, .increment m⟩ := fun q m h => h.1.elim nofun
  exact ⟨[⟨"PX".toList, .increment (sampleBid '0' 3)⟩, ⟨"TX".toList, .increment (sampleBid '0' 7)⟩,
      ⟨"PX".toList, .increment (sampleBid '1' 4)⟩],
    [⟨"PX".toList, .increment (sampleBid '0' 3)⟩, ⟨"PX".toList, .increment (sampleBid '1' 4)⟩],
    rfl, rfl, rfl, ⟨_, rfl, rfl⟩,
    (sessions_apart_iff ⟨[], []⟩ _).2 _
      (List.forall_mem_cons.mpr ⟨hstray _ _, List.forall_mem_cons.mpr
        ⟨hstray _ _, List.forall_mem_singleton.mpr (hstray _ _)⟩⟩)
      (List.forall_mem_cons.mpr ⟨hstray _ _, List.forall_mem_singleton.mpr (hstray _ _)⟩)
      rfl _⟩

end FixApp

end Binance
