import Trader.BookHistory

set_option autoImplicit false

/-!
# The whole book in a vector

`to_vector` walks the two maps side by side, best prices first, and goes on
until both are at their ends: row `i` holds the `i`-th best bid and the
`i`-th best offer, and where a side has run out, its sentinel. So a vector
lays the whole book out (`toVector_whole_book`), and as long as no level has
the sentinel for its price, the book can be read back from it.
-/

namespace Core

open OrderBook

/-! ## Rows -/

/-- The row the two iterators of `to_vector` point at, unless both are at the
end. -/
def rowOf : Option (UInt64 × UInt64) → Option (UInt64 × UInt64) → Option BidAsk
  | none, none => none
  | bid, ask => some (row bid ask)

theorem toVectorLoop_getElem? (bids asks : List (UInt64 × UInt64)) (i : ℕ) :
    (toVectorLoop bids asks)[i]? = rowOf bids[i]? asks[i]? := by
  fun_induction toVectorLoop bids asks generalizing i with
  | case1 => rfl
  | case2 bid bids ih => cases i with
    | zero => rfl
    | succ i => exact ih i
  | case3 ask asks ih => cases i with
    | zero => rfl
    | succ i => exact ih i
  | case4 bid bids ask asks ih => cases i with
    | zero => rfl
    | succ i => exact ih i

/-- Row `i` of a book, as `to_vector` reads it from the maps. -/
def rowAt (b : OrderBook) (i : ℕ) : Option BidAsk :=
  rowOf b.bidMap.toList[i]? b.askMap.toList[i]?

theorem toVector_getElem? (b : OrderBook) (i : ℕ) : b.toVector[i]? = rowAt b i :=
  toVectorLoop_getElem? _ _ i

/-- The price of a row on a side. -/
def BidAsk.px (r : BidAsk) : BookSide → UInt64
  | .bid => r.bidPx
  | .offer => r.askPx

/-- The size of a row on a side. -/
def BidAsk.sz (r : BidAsk) : BookSide → UInt64
  | .bid => r.bidSz
  | .offer => r.askSz

namespace OrderBook

/-- A price of a side is better than another: a bid when it is higher, an offer
when it is lower. -/
def BookSide.Better : BookSide → UInt64 → UInt64 → Prop
  | .bid => fun px px' => px' < px
  | .offer => fun px px' => px < px'

/-- The number of levels of a side. -/
def size (b : OrderBook) : BookSide → ℕ
  | .bid => b.bidMap.size
  | .offer => b.askMap.size

/-- **The levels of a side, best first**: a list of exactly the levels there
are, in which each price is better than the ones after it. -/
structure BestFirst (side : BookSide) (level : UInt64 → Option UInt64)
    (l : List (UInt64 × UInt64)) : Prop where
  sorted : l.Pairwise (fun e e' => side.Better e.1 e'.1)
  mem_iff : ∀ px sz, (px, sz) ∈ l ↔ level px = some sz

/-- **The iteration order of the two maps.** -/
theorem bestFirst_levels (b : OrderBook) (side : BookSide) :
    BestFirst side (b.level side) (b.levels side) := by
  cases side with
  | bid =>
    refine ⟨b.bidMap.ordered_keys_toList.imp ?_,
      fun px sz => Std.ExtTreeMap.mem_toList_iff_getElem?_eq_some⟩
    intro e e' h
    exact compareOfLessAndEq_eq_lt.mp h
  | offer =>
    refine ⟨b.askMap.ordered_keys_toList.imp ?_,
      fun px sz => Std.ExtTreeMap.mem_toList_iff_getElem?_eq_some⟩
    intro e e' h
    exact compareOfLessAndEq_eq_lt.mp h

theorem length_levels (b : OrderBook) (side : BookSide) :
    (b.levels side).length = b.size side := by
  cases side with
  | bid => exact Std.ExtTreeMap.length_toList
  | offer => exact Std.ExtTreeMap.length_toList

/-! ## The layout -/

/-- **A vector lays a book out**: as many rows as the longer side has levels,
row `i` with the `i`-th best level of each side, or the sentinel in both
fields of a side that has fewer. -/
structure LaidOut (b : OrderBook) (v : List BidAsk) : Prop where
  length : v.length = max (b.size .bid) (b.size .offer)
  level_row : ∀ (side : BookSide) (i : ℕ) (r : BidAsk) (px sz : UInt64), v[i]? = some r →
    (b.levels side)[i]? = some (px, sz) → r.px side = px ∧ r.sz side = sz
  past_row : ∀ (side : BookSide) (i : ℕ) (r : BidAsk), v[i]? = some r → b.size side ≤ i →
    r.px side = BidAsk.sentinel ∧ r.sz side = BidAsk.sentinel

/-- The fields of a side in the row that two iterators make. -/
theorem rowOf_fields {bid ask : Option (UInt64 × UInt64)} {r : BidAsk}
    (h : rowOf bid ask = some r) :
    (r.px .bid = (bid.map Prod.fst).getD BidAsk.sentinel
      ∧ r.sz .bid = (bid.map Prod.snd).getD BidAsk.sentinel)
    ∧ r.px .offer = (ask.map Prod.fst).getD BidAsk.sentinel
      ∧ r.sz .offer = (ask.map Prod.snd).getD BidAsk.sentinel := by
  cases bid with
  | none =>
    cases ask with
    | none => cases h
    | some e =>
      obtain rfl := Option.some.inj h
      exact ⟨⟨rfl, rfl⟩, rfl, rfl⟩
  | some e =>
    obtain rfl := Option.some.inj h
    exact ⟨⟨rfl, rfl⟩, rfl, rfl⟩

/-- The fields of a side in a row of a book. -/
theorem rowAt_fields {b : OrderBook} {i : ℕ} {r : BidAsk} (h : rowAt b i = some r)
    (side : BookSide) :
    r.px side = ((b.levels side)[i]?.map Prod.fst).getD BidAsk.sentinel
      ∧ r.sz side = ((b.levels side)[i]?.map Prod.snd).getD BidAsk.sentinel := by
  cases side with
  | bid => exact (rowOf_fields h).1
  | offer => exact (rowOf_fields h).2

/-- There is a row as long as either side has a level. -/
theorem length_toVectorLoop (bids asks : List (UInt64 × UInt64)) :
    (toVectorLoop bids asks).length = max bids.length asks.length := by
  fun_induction toVectorLoop bids asks with
  | case1 => rfl
  | case2 bid bids ih =>
    rw [List.length_cons, ih]
    simp
  | case3 ask asks ih =>
    rw [List.length_cons, ih]
    simp
  | case4 bid bids ask asks ih =>
    rw [List.length_cons, ih, List.length_cons, List.length_cons]
    omega

/-- **`to_vector` lays the book out.** -/
theorem toVector_laidOut (b : OrderBook) : LaidOut b b.toVector := by
  refine ⟨?_, ?_, ?_⟩
  · rw [← length_levels, ← length_levels]
    exact length_toVectorLoop b.bidMap.toList b.askMap.toList
  · intro side i r px sz hr he
    obtain ⟨hpx, hsz⟩ := rowAt_fields (toVector_getElem? b i ▸ hr) side
    rw [he] at hpx hsz
    exact ⟨hpx, hsz⟩
  · intro side i r hr hi
    obtain ⟨hpx, hsz⟩ := rowAt_fields (toVector_getElem? b i ▸ hr) side
    rw [← length_levels] at hi
    rw [List.getElem?_eq_none_iff.mpr hi] at hpx hsz
    exact ⟨hpx, hsz⟩

section LaidOut

variable {b b' : OrderBook} {v : List BidAsk} {side : BookSide} {i j : ℕ}

/-- Where a side has a level there is a row. -/
theorem LaidOut.exists_row (h : LaidOut b v) (hi : i < b.size side) :
    ∃ r, v[i]? = some r := by
  have hlt : i < v.length := by
    rw [h.length]
    cases side with
    | bid => exact Nat.lt_of_lt_of_le hi (Nat.le_max_left _ _)
    | offer => exact Nat.lt_of_lt_of_le hi (Nat.le_max_right _ _)
  exact ⟨v[i], List.getElem?_eq_getElem hlt⟩

theorem exists_level (b : OrderBook) (hi : i < b.size side) :
    ∃ px sz, (b.levels side)[i]? = some (px, sz) := by
  rw [← length_levels] at hi
  exact ⟨_, _, List.getElem?_eq_getElem hi⟩

/-- **Prices get worse** down the rows that hold a level. -/
theorem LaidOut.better (h : LaidOut b v) {r r' : BidAsk} (hij : i < j) (hj : j < b.size side)
    (hr : v[i]? = some r) (hr' : v[j]? = some r') : side.Better (r.px side) (r'.px side) := by
  obtain ⟨px, sz, he⟩ := exists_level b (Nat.lt_trans hij hj)
  obtain ⟨px', sz', he'⟩ := exists_level b hj
  rw [(h.level_row side i r px sz hr he).1, (h.level_row side j r' px' sz' hr' he').1]
  have hsorted := List.pairwise_iff_getElem.mp (bestFirst_levels b side).sorted i j
  obtain ⟨hilt, hieq⟩ := List.getElem?_eq_some_iff.mp he
  obtain ⟨hjlt, hjeq⟩ := List.getElem?_eq_some_iff.mp he'
  have hbetter := hsorted hilt hjlt hij
  rwa [hieq, hjeq] at hbetter

theorem Better.irrefl (side : BookSide) (px : UInt64) : ¬ side.Better px px := by
  cases side with
  | bid => exact UInt64.lt_irrefl px
  | offer => exact UInt64.lt_irrefl px

/-- **Every level occurs exactly once.** -/
theorem LaidOut.existsUnique_row (h : LaidOut b v) {px sz : UInt64}
    (hlevel : b.level side px = some sz) :
    ∃! i, i < b.size side ∧ ∃ r, v[i]? = some r ∧ r.px side = px ∧ r.sz side = sz := by
  have hmem := ((bestFirst_levels b side).mem_iff px sz).mpr hlevel
  obtain ⟨i, hi, he⟩ := List.mem_iff_getElem.mp hmem
  have he' : (b.levels side)[i]? = some (px, sz) := by rw [List.getElem?_eq_getElem hi, he]
  rw [length_levels] at hi
  obtain ⟨r, hr⟩ := h.exists_row hi
  refine ⟨i, ⟨hi, r, hr, h.level_row side i r px sz hr he'⟩, ?_⟩
  rintro j ⟨hj, r', hr', hpx', -⟩
  have hpx := (h.level_row side i r px sz hr he').1
  -- two rows with one price are one row
  rcases Nat.lt_trichotomy j i with hlt | rfl | hlt
  · have hbetter := h.better hlt hi hr' hr
    rw [hpx, hpx'] at hbetter
    exact absurd hbetter (Better.irrefl side px)
  · rfl
  · have hbetter := h.better hlt hj hr hr'
    rw [hpx, hpx'] at hbetter
    exact absurd hbetter (Better.irrefl side px)

/-- No level of a book has the sentinel for its price. -/
def NoSentinel (b : OrderBook) : Prop := ∀ side, b.level side BidAsk.sentinel = none

/-- **The levels are read back from the rows**: they are the rows up to the
first sentinel. -/
theorem LaidOut.levels_getElem? (h : LaidOut b v) (hb : NoSentinel b) (side : BookSide) (i : ℕ) :
    (b.levels side)[i]? = v[i]?.bind (fun r =>
      if r.px side = BidAsk.sentinel then none else some (r.px side, r.sz side)) := by
  rcases Nat.lt_or_ge i (b.size side) with hi | hi
  · obtain ⟨px, sz, he⟩ := exists_level b hi
    obtain ⟨r, hr⟩ := h.exists_row hi
    obtain ⟨hpx, hsz⟩ := h.level_row side i r px sz hr he
    have hlevel := ((bestFirst_levels b side).mem_iff px sz).mp (List.mem_of_getElem? he)
    have hne : px ≠ BidAsk.sentinel := by
      rintro rfl
      rw [hb side] at hlevel
      cases hlevel
    rw [he, hr, Option.bind_some, hpx, hsz, if_neg hne]
  · have hnone : (b.levels side)[i]? = none := by
      rw [List.getElem?_eq_none_iff, length_levels]
      exact hi
    rw [hnone]
    cases hr : v[i]? with
    | none => rfl
    | some r => rw [Option.bind_some, if_pos (h.past_row side i r hr hi).1]

/-- **A vector determines its book.** -/
theorem LaidOut.injective (h : LaidOut b v) (h' : LaidOut b' v) (hb : NoSentinel b)
    (hb' : NoSentinel b') : b = b' := by
  have hlevels : ∀ side, b.levels side = b'.levels side := by
    intro side
    refine List.ext_getElem? (fun i => ?_)
    rw [h.levels_getElem? hb, h'.levels_getElem? hb']
  refine ext_level (fun side => ?_)
  funext px
  refine Option.ext (fun sz => ?_)
  rw [← (bestFirst_levels b side).mem_iff, ← (bestFirst_levels b' side).mem_iff, hlevels]

end LaidOut

/-- **The whole book, best prices first.** -/
theorem toVector_whole_book (b : OrderBook) :
    (∀ side, BestFirst side (b.level side) (b.levels side)
      ∧ (b.levels side).length = b.size side)
    ∧ LaidOut b b.toVector
    ∧ (∀ (side : BookSide) (i j : ℕ) (r r' : BidAsk), i < j → j < b.size side →
      b.toVector[i]? = some r → b.toVector[j]? = some r' →
      side.Better (r.px side) (r'.px side))
    ∧ (∀ (side : BookSide) (px sz : UInt64), b.level side px = some sz →
      ∃! i, i < b.size side ∧ ∃ r, b.toVector[i]? = some r ∧ r.px side = px ∧ r.sz side = sz)
    ∧ ∀ b' : OrderBook, NoSentinel b → NoSentinel b' → b.toVector = b'.toVector → b = b' := by
  have hlaid := toVector_laidOut b
  refine ⟨fun side => ⟨bestFirst_levels b side, length_levels b side⟩, hlaid,
    fun side i j r r' hij hj hr hr' => hlaid.better hij hj hr hr',
    fun side px sz hlevel => hlaid.existsUnique_row hlevel, fun b' hb hb' heq => ?_⟩
  have hlaid' := toVector_laidOut b'
  rw [← heq] at hlaid'
  exact hlaid.injective hlaid' hb hb'

end OrderBook

end Core
