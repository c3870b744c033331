import Trader.Symbol

set_option autoImplicit false

/-!
# The loop over the entries of an increment

The book and the trade list read an increment in the same loop. Each
iteration first settles which instrument the entry is about – its own
symbol when it has one, the one carried over from the entry before
otherwise – and goes on to the next entry unless that is `BTCUSDT`. Only
what it does with an entry it keeps differs, so the loop is written once,
over the program `act` run on a kept entry.

A loop that ends normally has run `act` on the entries whose effective
symbol is taken for `BTCUSDT`, in order, and on no other
(`incrementLoop_ok_iff`). The effective symbol is stated apart from the
loop (`withSymbols`), and what the loop carries is tied to it by the
invariant `Carries`.
-/

namespace Binance

open Fix EarlyExit

variable {δ σ : Type}

/-- "Update symbol if present or first group", which `apply_increment` and
`on_trade` do alike: an entry's own symbol replaces the one carried over
from the entries before it, and the first entry must have one. -/
def updateSymbol (i : ℕ) (own : Option Text) (symbol : Option SymbolEnum) :
    EStateM Exception σ (Option SymbolEnum) :=
  if i = 1 ∨ own.isSome then do
    let fsym ← get Tag.symbol own
    let sym ← lift (Symbol.fromStr fsym)
    pure (some sym)
  else
    pure symbol

/-- The two skips of the entry loop, and what is done with an entry that
passes them. -/
def skipOthers (act : SymbolEnum → IncrementEntry δ → EStateM Exception σ Unit)
    (symbol : Option SymbolEnum) (group : IncrementEntry δ) :
    EStateM Exception σ Unit :=
  match symbol with
  | none => pure ()  -- "missing symbol, skipping"
  | some sym =>
    if sym ≠ .btcusdt then pure ()  -- "wrong symbol, skipping"
    else act sym group

/-- The body of the entry loop of `apply_increment` and of `on_trade`, with
the local `symbol` it carries. -/
def incrementBody (act : SymbolEnum → IncrementEntry δ → EStateM Exception σ Unit)
    (i : ℕ) (group : IncrementEntry δ) (symbol : Option SymbolEnum) :
    EStateM Exception σ (Option SymbolEnum) := do
  let symbol ← updateSymbol i group.symbol symbol
  skipOthers act symbol group
  pure symbol

/-- The entry loop, from the reading of `NoMDEntries` on. -/
def incrementLoop (act : SymbolEnum → IncrementEntry δ → EStateM Exception σ Unit)
    (msg : MarketDataIncrementalRefresh δ) : EStateM Exception σ Unit := do
  let num ← numEntries msg.noMDEntries
  let _ ← forEntries (incrementBody act) num msg.groups none
  pure ()

/-! ## Effective symbols -/

/-- **The entries with their effective symbol**: an entry's own symbol text
if it is set, otherwise that of the closest earlier entry that set one. -/
def withSymbols : Option Text → List (IncrementEntry δ) →
    List (Option Text × IncrementEntry δ)
  | _, [] => []
  | inherited, g :: gs =>
    (g.symbol.or inherited, g) :: withSymbols (g.symbol.or inherited) gs

/-- Whether a symbol text is taken for `BTCUSDT`. -/
def isBtc : Option Text → Bool
  | some text => decide (Symbol.fromStr text = .ok .btcusdt)
  | none => false

/-- The local `symbol` of an entry loop holds what the inherited text
converts to. -/
def Carries : Option Text → Option SymbolEnum → Prop
  | none, symbol => symbol = none
  | some text, symbol => ∃ sym, Symbol.fromStr text = .ok sym ∧ symbol = some sym

theorem Carries.eq_btcusdt_iff {text : Option Text} {symbol : Option SymbolEnum}
    (h : Carries text symbol) : symbol = some .btcusdt ↔ isBtc text = true := by
  cases text with
  | none =>
    obtain rfl : symbol = none := h
    exact iff_of_false nofun nofun
  | some text =>
    obtain ⟨sym, hsym, rfl⟩ := h
    rw [isBtc, decide_eq_true_iff, hsym, Option.some.injEq, Except.ok.injEq]

/-- A text taken for `BTCUSDT` is carried as `BTCUSDT`. -/
theorem carries_of_isBtc {text : Option Text} (h : isBtc text = true) :
    Carries text (some .btcusdt) := by
  cases text with
  | none => cases h
  | some text => exact ⟨.btcusdt, of_decide_eq_true h, rfl⟩

/-- An inherited text determines what the loop carries. -/
theorem Carries.unique {text : Option Text} {symbol symbol' : Option SymbolEnum}
    (h : Carries text symbol) (h' : Carries text symbol') : symbol = symbol' := by
  cases text with
  | none => exact Eq.trans h (Eq.symm h')
  | some text =>
    obtain ⟨sym, hsym, rfl⟩ := h
    obtain ⟨sym', hsym', rfl⟩ := h'
    rw [Except.ok.inj (hsym.symm.trans hsym')]

/-- **An update that ends normally** leaves what the effective text of the
entry converts to, and changes nothing else. An entry without a symbol is
not the first. -/
theorem updateSymbol_ok_iff {i : ℕ} {own inherited : Option Text}
    {symbol symbol' : Option SymbolEnum} {s s' : σ} (h : Carries inherited symbol) :
    (updateSymbol i own symbol).run s = .ok symbol' s'
      ↔ (i = 1 → own.isSome) ∧ Carries (own.or inherited) symbol' ∧ s' = s := by
  cases own with
  | none =>
    rw [Option.none_or]
    by_cases hi : i = 1
    · rw [updateSymbol, if_pos (Or.inl hi)]
      refine iff_of_false (fun hrun => ?_) (fun h' => absurd (h'.1 hi) nofun)
      obtain ⟨fsym, s₁, hget, -⟩ := bind_ok_iff.mp hrun
      exact absurd (get_ok_iff.mp hget).1 nofun
    · rw [updateSymbol, if_neg (fun h' => h'.elim hi nofun), pure_ok_iff]
      constructor
      · rintro ⟨rfl, hs⟩
        exact ⟨fun hi' => absurd hi' hi, h, hs⟩
      · rintro ⟨-, h', hs⟩
        exact ⟨h'.unique h, hs⟩
  | some text =>
    rw [Option.some_or, updateSymbol, if_pos (Or.inr Option.isSome_some)]
    simp only [bind_ok_iff, get_ok_iff, lift_ok_iff,
      pure_ok_iff]
    constructor
    · rintro ⟨fsym, s₁, ⟨hfsym, rfl⟩, sym, s₂, ⟨hsym, rfl⟩, rfl, rfl⟩
      obtain rfl := Option.some.inj hfsym
      exact ⟨fun _ => rfl, ⟨sym, hsym, rfl⟩, rfl⟩
    · rintro ⟨-, ⟨sym, hsym, rfl⟩, rfl⟩
      exact ⟨text, _, ⟨rfl, rfl⟩, sym, _, ⟨hsym, rfl⟩, rfl, rfl⟩

/-- The entries of an increment with their effective symbols. -/
def entriesOf (msg : MarketDataIncrementalRefresh δ) :
    List (Option Text × IncrementEntry δ) :=
  withSymbols none (counted msg.noMDEntries msg.groups)

/-- The entries taken for `BTCUSDT`. -/
def btcEntries (ps : List (Option Text × IncrementEntry δ)) : List (IncrementEntry δ) :=
  (ps.filter (fun p => isBtc p.1)).map Prod.snd

theorem btcEntries_cons (p : Option Text × IncrementEntry δ)
    (ps : List (Option Text × IncrementEntry δ)) :
    btcEntries (p :: ps)
      = (if isBtc p.1 then [p.2] else []) ++ btcEntries ps := by
  unfold btcEntries
  by_cases h : isBtc p.1 = true
  · rw [List.filter_cons, if_pos h, List.map_cons, if_pos h]
    rfl
  · rw [List.filter_cons, if_neg h, if_neg h]
    rfl

/-- Entries that all have a symbol of their own inherit none. -/
theorem withSymbols_of_isSome {gs : List (IncrementEntry δ)}
    (h : ∀ g ∈ gs, g.symbol.isSome = true) (inherited : Option Text) :
    withSymbols inherited gs = gs.map (fun g => (g.symbol, g)) := by
  induction gs generalizing inherited with
  | nil => rfl
  | cons g gs ih =>
    obtain ⟨hg, hgs⟩ := List.forall_mem_cons.mp h
    have hown : g.symbol.or inherited = g.symbol := Option.or_of_isSome hg
    rw [withSymbols, hown, ih hgs, List.map_cons]

/-- Of entries with their own symbols, those taken for `BTCUSDT`. -/
theorem btcEntries_map (gs : List (IncrementEntry δ)) :
    btcEntries (gs.map (fun g => (g.symbol, g))) = gs.filter (fun g => isBtc g.symbol) := by
  unfold btcEntries
  rw [List.filter_map, List.map_map]
  exact List.map_id _

/-- A symbol text the conversion accepts. -/
def Accepted (text : Option Text) : Prop := ∃ sym, Carries text (some sym)

/-- The groups a sender counted are the entries of its message. -/
theorem counted_ofGroups (gs : List (IncrementEntry δ)) :
    counted (MarketDataIncrementalRefresh.ofGroups gs).noMDEntries
      (MarketDataIncrementalRefresh.ofGroups gs).groups = gs :=
  List.take_length

theorem countFits_ofGroups (gs : List (IncrementEntry δ)) :
    CountFits (MarketDataIncrementalRefresh.ofGroups gs).noMDEntries
      (MarketDataIncrementalRefresh.ofGroups gs).groups :=
  ⟨gs.length, rfl, Nat.le_refl _⟩

/-- **The entries of an increment with explicit symbols.** -/
theorem entriesOf_ofGroups {gs : List (IncrementEntry δ)}
    (h : ∀ g ∈ gs, Accepted g.symbol) :
    entriesOf (.ofGroups gs) = gs.map (fun g => (g.symbol, g)) := by
  have hsome : ∀ g ∈ gs, g.symbol.isSome = true := by
    intro g hg
    obtain ⟨sym, hsym⟩ := h g hg
    cases hown : g.symbol with
    | none =>
      rw [hown] at hsym
      cases hsym
    | some text => rfl
  rw [entriesOf, counted_ofGroups, withSymbols_of_isSome hsome]

/-! ## What a loop that ends normally has done -/

section Ok

variable {act : SymbolEnum → IncrementEntry δ → EStateM Exception σ Unit}
  {R : IncrementEntry δ → Prop} {f : IncrementEntry δ → σ → σ}

/-- The skips leave `act` for `BTCUSDT` alone. -/
theorem skipOthers_eq (act : SymbolEnum → IncrementEntry δ → EStateM Exception σ Unit)
    (symbol : Option SymbolEnum) (g : IncrementEntry δ) :
    skipOthers act symbol g
      = if symbol = some .btcusdt then act .btcusdt g else pure () := by
  rcases symbol with _ | _ | _ <;> rfl

/-- One iteration: it acts on the entry exactly when its effective symbol is
taken for `BTCUSDT`. -/
theorem incrementBody_ok_iff
    (hact : ∀ g u s s', (act .btcusdt g).run s = .ok u s' ↔ R g ∧ s' = f g s)
    {i : ℕ} {g : IncrementEntry δ} {inherited : Option Text}
    {symbol symbol' : Option SymbolEnum} {s s' : σ} (hc : Carries inherited symbol) :
    (incrementBody act i g symbol).run s = .ok symbol' s'
      ↔ (i = 1 → g.symbol.isSome) ∧ Carries (g.symbol.or inherited) symbol'
        ∧ (isBtc (g.symbol.or inherited) = true → R g)
        ∧ s' = if isBtc (g.symbol.or inherited) then f g s else s := by
  have hskip : ∀ {symbol₁ : Option SymbolEnum} {u : Unit} {s₁ : σ},
      Carries (g.symbol.or inherited) symbol₁ →
        ((skipOthers act symbol₁ g).run s = .ok u s₁
          ↔ (isBtc (g.symbol.or inherited) = true → R g)
            ∧ s₁ = if isBtc (g.symbol.or inherited) then f g s else s) := by
    intro symbol₁ u s₁ hc₁
    rw [skipOthers_eq]
    by_cases hbtc : isBtc (g.symbol.or inherited) = true
    · rw [if_pos (hc₁.eq_btcusdt_iff.mpr hbtc), hact, if_pos hbtc]
      exact and_congr_left' ⟨fun h _ => h, fun h => h hbtc⟩
    · rw [if_neg (fun h => hbtc (hc₁.eq_btcusdt_iff.mp h)), pure_ok_iff, if_neg hbtc]
      exact and_congr_left' (iff_of_true rfl (fun h => absurd h hbtc))
  unfold incrementBody
  simp only [bind_ok_iff, updateSymbol_ok_iff hc]
  constructor
  · rintro ⟨symbol₁, s₁, ⟨hi, hc₁, rfl⟩, u, s₂, hrun, hpure⟩
    obtain ⟨rfl, rfl⟩ := pure_ok_iff.mp hpure
    obtain ⟨hR, hs⟩ := (hskip hc₁).mp hrun
    exact ⟨hi, hc₁, hR, hs⟩
  · rintro ⟨hi, hc₁, hR, hs⟩
    exact ⟨symbol', s, ⟨hi, hc₁, rfl⟩, (), s', (hskip hc₁).mpr ⟨hR, hs⟩, rfl⟩

/-- The effective symbol of an entry is there exactly when the entry may go
without one of its own. -/
theorem own_or_inherited_ne_none_iff {i : ℕ} {own inherited : Option Text}
    (hi : i = 1 ↔ inherited = none) :
    (i = 1 → own.isSome) ↔ own.or inherited ≠ none := by
  cases own with
  | some text => exact iff_of_true (fun _ => rfl) (Option.some_ne_none text)
  | none =>
    rw [Option.none_or]
    constructor
    · intro h hnone
      exact absurd (h (hi.mpr hnone)) Bool.false_ne_true
    · intro h hone
      exact absurd (hi.mp hone) h

/-- A text that is there and carried is accepted. -/
theorem Carries.accepted {text : Option Text} {symbol : Option SymbolEnum}
    (h : Carries text symbol) (hne : text ≠ none) : Accepted text := by
  cases text with
  | none => exact absurd rfl hne
  | some text =>
    obtain ⟨sym, hsym, -⟩ := h
    exact ⟨sym, sym, hsym, rfl⟩

theorem Accepted.ne_none {text : Option Text} (h : Accepted text) : text ≠ none := by
  rintro rfl
  obtain ⟨sym, hsym⟩ := h
  cases hsym

/-- The loop from any point on: past the first entry there is a symbol to
inherit, which is what makes the two ways an entry can be without one
coincide with its effective symbol being missing. -/
theorem forEach_incrementBody_ok_iff
    (hact : ∀ g u s s', (act .btcusdt g).run s = .ok u s' ↔ R g ∧ s' = f g s)
    {i : ℕ} {gs : List (IncrementEntry δ)} {inherited : Option Text}
    {symbol : Option SymbolEnum} {s s' : σ} (hc : Carries inherited symbol)
    (hpos : 0 < i) (hi : i = 1 ↔ inherited = none) :
    (∃ symbol', (forEach (incrementBody act) i gs symbol).run s = .ok symbol' s')
      ↔ (∀ p ∈ withSymbols inherited gs,
          Accepted p.1 ∧ (isBtc p.1 = true → R p.2))
        ∧ s' = (btcEntries (withSymbols inherited gs)).foldl (fun s g => f g s) s := by
  induction gs generalizing i inherited symbol s with
  | nil =>
    rw [forEach, withSymbols]
    constructor
    · rintro ⟨symbol', h⟩
      exact ⟨fun p hp => absurd hp List.not_mem_nil, (pure_ok_iff.mp h).2⟩
    · rintro ⟨-, rfl⟩
      exact ⟨symbol, rfl⟩
  | cons g gs ih =>
    rw [forEach, withSymbols, btcEntries_cons, List.foldl_append, List.forall_mem_cons]
    have hstep : ∀ symbol' s', (incrementBody act i g symbol).run s = .ok symbol' s' ↔ _ :=
      fun symbol' s' => incrementBody_ok_iff hact hc
    have hfold : ∀ t : σ, (if isBtc (g.symbol.or inherited) then [g] else []).foldl
        (fun s g => f g s) t = if isBtc (g.symbol.or inherited) then f g t else t := by
      intro t
      split <;> rfl
    have hsome : (i = 1 → g.symbol.isSome) ↔ _ := own_or_inherited_ne_none_iff hi
    have hnext : g.symbol.or inherited ≠ none →
        (i + 1 = 1 ↔ g.symbol.or inherited = none) :=
      fun hne => iff_of_false (by omega) hne
    rw [hfold]
    constructor
    · rintro ⟨symbol', h⟩
      obtain ⟨symbol₁, s₁, hbody, hrest⟩ := bind_ok_iff.mp h
      obtain ⟨h₁, hc₁, hR, rfl⟩ := (hstep symbol₁ s₁).mp hbody
      have hne := hsome.mp h₁
      obtain ⟨hall, rfl⟩ := (ih hc₁ (Nat.succ_pos i) (hnext hne)).mp ⟨symbol', hrest⟩
      exact ⟨⟨⟨hc₁.accepted hne, hR⟩, hall⟩, rfl⟩
    · rintro ⟨⟨⟨hacc, hR⟩, hall⟩, rfl⟩
      have hne := hacc.ne_none
      obtain ⟨sym, hsym⟩ := hacc
      obtain ⟨symbol', hrest⟩ := (ih hsym (Nat.succ_pos i) (hnext hne)).mpr ⟨hall, rfl⟩
      refine ⟨symbol', bind_ok_iff.mpr ⟨some sym, _, ?_, hrest⟩⟩
      exact (hstep (some sym) _).mpr ⟨hsome.mpr hne, hsym, hR, rfl⟩

/-- **A loop over an increment ends normally** exactly when the count field
is readable and counts groups that are there, every entry has an effective
symbol the conversion accepts, and `act` ends normally on those taken for
`BTCUSDT`; it has then run `act` on these, in order. -/
theorem incrementLoop_ok_iff
    (hact : ∀ g u s s', (act .btcusdt g).run s = .ok u s' ↔ R g ∧ s' = f g s)
    {msg : MarketDataIncrementalRefresh δ} {s s' : σ} {u : Unit} :
    (incrementLoop act msg).run s = .ok u s'
      ↔ CountFits msg.noMDEntries msg.groups
        ∧ (∀ p ∈ entriesOf msg, Accepted p.1 ∧ (isBtc p.1 = true → R p.2))
        ∧ s' = (btcEntries (entriesOf msg)).foldl (fun s g => f g s) s := by
  have hloop : (∃ symbol', (forEach (incrementBody act) 1
      (counted msg.noMDEntries msg.groups) none).run s = .ok symbol' s') ↔ _ :=
    forEach_incrementBody_ok_iff hact (show Carries none none from rfl) Nat.one_pos
      (iff_of_true rfl rfl)
  have hsplit : incrementLoop act msg
      = (numEntries msg.noMDEntries >>= fun num =>
          forEntries (incrementBody act) num msg.groups none) >>= fun _ => pure () := by
    rw [bind_assoc]
    rfl
  unfold entriesOf
  rw [← hloop, hsplit, bind_ok_iff]
  constructor
  · rintro ⟨symbol', s₁, h, hpure⟩
    obtain ⟨-, rfl⟩ := pure_ok_iff.mp hpure
    obtain ⟨hnum, hrun⟩ := forEntries_ok.mp h
    exact ⟨hnum, symbol', hrun⟩
  · rintro ⟨hnum, symbol', hrun⟩
    exact ⟨symbol', s', forEntries_ok.mpr ⟨hnum, hrun⟩, rfl⟩

end Ok

end Binance
