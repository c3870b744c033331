import Trader.ConfigEnv
import Trader.FixApp
import Trader.Resumption

set_option autoImplicit false

/-!
# What the exchange is asked for

When a session has logged on, `FixApp::onLogon` names the session's thread,
binds it to a core, gives that of `PX` real-time priority, and then asks the
exchange for market data: prices on `PX`, trades on `TX`. Each of the calls to
the operating system may throw, and then nothing is asked for. What is asked
for is the symbols that the environment lists (`requests_sent`).
-/

open Fix EarlyExit

/-! ## The thread of a session -/

namespace Utils

/-- What the operating system answers a thread. The numbers are error codes,
0 for none. -/
structure Os where
  /-- `sysconf(_SC_NPROCESSORS_ONLN)`. -/
  processorsOnline : ℤ
  /-- `std::thread::hardware_concurrency()`. -/
  hardwareConcurrency : ℕ
  /-- `pthread_setaffinity_np`. -/
  setAffinity : ℕ → ℕ
  /-- `pthread_getname_np`. -/
  getName : ℕ
  /-- `pthread_setschedparam`. -/
  setSchedParam : ℕ
  /-- `std::system_category().message`. -/
  message : ℕ → Text

/-- What `utils::Threading` sets of a thread. -/
structure Thread where
  name : Text
  cpu : Option ℕ
  realtime : Bool

namespace Threading

/-- `EPERM`. -/
def eperm : ℕ := 1

/-- `Threading::set_thread_name`. -/
def setThreadName (name : Text) (thread : Thread) : Thread := { thread with name := name.take 15 }

/-- `Threading::get_thread_name`. -/
def getThreadName (os : Os) : EStateM Exception Thread Text := do
  if os.getName ≠ 0 then
    throw (.runtimeError ("failed to get thread name on linux. error [".toList
      ++ os.message os.getName ++ "]".toList))
  else
    return (← MonadState.get).name

/-- `Threading::get_cpu_count`. -/
def getCpuCount (os : Os) : ℕ :=
  if 0 < os.processorsOnline then os.processorsOnline.toNat % 2 ^ 32
  else if 0 < os.hardwareConcurrency then os.hardwareConcurrency
  else 1

/-- `Threading::set_thread_cpu`, which is `set_native_thread_affinity` of the
calling thread. -/
def setThreadCpu (os : Os) (cpuId : ℕ) : EStateM Exception Thread Unit := do
  if getCpuCount os ≤ cpuId then
    throw (.runtimeError ("cpu_id exceeds available CPUs, cpu_id [".toList
      ++ Nat.toDigits 10 cpuId ++ "] available [".toList ++ Nat.toDigits 10 (getCpuCount os)
      ++ "]".toList))
  else if os.setAffinity cpuId ≠ 0 then
    throw (.runtimeError ("linux: failed to set thread affinity. error [".toList
      ++ os.message (os.setAffinity cpuId) ++ "]".toList))
  else
    modify (fun thread => { thread with cpu := some cpuId })
    -- the name is fetched for a line of the log
    let _ ← getThreadName os

/-- `Threading::set_thread_realtime`. -/
def setThreadRealtime (os : Os) : EStateM Exception Thread Unit := do
  if os.setSchedParam = 0 then
    modify (fun thread => { thread with realtime := true })
  else if os.setSchedParam = eperm then
    throw (.runtimeError "permission denied: need root to set real-time priority".toList)
  else
    throw (.runtimeError ("Failed to set real-time scheduling, err [".toList
      ++ Nat.toDigits 10 os.setSchedParam ++ "]".toList))

end Threading

end Utils

namespace Binance

open Utils

/-! ## The requests -/

/-- `FIX::SubscriptionRequestType_SNAPSHOT_PLUS_UPDATES`. -/
def snapshotPlusUpdates : Char := '1'

/-- `FIX44::MarketDataRequest`, with the fields that are set of one. -/
structure MarketDataRequest where
  mdReqID : Text
  subscriptionRequestType : Char
  marketDepth : Option ℕ
  noMDEntryTypes : List Char
  noRelatedSym : List Text
  deriving DecidableEq

/-- `FIX::SessionID`. -/
structure SessionID where
  id : Text
  qualifier : Text
  deriving DecidableEq

/-- A session that has logged on: its thread, and what has been sent to it. -/
structure Session where
  thread : Thread
  sent : List MarketDataRequest

/-- A logon: what the operating system answers the thread of the session, and
the time. -/
structure Logon where
  sessionId : SessionID
  os : Os
  now : ℕ

namespace FixApp

/-- `"MDReq-" + std::to_string(std::time(nullptr))`. -/
def requestId (now : ℕ) : Text := "MDReq-".toList ++ Nat.toDigits 10 now

/-- `Session::sendToTarget`. -/
def sendToTarget (request : MarketDataRequest) : EStateM Exception Session Unit :=
  modify (fun session => { session with sent := session.sent ++ [request] })

/-- What `FixApp::subscribe_to_prices` asks for, -/
def pricesRequest (cfg : Config) (now : ℕ) : MarketDataRequest where
  mdReqID := requestId now
  subscriptionRequestType := snapshotPlusUpdates
  marketDepth := some Config.maxDepth
  noMDEntryTypes := [mdEntryTypeBid, mdEntryTypeOffer]
  noRelatedSym := cfg.symbols

/-- and `FixApp::subscribe_to_trades`, which sets no depth. -/
def tradesRequest (cfg : Config) (now : ℕ) : MarketDataRequest where
  mdReqID := requestId now
  subscriptionRequestType := snapshotPlusUpdates
  marketDepth := none
  noMDEntryTypes := [mdEntryTypeTrade]
  noRelatedSym := cfg.symbols

/-- A call that is about the thread of the session. -/
def onThread (x : EStateM Exception Thread Unit) : EStateM Exception Session Unit :=
  zoom Session.thread (fun thread session => { session with thread := thread }) x

/-- `FixApp::onLogon`, of an app made of the configuration. -/
def onLogon (cfg : Config) (l : Logon) : EStateM Exception Session Unit := do
  onThread (modify (Threading.setThreadName
    ("fix_session".toList ++ "_".toList ++ l.sessionId.qualifier)))
  if l.sessionId.qualifier = pxSessionQualifier then
    onThread (Threading.setThreadCpu l.os cfg.pxCpu.toNat)
    onThread (Threading.setThreadRealtime l.os)
    sendToTarget (pricesRequest cfg l.now)
  else if l.sessionId.qualifier = txSessionQualifier then
    onThread (Threading.setThreadCpu l.os cfg.txCpu.toNat)
    sendToTarget (tradesRequest cfg l.now)
  else
    -- nothing on `OX`, and a line in the log for a session that is unknown
    return ()

/-- What a logon comes to, on a thread nothing has been set of. -/
def afterLogon (cfg : Config) (l : Logon) : Except Exception Unit × Session :=
  Resumption.outcome (onLogon cfg l) ⟨⟨[], none, false⟩, []⟩

/-- **What the exchange is asked for** over a sequence of logons. -/
def asked (cfg : Config) (ls : List Logon) : List (SessionID × MarketDataRequest) :=
  ls.flatMap (fun l => (afterLogon cfg l).2.sent.map (Prod.mk l.sessionId))

/-! ## What is sent -/

/-- A thread can be bound to a core. -/
def Bindable (os : Os) (cpu : ℕ) : Prop :=
  cpu < Threading.getCpuCount os ∧ os.setAffinity cpu = 0 ∧ os.getName = 0

instance (os : Os) (cpu : ℕ) : Decidable (Bindable os cpu) :=
  inferInstanceAs (Decidable (_ ∧ _ ∧ _))

/-- The request of a logon, if it comes to one. -/
def requestOf (cfg : Config) (l : Logon) : Option MarketDataRequest :=
  if l.sessionId.qualifier = pxSessionQualifier then
    if Bindable l.os cfg.pxCpu.toNat ∧ l.os.setSchedParam = 0 then some (pricesRequest cfg l.now)
    else none
  else if l.sessionId.qualifier = txSessionQualifier then
    if Bindable l.os cfg.txCpu.toNat then some (tradesRequest cfg l.now) else none
  else none

section Logon

variable {os : Os} {cpu : ℕ} {thread : Thread} {session : Session}

theorem run_setThreadCpu (h : Bindable os cpu) :
    (Threading.setThreadCpu os cpu).run thread = .ok () { thread with cpu := some cpu } := by
  obtain ⟨hcpu, haffinity, hname⟩ := h
  unfold Threading.setThreadCpu Threading.getThreadName
  rw [if_neg (Nat.not_le_of_lt hcpu), if_neg (not_not_intro haffinity),
    if_neg (not_not_intro hname)]
  rfl

theorem exists_error_setThreadCpu (h : ¬ Bindable os cpu) :
    ∃ e thread', (Threading.setThreadCpu os cpu).run thread = .error e thread' := by
  unfold Threading.setThreadCpu
  split_ifs with hcpu haffinity
  · exact ⟨_, _, rfl⟩
  · exact ⟨_, _, rfl⟩
  · have hname : os.getName ≠ 0 :=
      fun hname => h ⟨Nat.lt_of_not_le hcpu, not_not.mp haffinity, hname⟩
    unfold Threading.getThreadName
    rw [if_pos hname]
    exact ⟨_, _, rfl⟩

theorem run_setThreadRealtime (h : os.setSchedParam = 0) :
    (Threading.setThreadRealtime os).run thread = .ok () { thread with realtime := true } := by
  unfold Threading.setThreadRealtime
  rw [if_pos h]
  rfl

theorem exists_error_setThreadRealtime (h : os.setSchedParam ≠ 0) :
    ∃ e, (Threading.setThreadRealtime os).run thread = .error e thread := by
  unfold Threading.setThreadRealtime
  rw [if_neg h]
  split_ifs <;> exact ⟨_, rfl⟩

/-- A call about the thread that goes well is followed by the rest, -/
theorem outcome_onThread_of_ok {x : EStateM Exception Thread Unit} {thread' : Thread}
    (h : x.run session.thread = .ok () thread') (f : EStateM Exception Session Unit) :
    Resumption.outcome (do onThread x; f) session
      = Resumption.outcome f { session with thread := thread' } := by
  unfold Resumption.outcome
  rw [EStateM.run_bind]
  have hx : (onThread x).run session = .ok () { session with thread := thread' } :=
    zoom_ok_iff.mpr ⟨thread', h, rfl⟩
  rw [hx]

/-- and one that throws is the end, with nothing sent. -/
theorem outcome_onThread_of_error {x : EStateM Exception Thread Unit} {e : Exception}
    {thread' : Thread} (h : x.run session.thread = .error e thread')
    (f : EStateM Exception Session Unit) :
    Resumption.outcome (do onThread x; f) session
      = (.error e, { session with thread := thread' }) := by
  unfold Resumption.outcome
  rw [EStateM.run_bind]
  have hx : (onThread x).run session = .error e { session with thread := thread' } :=
    zoom_error_iff.mpr ⟨thread', h, rfl⟩
  rw [hx]

/-- **What a logon sends** is its request. -/
theorem sent_afterLogon (cfg : Config) (l : Logon) :
    (afterLogon cfg l).2.sent = (requestOf cfg l).toList := by
  have hname : (modify (Threading.setThreadName ("fix_session".toList ++ "_".toList
      ++ l.sessionId.qualifier)) : EStateM Exception Thread Unit).run ⟨[], none, false⟩
        = .ok () _ := rfl
  unfold afterLogon onLogon
  rw [outcome_onThread_of_ok hname]
  by_cases hpx : l.sessionId.qualifier = pxSessionQualifier
  · rw [requestOf, if_pos hpx, if_pos hpx]
    by_cases hcpu : Bindable l.os cfg.pxCpu.toNat
    · rw [outcome_onThread_of_ok (run_setThreadCpu hcpu)]
      by_cases hrealtime : l.os.setSchedParam = 0
      · rw [outcome_onThread_of_ok (run_setThreadRealtime hrealtime), if_pos ⟨hcpu, hrealtime⟩]
        rfl
      · obtain ⟨e, he⟩ := exists_error_setThreadRealtime hrealtime
        rw [outcome_onThread_of_error he, if_neg (fun h => hrealtime h.2)]
        rfl
    · obtain ⟨e, thread', he⟩ := exists_error_setThreadCpu hcpu
      rw [outcome_onThread_of_error he, if_neg (fun h => hcpu h.1)]
      rfl
  · rw [requestOf, if_neg hpx, if_neg hpx]
    by_cases htx : l.sessionId.qualifier = txSessionQualifier
    · rw [if_pos htx, if_pos htx]
      by_cases hcpu : Bindable l.os cfg.txCpu.toNat
      · rw [outcome_onThread_of_ok (run_setThreadCpu hcpu), if_pos hcpu]
        rfl
      · obtain ⟨e, thread', he⟩ := exists_error_setThreadCpu hcpu
        rw [outcome_onThread_of_error he, if_neg hcpu]
        rfl
    · rw [if_neg htx, if_neg htx]
      rfl

end Logon

theorem asked_eq (cfg : Config) (ls : List Logon) :
    asked cfg ls = ls.filterMap (fun l => (requestOf cfg l).map (Prod.mk l.sessionId)) := by
  rw [asked, List.filterMap_eq_flatMap_toList]
  refine List.flatMap_congr (fun l _ => ?_)
  rw [sent_afterLogon]
  cases requestOf cfg l <;> rfl

/-- Whatever is asked for is asked for of all symbols. -/
theorem noRelatedSym_requestOf {cfg : Config} {l : Logon} {request : MarketDataRequest}
    (h : requestOf cfg l = some request) : request.noRelatedSym = cfg.symbols := by
  unfold requestOf at h
  split_ifs at h <;> obtain rfl := Option.some.inj h <;> rfl

section Sample

end Sample

end FixApp

end Binance
