import Mathlib.Logic.Function.Basic
import Trader.Fix
import Trader.TradeBox

set_option autoImplicit false

/-!
# The signature of a logon

`FixApp::toAdmin` completes a Logon message before it is sent: it signs four
fields that say who logs on, to whom, as which message and when, and puts the
signature into the message together with the time it has signed. The fields
are joined by the character that separates the fields of a message, which none
of them contains, so the payload can be split again and says the same as the
message that carries its signature (`logon_signature_binds`).

How QuickFIX renders a time is its own business: `convert` is
`UtcTimeStampConvertor::convert`, which the payload is made with, and
`sendingTime` is the text of a `SendingTime` field, which the message gets.
-/

open EarlyExit

namespace Fix

namespace Tag

def msgSeqNum : ℕ := 34
def msgType : ℕ := 35
def senderCompID : ℕ := 49
def sendingTime : ℕ := 52
def targetCompID : ℕ := 56
def rawDataLength : ℕ := 95
def rawData : ℕ := 96
def username : ℕ := 553

end Tag

/-- `FIX::MsgType_Logon`. -/
def msgTypeLogon : Text := ['A']

/-- `FIX::FieldMap`: the texts of the fields that are set, by tag. -/
abbrev FieldMap := ℕ → Option Text

/-- `FieldMap::setField`, over what the field was set to. -/
def FieldMap.setField (fields : FieldMap) (tag : ℕ) (text : Text) : FieldMap :=
  Function.update fields tag (some text)

@[simp] theorem FieldMap.setField_same (fields : FieldMap) (tag : ℕ) (text : Text) :
    fields.setField tag text tag = some text := Function.update_self _ _ _

@[simp] theorem FieldMap.setField_other (fields : FieldMap) {tag tag' : ℕ} (text : Text)
    (h : tag' ≠ tag) : fields.setField tag text tag' = fields tag' := Function.update_of_ne h _ _

/-- `FIX::Message`, the fields of its header and those of its body. -/
structure Message where
  header : FieldMap
  body : FieldMap

/-- A message of this type. -/
def Message.IsLogon (msg : Message) : Prop := msg.header Tag.msgType = some msgTypeLogon

end Fix

namespace Binance

open Fix

/-! ## The code -/

/-- The separator of the fields of a message. -/
def soh : Char := '\x01'

/-- `MessageHandlingMode::Mode`. -/
inductive MessageHandlingMode where
  | unordered
  | sequential

namespace MessageHandlingMode

/-- `MessageHandlingMode::FIELD_ID`. -/
def fieldId : ℕ := 25035

/-- `MessageHandlingMode::to_int`. -/
def toInt : MessageHandlingMode → ℕ
  | unordered => 1
  | sequential => 2

/-- `MessageHandlingMode::to_string`. -/
def toString (m : MessageHandlingMode) : Text := Nat.toDigits 10 m.toInt

end MessageHandlingMode

/-- `binance::IAuth`: what a key signs a payload with, if it does, and the key
that goes with it. -/
structure IAuth where
  signPayload : Text → Except Exception Text
  getApiKey : Text

/-- What `toAdmin` works on: the message, and the payloads that have been given
to `sign_payload`. -/
structure Admin where
  msg : Message
  signed : List Text

namespace FixApp

/-- `header.getField`. -/
def getHeaderField (tag : ℕ) : EStateM Exception Admin Text := do
  let st ← EStateM.get
  Fix.get tag (st.msg.header tag)

/-- `msg.getHeader().setField`. -/
def setHeaderField (tag : ℕ) (text : Text) : EStateM Exception Admin Unit :=
  modify (fun st => { st with msg := { st.msg with header := st.msg.header.setField tag text } })

/-- `msg.setField`. -/
def setField (tag : ℕ) (text : Text) : EStateM Exception Admin Unit :=
  modify (fun st => { st with msg := { st.msg with body := st.msg.body.setField tag text } })

/-- `auth_->sign_payload`. -/
def signPayload (auth : IAuth) (payload : Text) : EStateM Exception Admin Text := do
  modify (fun st => { st with signed := st.signed ++ [payload] })
  lift (auth.signPayload payload)

variable {τ : Type} (auth : IAuth) (convert sendingTime : τ → Text)

/-- `FixApp::toAdmin`, at a time `now`. -/
def toAdmin (now : τ) : EStateM Exception Admin Unit := do
  let msgType ← getHeaderField Tag.msgType
  if msgType = msgTypeLogon then
    let sender ← getHeaderField Tag.senderCompID
    let target ← getHeaderField Tag.targetCompID
    let seqNum ← getHeaderField Tag.msgSeqNum
    let payload := ['A'] ++ [soh] ++ sender ++ [soh] ++ target ++ [soh] ++ seqNum ++ [soh]
      ++ convert now
    let signature ← signPayload auth payload
    setHeaderField Tag.sendingTime (sendingTime now)
    setField Tag.username auth.getApiKey
    setField Tag.rawData signature
    -- a `FIX::LENGTH` is an `int`, which the size is asserted to be
    setField Tag.rawDataLength (Nat.toDigits 10 signature.length)
    setField MessageHandlingMode.fieldId (MessageHandlingMode.toString .sequential)
  else
    pure ()  -- "toAdmin."

end FixApp

/-! ## The payload -/

/-- The four fields that are signed. -/
structure Identity where
  sender : Text
  target : Text
  seqNum : Text
  time : Text
  deriving DecidableEq

namespace Identity

/-- The fields in the order they are signed in. -/
def fields (f : Identity) : List Text := [f.sender, f.target, f.seqNum, f.time]

/-- The payload that is made of them. -/
def payload (f : Identity) : Text :=
  ['A'] ++ [soh] ++ f.sender ++ [soh] ++ f.target ++ [soh] ++ f.seqNum ++ [soh] ++ f.time

/-- No field contains the separator. -/
def SohFree (f : Identity) : Prop := ∀ t ∈ f.fields, soh ∉ t

instance : DecidablePred SohFree := fun _ => inferInstanceAs (Decidable (∀ t ∈ _, _))

/-- What a payload says, if it is one. -/
def decode (p : Text) : Option Identity :=
  match p.splitOn soh with
  | [a, sender, target, seqNum, time] =>
    if a = ['A'] then some ⟨sender, target, seqNum, time⟩ else none
  | _ => none

theorem payload_eq_intercalate (f : Identity) :
    f.payload = [soh].intercalate (['A'] :: f.fields) := by
  simp [payload, fields, List.intercalate_cons_cons]

/-- **The payload is split where it was joined.** -/
theorem decode_payload {f : Identity} (h : f.SohFree) : decode f.payload = some f := by
  have hfree : ∀ t ∈ ['A'] :: f.fields, soh ∉ t := by
    intro t ht
    rcases List.mem_cons.mp ht with rfl | ht
    · decide
    · exact h t ht
  rw [decode, payload_eq_intercalate, List.splitOn_intercalate soh hfree (List.cons_ne_nil _ _)]
  rfl

/-- **So different fields are signed differently.** -/
theorem payload_injective {f f' : Identity} (h : f.SohFree) (h' : f'.SohFree)
    (heq : f.payload = f'.payload) : f = f' := by
  have hdecode := decode_payload h
  rw [heq, decode_payload h'] at hdecode
  exact (Option.some.inj hdecode).symm

/-- The fields that a message comes with, and the time. -/
structure ReadFrom {τ : Type} (convert : τ → Text) (now : τ) (msg : Message) (f : Identity) :
    Prop where
  sender : msg.header Tag.senderCompID = some f.sender
  target : msg.header Tag.targetCompID = some f.target
  seqNum : msg.header Tag.msgSeqNum = some f.seqNum
  time : f.time = convert now

/-- The fields of a message as it is sent. -/
structure SentIn (msg : Message) (f : Identity) : Prop where
  sender : msg.header Tag.senderCompID = some f.sender
  target : msg.header Tag.targetCompID = some f.target
  seqNum : msg.header Tag.msgSeqNum = some f.seqNum
  time : msg.header Tag.sendingTime = some f.time

end Identity

theorem Identity.ReadFrom.unique {τ : Type} {convert : τ → Text} {now : τ} {msg : Message}
    {f f' : Identity} (h : f.ReadFrom convert now msg) (h' : f'.ReadFrom convert now msg) :
    f = f' := by
  obtain ⟨a, b, c, d⟩ := f
  obtain ⟨a', b', c', d'⟩ := f'
  obtain rfl : a = a' := Option.some.inj (h.sender.symm.trans h'.sender)
  obtain rfl : b = b' := Option.some.inj (h.target.symm.trans h'.target)
  obtain rfl : c = c' := Option.some.inj (h.seqNum.symm.trans h'.seqNum)
  obtain rfl : d = d' := h.time.trans h'.time.symm
  rfl

/-- The fields of the header that are signed. -/
def signedTags : List ℕ := [Tag.senderCompID, Tag.targetCompID, Tag.msgSeqNum]

/-- They are set in a message that they are read from. -/
theorem Identity.ReadFrom.ne_none {τ : Type} {convert : τ → Text} {now : τ} {msg : Message}
    {f : Identity} (h : f.ReadFrom convert now msg) : ∀ tag ∈ signedTags, msg.header tag ≠ none := by
  simp [signedTags, h.sender, h.target, h.seqNum]

namespace FixApp

/-! ## What is signed and what is sent -/

section Steps

variable {α : Type} {P : EStateM.Result Exception Admin α → Prop} {st : Admin} {tag : ℕ}

/-- A field of the header is read, and what comes after it is about its text. -/
theorem readHeader {f : Text → EStateM Exception Admin α}
    (hsome : ∀ text, st.msg.header tag = some text → P ((f text).run st))
    (hnone : st.msg.header tag = none → P (.error (.fieldNotFound tag) st)) :
    P ((getHeaderField tag >>= f).run st) := by
  show P ((Fix.get tag (st.msg.header tag) >>= f).run st)
  cases hget : st.msg.header tag with
  | none => exact hnone hget
  | some text => exact hsome text hget

/-- A payload is signed, and what comes after it is about the signature. -/
theorem sign {auth : IAuth} {payload : Text} {f : Text → EStateM Exception Admin α}
    (hok : ∀ signature, auth.signPayload payload = .ok signature →
      P ((f signature).run ⟨st.msg, st.signed ++ [payload]⟩))
    (herror : ∀ e, auth.signPayload payload = .error e →
      P (.error e ⟨st.msg, st.signed ++ [payload]⟩)) :
    P ((signPayload auth payload >>= f).run st) := by
  show P ((lift (auth.signPayload payload) >>= f).run ⟨st.msg, st.signed ++ [payload]⟩)
  cases hsign : auth.signPayload payload with
  | error e =>
    rw [run_lift_bind_of_error rfl]
    exact herror e hsign
  | ok signature =>
    rw [run_lift_bind_of_ok rfl]
    exact hok signature hsign

end Steps

variable {τ : Type} (auth : IAuth) (convert sendingTime : τ → Text)

/-- A Logon message with what `toAdmin` puts into it. -/
def complete (time signature : Text) (msg : Message) : Message where
  header := msg.header.setField Tag.sendingTime time
  body := (((msg.body.setField Tag.username auth.getApiKey).setField Tag.rawData
    signature).setField Tag.rawDataLength (Nat.toDigits 10 signature.length)).setField
    MessageHandlingMode.fieldId (MessageHandlingMode.toString .sequential)

theorem header_complete (time signature : Text) (msg : Message) :
    (complete auth time signature msg).header = msg.header.setField Tag.sendingTime time := rfl

/-- The body has the signature. -/
theorem rawData_complete (time signature : Text) (msg : Message) :
    (complete auth time signature msg).body Tag.rawData = some signature := by
  simp only [complete]
  rw [FieldMap.setField_other _ _ (by decide), FieldMap.setField_other _ _ (by decide),
    FieldMap.setField_same]

/-- **What `toAdmin` comes to** for a Logon message. -/
inductive LogonOutcome (now : τ) (st : Admin) : EStateM.Result Exception Admin Unit → Prop
  | missing {tag : ℕ} (htag : tag ∈ signedTags) (h : st.msg.header tag = none) :
    LogonOutcome now st (.error (.fieldNotFound tag) st)
  | refused {f : Identity} {e : Exception} (hf : f.ReadFrom convert now st.msg)
    (h : auth.signPayload f.payload = .error e) :
    LogonOutcome now st (.error e ⟨st.msg, st.signed ++ [f.payload]⟩)
  | sent {f : Identity} {signature : Text} (hf : f.ReadFrom convert now st.msg)
    (h : auth.signPayload f.payload = .ok signature) :
    LogonOutcome now st (.ok () ⟨complete auth (sendingTime now) signature st.msg,
      st.signed ++ [f.payload]⟩)

/-- **What `toAdmin` does** with a Logon message. -/
theorem logonOutcome_toAdmin (now : τ) {st : Admin} (hlogon : st.msg.IsLogon) :
    LogonOutcome auth convert sendingTime now st
      ((toAdmin auth convert sendingTime now).run st) := by
  unfold toAdmin
  refine readHeader (fun msgType htype => ?_) (fun hnone => ?_)
  swap
  · cases hlogon.symm.trans hnone
  obtain rfl : msgType = msgTypeLogon := Option.some.inj (htype.symm.trans hlogon)
  rw [if_pos rfl]
  refine readHeader (fun sender hsender => ?_) (fun hnone => .missing (by decide) hnone)
  refine readHeader (fun target htarget => ?_) (fun hnone => .missing (by decide) hnone)
  refine readHeader (fun seqNum hseq => ?_) (fun hnone => .missing (by decide) hnone)
  obtain ⟨f, hf, hpayload⟩ : ∃ f : Identity, f.ReadFrom convert now st.msg
      ∧ ['A'] ++ [soh] ++ sender ++ [soh] ++ target ++ [soh] ++ seqNum ++ [soh] ++ convert now
        = f.payload :=
    ⟨⟨sender, target, seqNum, convert now⟩, ⟨hsender, htarget, hseq, rfl⟩, rfl⟩
  rw [hpayload]
  exact sign (fun signature hsign => .sent hf hsign) (fun e hsign => .refused hf hsign)

/-- A message of another type is left as it is. -/
theorem toAdmin_of_not_logon (now : τ) {st st' : Admin} (hlogon : ¬ st.msg.IsLogon)
    (h : (toAdmin auth convert sendingTime now).run st = .ok () st') : st' = st := by
  revert h
  refine readHeader (P := fun r => r = .ok () st' → st' = st) (fun msgType htype h => ?_)
    (fun _ h => ?_)
  · have hne : msgType ≠ msgTypeLogon := by
      rintro rfl
      exact hlogon htype
    rw [if_neg hne] at h
    exact (pure_ok_iff.mp h).2
  · cases h

/-- The header of a completed message says what was read of it. -/
theorem sentIn_complete {now : τ} {msg : Message} {f : Identity}
    (hrender : ∀ t, sendingTime t = convert t) (hf : f.ReadFrom convert now msg)
    (signature : Text) : f.SentIn (complete auth (sendingTime now) signature msg) where
  sender := by rw [header_complete, FieldMap.setField_other _ _ (by decide), hf.sender]
  target := by rw [header_complete, FieldMap.setField_other _ _ (by decide), hf.target]
  seqNum := by rw [header_complete, FieldMap.setField_other _ _ (by decide), hf.seqNum]
  time := by rw [header_complete, FieldMap.setField_same, hrender, hf.time]

/-- The payloads that `toAdmin` has signed for a message, whether it ends or
throws. -/
def payloads (now : τ) (msg : Message) : List Text :=
  match (toAdmin auth convert sendingTime now).run ⟨msg, []⟩ with
  | .ok _ st => st.signed
  | .error _ st => st.signed

/-- **The payload of a Logon message** is made of its fields. -/
theorem payload_eq {now : τ} {msg : Message} {f : Identity} {p : Text} (hlogon : msg.IsLogon)
    (hf : f.ReadFrom convert now msg) (hp : p ∈ payloads auth convert sendingTime now msg) :
    p = f.payload := by
  have hout := logonOutcome_toAdmin auth convert sendingTime now
    (show (Admin.mk msg []).msg.IsLogon from hlogon)
  unfold payloads at hp
  generalize (toAdmin auth convert sendingTime now).run ⟨msg, []⟩ = r at hout hp
  cases hout with
  | missing htag h => exact absurd hp List.not_mem_nil
  | refused hf' h =>
    obtain rfl := hf.unique hf'
    exact List.mem_singleton.mp hp
  | sent hf' h =>
    obtain rfl := hf.unique hf'
    exact List.mem_singleton.mp hp

/-- **Which Logon messages are sent**: those whose fields are set and signed. -/
theorem toAdmin_ends_iff (now : τ) {st : Admin} (hlogon : st.msg.IsLogon) :
    (∃ st', (toAdmin auth convert sendingTime now).run st = .ok () st')
      ↔ ∃ (f : Identity) (signature : Text), f.ReadFrom convert now st.msg
        ∧ auth.signPayload f.payload = .ok signature := by
  have hout := logonOutcome_toAdmin auth convert sendingTime now hlogon
  generalize (toAdmin auth convert sendingTime now).run st = r at hout
  cases hout with
  | missing htag h =>
    refine iff_of_false (by rintro ⟨st', ⟨⟩⟩) ?_
    rintro ⟨f, signature, hf, -⟩
    exact hf.ne_none _ htag h
  | refused hf h =>
    refine iff_of_false (by rintro ⟨st', ⟨⟩⟩) ?_
    rintro ⟨f, signature, hf', hsign⟩
    obtain rfl := hf.unique hf'
    cases h.symm.trans hsign
  | sent hf h => exact iff_of_true ⟨_, rfl⟩ ⟨_, _, hf, h⟩

/-- **The signature binds the fields that are sent.** Logon messages without a
separator in their fields have one payload only if they have the same fields.
And the payload of a Logon message that is sent, split again, says what the
header of the message says then, with the signature of that payload. -/
theorem logon_signature_binds (hrender : ∀ t, sendingTime t = convert t) :
    (∀ (auth auth' : IAuth) (now now' : τ) (msg msg' : Message) (f f' : Identity) (p : Text),
      msg.IsLogon → msg'.IsLogon → f.ReadFrom convert now msg → f'.ReadFrom convert now' msg' →
      f.SohFree → f'.SohFree → p ∈ payloads auth convert sendingTime now msg →
      p ∈ payloads auth' convert sendingTime now' msg' → f = f')
    ∧ ∀ (auth : IAuth) (now : τ) (st : Admin), st.msg.IsLogon →
      ((∃ st', (toAdmin auth convert sendingTime now).run st = .ok () st')
        ↔ ∃ (f : Identity) (signature : Text), f.ReadFrom convert now st.msg
          ∧ auth.signPayload f.payload = .ok signature)
      ∧ ∀ st', (toAdmin auth convert sendingTime now).run st = .ok () st' →
        ∃ (f : Identity) (signature : Text), f.SentIn st'.msg
          ∧ st'.signed = st.signed ++ [f.payload]
          ∧ auth.signPayload f.payload = .ok signature
          ∧ st'.msg.body Tag.rawData = some signature
          ∧ (f.SohFree → Identity.decode f.payload = some f) := by
  refine ⟨?_, fun auth now st hlogon => ⟨toAdmin_ends_iff auth convert sendingTime now hlogon, ?_⟩⟩
  · intro auth auth' now now' msg msg' f f' p hlogon hlogon' hf hf' hfree hfree' hp hp'
    refine Identity.payload_injective hfree hfree' ?_
    rw [← payload_eq auth convert sendingTime hlogon hf hp,
      ← payload_eq auth' convert sendingTime hlogon' hf' hp']
  · intro st' hrun
    have hout := logonOutcome_toAdmin auth convert sendingTime now hlogon
    rw [hrun] at hout
    cases hout with
    | sent hf hsign =>
      exact ⟨_, _, sentIn_complete auth convert sendingTime hrender hf _, rfl, hsign,
        rawData_complete auth _ _ _, Identity.decode_payload⟩

/-- A time in whole seconds, in the format of a UTC timestamp. -/
def wholeSeconds (now : ℕ × ℕ × ℕ × UtcTimeStamp) : Text :=
  let (year, month, day, tval) := now
  paddedDecimal 4 year ++ paddedDecimal 2 month ++ paddedDecimal 2 day ++ ['-']
    ++ paddedDecimal 2 tval.hour ++ [':'] ++ paddedDecimal 2 tval.minute ++ [':']
    ++ paddedDecimal 2 tval.second

/-- The first message of a session. -/
def firstLogon (sender : Text) : Message where
  header := fun tag => List.lookup tag [(Tag.msgType, msgTypeLogon), (Tag.senderCompID, sender),
    (Tag.targetCompID, "SPOT".toList), (Tag.msgSeqNum, ['1'])]
  body := fun _ => none

/-- The fields of the first message of a session, at a quarter past eleven. -/
def firstIdentity (sender : Text) : Identity :=
  ⟨sender, "SPOT".toList, ['1'], wholeSeconds (2024, 6, 27, ⟨11, 15, 0, 0⟩)⟩

/-- A key whose signatures are the payloads backwards. -/
def backwards : IAuth := ⟨fun payload => .ok payload.reverse, "key".toList⟩

/-- Two sessions that log on at the same time: the first is sent with what is
signed, and the second signs something else. -/
theorem logon_signature_binds_sessions :
    (∃ (st' : Admin) (f : Identity),
      (toAdmin backwards wholeSeconds wholeSeconds (2024, 6, 27, ⟨11, 15, 0, 0⟩)).run
        ⟨firstLogon "TRDR1".toList, []⟩ = .ok () st'
      ∧ f.SentIn st'.msg ∧ st'.signed = [f.payload]
      ∧ st'.msg.body Tag.rawData = some f.payload.reverse
      ∧ (f.SohFree → Identity.decode f.payload = some f))
    ∧ ∀ p, p ∈ payloads backwards wholeSeconds wholeSeconds (2024, 6, 27, ⟨11, 15, 0, 0⟩)
        (firstLogon "TRDR1".toList) →
      p ∉ payloads backwards wholeSeconds wholeSeconds (2024, 6, 27, ⟨11, 15, 0, 0⟩)
        (firstLogon "TRDR2".toList) := by
  obtain ⟨hbinds, hsent⟩ := logon_signature_binds wholeSeconds wholeSeconds (fun _ => rfl)
  have hlogon : ∀ sender, (firstLogon sender).IsLogon := fun _ => rfl
  have hread : ∀ sender, (firstIdentity sender).ReadFrom wholeSeconds
      (2024, 6, 27, ⟨11, 15, 0, 0⟩) (firstLogon sender) := fun _ => ⟨rfl, rfl, rfl, rfl⟩
  constructor
  · obtain ⟨hends, hfields⟩ := hsent backwards (2024, 6, 27, ⟨11, 15, 0, 0⟩)
      ⟨firstLogon "TRDR1".toList, []⟩ (hlogon _)
    obtain ⟨st', hrun⟩ := hends.mpr ⟨firstIdentity "TRDR1".toList, _, hread _, rfl⟩
    obtain ⟨f, signature, hf, hsigned, hsign, hraw, hdecode⟩ := hfields st' hrun
    obtain rfl := Except.ok.inj hsign
    exact ⟨st', f, hrun, hf, hsigned, hraw, hdecode⟩
  · intro p hp hp'
    have heq := hbinds backwards backwards _ _ _ _ _ _ p (hlogon _) (hlogon _) (hread _)
      (hread _)
      (by decide +kernel) (by decide +kernel) hp hp'
    exact absurd (congrArg Identity.sender heq) (by decide)

end FixApp

end Binance
