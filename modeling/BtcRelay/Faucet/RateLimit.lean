import BtcRelay.Foundations.History
import Mathlib.Algebra.Ring.Int.Defs

/-!
# The rate limit of the faucet

The faucet pays an address at most once in 24 hours. It looks up the text of the request in
its database, pays the address that the text stands for and then inserts a row with the text
and the second. So a payment holds back a later request for the same address if its row was
inserted, if both requests have the same text, and if the later one does not come in the
fraction of a second that the row has lost.
-/

namespace BtcRelay

open History

inductive Network where
  | bitcoin
  | testnet
  | signet
  | regtest
deriving DecidableEq

/-- The addresses of the `bitcoin` crate: their parser and the check of their network, with the
texts of their errors. -/
structure AddressApi (Address : Type) where
  fromStr : String → Except String Address
  requireNetwork : Address → Network → Except String Address

/-- The rows of the table `requests`: the text of a request and its time in seconds. -/
abbrev Requests := List (String × ℤ)

/-- A request, with the times in nanoseconds at which it is served and what the database and the
node do. -/
structure FaucetRequest where
  address : String
  checkedAt : ℤ
  sentAt : ℤ
  recordedAt : ℤ
  readFails : Bool
  insertFails : Bool
  /-- The txid, or the text of an error. -/
  sendToAddress : Except String String

structure Payment (Address : Type) where
  destination : Address
  amount : ℕ
  sentAt : ℤ

structure HttpResponse where
  status : ℕ
  body : String

inductive SendFundsError where
  | parse (message : String)
  | rpc (message : String)

namespace SendFundsError

def display : SendFundsError → String
  | parse message => message
  | rpc message => message

end SendFundsError

def second : ℤ := 10 ^ 9

def day : ℤ := 24 * 60 * 60 * second

def FAUCET_AMOUNT : ℕ := 10000000

/-- Whether an address has requested funds in the last 24 hours; `none` when the database cannot be
read. -/
def checkLastRequest (db : Requests) (req : FaucetRequest) : Option Bool :=
  if req.readFails then none
  else
    match ((db.filter fun row => row.1 = req.address).map Prod.snd).max? with
    | some timestamp => some (req.checkedAt - timestamp * second < day)
    | none => some false

def recordRequest (db : Requests) (req : FaucetRequest) : Option Requests :=
  if req.insertFails then none else some (db ++ [(req.address, req.recordedAt / second)])

section

variable {Address : Type} (api : AddressApi Address)

def AddressApi.parse (text : String) : Except String Address := do
  let address ← api.fromStr text
  api.requireNetwork address .regtest

/-- Returns the txid with the payment. -/
def sendFunds (req : FaucetRequest) : Except SendFundsError (String × Payment Address) := do
  let address ← (api.parse req.address).mapError .parse
  let txid ← req.sendToAddress.mapError .rpc
  .ok (txid, { destination := address, amount := FAUCET_AMOUNT, sentAt := req.sentAt })

/-- Serves a request: the table, the response and what has been paid. -/
def requestFunds (db : Requests) (req : FaucetRequest) :
    Requests × HttpResponse × Option (Payment Address) :=
  match checkLastRequest db req with
  | some true => (db, ⟨429, "Address has already received funds in the last 24 hours"⟩, none)
  | none => (db, ⟨500, "Database error"⟩, none)
  | some false =>
      match sendFunds api req with
      | .ok (txid, payment) =>
          match recordRequest db req with
          | none => (db, ⟨500, "Failed to record request"⟩, some payment)
          | some db => (db, ⟨200, "Funds sent. Transaction ID: " ++ txid⟩, some payment)
      | .error e => (db, ⟨500, "Failed to send funds: " ++ e.display⟩, none)

/-- The faucet as a system that never fails to respond. -/
def serve (db : Requests) (req : FaucetRequest) :
    Except Empty (Requests × HttpResponse × Option (Payment Address)) :=
  .ok (requestFunds api db req)

abbrev FaucetStep (Address : Type) :=
  Step Requests FaucetRequest (HttpResponse × Option (Payment Address))

/-- The runs of the faucet on a table, the newest step first. -/
abbrev FaucetRun (steps : List (FaucetStep Address)) (db : Requests) : Prop :=
  Run (serve api) (fun _ => True) steps db

def FaucetStep.payment (step : FaucetStep Address) : Option (Payment Address) := step.output.2

/-- Any two payments to one address are at least 24 hours apart. -/
def RateLimited (steps : List (FaucetStep Address)) : Prop :=
  steps.Pairwise fun later earlier => ∀ payment next, earlier.payment = some payment →
    later.payment = some next → next.destination = payment.destination →
      payment.sentAt + day ≤ next.sentAt

/-- The requests are served one at a time. -/
structure OnClock (steps : List (FaucetStep Address)) : Prop where
  served : ∀ step ∈ steps, step.request.checkedAt ≤ step.request.sentAt ∧
    step.request.sentAt ≤ step.request.recordedAt
  ordered : steps.Pairwise fun later earlier =>
    earlier.request.recordedAt ≤ later.request.checkedAt

/-- The record of a paid request holds a later one back: it was inserted, the later one has the
same text, and does not come after the 24 hours that begin with the recorded second. -/
structure HeldBack (paid later : FaucetRequest) : Prop where
  inserted : paid.insertFails = false
  spelling : later.address = paid.address
  within : later.checkedAt < paid.recordedAt / second * second + day

/-- Every request for an address that has been paid less than 24 hours before is held back. -/
def HoldsBack (steps : List (FaucetStep Address)) : Prop :=
  steps.Pairwise fun later earlier => ∀ payment, earlier.payment = some payment →
    api.parse later.request.address = .ok payment.destination →
    later.request.sentAt < payment.sentAt + day → HeldBack earlier.request later.request

end

section

variable {Address : Type} {api : AddressApi Address} {steps : List (FaucetStep Address)}
  {db : Requests} {req : FaucetRequest} {payment : Payment Address}

/-- A request is held back exactly by a row with its text and a time less than 24 hours before. -/
theorem checkLastRequest_eq_some_true_iff (reads : req.readFails = false) :
    checkLastRequest db req = some true ↔
      ∃ timestamp, (req.address, timestamp) ∈ db ∧ req.checkedAt < timestamp * second + day := by
  have member (timestamp : ℤ) :
      timestamp ∈ (db.filter fun row => row.1 = req.address).map Prod.snd ↔
        (req.address, timestamp) ∈ db := by
    simp
  simp only [checkLastRequest, reads, Bool.false_eq_true, if_false]
  cases latest : ((db.filter fun row => row.1 = req.address).map Prod.snd).max? with
  | none =>
      have none := List.max?_eq_none_iff.mp latest
      simp only [none, List.not_mem_nil, false_iff] at member
      simp [member]
  | some last =>
      rcases List.max?_eq_some_iff.mp latest with ⟨listed, largest⟩
      simp only [Option.some.injEq, decide_eq_true_eq]
      constructor
      · intro recent
        exact ⟨last, (member last).mp listed, by omega⟩
      · rintro ⟨timestamp, row, recent⟩
        have bound := largest timestamp ((member timestamp).mpr row)
        simp only [second, day] at recent ⊢
        omega

theorem sendFunds_eq_ok_iff {txid : String} : sendFunds api req = .ok (txid, payment) ↔
    ∃ address, api.parse req.address = .ok address ∧ req.sendToAddress = .ok txid ∧
      payment = ⟨address, FAUCET_AMOUNT, req.sentAt⟩ := by
  simp only [sendFunds]
  cases api.parse req.address with
  | error message => simp [Except.mapError, bind, Except.bind]
  | ok address =>
      cases req.sendToAddress with
      | error message => simp [Except.mapError, bind, Except.bind]
      | ok txid => simp [Except.mapError, bind, Except.bind, eq_comm]

/-- What a request does to the table and what it pays. -/
inductive Served (api : AddressApi Address) (db : Requests) (req : FaucetRequest) :
    Requests → Option (Payment Address) → Prop
  | refused : Served api db req db none
  | unrecorded {txid : String} {payment : Payment Address}
      (checked : checkLastRequest db req = some false)
      (sent : sendFunds api req = .ok (txid, payment)) (fails : req.insertFails = true) :
      Served api db req db (some payment)
  | recorded {txid : String} {payment : Payment Address}
      (checked : checkLastRequest db req = some false)
      (sent : sendFunds api req = .ok (txid, payment)) :
      Served api db req (db ++ [(req.address, req.recordedAt / second)]) (some payment)

theorem served_requestFunds (api : AddressApi Address) (db : Requests) (req : FaucetRequest) :
    Served api db req (requestFunds api db req).1 (requestFunds api db req).2.2 := by
  simp only [requestFunds]
  cases checked : checkLastRequest db req with
  | none => exact .refused
  | some limited =>
      cases limited with
      | true => exact .refused
      | false =>
          cases sent : sendFunds api req with
          | error e => exact .refused
          | ok result =>
              cases fails : req.insertFails with
              | true =>
                  simp only [recordRequest, fails, if_true]
                  exact .unrecorded checked sent fails
              | false =>
                  simp only [recordRequest, fails, Bool.false_eq_true, if_false]
                  exact .recorded checked sent

theorem served_of_serve {after : Requests} {response : HttpResponse}
    {paid : Option (Payment Address)} (success : serve api db req = .ok (after, response, paid)) :
    Served api db req after paid := by
  have served := served_requestFunds api db req
  rw [serve, Except.ok.injEq] at success
  rw [success] at served
  exact served

theorem Served.of_payment {after : Requests} (served : Served api db req after (some payment)) :
    checkLastRequest db req = some false ∧ api.parse req.address = .ok payment.destination ∧
      payment.sentAt = req.sentAt := by
  have funds {txid : String} (sent : sendFunds api req = .ok (txid, payment)) :
      api.parse req.address = .ok payment.destination ∧ payment.sentAt = req.sentAt := by
    rcases sendFunds_eq_ok_iff.mp sent with ⟨address, parsed, _, rfl⟩
    exact ⟨parsed, rfl⟩
  cases served with
  | unrecorded checked sent fails => exact ⟨checked, funds sent⟩
  | recorded checked sent => exact ⟨checked, funds sent⟩

/-- The table of a run has a row for every payment whose insert succeeded. -/
theorem mem_rows_of_run (run : FaucetRun api steps db) :
    ∀ step ∈ steps, ∀ payment, step.payment = some payment → step.request.insertFails = false →
      (step.request.address, step.request.recordedAt / second) ∈ db := by
  induction run with
  | start =>
      intro step member
      cases member
  | @step steps before after req output run success ih =>
      rcases output with ⟨response, paid⟩
      intro step member payment paid_eq inserts
      rcases List.mem_cons.mp member with rfl | earlier
      · simp only [FaucetStep.payment] at paid_eq
        subst paid_eq
        cases served_of_serve success with
        | unrecorded checked sent fails => cases inserts.symm.trans fails
        | recorded checked sent => exact List.mem_append_right _ (List.mem_singleton_self _)
      · have row := ih step earlier payment paid_eq inserts
        cases served_of_serve success with
        | refused => exact row
        | unrecorded checked sent fails => exact row
        | recorded checked sent => exact List.mem_append_left _ row

/-- In every run in which paid addresses are held back, no address is paid twice in less than 24
hours. -/
theorem rateLimited_of_run (run : FaucetRun api steps db) (holds : HoldsBack api steps) :
    RateLimited steps := by
  induction run with
  | start => exact .nil
  | @step steps before after req output run success ih =>
      rcases output with ⟨response, paid⟩
      rcases List.pairwise_cons.mp holds with ⟨latest, older⟩
      refine List.pairwise_cons.mpr ⟨?_, ih older⟩
      intro earlier member payment next paid_earlier paid_eq same
      simp only [FaucetStep.payment] at paid_eq
      subst paid_eq
      rcases (served_of_serve success).of_payment with ⟨unlimited, parsed, sentAt⟩
      by_contra tooSoon
      rw [same] at parsed
      rw [sentAt, Int.not_le] at tooSoon
      -- the row of the earlier payment holds the request back
      have held := latest earlier member payment paid_earlier parsed tooSoon
      have row := mem_rows_of_run run earlier member payment paid_earlier held.inserted
      rw [← held.spelling] at row
      have reads : req.readFails = false := by
        cases reading : req.readFails with
        | true => simp [checkLastRequest, reading] at unlimited
        | false => rfl
      have limited := (checkLastRequest_eq_some_true_iff reads).mpr ⟨_, row, held.within⟩
      rw [unlimited] at limited
      cases limited

end

section

def lowercase : String := "bcrt1qw508d6qejxtdg4y5r3zarvary0c5xw7kygt080"

/-- The other spelling of the same address. -/
def uppercase : String := "BCRT1QW508D6QEJXTDG4Y5R3ZARVARY0C5XW7KYGT080"

def oneProgram : AddressApi ℕ where
  fromStr text :=
    if text = lowercase ∨ text = uppercase then .ok 0x751e76e8199196d454941c45d1b3a323f1433bd6
    else .error "base58 error"
  requireNetwork address network :=
    if network = .regtest then .ok address else .error "address is not valid on the network"

def requestAt (address : String) (time : ℤ) : FaucetRequest where
  address
  checkedAt := time * second
  sentAt := time * second
  recordedAt := time * second
  readFails := false
  insertFails := false
  sendToAddress := .ok "e5bb8f7f8ed5e8f8db7fd8cf97940db61806caac91d147c9ae43aa1cf0e76185"

/-- The steps, the newest first, and the table after some requests. -/
def serveAll {Address : Type} (api : AddressApi Address) (requests : List FaucetRequest) :
    List (FaucetStep Address) × Requests :=
  match execute (serve api) [] [] requests with
  | .ok result => result
  | .error _ => ([], [])

theorem run_serveAll {Address : Type} (api : AddressApi Address) (requests : List FaucetRequest) :
    FaucetRun api (serveAll api requests).1 (serveAll api requests).2 := by
  simp only [serveAll]
  split
  · rename_i executed
    exact run_of_execute (.start trivial) executed
  · exact .start trivial

/-- Later requests come a day after a payment, or are held back by its row. -/
theorem holdsBack_of_checked {Address : Type} {api : AddressApi Address}
    {steps : List (FaucetStep Address)}
    (checked : steps.Pairwise fun later earlier => (earlier.payment.all fun payment =>
      payment.sentAt + day ≤ later.request.sentAt || !earlier.request.insertFails &&
        (later.request.address = earlier.request.address) &&
        (later.request.checkedAt < earlier.request.recordedAt / second * second + day)) = true) :
    HoldsBack api steps := by
  apply checked.imp
  intro later earlier checked payment paid _ tooSoon
  simp only [paid, Option.all_some, Bool.or_eq_true, Bool.and_eq_true, decide_eq_true_eq,
    Bool.not_eq_true'] at checked
  rcases checked with apart | ⟨⟨inserted, spelling⟩, within⟩
  · omega
  · exact ⟨inserted, spelling, within⟩

/-- An address is paid, asks again after an hour, and is paid again after a day. -/
def patient : List FaucetRequest :=
  [requestAt lowercase 1721030000, requestAt lowercase 1721033600, requestAt lowercase 1721116400]

/-- An address is paid under both of its spellings within an hour. -/
def respelled : List FaucetRequest :=
  [requestAt lowercase 1721030000, requestAt uppercase 1721033600]

theorem rateLimited_patient : RateLimited (serveAll oneProgram patient).1 := by
  apply rateLimited_of_run (run_serveAll oneProgram patient)
  apply holdsBack_of_checked
  decide

theorem not_rateLimited_respelled : ∃ steps db, FaucetRun oneProgram steps db ∧ OnClock steps ∧
    ¬RateLimited steps := by
  refine ⟨_, _, run_serveAll oneProgram respelled, ?_, ?_⟩
  · constructor <;> decide
  · intro limited
    have first := (List.pairwise_cons.mp limited).1 _ List.mem_cons_self _ _ rfl rfl rfl
    revert first
    decide

end

end BtcRelay
