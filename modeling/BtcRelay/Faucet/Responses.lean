import BtcRelay.Faucet.RateLimit

/-!
# The responses of the faucet

What the faucet answers is determined by what it has answered before. The table has a row for
each request that was answered with a txid, so a request is refused exactly if one with the
same text was answered so less than 24 hours before. Nothing is paid without such an answer,
unless the row could not be inserted.
-/

namespace BtcRelay

open History

section

variable {Address : Type} (api : AddressApi Address)

/-- The runs of the faucet on a table that is empty at first. -/
abbrev FaucetLife (steps : List (FaucetStep Address)) (db : Requests) : Prop :=
  Run (serve api) (fun db => db = []) steps db

def FaucetStep.response (step : FaucetStep Address) : HttpResponse := step.output.1

/-- The rows of the requests that were answered with a txid, in order. -/
def answeredRows (steps : List (FaucetStep Address)) : Requests :=
  (steps.reverse.filter fun step => step.response.status = 200).map fun step =>
    (step.request.address, step.request.recordedAt / second)

/-- A response is the one that the earlier responses of the run call for. -/
structure Answered (earlier : List (FaucetStep Address)) (step : FaucetStep Address) : Prop where
  refused : step.response.status = 429 ↔ step.request.readFails = false ∧
    ∃ paid ∈ earlier, paid.response.status = 200 ∧
      paid.request.address = step.request.address ∧
      step.request.checkedAt < paid.request.recordedAt / second * second + day
  funded : ∀ payment, step.payment = some payment →
    api.parse step.request.address = .ok payment.destination ∧
      payment.amount = FAUCET_AMOUNT ∧ (step.response.status = 200 ∨
        step.request.insertFails = true ∧ step.response = ⟨500, "Failed to record request"⟩)
  paid : step.response.status = 200 → ∃ payment, step.payment = some payment

end

section

variable {Address : Type} {api : AddressApi Address} {steps : List (FaucetStep Address)}
  {db : Requests} {req : FaucetRequest} {payment : Payment Address}

/-- The responses to a request, with the table after it and what it pays. -/
inductive Response (api : AddressApi Address) (db : Requests) (req : FaucetRequest) :
    Requests → HttpResponse → Option (Payment Address) → Prop
  | limited (checked : checkLastRequest db req = some true) :
      Response api db req db ⟨429, "Address has already received funds in the last 24 hours"⟩ none
  | failed (checked : checkLastRequest db req ≠ some true) (body : String) :
      Response api db req db ⟨500, body⟩ none
  | unrecorded {txid : String} {payment : Payment Address}
      (checked : checkLastRequest db req = some false)
      (sent : sendFunds api req = .ok (txid, payment)) (fails : req.insertFails = true) :
      Response api db req db ⟨500, "Failed to record request"⟩ (some payment)
  | recorded {txid : String} {payment : Payment Address}
      (checked : checkLastRequest db req = some false)
      (sent : sendFunds api req = .ok (txid, payment)) :
      Response api db req (db ++ [(req.address, req.recordedAt / second)])
        ⟨200, "Funds sent. Transaction ID: " ++ txid⟩ (some payment)

theorem response_requestFunds (api : AddressApi Address) (db : Requests) (req : FaucetRequest) :
    Response api db req (requestFunds api db req).1 (requestFunds api db req).2.1
      (requestFunds api db req).2.2 := by
  simp only [requestFunds]
  cases checked : checkLastRequest db req with
  | none => exact .failed (by simp [checked]) _
  | some limited =>
      cases limited with
      | true => exact .limited checked
      | false =>
          cases sent : sendFunds api req with
          | error e => exact .failed (by simp [checked]) _
          | ok result =>
              cases fails : req.insertFails with
              | true =>
                  simp only [recordRequest, fails, if_true]
                  exact .unrecorded checked sent fails
              | false =>
                  simp only [recordRequest, fails, Bool.false_eq_true, if_false]
                  exact .recorded checked sent

theorem answeredRows_cons (step : FaucetStep Address) (steps : List (FaucetStep Address)) :
    answeredRows (step :: steps) = answeredRows steps ++
      if step.response.status = 200 then [(step.request.address, step.request.recordedAt / second)]
      else [] := by
  simp only [answeredRows, List.reverse_cons, List.filter_append, List.map_append]
  split
  · rename_i answered
    simp [answered]
  · rename_i other
    simp [other]

theorem mem_answeredRows {text : String} {timestamp : ℤ} :
    (text, timestamp) ∈ answeredRows steps ↔ ∃ paid ∈ steps, paid.response.status = 200 ∧
      paid.request.address = text ∧ paid.request.recordedAt / second = timestamp := by
  simp [answeredRows, and_assoc]

theorem FaucetRequest.readFails_of_check {result : Bool}
    (checked : checkLastRequest db req = some result) : req.readFails = false := by
  cases reading : req.readFails with
  | true => simp [checkLastRequest, reading] at checked
  | false => rfl

/-- A request is refused exactly if a row of the run holds it back. -/
theorem checkLastRequest_answeredRows :
    checkLastRequest (answeredRows steps) req = some true ↔ req.readFails = false ∧
      ∃ paid ∈ steps, paid.response.status = 200 ∧ paid.request.address = req.address ∧
        req.checkedAt < paid.request.recordedAt / second * second + day := by
  constructor
  · intro checked
    have reads := FaucetRequest.readFails_of_check checked
    rcases (checkLastRequest_eq_some_true_iff reads).mp checked with ⟨timestamp, row, recent⟩
    rcases mem_answeredRows.mp row with ⟨paid, member, answered, text, rfl⟩
    exact ⟨reads, paid, member, answered, text, recent⟩
  · rintro ⟨reads, paid, member, answered, text, recent⟩
    apply (checkLastRequest_eq_some_true_iff reads).mpr
    exact ⟨_, mem_answeredRows.mpr ⟨paid, member, answered, text, rfl⟩, recent⟩

theorem funds_of_sendFunds {txid : String} (sent : sendFunds api req = .ok (txid, payment)) :
    api.parse req.address = .ok payment.destination ∧ payment.amount = FAUCET_AMOUNT := by
  rcases sendFunds_eq_ok_iff.mp sent with ⟨address, parsed, _, rfl⟩
  exact ⟨parsed, rfl⟩

theorem answered_of_response {after : Requests} {response : HttpResponse}
    {paid : Option (Payment Address)}
    (answer : Response api (answeredRows steps) req after response paid) :
    Answered api steps ⟨answeredRows steps, req, after, (response, paid)⟩ := by
  have unheld {checked : Option Bool} (check : checkLastRequest (answeredRows steps) req = checked)
      (other : checked ≠ some true) {status : ℕ} (different : status ≠ 429) :
      status = 429 ↔ req.readFails = false ∧ ∃ paid ∈ steps, paid.response.status = 200 ∧
        paid.request.address = req.address ∧
        req.checkedAt < paid.request.recordedAt / second * second + day := by
    rw [← checkLastRequest_answeredRows, check]
    exact iff_of_false different other
  cases answer with
  | limited checked =>
      refine ⟨iff_of_true rfl (checkLastRequest_answeredRows.mp checked), ?_, ?_⟩
      · intro payment none
        cases none
      · intro answered
        simp [FaucetStep.response] at answered
  | failed checked body =>
      refine ⟨unheld rfl checked (by simp [FaucetStep.response]), ?_, ?_⟩
      · intro payment none
        cases none
      · intro answered
        simp [FaucetStep.response] at answered
  | @unrecorded txid payment checked sent fails =>
      rcases funds_of_sendFunds sent with ⟨parsed, amount⟩
      refine ⟨unheld checked (by simp) (by simp [FaucetStep.response]), ?_, ?_⟩
      · intro other same
        cases same
        exact ⟨parsed, amount, Or.inr ⟨fails, rfl⟩⟩
      · intro _
        exact ⟨payment, rfl⟩
  | @recorded txid payment checked sent =>
      rcases funds_of_sendFunds sent with ⟨parsed, amount⟩
      refine ⟨unheld checked (by simp) (by simp [FaucetStep.response]), ?_, ?_⟩
      · intro other same
        cases same
        exact ⟨parsed, amount, Or.inl rfl⟩
      · intro _
        exact ⟨payment, rfl⟩

theorem answeredRows_of_response {after : Requests} {response : HttpResponse}
    {paid : Option (Payment Address)}
    (answer : Response api (answeredRows steps) req after response paid) :
    after = answeredRows (⟨answeredRows steps, req, after, (response, paid)⟩ :: steps) := by
  rw [answeredRows_cons]
  cases answer with
  | limited => simp [FaucetStep.response]
  | failed => simp [FaucetStep.response]
  | unrecorded => simp [FaucetStep.response]
  | recorded => simp [FaucetStep.response]

/-- In every run on a new table the rows are those of the requests answered with a txid, and every
response is the one that the earlier ones call for. -/
theorem answered_of_run (run : FaucetLife api steps db) :
    db = answeredRows steps ∧
      ∀ step earlier, step :: earlier <:+ steps → Answered api earlier step := by
  induction run with
  | start empty =>
      refine ⟨empty, ?_⟩
      intro step earlier suffix
      simp at suffix
  | @step steps before after req output run success ih =>
      rcases output with ⟨response, paid⟩
      rcases ih with ⟨rfl, older⟩
      have answer := response_requestFunds api (answeredRows steps) req
      rw [serve, Except.ok.injEq] at success
      rw [success] at answer
      refine ⟨answeredRows_of_response answer, ?_⟩
      intro step earlier suffix
      rcases List.suffix_cons_iff.mp suffix with same | tail
      · rcases List.cons.inj same with ⟨rfl, rfl⟩
        exact answered_of_response answer
      · exact older step earlier tail

end

theorem life_serveAll {Address : Type} (api : AddressApi Address) (requests : List FaucetRequest) :
    FaucetLife api (serveAll api requests).1 (serveAll api requests).2 := by
  simp only [serveAll]
  split
  · rename_i executed
    exact run_of_execute (.start rfl) executed
  · exact .start rfl

theorem answered_patient :
    (serveAll oneProgram patient).2 = answeredRows (serveAll oneProgram patient).1 ∧
      ∀ step earlier, step :: earlier <:+ (serveAll oneProgram patient).1 →
        Answered oneProgram earlier step :=
  answered_of_run (life_serveAll oneProgram patient)

end BtcRelay
