import Codex.State.ThreadPaging

/-!
# Extraction jobs

A worker claims the job of a thread and reports with the token of its claim.
-/

namespace Codex.State

open Option

inductive JobStatus
  | running
  | done
  | error
  deriving DecidableEq

structure Stage1Job (T : Type) where
  status : JobStatus
  ownershipToken : T
  leaseUntil : Option Int
  retryAt : Option Int
  retryRemaining : Int
  inputWatermark : Option Int
  lastSuccessWatermark : Option Int

structure Stage1Record (T : Type) where
  job : Option (Stage1Job T) := none
  outputUpdatedAt : Option Int := none

/-- A claim; `otherRunning` counts the leases of other threads that have not expired. -/
structure Stage1Claim (T : Type) where
  ownershipToken : T
  now : Int
  sourceUpdatedAt : Int
  leaseSeconds : Int
  maxRunningJobs : Int
  otherRunning : Nat

inductive Stage1JobClaimOutcome (T : Type)
  | claimed (ownershipToken : T)
  | skippedUpToDate
  | skippedRunning
  | skippedRetryBackoff
  | skippedRetryExhausted

def defaultRetryRemaining : Int := 3

variable {T : Type}

namespace Stage1Job

variable (job : Stage1Job T)

def leased (now : Int) : Bool := job.status = .running && job.leaseUntil.any (now < ·)

def watermark : Int := job.inputWatermark.getD (-1)

def claimable (claim : Stage1Claim T) : Bool :=
  !job.leased claim.now &&
    (job.retryAt.all (· ≤ claim.now) || job.watermark < claim.sourceUpdatedAt) &&
    (0 < job.retryRemaining || job.watermark < claim.sourceUpdatedAt)

def succeeded : Stage1Job T :=
  { job with
    status := .done
    leaseUntil := none
    lastSuccessWatermark := job.inputWatermark }

def failed (retryAt : Int) : Stage1Job T :=
  { job with
    status := .error
    leaseUntil := none
    retryAt := some retryAt
    retryRemaining := job.retryRemaining - 1 }

def left (watermark : Int) : Int :=
  if job.watermark < watermark then defaultRetryRemaining
  else if job.watermark = watermark then job.retryRemaining
  else 0

structure Sound : Prop where
  nonneg : 0 ≤ job.retryRemaining
  bounded : job.retryRemaining ≤ defaultRetryRemaining
  positive : job.status = .running → 0 < job.retryRemaining

end Stage1Job

namespace Stage1Claim

variable (claim : Stage1Claim T) (prev : Option (Stage1Job T))

def retries : Int :=
  match prev with
  | none => defaultRetryRemaining
  | some job =>
    if job.watermark < claim.sourceUpdatedAt then defaultRetryRemaining else job.retryRemaining

def row : Stage1Job T where
  status := .running
  ownershipToken := claim.ownershipToken
  leaseUntil := some (saturate (claim.now + max claim.leaseSeconds 0))
  retryAt := none
  retryRemaining := claim.retries prev
  inputWatermark := some claim.sourceUpdatedAt
  lastSuccessWatermark := prev.bind (·.lastSuccessWatermark)

def granted : Bool :=
  claim.otherRunning + (if prev.any (·.leased claim.now) then 1 else 0) < claim.maxRunningJobs &&
    prev.all fun job => job.claimable claim && claim.otherRunning < claim.maxRunningJobs

def refusal : Stage1JobClaimOutcome T :=
  match prev with
  | none => .skippedRunning
  | some job =>
    if job.retryRemaining ≤ 0 then .skippedRetryExhausted
    else if job.retryAt.any (claim.now < ·) then .skippedRetryBackoff
    else .skippedRunning

end Stage1Claim

inductive Stage1Call (T : Type)
  | claim (claim : Stage1Claim T)
  | succeed (ownershipToken : T) (sourceUpdatedAt : Int)
  | succeedNoOutput (ownershipToken : T)
  | fail (ownershipToken : T) (now retryDelaySeconds : Int)

namespace Stage1Record

section

variable (record : Stage1Record T)

def upToDate (sourceUpdatedAt : Int) : Bool :=
  record.outputUpdatedAt.any (sourceUpdatedAt ≤ ·) ||
    (record.job.bind (·.lastSuccessWatermark)).any (sourceUpdatedAt ≤ ·)

def tryClaimStage1Job (claim : Stage1Claim T) : Stage1Record T × Stage1JobClaimOutcome T :=
  if record.upToDate claim.sourceUpdatedAt then (record, .skippedUpToDate)
  else if claim.granted record.job then
    ({ record with job := some (claim.row record.job) }, .claimed claim.ownershipToken)
  else (record, claim.refusal record.job)

def lowers : Stage1Call T → Bool
  | .claim claim => !record.upToDate claim.sourceUpdatedAt && claim.granted record.job &&
      record.job.any (claim.sourceUpdatedAt < ·.watermark)
  | _ => false

def left (watermark : Int) : Int := record.job.elim defaultRetryRemaining (·.left watermark)

def Pays (record next : Stage1Record T) (watermark : Int) (failed : Bool) : Prop :=
  (∀ job ∈ next.job, job.Sound) ∧ failed.toNat + next.left watermark ≤ record.left watermark

variable {record : Stage1Record T} {job : Stage1Job T} {watermark : Int}

theorem pays_same (sound : ∀ job ∈ record.job, job.Sound) : record.Pays record watermark false :=
  ⟨sound, (zero_add _).le⟩

theorem left_of_job (here : record.job = some job) :
    record.left watermark = job.left watermark := by
  rw [left, here, elim_some]

theorem left_nonneg (sound : ∀ job ∈ record.job, job.Sound) : 0 ≤ record.left watermark := by
  cases here : record.job with
  | none => simp [left, here, defaultRetryRemaining]
  | some job =>
    have ⟨nonneg, _, _⟩ := sound job here
    simp only [left, here, elim_some, Stage1Job.left]
    split_ifs <;> omega

theorem pays_job {out : Option Int} {failed : Bool} (sound : job.Sound)
    (paid : failed.toNat + job.left watermark ≤ record.left watermark) :
    record.Pays ⟨some job, out⟩ watermark failed :=
  ⟨fun _ mem => mem_some_iff.mp mem ▸ sound, paid⟩

theorem pays_row (sound : ∀ job ∈ record.job, job.Sound) {claim : Stage1Claim T}
    (retry : ∀ job ∈ record.job, 0 < job.retryRemaining ∨ job.watermark < claim.sourceUpdatedAt)
    (order : ∀ job ∈ record.job, job.watermark ≤ claim.sourceUpdatedAt) :
    record.Pays { record with job := some (claim.row record.job) } watermark false := by
  have row : (claim.row record.job).left watermark =
    if claim.sourceUpdatedAt < watermark then defaultRetryRemaining
    else if claim.sourceUpdatedAt = watermark then claim.retries record.job else 0 := rfl
  suffices fits : 0 < claim.retries record.job ∧
      claim.retries record.job ≤ defaultRetryRemaining ∧
      (claim.row record.job).left watermark ≤ record.left watermark by
    exact pays_job ⟨fits.1.le, fits.2.1, fun _ => fits.1⟩ ((zero_add _).trans_le fits.2.2)
  rw [row, left]
  cases here : record.job with
  | none =>
    simp only [Stage1Claim.retries, defaultRetryRemaining, elim_none]
    split_ifs <;> omega
  | some job =>
    have ⟨nonneg, bounded, _⟩ := sound job here
    rw [defaultRetryRemaining] at bounded
    have retry := retry job here
    have order := order job here
    simp only [Stage1Claim.retries, defaultRetryRemaining, elim_some, Stage1Job.left]
    split_ifs <;> omega

theorem pays_claim (sound : ∀ job ∈ record.job, job.Sound) {claim : Stage1Claim T}
    (kept : record.lowers (.claim claim) = false) :
    record.Pays (record.tryClaimStage1Job claim).1 watermark false := by
  rw [tryClaimStage1Job]
  split_ifs with cur grant
  · exact pays_same sound
  · simp only [lowers, cur, grant, Bool.not_false, Bool.true_and, any_eq_false] at kept
    refine pays_row sound (fun job here => ?_) fun job here => ?_
    · simp only [mem_def.mp here, Stage1Claim.granted, Stage1Job.claimable, all_some,
        Bool.and_eq_true, Bool.or_eq_true, decide_eq_true_eq] at grant
      exact grant.2.1.2
    · simpa using kept job here
  · exact pays_same sound

end

variable [DecidableEq T] (record : Stage1Record T)

def owned (token : T) : Option (Stage1Job T) :=
  record.job.filter fun job => job.status = .running ∧ job.ownershipToken = token

def markStage1JobSucceeded (token : T) (sourceUpdatedAt : Int) : Stage1Record T × Bool :=
  match record.owned token with
  | none => (record, false)
  | some job =>
    ({ job := some job.succeeded
       outputUpdatedAt := some <| match record.outputUpdatedAt with
        | none => sourceUpdatedAt
        | some stored => if sourceUpdatedAt ≥ stored then sourceUpdatedAt else stored }, true)

def markStage1JobSucceededNoOutput (token : T) : Stage1Record T × Bool :=
  match record.owned token with
  | none => (record, false)
  | some job => ({ job := some job.succeeded, outputUpdatedAt := none }, true)

def markStage1JobFailed (token : T) (now retryDelaySeconds : Int) : Stage1Record T × Bool :=
  match record.owned token with
  | none => (record, false)
  | some job =>
    ({ record with job := some (job.failed (saturate (now + max retryDelaySeconds 0))) }, true)

def step : Stage1Call T → Stage1Record T
  | .claim claim => (record.tryClaimStage1Job claim).1
  | .succeed token sourceUpdatedAt => (record.markStage1JobSucceeded token sourceUpdatedAt).1
  | .succeedNoOutput token => (record.markStage1JobSucceededNoOutput token).1
  | .fail token now delay => (record.markStage1JobFailed token now delay).1

def failsAt (watermark : Int) : Stage1Call T → Bool
  | .fail token _ _ => (record.owned token).any (·.inputWatermark = some watermark)
  | _ => false

def tally (kind : Stage1Record T → Stage1Call T → Bool) : Stage1Record T → List (Stage1Call T) → Nat
  | _, [] => 0
  | record, call :: calls => (kind record call).toNat + tally kind (record.step call) calls

variable {record : Stage1Record T} {token : T} {job : Stage1Job T} {watermark : Int}

theorem owned_eq_some (owner : record.owned token = some job) :
    record.job = some job ∧ job.status = .running := by
  rw [owned, filter_eq_some_iff] at owner
  exact ⟨owner.1, (of_decide_eq_true owner.2).1⟩

section

variable (sound : ∀ job ∈ record.job, job.Sound)
include sound

theorem pays_succeeded (owner : record.owned token = some job) (out : Option Int) :
    record.Pays ⟨some job.succeeded, out⟩ watermark false := by
  obtain ⟨here, -⟩ := owned_eq_some owner
  have ⟨nonneg, bounded, _⟩ := sound job here
  refine pays_job ⟨nonneg, bounded, nofun⟩ ?_
  rw [left_of_job here]
  exact (zero_add _).le

theorem pays_fail (now delay : Int) :
    record.Pays (record.markStage1JobFailed token now delay).1 watermark
      (record.failsAt watermark (.fail token now delay)) := by
  rw [markStage1JobFailed, failsAt]
  cases owner : record.owned token with
  | none => exact pays_same sound
  | some job =>
    obtain ⟨here, running⟩ := owned_eq_some owner
    have ⟨_, bounded, positive⟩ := sound job here
    have := positive running
    have still : ∀ retryAt, (job.failed retryAt).watermark = job.watermark := fun _ => rfl
    refine pays_job ⟨?_, ?_, nofun⟩ ?_
    · dsimp only [Stage1Job.failed]
      omega
    · dsimp only [Stage1Job.failed]
      omega
    rw [left_of_job here, Stage1Job.left, Stage1Job.left, still, any_some, Stage1Job.failed]
    by_cases eq : job.inputWatermark = some watermark
    · simp [Stage1Job.watermark, eq]
    simp only [eq, decide_false, Bool.toNat_false]
    split_ifs <;> omega

theorem pays_step {call : Stage1Call T} (kept : record.lowers call = false) :
    record.Pays (record.step call) watermark (record.failsAt watermark call) := by
  cases call with
  | claim claim => exact pays_claim sound kept
  | succeed token sourceUpdatedAt =>
    rw [step, markStage1JobSucceeded]
    cases owner : record.owned token with
    | none => exact pays_same sound
    | some job => exact pays_succeeded sound owner _
  | succeedNoOutput token =>
    rw [step, markStage1JobSucceededNoOutput]
    cases owner : record.owned token with
    | none => exact pays_same sound
    | some job => exact pays_succeeded sound owner _
  | fail token now delay => exact pays_fail sound now delay

theorem tally_failsAt_le {calls : List (Stage1Call T)} (kept : tally lowers record calls = 0) :
    tally (failsAt · watermark) record calls ≤ record.left watermark := by
  induction calls generalizing record with
  | nil => exact left_nonneg sound
  | cons call calls ih =>
    rw [tally, Nat.add_eq_zero_iff, Bool.toNat_eq_zero] at kept
    obtain ⟨sound', paid⟩ : record.Pays _ watermark _ := pays_step sound kept.1
    have later := ih sound' kept.2
    rw [tally]
    push_cast
    omega

end

section

variable (record token)

/-- A claim is granted under the token. -/
def grants : Stage1Call T → Bool
  | .claim claim =>
    match (record.tryClaimStage1Job claim).2 with
    | .claimed owner => owner = token
    | _ => false
  | _ => false

/-- A report under the token is accepted. -/
def accepts : Stage1Call T → Bool
  | .claim _ => false
  | .succeed owner sourceUpdatedAt =>
    owner = token ∧ (record.markStage1JobSucceeded owner sourceUpdatedAt).2
  | .succeedNoOutput owner => owner = token ∧ (record.markStage1JobSucceededNoOutput owner).2
  | .fail owner now delay => owner = token ∧ (record.markStage1JobFailed owner now delay).2

/-- A grant opens the job for its token, and an accepted report closes it. -/
theorem accepts_step (call : Stage1Call T) :
    (record.accepts token call).toNat + ((record.step call).owned token).isSome.toNat ≤
      (record.grants token call).toNat + (record.owned token).isSome.toNat := by
  cases call with
  | claim claim =>
    simp only [accepts, step, tryClaimStage1Job, grants]
    split_ifs
    · simp
    · by_cases same : claim.ownershipToken = token <;> simp [owned, Stage1Claim.row, same]
    · simp
  | succeed owner | succeedNoOutput owner | fail owner =>
    have done (job : Stage1Job T) out : owned ⟨some job.succeeded, out⟩ token = none := by
      simp [owned, Stage1Job.succeeded]
    have broken (job : Stage1Job T) at_ out : owned ⟨some (job.failed at_), out⟩ token = none := by
      simp [owned, Stage1Job.failed]
    cases running : record.owned owner <;> by_cases same : owner = token <;>
      simp_all [accepts, step, markStage1JobSucceeded, markStage1JobSucceededNoOutput,
        markStage1JobFailed]

end

end Stage1Record

open Stage1Record

/-- If no claim is below the watermark, the failures of one watermark are bounded. -/
theorem stage1_failures_le [DecidableEq T] {calls : List (Stage1Call T)}
    (kept : tally lowers {} calls = 0) (watermark : Int) :
    tally (failsAt · watermark) {} calls ≤ defaultRetryRemaining :=
  tally_failsAt_le (by simp) kept

def failedClaim (now sourceUpdatedAt : Int) : List (Stage1Call Int) :=
  [.claim ⟨now, now, sourceUpdatedAt, 60, 1, 0⟩, .fail now now 0]

theorem stage1_failures_le_rising :
    tally (failsAt · 5) {} (failedClaim 0 5 ++ failedClaim 1 5 ++ failedClaim 2 10) ≤
      defaultRetryRemaining :=
  stage1_failures_le (by decide) 5

/-- A claim for an older watermark in between renews the retries of the newer one. -/
theorem stage1_failures_renewed :
    tally (failsAt · 10) {} (failedClaim 0 10 ++ failedClaim 1 5 ++ failedClaim 2 10 ++
      failedClaim 3 10 ++ failedClaim 4 10) = 4 := by
  decide

/-- From any state, each accepted report is paid for by the token's running job or by a later grant
to it. -/
theorem stage1_reports_le [DecidableEq T] (record : Stage1Record T) (token : T)
    (calls : List (Stage1Call T)) :
    tally (accepts · token) record calls ≤
      (record.owned token).isSome.toNat + tally (grants · token) record calls := by
  induction calls generalizing record with
  | nil => exact Nat.zero_le _
  | cons call calls ih =>
    have now := record.accepts_step token call
    have later := ih (record.step call)
    rw [tally, tally]
    omega

end Codex.State
