import Codex.State.ThreadPaging

/-!
# Allocated timestamps

Concurrent calls advance one high-water mark by compare-exchange.
-/

namespace Codex.State

inductive AllocationPhase
  | start
  | loaded (current : Int)
  | allocated (current value : Int)
  deriving DecidableEq

def AllocationPhase.Fits (req : Int) : AllocationPhase → Prop
  | start => True
  | loaded current => current < req + 1000
  | allocated current value =>
    req ≤ value ∧ value ≤ req + 1000 ∧ (req + 1000 ≤ current → value = req)

structure TimestampState (ι : Type) where
  highWaterMark : Int
  phases : ι → AllocationPhase := fun _ => .start
  advances : List (ι × Int) := []

def nextMillis (candidate current : Int) : Int :=
  if candidate > current then candidate else saturate (current + 1)

namespace TimestampState

variable {ι : Type} [DecidableEq ι] (requests : ι → DateTime) (st : TimestampState ι)

def move (call : ι) (phase : AllocationPhase) : TimestampState ι :=
  { st with phases := Function.update st.phases call phase }

def step (call : ι) : TimestampState ι :=
  let candidate := datetimeToEpochMillis (requests call)
  match st.phases call with
  | .start =>
    let current := st.highWaterMark
    if ¬ candidate > current ∧ saturate (candidate + 1000) ≤ current then
      st.move call (.allocated current candidate)
    else st.move call (.loaded current)
  | .loaded current =>
    if st.highWaterMark = current then
      let value := nextMillis candidate current
      { st.move call (.allocated current value) with
        highWaterMark := value
        advances := st.advances ++ [(call, value)] }
    else st.move call .start
  | .allocated _ _ => st

def run (schedule : List ι) : TimestampState ι := schedule.foldl (step requests) st

/-- What the callers may rely on, in milliseconds, for the timestamps allocated so far. -/
structure Promised (calendar : Calendar) : Prop where
  /-- A call returns a time within a second from the requested one. -/
  close : ∀ call current value, st.phases call = .allocated current value →
    ∃ out, epochMillisToDatetime calendar value = .ok out ∧
      datetimeToEpochMillis (requests call) ≤ datetimeToEpochMillis out ∧
      datetimeToEpochMillis out ≤ datetimeToEpochMillis (requests call) + 1000
  /-- An old request has the milliseconds that were asked for. -/
  unchanged : ∀ call current value, st.phases call = .allocated current value →
    datetimeToEpochMillis (requests call) + 1000 ≤ current →
    ∃ out, epochMillisToDatetime calendar value = .ok out ∧
      datetimeToEpochMillis out = datetimeToEpochMillis (requests call)
  /-- The values that advance the mark increase. -/
  increasing : st.advances.Pairwise fun earlier later => ∃ first snd,
    epochMillisToDatetime calendar earlier.2 = .ok first ∧
      epochMillisToDatetime calendar later.2 = .ok snd ∧ first < snd

/-- An old request is returned to the nanosecond. -/
def ReturnsOld (calendar : Calendar) : Prop :=
  ∀ call current value, st.phases call = .allocated current value →
    datetimeToEpochMillis (requests call) + 1000 ≤ current →
    epochMillisToDatetime calendar value = .ok (requests call)

/-- The invariant of a run, before the values are converted. -/
structure Consistent : Prop where
  fits : ∀ call, (st.phases call).Fits (datetimeToEpochMillis (requests call))
  advanced : ∀ entry ∈ st.advances, entry.2 ≤ st.highWaterMark ∧
    datetimeToEpochMillis (requests entry.1) ≤ entry.2 ∧
    entry.2 ≤ datetimeToEpochMillis (requests entry.1) + 1000
  increasing : st.advances.Pairwise fun earlier later => earlier.2 < later.2

end TimestampState

/-- The milliseconds are not taken for seconds, and a second later has a time as well. -/
abbrev InRange (calendar : Calendar) (req : Int) : Prop :=
  minEpochMillis ≤ req ∧ req + 1000 ≤ calendar.maxMillis

section

variable {calendar : Calendar} {req : Int} {value : Int}

theorem saturate_eq_self (lower : -2 ^ 63 ≤ value) (upper : value < 2 ^ 63) :
    saturate value = value := by
  rw [saturate]
  omega

theorem nextMillis_cases {cur : Int} (range : minEpochMillis ≤ req)
    (fits : req + 1000 < 2 ^ 63) (hot : cur < req + 1000) :
    cur < nextMillis req cur ∧ req ≤ nextMillis req cur ∧
      nextMillis req cur ≤ req + 1000 := by
  rw [nextMillis]
  rw [minEpochMillis] at range
  split_ifs with newer
  · omega
  rw [saturate_eq_self (by omega) (by omega)]
  omega

theorem epochMillisToDatetime_of_close (fits : calendar.minMillis ≤ req)
    (range : InRange calendar req) (lower : req ≤ value) (upper : value ≤ req + 1000) :
    epochMillisToDatetime calendar value = .ok (value * 1000000) := by
  have recent : ¬ value < minEpochMillis := not_lt.mpr (range.1.trans lower)
  have inside : calendar.minMillis ≤ value ∧ value ≤ calendar.maxMillis :=
    ⟨fits.trans lower, upper.trans range.2⟩
  simp [epochMillisToDatetime, if_neg recent, Calendar.fromTimestampMillis, if_pos inside]

theorem datetimeToEpochMillis_mul (millis : Int) :
    datetimeToEpochMillis (millis * 1000000) = millis :=
  Int.mul_ediv_cancel millis (by decide)

end

open AllocationPhase List

namespace TimestampState

variable {ι : Type} [DecidableEq ι] {requests : ι → DateTime} {st : TimestampState ι}
  {calendar : Calendar}

theorem Consistent.move (sound : st.Consistent requests) {call : ι}
    {phase : AllocationPhase} (fits : phase.Fits (datetimeToEpochMillis (requests call))) :
    (st.move call phase).Consistent requests := by
  refine ⟨fun other => ?_, sound.advanced, sound.increasing⟩
  simp only [TimestampState.move, Function.update_apply]
  split_ifs with eq
  · exact eq ▸ fits
  · exact sound.fits other

theorem Consistent.step (sound : st.Consistent requests) {call : ι}
    (recent : minEpochMillis ≤ datetimeToEpochMillis (requests call))
    (inside : datetimeToEpochMillis (requests call) + 1000 < 2 ^ 63) :
    (st.step requests call).Consistent requests := by
  have fits := sound.fits call
  unfold TimestampState.step
  generalize eq : datetimeToEpochMillis (requests call) = req at recent inside fits ⊢
  have whole : saturate (req + 1000) = req + 1000 :=
    saturate_eq_self (by rw [minEpochMillis] at recent; omega) inside
  simp only [whole]
  cases phase : st.phases call with
  | start =>
    dsimp only
    split_ifs with old
    · exact sound.move ⟨eq.le, by omega, fun _ => eq.symm⟩
    apply sound.move
    rw [Fits]
    omega
  | loaded current =>
    rw [phase] at fits
    obtain ⟨above, lower, upper⟩ := nextMillis_cases recent inside fits
    dsimp only
    split_ifs with unmoved
    · have taken : (AllocationPhase.allocated current (nextMillis req current)).Fits
          (datetimeToEpochMillis (requests call)) := by
        rw [eq]
        exact ⟨lower, upper, fun old => absurd fits (not_lt.mpr old)⟩
      refine ⟨(sound.move taken).fits, fun entry mem => ?_, ?_⟩
      · rcases mem_append.mp mem with earlier | new
        · obtain ⟨below, rest⟩ := sound.advanced entry earlier
          exact ⟨below.trans (unmoved.trans_le above.le), rest⟩
        rw [mem_singleton.mp new]
        exact ⟨le_rfl, taken.1, taken.2.1⟩
      refine pairwise_append.mpr
        ⟨sound.increasing, pairwise_singleton _ _, fun entry mem last new => ?_⟩
      rw [mem_singleton.mp new]
      exact ((sound.advanced entry mem).1.trans_eq unmoved).trans_lt above
    · exact sound.move trivial
  | allocated current value => exact sound

theorem Consistent.run (sound : st.Consistent requests)
    (recent : ∀ call, minEpochMillis ≤ datetimeToEpochMillis (requests call))
    (fits : ∀ call, datetimeToEpochMillis (requests call) + 1000 < 2 ^ 63) (schedule : List ι) :
    (st.run requests schedule).Consistent requests := by
  induction schedule generalizing st with
  | nil => exact sound
  | cons call schedule ih => exact ih (sound.step (recent call) (fits call))

section

variable
  (representable : ∀ call, calendar.minMillis ≤ datetimeToEpochMillis (requests call))
  (range : ∀ call, InRange calendar (datetimeToEpochMillis (requests call)))
  (sound : st.Consistent requests)

include representable range sound

omit [DecidableEq ι]

theorem Consistent.promised : st.Promised requests calendar := by
  have converts := fun call value =>
    @epochMillisToDatetime_of_close calendar _ value (representable call) (range call)
  refine ⟨fun call current value here => ?_, fun call current value here old => ?_, ?_⟩
  · obtain ⟨lower, upper, -⟩ : (allocated current value).Fits _ := here ▸ sound.fits call
    refine ⟨_, converts call value lower upper, ?_⟩
    rw [datetimeToEpochMillis_mul]
    exact ⟨lower, upper⟩
  · obtain ⟨lower, upper, eq⟩ : (allocated current value).Fits _ := here ▸ sound.fits call
    refine ⟨_, converts call value lower upper, ?_⟩
    rw [datetimeToEpochMillis_mul, eq old]
  refine sound.increasing.imp_of_mem fun {earlier later} mem mem' before => ?_
  obtain ⟨-, lower, upper⟩ := sound.advanced earlier mem
  obtain ⟨-, lower', upper'⟩ := sound.advanced later mem'
  exact ⟨_, _, converts _ _ lower upper, converts _ _ lower' upper',
    Int.mul_lt_mul_of_pos_right before (by decide)⟩

theorem Consistent.returnsOld (whole : ∀ call, 1000000 ∣ requests call) :
    st.ReturnsOld requests calendar := by
  intro call current value here old
  obtain ⟨lower, upper, eq⟩ : (allocated current value).Fits _ := here ▸ sound.fits call
  rw [epochMillisToDatetime_of_close (representable call) (range call) lower upper, eq old]
  exact congrArg Except.ok (Int.ediv_mul_cancel (whole call))

end

end TimestampState

open TimestampState

theorem epochMillisToDatetime_eq_ok {calendar : Calendar} {value : Int} {out : DateTime}
    (converted : epochMillisToDatetime calendar value = .ok out) :
    datetimeToEpochMillis out =
        (if value < minEpochMillis then saturate (value * 1000) else value) ∧
      datetimeToEpochMillis out ≤ calendar.maxMillis ∧ 1000000 ∣ out := by
  simp only [epochMillisToDatetime, Calendar.fromTimestampMillis] at converted
  generalize (if value < minEpochMillis then saturate (value * 1000) else value) = millis
    at converted ⊢
  by_cases inside : calendar.minMillis ≤ millis ∧ millis ≤ calendar.maxMillis
  · rw [if_pos inside] at converted
    obtain rfl := Except.ok.inj converted
    rw [datetimeToEpochMillis_mul]
    exact ⟨rfl, inside.2, Int.dvd_mul_left _ _⟩
  rw [if_neg inside] at converted
  cases converted

section

variable {ι : Type} [DecidableEq ι] {requests : ι → DateTime} {calendar : Calendar} {call : ι}
  {req : Int} (eq : datetimeToEpochMillis (requests call) = req) (lower : -2 ^ 62 ≤ req)
  (upper : req < 2 ^ 62)

include eq lower upper

/-- Under a mark one second ahead a call returns at once. -/
theorem run_old : (run requests { highWaterMark := req + 1000 } [call]).phases call =
    .allocated (req + 1000) req := by
  have whole : saturate (req + 1000) = req + 1000 := saturate_eq_self (by omega) (by omega)
  have old : ¬ req > req + 1000 := by omega
  simp [run, TimestampState.step, eq, whole, move, old]

/-- Under a mark just less than a second ahead a call takes the next millisecond. -/
theorem run_hot : (run requests { highWaterMark := req + 999 } [call, call]).phases call =
    .allocated (req + 999) (req + 1000) := by
  have whole : saturate (req + 1000) = req + 1000 := saturate_eq_self (by omega) (by omega)
  have tooNew : ¬ req + 1000 ≤ req + 999 := by omega
  have bumped : nextMillis req (req + 999) = req + 1000 := by
    rw [nextMillis, if_neg (by omega), saturate_eq_self (by omega) (by omega)]
    omega
  simp [run, TimestampState.step, eq, whole, tooNew, bumped, move]

theorem inRange_of_promised (promised : ∀ mark schedule,
      (run requests { highWaterMark := mark } schedule).Promised requests calendar) :
    InRange calendar req := by
  obtain ⟨old, kept, same⟩ := (promised _ _).unchanged call _ _ (run_old eq lower upper) (by omega)
  obtain ⟨out, bumped, -, close⟩ := (promised _ _).close call _ _ (run_hot eq lower upper)
  obtain ⟨value, -⟩ := epochMillisToDatetime_eq_ok kept
  obtain ⟨value', inside, -⟩ := epochMillisToDatetime_eq_ok bumped
  rw [same, eq] at value
  rw [eq] at close
  simp only [saturate, minEpochMillis] at value value'
  have bound : minEpochMillis = 1577836800000 := rfl
  split_ifs at value value' <;> omega

end

section

variable {ι : Type} [DecidableEq ι] {requests : ι → DateTime} {calendar : Calendar}

/-- The promises are kept from every mark exactly when all requests are in range, and old requests
are returned unchanged exactly when they are whole milliseconds as well. -/
theorem allocateThreadTimestamp_promised_iff (lowest : -2 ^ 62 ≤ calendar.minMillis)
    (highest : calendar.maxMillis < 2 ^ 62)
    (representable : ∀ call, calendar.minMillis ≤ datetimeToEpochMillis (requests call) ∧
      datetimeToEpochMillis (requests call) ≤ calendar.maxMillis) :
    ((∀ mark schedule,
        (run requests { highWaterMark := mark } schedule).Promised requests calendar) ↔
      ∀ call, InRange calendar (datetimeToEpochMillis (requests call))) ∧
    ((∀ mark schedule,
        (run requests { highWaterMark := mark } schedule).Promised requests calendar ∧
        (run requests { highWaterMark := mark } schedule).ReturnsOld requests calendar) ↔
      ∀ call, InRange calendar (datetimeToEpochMillis (requests call)) ∧
        1000000 ∣ requests call) := by
  have inRange (promised : ∀ mark schedule,
        (run requests { highWaterMark := mark } schedule).Promised requests calendar) (call : ι) :
      InRange calendar (datetimeToEpochMillis (requests call)) := by
    obtain ⟨lower, upper⟩ := representable call
    exact inRange_of_promised rfl (by omega) (by omega) promised
  have consistent (range : ∀ call, InRange calendar (datetimeToEpochMillis (requests call)))
      (mark : Int) (schedule : List ι) :
      (run requests { highWaterMark := mark } schedule).Consistent requests := by
    refine Consistent.run ?_ (fun call => (range call).1) (fun call => ?_) schedule
    · constructor <;> simp [Fits]
    · have := (range call).2
      omega
  have lowerBound := fun call => (representable call).1
  refine ⟨⟨inRange, fun range mark schedule =>
    (consistent range mark schedule).promised lowerBound range⟩, fun kept call => ?_,
    fun fits mark schedule => ?_⟩
  · refine ⟨inRange (fun mark schedule => (kept mark schedule).1) call, ?_⟩
    obtain ⟨lower, upper⟩ := representable call
    -- a request one second older than the mark comes back as whole milliseconds
    have same := (kept _ _).2 call _ _ (run_old rfl (by omega) (by omega)) (by omega)
    exact (epochMillisToDatetime_eq_ok same).2.2
  · have range := fun call => (fits call).1
    exact ⟨(consistent range mark schedule).promised lowerBound range,
      (consistent range mark schedule).returnsOld lowerBound range fun call => (fits call).2⟩

end

/-- Two calls within one millisecond, of which the second retries. -/
theorem allocateThreadTimestamp_promised_hot :
    (run (fun _ : Bool => 1700000000000000500) { highWaterMark := 0 }
      [true, false, true, false, false, false]).Promised
        (fun _ => 1700000000000000500) chronoCalendar :=
  (allocateThreadTimestamp_promised_iff (by decide) (by decide) (by decide)).1.mpr (by decide) 0 _

/-- The second second of 1970 is returned as if it were given in seconds, and half a millisecond is
lost under a later mark. -/
theorem allocateThreadTimestamp_early :
    ((run (fun _ : Unit => 1000000000) { highWaterMark := 0 } [(), ()]).phases () =
        .allocated 0 1000 ∧
      epochMillisToDatetime chronoCalendar 1000 = .ok 1000000000000) ∧
    (run (fun _ : Unit => 1700000000000500000) { highWaterMark := 1700000010000 } [()]).phases () =
        .allocated 1700000010000 1700000000000 ∧
      epochMillisToDatetime chronoCalendar 1700000000000 = .ok 1700000000000000000 := by
  decide

end Codex.State
