import Codex.ExecServer.Following

/-!
# Recovered and live events merge into the log of the server

Whatever notifications and reads arrive, the start of the log is published.
-/

namespace Codex.ExecServer

open SessionState List ServerLog OrderedSessionEvents

variable {log : ServerLog} {sess : SessionState}

def RecoverError.IsLimit (error : RecoverError) : Prop :=
  ∃ limit : ReorderError, error = .reorder limit ∧ limit.IsLimit

section

variable {after target : Nat} {denied : Bool}

/-- The state of a recovery after the outputs of `front`. -/
structure Recovering (log : ServerLog) (after target : Nat) (front : List ProcessOutputChunk)
    (prog : RecoveryProgress) (sess : SessionState) : Prop extends Steady log sess where
  after_le : after ≤ sess.last
  outputs : ∀ chunk ∈ front, chunk.seq ≤ sess.last
  exit : prog.exitKnown = true ↔ ∃ seq ≤ target, log.IsExit seq ∧ sess.Known seq

variable {front back : List ProcessOutputChunk} {chunk : ProcessOutputChunk}
  {prog : RecoveryProgress}

theorem mem_front_of_lt {y : ProcessOutputChunk}
    (split : (log.read after target denied).chunks = front ++ chunk :: back)
    (mem : y ∈ (log.read after target denied).chunks) (pre : y.seq < chunk.seq) : y ∈ front := by
  have sorted := @chunks_read_sorted log after target denied
  rw [split] at sorted mem
  rcases mem_append.mp mem with mem | mem
  · exact mem
  rcases mem_cons.mp mem with rfl | mem
  · omega
  have later := rel_of_pairwise_cons (pairwise_append.mp sorted).2.1 mem
  omega

theorem Recovering.isExit_of_gap (live : Recovering log after target front prog sess)
    (split : (log.read after target denied).chunks = front ++ chunk :: back)
    (gap : sess.last + 1 < chunk.seq) : log.IsExit (sess.last + 1) := by
  have mem : chunk ∈ (log.read after target denied).chunks := by simp [split]
  obtain ⟨-, ins, hit⟩ := mem_chunks_read.mp mem
  have bounds := le_of_event hit
  have start := live.after_le
  rcases log.event_cases (Nat.succ_pos sess.last) (by omega) with out | exit | closed
  · obtain ⟨y, foundOther, num⟩ := out
    have mem2 : y ∈ (log.read after target denied).chunks :=
      mem_chunks_read.mpr ⟨by omega, by omega, num ▸ foundOther⟩
    have published := live.outputs y (mem_front_of_lt split mem2 (by omega))
    omega
  · exact exit
  have last := seq_of_closed closed rfl
  omega

theorem saturatingSucc_eq {seq : Nat} (ins : seq < log.events.length) :
    saturatingSucc seq = seq + 1 := by
  have largest := log.length_le
  unfold saturatingSucc
  omega

theorem insertRecoveredExit_spec {seq : Nat} {code : Int} {denied' : Option Bool}
    (ins : seq ≤ target) (hit : log.event seq = some (.exited seq code denied')) :
    Triple (· = sess) (insertRecoveredExit (log.read after target denied) seq)
      (fun _ => Kept sess seq (.exited seq code (some denied))) (fun error _ => error.IsLimit) := by
  unfold insertRecoveredExit
  rw [exitCode_read ins hit]
  exact Triple.mapError ((insertPending_spec rfl).weakenFailed fun limit _ isLimit =>
    ⟨limit, rfl, isLimit⟩)

section

variable (split : (log.read after target denied).chunks = front ++ chunk :: back)
include split

theorem recoverExitBefore_spec : Triple (Recovering log after target front prog)
      (recoverExitBefore (log.read after target denied) prog chunk)
      (fun prog sess => Recovering log after target front prog sess ∧ chunk.seq ≤ sess.last + 1)
      (fun error _ => error.IsLimit) := by
  have mem : chunk ∈ (log.read after target denied).chunks := by simp [split]
  obtain ⟨-, ins, hit⟩ := mem_chunks_read.mp mem
  have bounds := le_of_event hit
  refine Triple.orderedEvents fun sess live => ?_
  dsimp only
  split
  · rename_i fill
    have fill : ((log.read after target denied).exited = true ∧ prog.exitKnown = false) ∧
        saturatingSucc sess.last < chunk.seq := by simpa using fill
    have next : saturatingSucc sess.last = sess.last + 1 := by
      have short := fill.2
      have largest := log.length_le
      unfold saturatingSucc at short ⊢
      omega
    rw [next] at fill ⊢
    have exit := live.isExit_of_gap split fill.2
    obtain ⟨code, denied', foundExit⟩ := exit
    refine Triple.bind (insertRecoveredExit_spec (by omega) foundExit) fun _ => ?_
    refine Triple.bind (Kept.publishReady live.following (by omega) foundExit rfl)
      fun closed => ?_
    refine Triple.pure fun after taken => ?_
    have published := taken.le_last (le_refl _)
    have start := live.after_le
    have recovered : Recovering log _ target front ⟨true, prog.publishedClosed || closed⟩ after :=
      { following := taken.following
        settled := taken.settled
        after_le := start.trans taken.last_le
        outputs := fun y mem => (live.outputs y mem).trans taken.last_le
        exit := by
          simp only [true_iff]
          exact ⟨_, by omega, ⟨code, denied', foundExit⟩, .inl published⟩ }
    refine ⟨recovered, ?_⟩
    by_contra gap
    have again := recovered.isExit_of_gap split (by omega)
    have eq := again.unique ⟨code, denied', foundExit⟩
    omega
  rename_i filled
  refine Triple.pure fun _ eq => eq ▸ ⟨live, ?_⟩
  by_contra gap
  have exit := live.isExit_of_gap split (by omega)
  have exited : (log.read after target denied).exited = true :=
    exited_read.mpr ⟨_, by omega, exit⟩
  have next : saturatingSucc sess.last = sess.last + 1 :=
    @saturatingSucc_eq log _ (by omega)
  have known : prog.exitKnown = true := by
    by_contra unknown
    refine filled ?_
    rw [exited, Bool.eq_false_iff.mpr unknown]
    simpa [next] using gap
  obtain ⟨seq, -, exit', known⟩ := live.exit.mp known
  exact live.settled.not_known (exit.unique exit' ▸ known)

theorem recoverOutput_spec : Triple (fun sess => Recovering log after target front prog sess ∧
        chunk.seq ≤ sess.last + 1)
      (recoverOutput prog chunk) (Recovering log after target (front ++ [chunk]))
      (fun error _ => error.IsLimit) := by
  have mem : chunk ∈ (log.read after target denied).chunks := by simp [split]
  obtain ⟨-, ins, hit⟩ := mem_chunks_read.mp mem
  refine Triple.orderedEvents fun sess ⟨live, ready⟩ => ?_
  split
  · rename_i late
    have late : sess.last < chunk.seq := late
    refine Triple.bind (Triple.mapError ((insertPending_spec rfl).weakenFailed
      fun limit _ isLimit => ⟨limit, rfl, isLimit⟩)) fun _ => ?_
    refine Triple.bind (Kept.publishReady live.following late hit rfl) fun closed => ?_
    refine Triple.pure fun after taken => ?_
    have published := taken.le_last ready
    refine ⟨⟨taken.following, taken.settled⟩, live.after_le.trans taken.last_le, ?_, ?_⟩
    · intro y mem2
      rcases mem_append.mp mem2 with early | isChunk
      · exact (live.outputs y early).trans taken.last_le
      · exact mem_singleton.mp isChunk ▸ published
    rw [live.exit]
    refine exists_congr fun seq => and_congr_right fun _ => and_congr_right fun exit => ?_
    rw [taken.known_iff]
    refine (or_iff_left ?_).symm
    rintro rfl
    obtain ⟨_, _, foundExit⟩ := exit
    cases hit.symm.trans foundExit
  rename_i early
  refine Triple.pure fun _ eq => eq ▸ { live with outputs := ?_ }
  intro y mem2
  rcases mem_append.mp mem2 with mem | isChunk
  · exact live.outputs y mem
  · exact mem_singleton.mp isChunk ▸ Nat.le_of_not_lt early

theorem recoverChunk_spec : Triple (Recovering log after target front prog)
      (recoverChunk (log.read after target denied) target prog chunk)
      (Recovering log after target (front ++ [chunk])) (fun error _ => error.IsLimit) := by
  have mem : chunk ∈ (log.read after target denied).chunks := by simp [split]
  obtain ⟨-, ins, -⟩ := mem_chunks_read.mp mem
  unfold recoverChunk
  rw [if_neg (by omega)]
  exact Triple.bind (recoverExitBefore_spec split) fun _ => recoverOutput_spec split

end

theorem map_fst_pendingRange (events : OrderedSessionEvents) (fst last : Nat) :
    (events.pendingRange fst last).map (·.1) = (List.range' fst (last + 1 - fst)).filter fun seq =>
        (events.pending.lookup seq).isSome := by
  unfold pendingRange
  generalize List.range' fst (last + 1 - fst) = numbers
  induction numbers with
  | nil => rfl
  | cons seq numbers ih =>
    cases hit : events.pending.lookup seq with
    | none | some => simp [hit, ih]

section

variable {events : OrderedSessionEvents}

private theorem filter_pending (fst count : Nat)
    (all : ∀ seq, fst ≤ seq → seq < fst + count → events.pending.lookup seq ≠ none) :
    ((List.range' fst count).filter fun seq => (events.pending.lookup seq).isSome) =
      List.range' fst count := by
  refine filter_eq_self.mpr fun seq mem => Option.isSome_iff_ne_none.mpr ?_
  have bounds := mem_range'_1.mp mem
  exact all seq bounds.1 bounds.2

theorem length_pendingRange (fst last : Nat) : (events.pendingRange fst last).length =
      ((List.range' fst (last + 1 - fst)).filter fun seq =>
        (events.pending.lookup seq).isSome).length := by
  rw [← map_fst_pendingRange, length_map]

theorem missingCount_eq_zero (next : events.lastPublishedSeq < target →
      saturatingSucc events.lastPublishedSeq = events.lastPublishedSeq + 1)
    (all : ∀ seq, events.lastPublishedSeq < seq → seq ≤ target →
      events.pending.lookup seq ≠ none) : events.missingCount target = 0 := by
  unfold missingCount
  by_cases late : events.lastPublishedSeq < target
  · dsimp only
    rw [next late, if_pos (Nat.succ_le_of_lt late), length_pendingRange,
      filter_pending _ _ fun seq fst last => all seq (by omega) (by omega), length_range']
    omega
  dsimp only
  rw [Nat.sub_eq_zero_of_le (Nat.le_of_not_lt late), Nat.zero_sub]

theorem missingCount_eq_one
    (next : saturatingSucc events.lastPublishedSeq = events.lastPublishedSeq + 1)
    (late : events.lastPublishedSeq < target)
    (missing : events.pending.lookup (events.lastPublishedSeq + 1) = none)
    (all : ∀ seq, events.lastPublishedSeq + 1 < seq → seq ≤ target →
      events.pending.lookup seq ≠ none) : events.missingCount target = 1 := by
  unfold missingCount
  dsimp only
  have count : target + 1 - (events.lastPublishedSeq + 1) =
      (target - (events.lastPublishedSeq + 1)) + 1 := by omega
  rw [next, if_pos (Nat.succ_le_of_lt late), length_pendingRange, count, range'_succ,
    filter_cons_of_neg (by simp [missing]),
    filter_pending _ _ fun seq fst last => all seq (by omega) (by omega), length_range']
  omega

theorem firstMissingSeq_eq
    (next : saturatingSucc events.lastPublishedSeq = events.lastPublishedSeq + 1)
    (late : events.lastPublishedSeq < target)
    (missing : events.pending.lookup (events.lastPublishedSeq + 1) = none) :
    events.firstMissingSeq target = events.lastPublishedSeq + 1 := by
  have count : target + 1 - (events.lastPublishedSeq + 1) =
      (target - (events.lastPublishedSeq + 1)) + 1 := by omega
  unfold firstMissingSeq
  dsimp only
  rw [next, map_fst_pendingRange, count, range'_succ, filter_cons_of_neg (by simp [missing])]
  cases tl : (List.range' (events.lastPublishedSeq + 1 + 1)
      (target - (events.lastPublishedSeq + 1))).filter
        fun seq => (events.pending.lookup seq).isSome with
  | nil => rfl
  | cons seq numbers =>
    have mem : seq ∈ seq :: numbers := mem_cons_self
    rw [← tl] at mem
    have bounds := mem_range'_1.mp (mem_of_mem_filter mem)
    rw [firstMissingSeq.go, if_pos (by omega)]

end

/-- All numbers up to the target are pending, but for a missing exit event. -/
structure Closing (log : ServerLog) (target : Nat) (exitKnown : Bool) (sess : SessionState) :
    Prop where
  following : Following log sess
  others : ∀ seq, sess.last < seq → seq ≤ target → ¬ log.IsExit seq → sess.pending.lookup seq ≠ none
  missing : ∀ seq, sess.last < seq → seq ≤ target → log.IsExit seq →
    seq = sess.last + 1 ∧ sess.pending.lookup seq = none ∧ exitKnown = false
  published : ∀ seq ≤ target, log.IsExit seq → seq ≤ sess.last → exitKnown = true

theorem Recovering.next_cases
    (live : Recovering log after target (log.read after target denied).chunks prog
      sess) (ins : target ≤ log.events.length) {seq : Nat} (late : sess.last < seq)
    (early : seq ≤ target) : log.IsExit seq ∨ log.IsClosed seq := by
  rcases log.event_cases (Nat.zero_lt_of_lt late) (early.trans ins) with out | tl
  · obtain ⟨chunk, hit, num⟩ := out
    have start := live.after_le
    have published := live.outputs chunk
      (mem_chunks_read.mpr ⟨by omega, by omega, num ▸ hit⟩)
    omega
  · exact tl

theorem Recovering.closing {final : SessionState}
    (live : Recovering log after target (log.read after target denied).chunks prog
      sess) (ins : target ≤ log.events.length) (following : Following log final)
    (last : final.last = sess.last)
    (closed : log.IsClosed target → sess.last < target → final.pending.lookup target ≠ none)
    (others : ∀ seq, ¬ log.IsClosed seq → final.pending.lookup seq = sess.pending.lookup seq) :
    Closing log target prog.exitKnown final := by
  refine ⟨following, fun seq late early notExit => ?_, fun seq late early exit => ?_,
    fun seq early exit pub => ?_⟩
  · rw [last] at late
    have isClosed := (live.next_cases ins late early).resolve_left notExit
    have isLast := seq_of_closed isClosed rfl
    obtain rfl : seq = target := by omega
    exact closed isClosed late
  · rw [last] at late ⊢
    have next : seq = sess.last + 1 := by
      rcases live.next_cases ins (Nat.lt_succ_self sess.last) (by omega) with
        exit' | closed'
      · exact exit.unique exit'
      have isLast := seq_of_closed closed' rfl
      omega
    have notClosed : ¬ log.IsClosed seq := by
      intro isClosed
      obtain ⟨_, _, hit⟩ := exit
      cases hit.symm.trans isClosed
    refine ⟨next, ?_, ?_⟩
    · rw [others seq notClosed, next]
      exact live.settled
    rw [Bool.eq_false_iff]
    intro known
    obtain ⟨seq', -, exit', known'⟩ := live.exit.mp known
    exact live.settled.not_known (next ▸ exit.unique exit' ▸ known')
  · exact live.exit.mpr ⟨seq, early, exit, .inl (last ▸ pub)⟩

theorem recoverClosed_spec (ins : target ≤ log.events.length) :
    Triple (Recovering log after target (log.read after target denied).chunks prog)
      (recoverClosed (log.read after target denied) target)
      (fun _ => Closing log target prog.exitKnown) (fun error _ => error.IsLimit) := by
  refine Triple.orderedEvents fun sess live => ?_
  split
  · rename_i due
    have due : ((log.read after target denied).closed = true ∧
        sess.orderedEvents.closedPublished = false) ∧
        (sess.pending.lookup target).any (·.isClosed) = false := by simpa using due
    obtain ⟨seq, early, isClosed⟩ := closed_read.mp due.1.1
    have isLast := seq_of_closed isClosed rfl
    obtain rfl : seq = target := by omega
    have late : sess.last < seq := by
      by_contra pub
      have closedPublished := live.following.closed.mpr
        ⟨seq, by omega, isClosed_iff.mp isClosed⟩
      cases due.1.2.symm.trans closedPublished
    refine Triple.mapError ((insertPending_spec rfl).consequence (fun _ eq => eq) ?_
      fun limit _ isLimit => ⟨limit, rfl, isLimit⟩)
    intro _ final kept
    refine live.closing ins (kept.following live.following late isClosed rfl)
      kept.last (fun _ _ => ?_) fun y notClosed => ?_
    · exact kept.lookup_self
    · exact kept.lookup_of_ne fun eq => notClosed (eq ▸ isClosed)
  rename_i notDue
  refine Triple.pure fun _ eq => eq ▸ live.closing ins live.following rfl
    (fun isClosed late missing => notDue ?_) fun _ _ => rfl
  have closed : (log.read after target denied).closed = true :=
    closed_read.mpr ⟨target, le_refl _, isClosed⟩
  have unseen : sess.orderedEvents.closedPublished = false := by
    rw [Bool.eq_false_iff]
    intro pub
    obtain ⟨seq, early, closed'⟩ := live.following.closed.mp pub
    have isLast := seq_of_closed (isClosed_iff.mpr closed') rfl
    have isLast' := seq_of_closed isClosed rfl
    omega
  rw [closed, unseen, missing]
  rfl

theorem recoverExit_spec (ins : target ≤ log.events.length) {exitKnown : Bool} :
    Triple (Closing log target exitKnown)
      (recoverExit (log.read after target denied) target exitKnown)
      (fun _ sess => Following log sess ∧ ∀ seq, sess.last < seq → seq ≤ target →
        sess.pending.lookup seq ≠ none) (fun error _ => error.IsLimit) := by
  refine Triple.orderedEvents fun sess closing => ?_
  have next (late : sess.last < target) :
      saturatingSucc sess.last = sess.last + 1 :=
    @saturatingSucc_eq log _ (by omega)
  split
  · rename_i due
    have due : (log.read after target denied).exited = true ∧ exitKnown = false := by
      simpa using due
    obtain ⟨seq, early, exit⟩ := exited_read.mp due.1
    have late : sess.last < seq := by
      by_contra published
      cases due.2.symm.trans (closing.published seq early exit (by omega))
    obtain ⟨rfl, missing, -⟩ := closing.missing seq late early exit
    have others (y : Nat) (late : sess.last + 1 < y) (early : y ≤ target) :
        sess.pending.lookup y ≠ none :=
      closing.others y (by omega) early fun exit' => by
        have eq := exit.unique exit'
        omega
    have short : sess.last < target := by omega
    have one := missingCount_eq_one (next short) short missing others
    have fst := firstMissingSeq_eq (next short) short missing
    rw [if_neg (by rw [one]; exact fun ne => ne rfl), fst]
    obtain ⟨code, denied', hit⟩ := exit
    refine (insertRecoveredExit_spec early hit).weaken fun _ final kept => ?_
    refine ⟨kept.following closing.following late hit rfl, fun y late early => ?_⟩
    rw [kept.last] at late
    by_cases isNext : y = sess.last + 1
    · exact isNext ▸ kept.lookup_self
    rw [kept.lookup_of_ne isNext]
    exact others y (by omega) early
  rename_i notDue
  have all (seq : Nat) (late : sess.last < seq) (early : seq ≤ target) :
      sess.pending.lookup seq ≠ none := by
    refine closing.others seq late early fun exit => notDue ?_
    have exited : (log.read after target denied).exited = true :=
      exited_read.mpr ⟨seq, early, exit⟩
    rw [exited, (closing.missing seq late early exit).2.2]
    rfl
  have zero := missingCount_eq_zero next all
  rw [if_neg (by rw [zero]; exact fun ne => ne rfl)]
  exact Triple.pure fun _ eq => eq ▸ ⟨closing.following, all⟩

theorem mem_pendingRange {events : OrderedSessionEvents} {fst last seq : Nat}
    {event : ExecProcessEvent} :
    (seq, event) ∈ events.pendingRange fst last ↔
      (fst ≤ seq ∧ seq ≤ last) ∧ events.pending.lookup seq = some event := by
  simp only [pendingRange, mem_filterMap, mem_range'_1, Option.map_eq_some_iff, Prod.mk.injEq]
  constructor
  · rintro ⟨num, bounds, hit, pend, rfl, rfl⟩
    exact ⟨by omega, pend⟩
  rintro ⟨bounds, pend⟩
  exact ⟨seq, by omega, event, pend, rfl, rfl⟩

structure Marked (log : ServerLog) (target : Nat) (sess : SessionState) (exitPending : Bool)
    (after : SessionState) : Prop extends Steady log after where
  last : after.last = sess.last
  exitPublished : after.orderedEvents.exitPublished = sess.orderedEvents.exitPublished
  known_iff : ∀ seq, after.Known seq ↔ sess.Known seq
  exit : exitPending = true ↔ ∃ seq ≤ target, log.IsExit seq ∧ sess.pending.lookup seq ≠ none

theorem markPendingExit_spec {ε : Type} {failed : ε → SessionState → Prop}
    (steady : Steady log sess) :
    Triple (· = sess) (markPendingExit target denied)
      (fun exitPending => Marked log target sess exitPending) failed := by
  refine Triple.orderedEvents fun cur here => ?_
  subst here
  split
  · rename_i key seq code pendingDenied fst
    obtain ⟨bounds, hit⟩ := mem_pendingRange.mp (mem_of_find?_eq_some fst)
    obtain ⟨late, logged, foundLogged, eq⟩ := steady.following.pending_same hit
    intro st here
    subst here
    let marked := ExecProcessEvent.exited seq code (some (pendingDenied.getD false || denied))
    have kept : Kept st key marked
        { st with
          orderedEvents :=
            { st.orderedEvents with pending := st.pending.insert key marked } } :=
      ⟨rfl, rfl, rfl, rfl, rfl, .inr rfl⟩
    have notNext : st.last + 1 ≠ key := by
      rintro rfl
      cases steady.settled.symm.trans hit
    have isExit : log.IsExit key := by
      rw [isExit_iff, foundLogged]
      exact eq.isExited.symm
    refine ⟨⟨kept.following steady.following late foundLogged eq, ?_⟩, rfl, rfl, ?_, ?_⟩
    · exact (kept.lookup_of_ne notNext).trans steady.settled
    · intro y
      rw [kept.known_iff]
      refine or_iff_left_of_imp ?_
      rintro rfl
      exact .inr (by rw [hit]; exact Option.some_ne_none _)
    simp only [true_iff]
    exact ⟨key, bounds.2, isExit, by rw [hit]; exact Option.some_ne_none _⟩
  rename_i y
  intro st here
  subst here
  refine ⟨steady, rfl, rfl, fun _ => Iff.rfl, ?_⟩
  simp only [Bool.false_eq_true, false_iff]
  rintro ⟨seq, early, exit, pending⟩
  obtain ⟨ev, hit⟩ := Option.ne_none_iff_exists'.mp pending
  obtain ⟨-, logged, foundLogged, eq⟩ := steady.following.pending_same hit
  have exited : ev.isExited = true := by
    rw [isExit_iff, foundLogged] at exit
    exact eq.isExited.trans exit
  cases fst : (st.orderedEvents.pendingRange 0 target).find? (·.2.isExited) with
  | none =>
    have none := find?_eq_none.mp fst (seq, ev)
      (mem_pendingRange.mpr ⟨⟨Nat.zero_le _, early⟩, hit⟩)
    exact none exited
  | some ent =>
    obtain ⟨key, marked⟩ := ent
    have isExited := find?_some fst
    cases marked with
    | exited seq code denied => exact y key seq code denied fst
    | output | closed | failed => cases isExited

theorem closeConflicts_eq_false (steady : Steady log sess) (ins : target ≤ log.events.length) :
    closeConflicts sess.orderedEvents (log.read after target denied) target = false := by
  unfold closeConflicts
  rw [Bool.and_eq_false_iff, or_iff_not_imp_left, Bool.not_eq_false]
  intro closed
  obtain ⟨seq, early, isClosed⟩ := closed_read.mp closed
  have isLast := seq_of_closed isClosed rfl
  obtain rfl : seq = target := by omega
  rw [Bool.or_eq_false_iff]
  constructor
  · cases hit : sess.pending.lookup seq with
    | none => rfl
    | some ev =>
      obtain ⟨-, logged, foundLogged, eq⟩ := steady.following.pending_same hit
      obtain rfl := Option.some.inj (isClosed.symm.trans foundLogged)
      have closedEvent : ev.isClosed = true := eq.isClosed
      simp [closedEvent]
  rw [any_eq_false]
  intro chunk mem eq
  obtain ⟨-, -, hit⟩ := mem_chunks_read.mp mem
  rw [eq_of_beq eq] at hit
  cases isClosed.symm.trans hit

theorem Marked.recovering {exitPending : Bool} {marked : SessionState}
    (isMarked : Marked log target sess exitPending marked) (next : Following log sess)
    (start : after ≤ sess.last) (late : sess.last < target) :
    Recovering log after target []
      { exitKnown := marked.orderedEvents.exitPublished || exitPending, publishedClosed := false }
      marked where
  toSteady := isMarked.toSteady
  after_le := isMarked.last ▸ start
  outputs := by simp
  exit := by
    rw [Bool.or_eq_true, isMarked.exitPublished, next.exit, isMarked.exit]
    constructor
    · rintro (⟨seq, early, exit⟩ | ⟨seq, early, exit, pending⟩)
      · exact ⟨seq, by omega, isExit_iff.mpr exit, (isMarked.known_iff seq).mpr (.inl early)⟩
      · exact ⟨seq, early, exit, (isMarked.known_iff seq).mpr (.inr pending)⟩
    rintro ⟨seq, early, exit, known⟩
    rcases (isMarked.known_iff seq).mp known with pub | pending
    · exact .inl ⟨seq, pub, isExit_iff.mp exit⟩
    · exact .inr ⟨seq, early, exit, pending⟩

theorem recoverUnpublished_spec (steady : Steady log sess)
    (ins : target ≤ log.events.length) (start : after ≤ sess.last) (late : sess.last < target) :
    Triple (· = sess) (recoverUnpublished (log.read after target denied) target)
      (fun _ final => Steady log final ∧ target ≤ final.last) (fun error _ => error.IsLimit) := by
  refine Triple.bind (markPendingExit_spec steady) fun pending => ?_
  refine Triple.orderedEvents fun marked isMarked => ?_
  rw [if_neg (by rw [closeConflicts_eq_false isMarked.toSteady ins]; exact Bool.false_ne_true)]
  have recovering := isMarked.recovering steady.following start late
  have outputs (prog : RecoveryProgress) :=
    @Triple.foldlM _ _ _ _ _ (log.read after target denied).chunks
      (recoverChunk (log.read after target denied) target) prog (Recovering log after target)
      fun front chunk back split prog => recoverChunk_spec split
  refine Triple.bind ((outputs _).consequence (fun _ eq => eq ▸ recovering)
    (fun _ _ holds => holds) fun _ _ isLimit => isLimit) fun prog => ?_
  refine Triple.bind (recoverClosed_spec ins) fun _ => ?_
  refine Triple.bind (recoverExit_spec ins) fun _ => ?_
  intro full ⟨next, covered⟩
  obtain ⟨follows, drained, settled⟩ := next.publishReady
  have reached := drained.le_last settled covered
  exact ⟨⟨⟨follows.failure, follows.merged, follows.exit, follows.closed⟩, settled⟩, reached⟩

theorem recoverEvents_spec (ins : target ≤ log.events.length) :
    Triple (fun sess => Steady log sess ∧ after ≤ sess.last)
      (recoverEvents (log.read after target denied))
      (fun _ final => Steady log final ∧ target ≤ final.last) (fun error _ => error.IsLimit) := by
  refine Triple.orderedEvents fun sess ⟨steady, start⟩ => ?_
  split
  · rename_i done
    refine Triple.pure fun _ eq => eq ▸ ⟨steady, ?_⟩
    rw [steady.following.failure] at done
    simp only [Option.isSome_none, Bool.false_or, Bool.or_eq_true, decide_eq_true_eq] at done
    rcases done with closed | pub
    · obtain ⟨seq, early, isClosed⟩ := steady.following.closed.mp closed
      have isLast := seq_of_closed (isClosed_iff.mpr isClosed) rfl
      omega
    · exact pub
  rename_i notDone
  simp only [Bool.or_eq_true, decide_eq_true_eq, not_or, not_le] at notDone
  exact recoverUnpublished_spec steady ins start notDone.2

end

/-- The sessions reached by notifications and reads while the reorder buffer is not full. -/
inductive Reachable (log : ServerLog) : SessionState → Prop
  | start : Reachable log {}
  | notify {sess next : SessionState} {event : ExecProcessEvent} {closed : Bool}
      (reached : Reachable log sess) (mem : event ∈ log.events)
      (ran : publishOrderedEvent event sess = .ok closed next) : Reachable log next
  | recover {sess next : SessionState} {after target : Nat} {denied closed : Bool}
      (reached : Reachable log sess) (start : after ≤ sess.last)
      (inside : target ≤ log.events.length)
      (ran : recoverEvents (log.read after target denied) sess = .ok closed next) :
      Reachable log next

theorem Reachable.steady (reached : Reachable log sess) : Steady log sess := by
  induction reached with
  | start =>
    have nothing (kind : ExecProcessEvent → Bool) :
        false = true ↔ ∃ seq ≤ 0, (log.event seq).any kind = true := by
      simp [ServerLog.event]
    exact ⟨⟨rfl, Merged.empty _ _ 1, nothing _, nothing _⟩, rfl⟩
  | notify reached mem ran ih =>
    exact (publishOrderedEvent_steady mem).of_ok ih ran
  | recover reached start ins ran ih =>
    exact ((recoverEvents_spec ins).of_ok ⟨ih, start⟩ ran).1

/-- The start of the log, each event once and in order, and nothing after the close event. -/
structure PublishesLog (log : ServerLog) (sess : SessionState) : Prop where
  start : List.Forall₂ ExecProcessEvent.Same sess.published (log.events.take sess.last)
  once : sess.published.map ExecProcessEvent.seq = (List.range' 1 sess.last).map some
  closed : ∀ front seq back, sess.published = front ++ .closed seq :: back → back = []

theorem SessionState.Following.publishesLog (next : Following log sess) :
    PublishesLog log sess := by
  have bound := next.last_le
  have start : List.Forall₂ ExecProcessEvent.Same sess.published
      (log.events.take sess.last) := by
    have released := next.merged.released
    rw [Nat.add_sub_cancel, ← map_take, ← forall₂_eq_eq_eq, forall₂_map_left_iff,
      forall₂_map_right_iff] at released
    exact released
  have length : sess.published.length = sess.last := by
    rw [start.length_eq, length_take]
    omega
  refine ⟨start, ?_, ?_⟩
  · have numbers : sess.published.map ExecProcessEvent.seq =
        (log.events.take sess.last).map ExecProcessEvent.seq := by
      rw [← forall₂_eq_eq_eq, forall₂_map_left_iff, forall₂_map_right_iff]
      exact start.imp fun _ _ eq => eq.seq
    rw [numbers]
    refine ext_getElem (by simp [bound]) fun idx ins ins' => ?_
    have short : idx < log.events.length := by
      simp only [length_map, length_range'] at ins'
      omega
    simp [log.numbered idx _ (getElem?_eq_getElem short), Nat.add_comm]
  intro front seq back split
  have ins : front.length < sess.published.length := by simp [split]
  have ins' : front.length < (log.events.take sess.last).length := start.length_eq ▸ ins
  have eq := start.get ins ins'
  have isClosed : (sess.published.get ⟨front.length, ins⟩).isClosed = true := by
    simp [split, ExecProcessEvent.isClosed]
  have short : front.length < log.events.length := by omega
  have isLast := log.closed_last front.length (by
    rw [getElem?_eq_getElem short]
    simpa using eq.isClosed.symm.trans isClosed)
  have total : sess.published.length = front.length + (back.length + 1) := by simp [split]
  exact length_eq_zero_iff.mp (by omega)

/-- The published events are the start of the log, and a merged response is published completely. -/
theorem reachable_publishesLog (log : ServerLog) (sess : SessionState)
    (reached : Reachable log sess) :
    PublishesLog log sess ∧ (∀ event ∈ log.events, ∀ error next,
        publishOrderedEvent event sess = .error error next → error.IsLimit) ∧
      ∀ after target denied, after ≤ sess.last → target ≤ log.events.length →
        match recoverEvents (log.read after target denied) sess with
        | .ok _ next => target ≤ next.last
        | .error error _ => error.IsLimit := by
  have steady := reached.steady
  refine ⟨steady.following.publishesLog, ?_, ?_⟩
  · intro event mem error next ran
    have res := publishOrderedEvent_steady mem sess steady
    rwa [ran] at res
  intro after target denied start ins
  have res := @recoverEvents_spec log after target denied ins sess ⟨steady, start⟩
  cases ran : recoverEvents (log.read after target denied) sess with
  | ok closed next =>
    rw [ran] at res
    exact res.2
  | error error next =>
    rw [ran] at res
    exact res

def outputAfterExit : ServerLog where
  events :=
    [.output ⟨1, .stdout, [104, 105]⟩, .exited 2 0 (some false), .output ⟨3, .stderr, [33]⟩,
      .closed 4]
  numbered index event found := by
    match index with
    | 0 | 1 | 2 | 3 =>
      obtain rfl := Option.some.inj found
      rfl
    | index + 4 => cases found
  exit_unique index index' exited exited' := by
    match index, index' with
    | 1, 1 => rfl
    | 0, _ | 2, _ | 3, _ | _ + 4, _ => cases exited
    | _, 0 | _, 2 | _, 3 | _, _ + 4 => cases exited'
  closed_last index closed := by
    match index with
    | 3 => rfl
    | 0 | 1 | 2 | _ + 4 => cases closed
  length_le := by decide

def earlyClose : SessionState := finalState (publishOrderedEvent (.closed 4) {})

def afterRead : SessionState :=
  finalState (recoverEvents (outputAfterExit.read 0 3 false) earlyClose)

theorem reachable_publishesLog_afterRead :
    afterRead.last = 4 ∧ PublishesLog outputAfterExit afterRead := by
  have early : Reachable outputAfterExit earlyClose :=
    .notify .start (by decide) (rfl : publishOrderedEvent (.closed 4) {} = .ok false earlyClose)
  have reached : Reachable outputAfterExit afterRead :=
    .recover early (Nat.zero_le _) (by decide)
      (rfl : recoverEvents (outputAfterExit.read 0 3 false) earlyClose = .ok true afterRead)
  exact ⟨rfl, (reachable_publishesLog outputAfterExit afterRead reached).1⟩

end Codex.ExecServer
