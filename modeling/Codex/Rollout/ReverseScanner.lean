import Codex.Foundation.Journal
import Codex.Rollout.Writer

/-!
# Scanning a rollout from its end

A file is read backwards in chunks and put together to lines.
-/

namespace Codex.Rollout

abbrev Bytes := List UInt8

def readChunkSize : Nat := 64 * 1024

structure ReverseJsonlScanner where
  nextChunkEnd : Nat
  chunk : Bytes := []
  recordReversed : Bytes := []
  discardingOversizedRecord : Bool := false

def isAsciiWhitespace (byte : UInt8) : Bool :=
  byte = 32 || byte = 9 || byte = 10 || byte = 12 || byte = 13

def splitLast : Bytes → Option (Bytes × Bytes)
  | [] => none
  | byte :: rest =>
    match splitLast rest with
    | some (front, fragment) => some (byte :: front, fragment)
    | none => if byte = newline then some ([], rest) else none

open Journal List Option

theorem splitLast_eq_none {chunk : Bytes} (none : splitLast chunk = none) : newline ∉ chunk := by
  induction chunk with
  | nil => exact not_mem_nil
  | cons byte tl ih =>
    rw [splitLast] at none
    cases later : splitLast tl with
    | some split => simp [later] at none
    | none =>
      simp only [later, ite_eq_right_iff, reduceCtorEq, imp_false] at none
      exact not_mem_cons_of_ne_of_not_mem (Ne.symm none) (ih later)

theorem splitLast_eq_some {chunk front fragment : Bytes}
    (hit : splitLast chunk = some (front, fragment)) :
    chunk = front ++ newline :: fragment ∧ newline ∉ fragment := by
  induction chunk generalizing front with
  | nil => cases hit
  | cons byte tl ih =>
    rw [splitLast] at hit
    cases later : splitLast tl with
    | some split =>
      rw [later] at hit
      obtain ⟨rfl, rfl⟩ := Prod.mk.inj (Option.some.inj hit)
      obtain ⟨rfl, unbroken⟩ := ih later
      exact ⟨rfl, unbroken⟩
    | none =>
      simp only [later, ite_none_right_eq_some, Option.some.injEq, Prod.mk.injEq] at hit
      obtain ⟨rfl, rfl, rfl⟩ := hit
      exact ⟨rfl, splitLast_eq_none later⟩

namespace ReverseJsonlScanner

variable (content : Bytes) (maxRecordBytes : Option Nat) (scan : ReverseJsonlScanner)

def newAt (endByteOffset : Nat) : Except String ReverseJsonlScanner :=
  if endByteOffset > content.length then .error "reverse JSONL scan end is past the file"
  else .ok { nextChunkEnd := endByteOffset }

def extend (front fragment : Bytes) : ReverseJsonlScanner :=
  if scan.discardingOversizedRecord then { scan with chunk := front }
  else if maxRecordBytes.any (· < scan.recordReversed.length + fragment.length) then
    { scan with chunk := front, recordReversed := [], discardingOversizedRecord := true }
  else
    { scan with
      chunk := front
      recordReversed := scan.recordReversed ++ fragment.reverse }

def finishRecord : ReverseJsonlScanner × Option Bytes :=
  ({ scan with recordReversed := [] },
    if scan.recordReversed.reverse.all isAsciiWhitespace then none
    else some scan.recordReversed.reverse)

def refill : ReverseJsonlScanner :=
  if scan.chunk = [] then
    let readSize := min scan.nextChunkEnd readChunkSize
    let start := scan.nextChunkEnd - readSize
    { scan with nextChunkEnd := start, chunk := (content.drop start).take readSize }
  else scan

def close : ReverseJsonlScanner × Option Bytes :=
  if scan.discardingOversizedRecord then
    ({ scan with discardingOversizedRecord := false }, none)
  else scan.finishRecord

def unread : Nat := scan.nextChunkEnd + scan.chunk.length

@[simp]
theorem nextChunkEnd_extend (front fragment : Bytes) :
    (scan.extend maxRecordBytes front fragment).nextChunkEnd = scan.nextChunkEnd := by
  rw [extend]
  split_ifs <;> rfl

@[simp]
theorem chunk_extend (front fragment : Bytes) :
    (scan.extend maxRecordBytes front fragment).chunk = front := by
  rw [extend]
  split_ifs <;> rfl

@[simp]
theorem nextChunkEnd_close : scan.close.1.nextChunkEnd = scan.nextChunkEnd := by
  rw [close]
  split_ifs <;> rfl

@[simp]
theorem chunk_close : scan.close.1.chunk = scan.chunk := by
  rw [close]
  split_ifs <;> rfl

variable {content maxRecordBytes scan}

theorem refill_progress (more : ¬ (scan.chunk = [] ∧ scan.nextChunkEnd = 0)) :
    (scan.refill content).unread ≤ scan.unread ∧
      (scan.refill content).nextChunkEnd < scan.unread := by
  rw [refill]
  split_ifs with empty
  · have pos : scan.nextChunkEnd ≠ 0 := fun zero => more ⟨empty, zero⟩
    have size : 0 < readChunkSize := by decide
    simp only [unread, empty, length_take, length_drop, length_nil]
    omega
  have := length_pos_of_ne_nil empty
  rw [unread]
  omega

theorem unread_front_lt (more : ¬ (scan.chunk = [] ∧ scan.nextChunkEnd = 0))
    {front fragment : Bytes}
    (hit : splitLast (scan.refill content).chunk = some (front, fragment)) :
    (scan.refill content).nextChunkEnd + front.length < scan.unread := by
  have size := congrArg length (splitLast_eq_some hit).1
  have progress := (@refill_progress content scan more).1
  rw [length_append, length_cons] at size
  rw [unread] at progress
  omega

variable (content maxRecordBytes) in
def scanNext (scan : ReverseJsonlScanner) : ReverseJsonlScanner × Option Bytes :=
  if _more : scan.chunk = [] ∧ scan.nextChunkEnd = 0 then scan.close
  else
    match _found : splitLast (scan.refill content).chunk with
    | some (front, fragment) =>
      let closed := close ((scan.refill content).extend maxRecordBytes front fragment)
      if closed.2.isSome then closed else scanNext closed.1
    | none =>
      scanNext ((scan.refill content).extend maxRecordBytes [] (scan.refill content).chunk)
termination_by scan.unread
decreasing_by
  · simpa [unread] using unread_front_lt _more _found
  · simpa [unread] using (refill_progress _more).2

variable (content maxRecordBytes) in
inductive Scans : ReverseJsonlScanner → List Bytes → ReverseJsonlScanner → Prop
  | done {scan final} (last : scanNext content maxRecordBytes scan = (final, none)) :
      Scans scan [] final
  | record {scan next final record records}
      (fst : scanNext content maxRecordBytes scan = (next, some record))
      (later : Scans next records final) : Scans scan (record :: records) final

variable (maxRecordBytes) in
def isKept (line : Bytes) : Bool :=
  !line.all isAsciiWhitespace && !maxRecordBytes.any (· < line.length)

variable (maxRecordBytes scan) in
structure Holds (line : Bytes) : Prop where
  unbroken : newline ∉ line
  oversized : scan.discardingOversizedRecord = maxRecordBytes.any (· < line.length)
  record : scan.recordReversed =
    if scan.discardingOversizedRecord then [] else line.reverse

variable (content scan) in
def rest : Bytes := content.take scan.nextChunkEnd ++ scan.chunk

theorem rest_refill : (scan.refill content).rest content = scan.rest content := by
  rw [refill]
  split_ifs with empty
  · have sizes : scan.nextChunkEnd - min scan.nextChunkEnd readChunkSize +
      min scan.nextChunkEnd readChunkSize = scan.nextChunkEnd := by omega
    rw [rest, rest, ← take_add, sizes, empty, append_nil]
  · rfl

variable {line fragment front : Bytes}

theorem Holds.extend (holds : scan.Holds maxRecordBytes line) (unbroken : newline ∉ fragment)
    (front : Bytes) :
    (scan.extend maxRecordBytes front fragment).Holds maxRecordBytes (fragment ++ line) := by
  obtain ⟨unbroken', large, record⟩ := holds
  have grown : newline ∉ fragment ++ line := by simp [unbroken, unbroken']
  rw [ReverseJsonlScanner.extend]
  cases discarding : scan.discardingOversizedRecord with
  | true =>
    rw [discarding] at large record
    refine ⟨grown, ?_, by simp [record]⟩
    cases maxRecordBytes with
    | none => cases large
    | some limit =>
      have longer : limit < line.length := of_decide_eq_true large.symm
      simp only [if_true, any_some, length_append]
      exact (decide_eq_true (by omega)).symm
  | false =>
    rw [discarding, if_neg Bool.false_ne_true] at record
    have size : scan.recordReversed.length + fragment.length = (fragment ++ line).length := by
      rw [record, length_reverse, length_append, Nat.add_comm]
    rw [if_neg Bool.false_ne_true, size]
    split_ifs with longer
    · exact ⟨grown, longer.symm, rfl⟩
    · exact ⟨grown, by simpa [discarding] using longer, by simp [record]⟩

theorem Holds.close (holds : scan.Holds maxRecordBytes line) :
    scan.close.2 = Option.guard (isKept maxRecordBytes) line ∧
      scan.close.1.Holds maxRecordBytes [] := by
  obtain ⟨unbroken, large, record⟩ := holds
  have short : maxRecordBytes.any (· < ([] : Bytes).length) = false := by simp
  rw [ReverseJsonlScanner.close, Option.guard, isKept, ← large]
  cases discarding : scan.discardingOversizedRecord with
  | true => exact ⟨by simp, not_mem_nil, short.symm, by simp [record, discarding]⟩
  | false =>
    rw [discarding, if_neg Bool.false_ne_true] at record
    refine ⟨?_, not_mem_nil, ?_, ?_⟩
    · by_cases blank : line.all isAsciiWhitespace <;> simp [finishRecord, record, blank]
    all_goals simp [finishRecord, discarding]

variable (content maxRecordBytes) in
def pending (scan : ReverseJsonlScanner) (line : Bytes) : List Bytes :=
  Journal.records newline (Option.guard (isKept maxRecordBytes)) (scan.rest content ++ line)

theorem pending_refill : pending content maxRecordBytes (scan.refill content) line =
    pending content maxRecordBytes scan line := by
  rw [pending, pending, rest_refill]

theorem pending_newline (holds : scan.Holds maxRecordBytes line)
    (hit : splitLast scan.chunk = some (front, fragment)) :
    pending content maxRecordBytes scan line =
      pending content maxRecordBytes { scan with chunk := front } [] ++
        (Option.guard (isKept maxRecordBytes) (fragment ++ line)).toList := by
  obtain ⟨split, unbroken⟩ := splitLast_eq_some hit
  have piece : newline ∉ fragment ++ line := by simp [unbroken, holds.unbroken]
  rw [pending, pending, ← records_piece piece, ← records_append_separator]
  simp [rest, split]

variable (content maxRecordBytes scan line) in
structure Takes (res : ReverseJsonlScanner × Option Bytes) (line' : Bytes) : Prop where
  holds : res.1.Holds maxRecordBytes line'
  pending_eq : pending content maxRecordBytes scan line =
    pending content maxRecordBytes res.1 line' ++ res.2.toList
  finished : res.2 = none → res.1.chunk = [] ∧ res.1.nextChunkEnd = 0 ∧ line' = []

section

variable (holds : scan.Holds maxRecordBytes line)
include holds

theorem takes_close (done : scan.chunk = [] ∧ scan.nextChunkEnd = 0) :
    Takes content maxRecordBytes scan line scan.close [] := by
  obtain ⟨record, holds'⟩ := holds.close
  refine ⟨holds', ?_, fun _ => by simp [done]⟩
  rw [record, pending, pending, rest, rest, nextChunkEnd_close, chunk_close, done.1, done.2]
  simp [records_piece holds.unbroken, records_nil, isKept]

theorem exists_takes : ∃ line', Takes content maxRecordBytes scan line
      (scanNext content maxRecordBytes scan) line' := by
  induction size : scan.unread using Nat.strongRecOn generalizing scan line with
  | ind size ih =>
  subst size
  rw [scanNext]
  split_ifs with more
  · exact ⟨[], takes_close holds more⟩
  have refilled : (scan.refill content).Holds maxRecordBytes line := by
    rw [refill]
    split_ifs
    · exact ⟨holds.unbroken, holds.oversized, holds.record⟩
    · exact holds
  split
  · rename_i front fragment hit
    obtain ⟨record, closed⟩ := (refilled.extend (splitLast_eq_some hit).2 front).close
    have pre : pending content maxRecordBytes scan line = _ :=
      pending_refill.symm.trans (pending_newline refilled hit)
    rw [← record] at pre
    dsimp only
    split_ifs with returned
    · refine ⟨[], closed, pre.trans ?_, fun nothing => absurd returned (by rw [nothing]; nofun)⟩
      simp [pending, rest]
    obtain ⟨line', takes⟩ := ih _ (by simpa [unread] using unread_front_lt more hit) closed rfl
    refine ⟨line', takes.holds, ?_, takes.finished⟩
    rw [← takes.pending_eq, pre, not_isSome_iff_eq_none.mp returned]
    simp [pending, rest]
  rename_i hit
  have unbroken := splitLast_eq_none hit
  obtain ⟨line', takes⟩ := ih _ (by simpa [unread] using (refill_progress more).2)
    (refilled.extend unbroken []) rfl
  refine ⟨line', takes.holds, ?_, takes.finished⟩
  rw [← takes.pending_eq, ← pending_refill]
  simp [pending, rest]

theorem exists_scans : ∃ final, Scans content maxRecordBytes scan
        (pending content maxRecordBytes scan line).reverse final ∧
      scanNext content maxRecordBytes final = (final, none) := by
  induction size : (pending content maxRecordBytes scan line).length using Nat.strongRecOn
    generalizing scan line with
  | ind size ih =>
  subst size
  obtain ⟨line', takes⟩ := @exists_takes content _ _ _ holds
  rcases res : scanNext content maxRecordBytes scan with ⟨next, record⟩
  rw [res] at takes
  obtain ⟨holds', left, finished⟩ := takes
  dsimp only at holds' left finished
  cases record with
  | none =>
    obtain ⟨used, zero, rfl⟩ := finished rfl
    have none : pending content maxRecordBytes next [] = [] := by
      simp [pending, rest, used, zero, records_nil, isKept]
    rw [left, none]
    refine ⟨next, .done res, ?_⟩
    obtain ⟨_, large, record⟩ := holds'
    cases next with | mk _ _ noted discarding =>
    obtain rfl : discarding = false := by simpa using large
    obtain rfl : noted = [] := record
    rw [scanNext, dif_pos ⟨used, zero⟩]
    rfl
  | some record =>
    rw [left] at ih ⊢
    obtain ⟨final, scans, stays⟩ := ih _ (by simp) holds' rfl
    refine ⟨final, ?_, stays⟩
    simpa using Scans.record res scans

end

end ReverseJsonlScanner

open ReverseJsonlScanner

/-- The scanner returns the lines before the offset, last first, and then nothing. -/
theorem scanNext_lines (content : Bytes) (maxRecordBytes : Option Nat) {endByteOffset : Nat}
    (inside : endByteOffset ≤ content.length) :
    ∃ scan final, newAt content endByteOffset = .ok scan ∧ Scans content maxRecordBytes scan
        (((content.take endByteOffset).splitOn newline).reverse.filter
          (isKept maxRecordBytes)) final ∧
      scanNext content maxRecordBytes final = (final, none) := by
  have start : Holds maxRecordBytes { nextChunkEnd := endByteOffset } [] :=
    ⟨not_mem_nil, by simp, by simp⟩
  obtain ⟨final, scans, stays⟩ := @exists_scans content _ _ _ start
  refine ⟨_, final, if_neg (Nat.not_lt.mpr inside), ?_, stays⟩
  simpa [pending, rest, records, filterMap_eq_filter, filter_reverse] using scans

theorem scanNext_lines_limit :
    ∃ scan final, newAt [97, 10, 32, 10, 98, 99, 10, 97, 98] 8 = .ok scan ∧
      Scans [97, 10, 32, 10, 98, 99, 10, 97, 98] (some 1) scan [[97], [97]] final ∧
      scanNext [97, 10, 32, 10, 98, 99, 10, 97, 98] (some 1) final = (final, none) :=
  scanNext_lines [97, 10, 32, 10, 98, 99, 10, 97, 98] (some 1) (by decide)

end Codex.Rollout
