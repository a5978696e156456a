import Mathlib.Data.List.Basic

/-!
# Append-only files of separated records

Each record of a journal is followed by a separator.
-/

namespace Codex.Journal

open List

variable {α β : Type*} [BEq α] [LawfulBEq α]

def records (separator : α) (parse : List α → Option β) (file : List α) : List β :=
  (file.splitOn separator).filterMap parse

def Terminated (separator : α) (file : List α) : Prop :=
  file = [] ∨ ∃ front, file = front ++ [separator]

variable {separator : α} {parse : List α → Option β}

omit [BEq α] [LawfulBEq α] in
theorem terminated_append (file : List α) : Terminated separator (file ++ [separator]) :=
  .inr ⟨file, rfl⟩

omit [BEq α] [LawfulBEq α] in
theorem terminated_iff {file : List α} :
    Terminated separator file ↔ file.length = 0 ∨ file.getLast? = some separator := by
  rw [Terminated, length_eq_zero_iff, getLast?_eq_some_iff]

theorem records_append_separator (front back : List α) :
    records separator parse (front ++ separator :: back) =
      records separator parse front ++ records separator parse back := by
  have split : (front ++ separator :: back).splitOn separator =
      front.splitOn separator ++ back.splitOn separator :=
    splitOnP_append_cons front back (beq_self_eq_true separator)
  rw [records, split, filterMap_append]
  rfl

theorem records_piece {piece : List α} (unbroken : separator ∉ piece) :
    records separator parse piece = (parse piece).toList := by
  have single : piece.splitOn separator = [piece] := by
    rw [List.splitOn]
    apply splitOnP_eq_singleton
    intro symbol mem
    exact beq_eq_false_iff_ne.mpr fun eq => unbroken (eq ▸ mem)
  rw [records, single, filterMap_cons, filterMap_nil]
  cases parse piece <;> rfl

open Option

section

variable (blank : parse [] = none)
include blank

theorem records_nil : records separator parse [] = [] := by
  rw [records_piece not_mem_nil, blank, toList_none]

theorem records_terminate (file : List α) :
    records separator parse (file ++ [separator]) = records separator parse file := by
  rw [records_append_separator, records_nil blank, append_nil]

theorem records_append {file : List α} (ends : Terminated separator file) (added : List α) :
    records separator parse (file ++ added) =
      records separator parse file ++ records separator parse added := by
  rcases ends with rfl | ⟨front, rfl⟩
  · rw [records_nil blank, nil_append, nil_append]
  · rw [append_assoc, singleton_append, records_append_separator, records_terminate blank]

theorem records_append_line {file line : List α} {val : β} (ends : Terminated separator file)
    (unbroken : separator ∉ line) (parsed : parse line = some val) :
    records separator parse (file ++ (line ++ [separator])) =
      records separator parse file ++ [val] := by
  rw [records_append blank ends, records_terminate blank, records_piece unbroken, parsed,
    toList_some]

theorem records_append_torn {file piece : List α} (ends : Terminated separator file)
    (unbroken : separator ∉ piece) (rejected : parse piece = none) :
    records separator parse (file ++ piece) = records separator parse file := by
  rw [records_append blank ends, records_piece unbroken, rejected, toList_none, append_nil]

end

end Codex.Journal
