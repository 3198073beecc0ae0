import Mathlib.Data.List.Basic
import Mathlib.Tactic

/-!
# SqlBatch

Statements that are collected in one text.  The text is executed when it is longer than `max`, and
begun anew; what is left in the end is executed if it is longer than an empty text can be.

Every statement is executed, once and in order (`flatten_chunks`).
-/

namespace SqlBatch

variable {S : Type}

/-- What stands around the statements of a text, and the length up to which there is none. -/
structure Frame where
  opening : List UInt8
  closing : List UInt8
  least : ℕ
  length_le : (opening ++ closing).length ≤ least

/-- The text of statements that are executed together. -/
def Frame.text (f : Frame) (sql : S → List UInt8) (stmts : List S) : List UInt8 :=
  f.opening ++ stmts.flatMap sql ++ f.closing

/-- The statements that are executed together, behind those that the text has. -/
def chunks (f : Frame) (sql : S → List UInt8) (max : ℕ) : (cur : List S) → List S → List (List S)
  | cur, [] => if f.least < (f.text sql cur).length then [cur] else []
  | cur, s :: stmts =>
      if max < (f.opening ++ (cur ++ [s]).flatMap sql).length then (cur ++ [s]) :: chunks f sql max [] stmts
      else chunks f sql max (cur ++ [s]) stmts

theorem least_lt_length_text {f : Frame} {sql : S → List UInt8} (hsql : ∀ s, f.least < (sql s).length) (s : S)
    (stmts : List S) : f.least < (f.text sql (s :: stmts)).length := by
  have := hsql s
  rw [Frame.text, List.flatMap_cons]
  simp only [List.length_append]
  omega

theorem length_text_nil (f : Frame) (sql : S → List UInt8) : (f.text sql []).length ≤ f.least := by
  rw [Frame.text, List.flatMap_nil, List.append_nil]
  exact f.length_le

/-- **Every statement is executed**, once and in order. -/
theorem flatten_chunks {f : Frame} {sql : S → List UInt8} (hsql : ∀ s, f.least < (sql s).length) (max : ℕ)
    (cur stmts : List S) : (chunks f sql max cur stmts).flatten = cur ++ stmts := by
  induction stmts generalizing cur with
  | nil =>
      rw [chunks, List.append_nil]
      cases cur with
      | nil => rw [if_neg (Nat.not_lt.mpr (length_text_nil f sql)), List.flatten_nil]
      | cons s cur => rw [if_pos (least_lt_length_text hsql s cur), List.flatten_singleton]
  | cons s stmts ih =>
      rw [chunks]
      split
      · rw [List.flatten_cons, ih, List.nil_append, ← List.append_cons]
      · rw [ih, ← List.append_cons]

end SqlBatch
