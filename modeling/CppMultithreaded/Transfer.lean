/-
**Moving a block in pieces whose size the environment chooses.**

A block of a given size is moved by asking again and again for what is left of it.  Each answer is a
number of units that have been moved, or an error; some errors only say that the caller has to ask
again.  The block has been moved, or an answer has ended the transfer: none at all was moved, or an
error that is not for a retry.

Nothing in this module refers to a particular program.

Main definitions:

* `Transfer.Answer`, `Transfer.Ending` — one answer, and how a transfer ends;
* `Transfer.transfer` — the transfer of a block under a script of answers;
* `Transfer.Progress`, `Transfer.total` — answers that end no transfer, and what they move;
* `Transfer.Full`, `Transfer.FirstZero`, `Transfer.FirstFailure` — what comes first in a script;
* `Transfer.Possible` — the script moves no more than has been asked for, and than there is;
* `Transfer.Splits` — the script moves several blocks, one after the other.

Main results:

* `Transfer.transfer_append` — answers that end no transfer shift it by what they move;
* `Transfer.eq_full_iff`, `Transfer.eq_zero_iff`, `Transfer.eq_failed_iff` — **how a transfer ends is
  what comes first in the script**;
* `Transfer.moved_full`, `Transfer.moved_lt` — what has been moved when it ends;
* `Transfer.splits_cons_iff` — the blocks of a sequence are moved by one transfer after the other;
* `Transfer.isSome_of_possible` — **a transfer ends** once there are as many answers as units, retries
  apart.
-/

import Mathlib.Data.List.Basic
import Mathlib.Tactic.Common

set_option relaxedAutoImplicit false
set_option autoImplicit false

namespace Transfer

variable {ε : Type*}

/-- An answer of the environment: so many units have been moved, or an error. -/
inductive Answer (ε : Type*)
  | moved (n : ℕ)
  | failed (e : ε)

/-- How a transfer ends. -/
inductive Ending (ε : Type*)
  | full
  | zero
  | failed (e : ε)

/-- The transfer of `size` units under a script of answers: how it ends, what has been moved, and the
answers that are left.  There is no result where the script comes to its end first, or where an
answer claims more than has been asked for. -/
def transfer (retry : ε → Prop) [DecidablePred retry] (size : ℕ) :
    List (Answer ε) → Option (Ending ε × ℕ × List (Answer ε))
  | [] => if 0 < size then none else some (.full, 0, [])
  | answer :: script =>
      if 0 < size then
        match answer with
        | .failed e => if retry e then transfer retry size script else some (.failed e, 0, script)
        | .moved n =>
            if size < n then none
            else if n = 0 then some (.zero, 0, script)
            else (transfer retry (size - n) script).map fun r => (r.1, n + r.2.1, r.2.2)
      else some (.full, 0, answer :: script)

/-- An answer that ends no transfer. -/
def Answer.Goes (retry : ε → Prop) : Answer ε → Prop
  | .moved n => 0 < n
  | .failed e => retry e

theorem Answer.goes_failed {retry : ε → Prop} {e : ε} : (Answer.failed e).Goes retry ↔ retry e := Iff.rfl

/-- What an answer moves. -/
def Answer.size : Answer ε → ℕ
  | .moved n => n
  | .failed _ => 0

/-- Answers that end no transfer. -/
def Progress (retry : ε → Prop) (script : List (Answer ε)) : Prop := ∀ a ∈ script, a.Goes retry

/-- What the answers move together. -/
def total : List (Answer ε) → ℕ
  | [] => 0
  | a :: script => a.size + total script

@[simp] theorem total_nil : total ([] : List (Answer ε)) = 0 := rfl

@[simp] theorem total_cons (a : Answer ε) (script : List (Answer ε)) :
    total (a :: script) = a.size + total script := rfl

theorem total_append (pre post : List (Answer ε)) :
    total (pre ++ post) = total pre + total post := by
  induction pre with
  | nil => rw [List.nil_append, total_nil, Nat.zero_add]
  | cons a pre ih => rw [List.cons_append, total_cons, total_cons, ih, Nat.add_assoc]

/-- The whole block is moved before any answer ends the transfer. -/
def Full (retry : ε → Prop) (size : ℕ) (script : List (Answer ε)) : Prop :=
  ∃ pre post, script = pre ++ post ∧ Progress retry pre ∧ total pre = size

/-- An answer that nothing was moved comes before the whole block and before any error. -/
def FirstZero (retry : ε → Prop) (size : ℕ) (script : List (Answer ε)) : Prop :=
  ∃ pre post, script = pre ++ .moved 0 :: post ∧ Progress retry pre ∧ total pre < size

/-- The error comes before the whole block and before any other answer that ends the transfer. -/
def FirstFailure (retry : ε → Prop) (size : ℕ) (e : ε) (script : List (Answer ε)) : Prop :=
  ∃ pre post, script = pre ++ .failed e :: post ∧ ¬retry e ∧ Progress retry pre ∧ total pre < size

/-- The answers move blocks of these sizes, one after the other, each in pieces of its own. -/
def Splits (retry : ε → Prop) : List ℕ → List (Answer ε) → Prop
  | [], _ => True
  | size :: sizes, script =>
      ∃ pre post, script = pre ++ post ∧ Progress retry pre ∧ total pre = size ∧
        Splits retry sizes post

variable {retry : ε → Prop} {size : ℕ}

theorem Progress.cons {a : Answer ε} {pre : List (Answer ε)} (ha : a.Goes retry)
    (h : Progress retry pre) : Progress retry (a :: pre) := List.forall_mem_cons.2 ⟨ha, h⟩

theorem Progress.of_cons {a : Answer ε} {pre : List (Answer ε)} (h : Progress retry (a :: pre)) :
    a.Goes retry ∧ Progress retry pre := List.forall_mem_cons.1 h

/-- What has been answered when a transfer ends as given, having moved so much. -/
def Ended (retry : ε → Prop) (size : ℕ) (script : List (Answer ε)) (moved : ℕ)
    (rest : List (Answer ε)) : Ending ε → Prop
  | .full => ∃ pre, script = pre ++ rest ∧ Progress retry pre ∧ total pre = moved ∧ moved = size
  | .zero =>
      ∃ pre, script = pre ++ .moved 0 :: rest ∧ Progress retry pre ∧ total pre = moved ∧ moved < size
  | .failed e =>
      ∃ pre, script = pre ++ .failed e :: rest ∧ ¬retry e ∧ Progress retry pre ∧ total pre = moved ∧
        moved < size

/-- One more answer at the head of the script. -/
theorem Ended.cons {a : Answer ε} {script rest : List (Answer ε)} {moved : ℕ} {ending : Ending ε}
    (ha : a.Goes retry) (hle : a.size ≤ size)
    (h : Ended retry (size - a.size) script moved rest ending) :
    Ended retry size (a :: script) (a.size + moved) rest ending := by
  cases ending with
  | full =>
      obtain ⟨pre, rfl, hp, rfl, hsize⟩ := h
      exact ⟨a :: pre, rfl, hp.cons ha, rfl, by omega⟩
  | zero =>
      obtain ⟨pre, rfl, hp, rfl, hsize⟩ := h
      exact ⟨a :: pre, rfl, hp.cons ha, rfl, by omega⟩
  | failed e =>
      obtain ⟨pre, rfl, he, hp, rfl, hsize⟩ := h
      exact ⟨a :: pre, rfl, he, hp.cons ha, rfl, by omega⟩

/-- No answer moves more than has been asked for, and than there is. -/
def Possible (retry : ε → Prop) (size available : ℕ) (script : List (Answer ε)) : Prop :=
  ∀ pre n post, script = pre ++ .moved n :: post → Progress retry pre → total pre < size →
    total pre + n ≤ size ∧ total pre + n ≤ available

theorem Possible.tail {a : Answer ε} {available : ℕ} {script : List (Answer ε)}
    (h : Possible retry size available (a :: script)) (ha : a.Goes retry) (hlt : a.size < size) :
    Possible retry (size - a.size) (available - a.size) script := by
  intro pre n post hscript hp htotal
  obtain ⟨hsize, havailable⟩ := h (a :: pre) n post (by rw [hscript]; rfl) (hp.cons ha)
    (by rw [total_cons]; omega)
  rw [total_cons] at hsize havailable
  omega

variable [DecidablePred retry]

/-! ### One answer -/

theorem transfer_zero (script : List (Answer ε)) :
    transfer retry 0 script = some (.full, 0, script) := by
  cases script <;> rfl

theorem transfer_nil (h : 0 < size) : transfer retry size [] = none := if_pos h

theorem transfer_retry {e : ε} {script : List (Answer ε)} (h : 0 < size) (he : retry e) :
    transfer retry size (.failed e :: script) = transfer retry size script := by
  rw [transfer, if_pos h]
  exact if_pos he

theorem transfer_failed {e : ε} {script : List (Answer ε)} (h : 0 < size) (he : ¬retry e) :
    transfer retry size (.failed e :: script) = some (.failed e, 0, script) := by
  rw [transfer, if_pos h]
  exact if_neg he

theorem transfer_moved_zero {script : List (Answer ε)} (h : 0 < size) :
    transfer retry size (.moved 0 :: script) = some (.zero, 0, script) := by
  rw [transfer, if_pos h]
  rfl

theorem transfer_beyond {n : ℕ} {script : List (Answer ε)} (h : 0 < size) (hn : size < n) :
    transfer retry size (.moved n :: script) = none := by
  rw [transfer, if_pos h]
  exact if_pos hn

theorem transfer_moved {n : ℕ} {script : List (Answer ε)} (hn : 0 < n) (hle : n ≤ size) :
    transfer retry size (.moved n :: script) =
      (transfer retry (size - n) script).map fun r => (r.1, n + r.2.1, r.2.2) := by
  rw [transfer, if_pos (by omega)]
  rw [if_neg (by omega), if_neg (by omega)]

/-! ### How a transfer ends -/

/-- Answers that end no transfer shift it by what they move. -/
theorem transfer_append {pre : List (Answer ε)} (post : List (Answer ε)) (hp : Progress retry pre)
    (hle : total pre < size) :
    transfer retry size (pre ++ post) =
      (transfer retry (size - total pre) post).map fun r => (r.1, total pre + r.2.1, r.2.2) := by
  induction pre generalizing size with
  | nil =>
      rw [total_nil, Nat.sub_zero, List.nil_append]
      cases transfer retry size post with
      | none => rfl
      | some r => simp
  | cons a pre ih =>
      obtain ⟨ha, hpre⟩ := hp.of_cons
      cases a with
      | moved n =>
          rw [total_cons, Answer.size] at hle
          rw [List.cons_append, transfer_moved ha (by omega), ih hpre (by omega), total_cons,
            Answer.size, Option.map_map, Nat.sub_sub]
          congr 1
          funext r
          simp only [Function.comp, Nat.add_assoc]
      | failed e =>
          rw [total_cons, Answer.size, Nat.zero_add] at hle
          rw [List.cons_append, transfer_retry (by omega) (Answer.goes_failed.1 ha), ih hpre hle,
            total_cons, Answer.size, Nat.zero_add]

/-- A script that moves the whole block first.  What it leaves of these answers is for a retry. -/
theorem transfer_of_total {pre : List (Answer ε)} (post : List (Answer ε)) (hp : Progress retry pre)
    (htotal : total pre = size) :
    ∃ again, transfer retry size (pre ++ post) = some (.full, size, again ++ post) ∧
      Progress retry again ∧ total again = 0 := by
  induction pre generalizing size with
  | nil =>
      rw [total_nil] at htotal
      subst htotal
      exact ⟨[], transfer_zero post, by simp [Progress], rfl⟩
  | cons a pre ih =>
      obtain ⟨ha, hpre⟩ := hp.of_cons
      rcases Nat.eq_zero_or_pos size with rfl | hpos
      · exact ⟨a :: pre, transfer_zero _, hp, htotal⟩
      · cases a with
        | moved n =>
            rw [total_cons, Answer.size] at htotal
            obtain ⟨again, hrest, hagain⟩ := ih hpre (show total pre = size - n by omega)
            refine ⟨again, ?_, hagain⟩
            rw [List.cons_append, transfer_moved ha (by omega), hrest, Option.map_some,
              Nat.add_sub_cancel' (by omega)]
        | failed e =>
            rw [total_cons, Answer.size, Nat.zero_add] at htotal
            obtain ⟨again, hrest, hagain⟩ := ih hpre htotal
            refine ⟨again, ?_, hagain⟩
            rw [List.cons_append, transfer_retry hpos (Answer.goes_failed.1 ha), hrest]

theorem transfer_of_full {script : List (Answer ε)} (h : Full retry size script) :
    ∃ rest, transfer retry size script = some (.full, size, rest) := by
  obtain ⟨pre, post, rfl, hp, htotal⟩ := h
  obtain ⟨again, hrest, -⟩ := transfer_of_total post hp htotal
  exact ⟨again ++ post, hrest⟩

theorem transfer_of_firstZero {script : List (Answer ε)} (h : FirstZero retry size script) :
    ∃ moved rest, transfer retry size script = some (.zero, moved, rest) := by
  obtain ⟨pre, post, rfl, hp, htotal⟩ := h
  refine ⟨total pre, post, ?_⟩
  rw [transfer_append _ hp htotal, transfer_moved_zero (by omega)]
  rfl

theorem transfer_of_firstFailure {e : ε} {script : List (Answer ε)}
    (h : FirstFailure retry size e script) :
    ∃ moved rest, transfer retry size script = some (.failed e, moved, rest) := by
  obtain ⟨pre, post, rfl, he, hp, htotal⟩ := h
  refine ⟨total pre, post, ?_⟩
  rw [transfer_append _ hp htotal, transfer_failed (by omega) he]
  rfl

/-- **The answers say how a transfer ends.** -/
theorem ended_of_transfer {script rest : List (Answer ε)} {ending : Ending ε} {moved : ℕ}
    (h : transfer retry size script = some (ending, moved, rest)) :
    Ended retry size script moved rest ending := by
  induction script generalizing size moved with
  | nil =>
      rcases Nat.eq_zero_or_pos size with rfl | hpos
      · rw [transfer_zero] at h
        cases h
        exact ⟨[], rfl, by simp [Progress], rfl, rfl⟩
      · rw [transfer_nil hpos] at h
        cases h
  | cons a script ih =>
      rcases Nat.eq_zero_or_pos size with rfl | hpos
      · rw [transfer_zero] at h
        cases h
        exact ⟨[], rfl, by simp [Progress], rfl, rfl⟩
      · cases a with
        | failed e =>
            by_cases he : retry e
            · rw [transfer_retry hpos he] at h
              have hcons := Ended.cons (a := .failed e) he (Nat.zero_le size) (ih h)
              rwa [Answer.size, Nat.zero_add] at hcons
            · rw [transfer_failed hpos he] at h
              cases h
              exact ⟨[], rfl, he, by simp [Progress], rfl, hpos⟩
        | moved n =>
            rcases Nat.eq_zero_or_pos n with rfl | hn
            · rw [transfer_moved_zero hpos] at h
              cases h
              exact ⟨[], rfl, by simp [Progress], rfl, hpos⟩
            · by_cases hle : n ≤ size
              · rw [transfer_moved hn hle] at h
                obtain ⟨⟨ending', moved', rest'⟩, hrest, heq⟩ := Option.map_eq_some_iff.1 h
                cases heq
                exact Ended.cons (a := .moved n) hn hle (ih hrest)
              · rw [transfer_beyond hpos (by omega)] at h
                cases h

section Iff

variable {script rest : List (Answer ε)} {ending : Ending ε} {moved : ℕ}

/-- **The block has been moved iff its size is reached first.** -/
theorem eq_full_iff (h : transfer retry size script = some (ending, moved, rest)) :
    ending = .full ↔ Full retry size script := by
  constructor
  · rintro rfl
    obtain ⟨pre, hscript, hp, htotal, hsize⟩ := ended_of_transfer h
    exact ⟨pre, rest, hscript, hp, htotal.trans hsize⟩
  · intro hfull
    obtain ⟨rest', heq⟩ := transfer_of_full hfull
    rw [heq] at h
    cases h
    rfl

/-- **Nothing has been moved by the last answer iff such an answer comes first.** -/
theorem eq_zero_iff (h : transfer retry size script = some (ending, moved, rest)) :
    ending = .zero ↔ FirstZero retry size script := by
  constructor
  · rintro rfl
    obtain ⟨pre, hscript, hp, rfl, hsize⟩ := ended_of_transfer h
    exact ⟨pre, rest, hscript, hp, hsize⟩
  · intro hzero
    obtain ⟨moved', rest', heq⟩ := transfer_of_firstZero hzero
    rw [heq] at h
    cases h
    rfl

/-- **A transfer ends with an error iff that error comes first.** -/
theorem eq_failed_iff {e : ε} (h : transfer retry size script = some (ending, moved, rest)) :
    ending = .failed e ↔ FirstFailure retry size e script := by
  constructor
  · rintro rfl
    obtain ⟨pre, hscript, he, hp, rfl, hsize⟩ := ended_of_transfer h
    exact ⟨pre, rest, hscript, he, hp, hsize⟩
  · intro hfailure
    obtain ⟨moved', rest', heq⟩ := transfer_of_firstFailure hfailure
    rw [heq] at h
    cases h
    rfl

theorem moved_full (h : transfer retry size script = some (.full, moved, rest)) : moved = size := by
  obtain ⟨-, -, -, -, hsize⟩ := ended_of_transfer h
  exact hsize

theorem moved_lt (h : transfer retry size script = some (ending, moved, rest)) (hne : ending ≠ .full) :
    moved < size := by
  cases ending with
  | full => exact absurd rfl hne
  | zero =>
      obtain ⟨-, -, -, -, hsize⟩ := ended_of_transfer h
      exact hsize
  | failed e =>
      obtain ⟨-, -, -, -, -, hsize⟩ := ended_of_transfer h
      exact hsize

end Iff

/-! ### Blocks after blocks -/

omit [DecidablePred retry] in
/-- Retries in front of a script do not change what it splits. -/
theorem Splits.again {sizes : List ℕ} {again post : List (Answer ε)} (h : Splits retry sizes post)
    (hp : Progress retry again) (htotal : total again = 0) : Splits retry sizes (again ++ post) := by
  cases sizes with
  | nil => trivial
  | cons size sizes =>
      obtain ⟨pre, rest, rfl, hpre, rfl, hrest⟩ := h
      refine ⟨again ++ pre, rest, (List.append_assoc _ _ _).symm, ?_, ?_, hrest⟩
      · exact fun a ha => (List.mem_append.1 ha).elim (hp a) (hpre a)
      · rw [total_append, htotal, Nat.zero_add]

/-- **A script splits a sequence of blocks** iff it moves the first block and what is left of it splits
the others. -/
theorem splits_cons_iff {sizes : List ℕ} {script : List (Answer ε)} :
    Splits retry (size :: sizes) script ↔
      ∃ rest, transfer retry size script = some (.full, size, rest) ∧ Splits retry sizes rest := by
  constructor
  · rintro ⟨pre, post, rfl, hp, htotal, hrest⟩
    obtain ⟨again, heq, hagain, hzero⟩ := transfer_of_total post hp htotal
    exact ⟨again ++ post, heq, hrest.again hagain hzero⟩
  · rintro ⟨rest, heq, hrest⟩
    obtain ⟨pre, rfl, hp, htotal, -⟩ := ended_of_transfer heq
    exact ⟨pre, rest, rfl, hp, htotal, hrest⟩

/-! ### A transfer ends -/

/-- The answers that are not for a retry. -/
def answered (retry : ε → Prop) [DecidablePred retry] : List (Answer ε) → ℕ
  | [] => 0
  | .failed e :: script => if retry e then answered retry script else answered retry script + 1
  | .moved _ :: script => answered retry script + 1

/-- **A transfer ends, within what there is**, once there are as many answers as units, retries
apart. -/
theorem isSome_of_possible {available : ℕ} {script : List (Answer ε)}
    (h : Possible retry size available script) (hlong : size ≤ answered retry script) :
    ∃ ending moved rest, transfer retry size script = some (ending, moved, rest) ∧
      moved ≤ available := by
  induction script generalizing size available with
  | nil =>
      obtain rfl : size = 0 := Nat.le_zero.1 hlong
      exact ⟨_, _, _, transfer_zero [], Nat.zero_le _⟩
  | cons a script ih =>
      rcases Nat.eq_zero_or_pos size with rfl | hpos
      · exact ⟨_, _, _, transfer_zero _, Nat.zero_le _⟩
      · cases a with
        | failed e =>
            by_cases he : retry e
            · rw [answered, if_pos he] at hlong
              obtain ⟨ending, moved, rest, heq, hle⟩ := ih (h.tail he hpos) hlong
              exact ⟨ending, moved, rest, by rwa [transfer_retry hpos he], hle⟩
            · exact ⟨_, _, _, transfer_failed hpos he, Nat.zero_le _⟩
        | moved n =>
            rcases Nat.eq_zero_or_pos n with rfl | hn
            · exact ⟨_, _, _, transfer_moved_zero hpos, Nat.zero_le _⟩
            · obtain ⟨hle, havailable⟩ := h [] n script rfl (by simp [Progress]) hpos
              rw [total_nil, Nat.zero_add] at hle havailable
              rw [transfer_moved hn hle]
              rcases Nat.eq_or_lt_of_le hle with rfl | hlt
              · rw [Nat.sub_self, transfer_zero]
                exact ⟨_, _, _, rfl, by omega⟩
              · rw [answered] at hlong
                obtain ⟨ending, moved, rest, heq, hmoved⟩ :=
                  ih (h.tail (a := .moved n) hn hlt) (by rw [Answer.size]; omega)
                rw [Answer.size] at heq hmoved
                rw [heq]
                exact ⟨_, _, _, rfl, show n + moved ≤ available by omega⟩

end Transfer
