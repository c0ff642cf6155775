/-
Sliding windows. A queue of times that forgets what has left the window of a
given length knows, at any later moment, the same recent times as the full log;
so a bound on the queue is a bound on every window of the log.
-/
import Mathlib.Data.List.Basic
import Mathlib.Data.List.Count
import Mathlib.Order.Basic
import Mathlib.Order.Nat

namespace Parins.Lib
open List

variable {window bound now after t : Nat} {queue times : List Nat}

def AtMostIn (window bound : Nat) (times : List Nat) : Prop :=
  ∀ start, times.countP (fun t => decide (start ≤ t ∧ t < start + window)) ≤ bound

def recent (window now : Nat) (times : List Nat) : List Nat := times.filter fun t => decide (now < t + window)

theorem recent_recent (h : now ≤ after) (times) :
    recent window after (recent window now times) = recent window after times := by
  unfold recent
  rw [filter_filter]
  refine filter_congr fun t _ => ?_
  rw [← Bool.decide_and, decide_eq_decide]
  omega

theorem length_recent_le (h : now ≤ after) (times) :
    (recent window after times).length ≤ (recent window now times).length := by
  rw [← recent_recent h]
  exact length_filter_le _ _

theorem length_recent_snoc (hwindow : 0 < window) (times) :
    (recent window now (times ++ [now])).length = (recent window now times).length + 1 := by
  simp [recent, hwindow]

theorem recent_append (now a b) : recent window now (a ++ b) = recent window now a ++ recent window now b :=
  filter_append ..

theorem AtMostIn.snoc (h : AtMostIn window bound times) (hroom : (recent window now times).length < bound) :
    AtMostIn window bound (times ++ [now]) := by
  intro start
  have hbefore := h start
  rw [countP_append, countP_singleton]
  split
  · next hin =>
    simp only [decide_eq_true_eq] at hin
    -- whatever shares a window with `now` is recent at `now`
    have hle : times.countP (fun t => decide (start ≤ t ∧ t < start + window)) ≤ (recent window now times).length := by
      rw [recent, ← countP_eq_length_filter]
      refine countP_mono_left fun t _ ht => ?_
      simp only [decide_eq_true_eq] at ht ⊢
      omega
    omega
  · exact hbefore

/-- `pop_front` while the oldest has left the window. -/
def expire (window now : Nat) (queue : List Nat) : List Nat := queue.dropWhile fun t => decide (window ≤ now - t)

theorem expire_eq_recent (hwindow : 0 < window) (hsorted : queue.Pairwise (· ≤ ·)) :
    expire window now queue = recent window now queue := by
  induction queue with
  | nil => rfl
  | cons t queue ih =>
    obtain ⟨hhead, htail⟩ := pairwise_cons.mp hsorted
    by_cases hold : window ≤ now - t
    · rw [expire, dropWhile_cons_of_pos (by simpa using hold), recent,
        filter_cons_of_neg (by simp; omega)]
      exact ih htail
    · have hall : ∀ x ∈ t :: queue, decide (now < x + window) = true := by
        intro x hx
        have : t ≤ x := by
          rcases mem_cons.mp hx with rfl | hx
          · exact le_rfl
          · exact hhead x hx
        simp only [decide_eq_true_eq]
        omega
      rw [expire, dropWhile_cons_of_neg (by simpa using hold), recent, filter_eq_self.mpr hall]

/-- The queue is a faithful memory of the log from `now` on. -/
structure Tracks (window now : Nat) (queue times : List Nat) : Prop where
  sorted : queue.Pairwise (· ≤ ·)
  past : ∀ t ∈ queue, t ≤ now
  agrees : recent window now queue = recent window now times

theorem Tracks.nil (window now) : Tracks window now [] [] := ⟨.nil, nofun, rfl⟩

section
variable (h : Tracks window now queue times)
include h

theorem Tracks.later (hle : now ≤ after) : Tracks window after queue times := by
  refine ⟨h.sorted, fun t ht => (h.past t ht).trans hle, ?_⟩
  rw [← recent_recent hle, h.agrees, recent_recent hle]

theorem Tracks.expire_eq (hwindow : 0 < window) :
    expire window now queue = recent window now times := by
  rw [expire_eq_recent hwindow h.sorted, h.agrees]

theorem Tracks.expire (hwindow : 0 < window) :
    Tracks window now (expire window now queue) times := by
  have hsublist : (Lib.expire window now queue).Sublist queue := dropWhile_sublist _
  refine ⟨h.sorted.sublist hsublist, fun t ht => h.past t (hsublist.subset ht), ?_⟩
  rw [expire_eq_recent hwindow h.sorted, recent_recent le_rfl, h.agrees]

theorem Tracks.push : Tracks window now (queue ++ [now]) (times ++ [now]) := by
  refine ⟨pairwise_append.mpr ⟨h.sorted, pairwise_singleton _ _, fun t ht u hu => ?_⟩, fun t ht => ?_, ?_⟩
  · rw [mem_singleton.mp hu]
    exact h.past t ht
  · rcases mem_append.mp ht with ht | ht
    · exact h.past t ht
    · exact (mem_singleton.mp ht).le
  · rw [recent_append, recent_append, h.agrees]

end

end Parins.Lib
